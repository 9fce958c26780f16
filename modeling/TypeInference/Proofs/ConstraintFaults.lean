/- The faults of constraints and hints, and the limits of an inference. -/

import TypeInference.Inference.Target
import TypeInference.Proofs.Faults
import TypeInference.Proofs.Nodes
import TypeInference.Proofs.Table

namespace TypeInference

open List TypeSort

/-- Whether the type sort is built for arities of this kind. -/
@[reducible]
def Arity.isMeasured : Arity → Bool
  | .tuple | .function | .typeArguments => true
  | _ => false

/-- Whether a measured arity is blamed, or an unknown definition. -/
@[reducible]
def Fault.isLimited : Fault → Bool
  | .arityOutOfRange arity => arity.isMeasured
  | .unknownDefinition _ => true
  | _ => false

/-- A flag that is off. -/
class IsOff (flag : Bool) : Prop where
  eq : flag = false

instance : IsOff false := ⟨rfl⟩

/-- All faults are accepted but some that are limited. -/
class Tolerates (accepts : Fault → Prop) : Prop where
  of_isOff : ∀ {fault : Fault}, fault.isLimited = false → accepts fault

instance : Tolerates fun _ => True := ⟨fun _ => trivial⟩

section

variable {accepts : Fault → Prop}

variable {sort : TypeSort} {args : List Term}

/-- A tuple that is short enough is one of the sort. -/
theorem TypeSort.failsWith_tuple (fits : args.length ≤ sort.maxTuple) :
    FailsWith accepts (sort.tuple args) := by
  unfold tuple
  rw [if_pos fits]
  infer_instance

theorem TypeSort.failsWith_func (fits : args.length ≤ sort.maxFunc) (defaults result : Term) :
    FailsWith accepts (sort.func defaults args result) := by
  unfold func
  rw [if_pos fits]
  infer_instance

instance [tolerant : Tolerates accepts] {α : Type} (fault : Fault) [off : IsOff fault.isLimited] :
    FailsWith accepts (.error fault : Except Fault α) := .error (tolerant.of_isOff off.eq)

instance [tolerant : Tolerates accepts] {σ α : Type} (holds : σ → Prop) (fault : Fault)
    [off : IsOff fault.isLimited] :
    Respects holds accepts (throw fault : ExceptT Fault (StateM σ) α) :=
  .throw (tolerant.of_isOff off.eq)

/-- Whether the fault is limited or that of a missing key. -/
@[reducible]
def Fault.isGuarded : Fault → Bool
  | .missingKey => true
  | fault => fault.isLimited

/-- Other faults than those that are guarded are accepted. -/
class ToleratesRefusals (accepts : Fault → Prop) : Prop where
  of_isOff : ∀ {fault : Fault}, fault.isGuarded = false → accepts fault

instance [tolerant : Tolerates accepts] : ToleratesRefusals accepts where
  of_isOff {fault} off := by
    cases fault with
    | missingKey => cases off
    | _ => exact tolerant.of_isOff off

instance : ToleratesRefusals (· ≠ .missingKey) where
  of_isOff off := by
    rintro rfl
    cases off

variable [tolerant : ToleratesRefusals accepts]

instance {α : Type} (fault : Fault) [off : IsOff fault.isGuarded] :
    FailsWith accepts (.error fault : Except Fault α) := .error (tolerant.of_isOff off.eq)

instance (meaning : Meaning) : FailsWith accepts meaning.toTerm := by
  unfold Meaning.toTerm
  split <;> infer_instance

instance (left right : Meaning) : FailsWith accepts (left.eq right) := by
  unfold Meaning.eq
  split
  · infer_instance
  · split <;> infer_instance
  · split <;> infer_instance
  · split <;> infer_instance

instance (sort : TypeSort) (name : String) (args : List Term) :
    FailsWith accepts (sort.apply name args) := by
  unfold apply
  split <;> infer_instance

end

/-- What an inference goes by, and what its faults may blame. -/
structure Limits where
  theory : Theory
  sources : Sources
  /-- The names that may come to count as used. -/
  named : String → Prop
  /-- The modules that may be imported. -/
  imported : String → Prop
  /-- The measured arities that may be exceeded. -/
  blamed : Arity → Prop
  /-- The names whose definitions may be unknown. -/
  unknown : String → Prop := fun _ => True
  typeArguments : maxGeneric < theory.survey.maxTypeArgs → blamed .typeArguments

namespace Limits

variable (limits : Limits)

/-- A fault blames only what may be exceeded or unknown. -/
def Accepts : Fault → Prop
  | .arityOutOfRange arity => arity.isMeasured = true → limits.blamed arity
  | .unknownDefinition name => limits.unknown name
  | _ => True

instance : Tolerates limits.Accepts where
  of_isOff {fault} off := by
    unfold Accepts
    split
    · intro measured
      exact nomatch off.symm.trans measured
    · exact nomatch off
    · trivial

/-- Found in one step, which keeps instance search small. -/
instance : ToleratesRefusals limits.Accepts := inferInstance

theorem accepts_of_blamed {arity : Arity} (blamed : limits.blamed arity) :
    limits.Accepts (.arityOutOfRange arity) :=
  fun _ => blamed

/-- The theory that the limits are about. -/
class IsAbout (limits : Limits) (theory : Theory) : Prop where
  eq : theory = limits.theory

end Limits

section Constraints

open Constraint

/-- A fault that is accepted in calls of generic functions. -/
class AcceptsTypeArguments (accepts : Fault → Prop) (theory : Theory) : Prop where
  accepted : maxGeneric < theory.survey.maxTypeArgs →
    accepts (.arityOutOfRange .typeArguments)

instance (limits : Limits) (theory : Theory) [about : limits.IsAbout theory] :
    AcceptsTypeArguments limits.Accepts theory :=
  ⟨fun many => limits.accepts_of_blamed (limits.typeArguments (about.eq ▸ many))⟩

instance (theory : Theory) :
    AcceptsTypeArguments (· ≠ .missingKey) theory := ⟨fun _ is => by cases is⟩

/-- A missing key is accepted if the tables lack one for a class. -/
class FindsClass (accepts : Fault → Prop) (theory : Theory) (className : String) : Prop where
  methods : theory.survey.methods.get? className = none → accepts .missingKey
  initialiser : theory.method? className "__init__" = none → accepts .missingKey
  /-- A method has to be an attribute of the instances. -/
  attrs : ∀ method, (theory.method? className method).isSome →
    theory.hasInstanceAttr className method = false → accepts .missingKey

class FindsClasses (accepts : Fault → Prop) (theory : Theory) : Prop where
  each : ∀ name ∈ theory.classNames, FindsClass accepts theory name

section

variable {accepts : Fault → Prop} (theory : Theory) (className : String)
  {say : String → Except Fault Formula} {passes : MethodShape → Bool} {method : String}

instance [tolerant : Tolerates accepts] : FindsClass accepts theory className :=
  ⟨fun _ => tolerant.of_isOff rfl, fun _ => tolerant.of_isOff rfl,
    fun _ _ _ => tolerant.of_isOff rfl⟩

instance [Tolerates accepts] : FindsClasses accepts theory := ⟨fun _ _ => inferInstance⟩

variable {theory className} {attr : String}

theorem Theory.attrType_eq : theory.attrType className attr =
    if theory.hasInstanceAttr className attr then .ok (.classAttr className attr)
    else .error .missingKey := by
  unfold attrType lookup hasInstanceAttr
  cases theory.survey.instanceAttrs.get? className <;> rfl

theorem Theory.eq_of_attrType {type : Term} (done : theory.attrType className attr = .ok type) :
    type = .classAttr className attr := by
  rw [attrType_eq] at done
  split at done
  · exact (Except.ok.inj done).symm
  · cases done

/-- What is known of a method is found in the table of its class. -/
theorem Theory.method?_of_methodIn {found : Option MethodShape}
    (done : theory.methodIn className attr = .ok found) :
    theory.method? className attr = found := by
  unfold methodIn lookup at done
  unfold method?
  cases known : theory.survey.methods.get? className with
  | none =>
    rw [known] at done
    cases done
  | some methods =>
    rw [known] at done
    exact pure_ok done

/-- The rules are stated for the classes whose methods pass the test, if no class is missing. -/
theorem Theory.forMethods_eq_ok_iff {formulas : List Formula} :
    theory.forMethods method passes say = .ok formulas ↔
      (∀ name ∈ theory.classNames, theory.methodIn name method = .ok (theory.method? name method)) ∧
      (theory.classNames.filter fun name => (theory.method? name method).any passes).mapM say =
        .ok formulas := by
  unfold forMethods
  induction theory.classNames generalizing formulas with
  | nil => simp
  | cons name names ih =>
    simp only [flatMapM_cons, forall_mem_cons, filter_cons, bind_eq_ok_iff, ih, pure_eq_ok_iff]
    cases is : theory.methodIn name method with
    | error fault => simp
    | ok found =>
      rw [method?_of_methodIn is]
      cases found with
      | none => simp [pure_eq_ok_iff]
      | some shape =>
        by_cases passed : passes shape = true
        · rw [and_iff_right rfl, if_pos (Option.any_some.trans passed), mapM_cons]
          simp only [bind_eq_ok_iff, pure_eq_ok_iff, Except.ok.injEq, exists_eq_left',
            passed, if_true]
          constructor
          · rintro ⟨_, ⟨formula, said, rfl⟩, rest, ⟨all, others⟩, rfl⟩
            exact ⟨all, formula, said, rest, others, rfl⟩
          · rintro ⟨all, formula, said, rest, others, rfl⟩
            exact ⟨_, ⟨formula, said, rfl⟩, rest, ⟨all, others⟩, rfl⟩
        · simp [passed, pure_eq_ok_iff]

variable [finds : FindsClass accepts theory className]

instance : FailsWith accepts (theory.methodIn className attr) := by
  unfold Theory.methodIn Theory.lookup
  cases found : theory.survey.methods.get? className with
  | none => exact .error (finds.methods found)
  | some methods => exact .ok _

theorem failsWith_attrType (known : (theory.method? className attr).isSome) :
    FailsWith accepts (theory.attrType className attr) := by
  rw [Theory.attrType_eq]
  split
  · exact .ok _
  · next unlisted => exact .error (finds.attrs attr known (Bool.eq_false_iff.mpr unlisted))

omit finds

/-- A rule for methods may use their types. -/
theorem failsWith_forMethods [finds : FindsClasses accepts theory]
    (each : ∀ name,
      FailsWith accepts (theory.attrType name method) → FailsWith accepts (say name)) :
    FailsWith accepts (theory.forMethods method passes say) := by
  refine .flatMapM_of_mem fun name member => ?_
  have := finds.each name member
  refine .bind_of_ok inferInstance fun found is => ?_
  have isFound := Theory.method?_of_methodIn is
  cases found with
  | none => exact .ok _
  | some shape =>
    have := each name (failsWith_attrType (by rw [isFound]; rfl))
    dsimp only
    infer_instance

end

variable {accepts : Fault → Prop} [ToleratesRefusals accepts] (frame : Frame)
  (left right result : Term) (name className attr : String) (called receiver found : Meaning)
  (args : List Meaning) (typeArgs : List Term)

instance (sort : TypeSort) (accessor : String) (whole : Term) :
    FailsWith accepts (sort.get accessor whole) := by
  unfold TypeSort.get
  infer_instance

instance : FailsWith accepts (frame.instanceOf className) := by
  unfold Frame.instanceOf
  infer_instance

instance [FindsClasses accepts frame.theory] :
    FailsWith accepts (overloading frame left right result name) :=
  failsWith_forMethods fun _ attrType => .andThen attrType inferInstance

instance : FailsWith accepts (functionCall frame called args result) := by
  unfold functionCall
  infer_instance

instance (count : Nat) [few : IsOff (decide (maxGeneric < count))] :
    FailsWith accepts (genericWith frame called args result typeArgs count) := by
  unfold genericWith
  rw [if_neg (of_decide_eq_false few.eq)]
  infer_instance

/-- Only the number of type arguments can be blamed. -/
instance [allows : AcceptsTypeArguments accepts frame.theory] :
    FailsWith accepts (genericCall frame called args result typeArgs) := by
  refine .flatMapM_of_mem fun index member => ?_
  have within : index < frame.theory.survey.maxTypeArgs := mem_range.mp member
  by_cases few : maxGeneric < index + 1
  · refine ⟨fun {fault} failed => ?_⟩
    rw [genericWith, if_pos few] at failed
    obtain rfl := Except.error.inj failed
    exact allows.accepted (by omega)
  · have : IsOff (decide (maxGeneric < index + 1)) := ⟨decide_eq_false few⟩
    infer_instance

/-- The function has been checked to be short enough. -/
instance (init : Term) (initArgs : Nat) :
    FailsWith accepts (plainInstantiation frame className init initArgs args result) := by
  unfold plainInstantiation
  refine .andThen inferInstance fun receiver => .andThen inferInstance fun defaults => ?_
  dsimp only
  split
  · infer_instance
  · next fits =>
    refine .bind_of_ok inferInstance fun terms areTerms => ?_
    have sameLength := (mapM_eq_ok_iff.mp areTerms).length_eq
    refine .andThen (failsWith_func ?_ defaults Term.none) fun func => inferInstance
    simp only [length_cons, length_append]
    omega

/-- The initialiser of a class has to be found. -/
instance [finds : FindsClass accepts frame.theory className]
    [AcceptsTypeArguments accepts frame.theory] :
    FailsWith accepts (instantiation frame className args result typeArgs) := by
  unfold instantiation genericInstance
  split
  · infer_instance
  · refine .bind_of_ok inferInstance fun found is => ?_
    have isFound := Theory.method?_of_methodIn is
    cases found with
    | none => exact .error (finds.initialiser isFound)
    | some shape => exact .andThen (failsWith_attrType (by rw [isFound]; rfl)) inferInstance

section Lookups

variable [finds : FindsClasses accepts frame.theory]

instance [AcceptsTypeArguments accepts frame.theory] :
    FailsWith accepts (instantiations frame called args result typeArgs) := by
  unfold instantiations
  split
  · infer_instance
  · refine .mapM_of_mem fun name member => ?_
    have := finds.each name (mem_filter.mp member).1
    infer_instance

instance : FailsWith accepts (instanceCall frame called args result) :=
  failsWith_forMethods fun _ attrType => .andThen attrType inferInstance

instance [AcceptsTypeArguments accepts frame.theory] :
    FailsWith accepts (call frame called args result typeArgs) := by
  unfold call
  infer_instance

instance : FailsWith accepts (staticCall frame receiver args result name) :=
  failsWith_forMethods fun _ attrType => .andThen attrType inferInstance

instance [AcceptsTypeArguments accepts frame.theory] :
    FailsWith accepts (methodCall frame receiver args result attr typeArgs) := by
  unfold methodCall methodCallOn attributeCallOn genericInstance
  refine .flatMapM_of_mem fun name member => ?_
  have := finds.each name member
  refine .bind_of_ok inferInstance fun found is => ?_
  have isFound := Theory.method?_of_methodIn is
  cases found with
  | some shape =>
    have : FailsWith accepts (frame.theory.attrType name attr) :=
      failsWith_attrType (by rw [isFound]; rfl)
    dsimp only
    infer_instance
  | none =>
    obtain ⟨attrs, known⟩ := Option.isSome_iff_exists.mp
      ((Table.isSome_get? ..).trans (Table.contains_iff.mpr member))
    have isTable : Theory.lookup frame.survey.instanceAttrs name = .ok attrs := by
      rw [Theory.lookup, Frame.survey, known]
    dsimp only
    rw [isTable]
    refine .bind_of_ok (.ok _) fun _ is => ?_
    obtain rfl := Except.ok.inj is
    split
    · next listed =>
      have : FailsWith accepts (frame.theory.attrType name attr) := by
        rw [Theory.attrType_eq, Theory.hasInstanceAttr, known]
        exact if_pos listed ▸ .ok _
      infer_instance
    · exact .ok _

instance : FailsWith accepts (classAccessors frame className) := by
  unfold classAccessors
  split <;> infer_instance

set_option synthInstance.maxSize 512 in
instance : FailsWith accepts (attributeAccess frame receiver attr found) := by
  unfold attributeAccess genericAttribute instanceAttribute
  refine .andThen (.flatMapM_of_mem fun name member => ?_) inferInstance
  have := finds.each name member
  cases listed : frame.theory.hasInstanceAttr name attr with
  | true =>
    have : FailsWith accepts (frame.theory.attrType name attr) := by
      rw [Theory.attrType_eq, listed]
      exact .ok _
    infer_instance
  | false =>
    rw [Bool.false_and, if_neg Bool.false_ne_true, if_neg Bool.false_ne_true]
    infer_instance

end Lookups

end Constraints

namespace Hint

variable {readOptions : List Hint → Reading (List Meaning)} {holds : Progress → Prop}
  {accepts : Fault → Prop} (setting : Setting) (mode : VarMode)

mutual

/-- The faults of the parts that cannot be read. -/
def faults : Hint → List Fault
  | .noneType | .name .. | .applied _ none _ => []
  | .list part | .set part | .typeOf part | .optional part => faults part
  | .dict key value => faults key ++ faults value
  | .tuple parts | .union parts _ | .applied _ (some parts) _ => faultsAll parts
  | .callable params result => faultsAll params ++ faults result
  | .invalid fault => [fault]

def faultsAll : List Hint → List Fault
  | [] => []
  | hint :: hints => faults hint ++ faultsAll hints

end

/-- Hints that are written down blame no measured arity. -/
theorem isLimited_of_mem_faults : (hint : Option Expr) →
    ∀ fault ∈ (ofExpr? hint).faults, fault.isLimited = false
  | some e => by
    apply ofExpr.induct_unfolding (fun _ hint => ∀ fault ∈ hint.faults, fault.isLimited = false)
      (fun _ hints => ∀ fault ∈ faultsAll hints, fault.isLimited = false) <;>
      simp_all [faults, faultsAll, or_imp]
  | none => by simp [ofExpr?, faults]

theorem ofExprs_eq_map (es : List Expr) : ofExprs es = es.map ofExpr := by
  induction es with
  | nil => rfl
  | cons e es ih => rw [ofExprs, ih, map_cons]

/-- A property that new constraints keep. -/
class IsLogStable (holds : Progress → Prop) : Prop where
  fresh : ∀ {progress} stem allowed, holds progress →
    holds { progress with log := (progress.log.fresh stem allowed).2 }
  assert : ∀ {progress} message parts, holds progress →
    holds { progress with log := progress.log.assert message parts }

/-- A property that the steps of a reading keep. -/
class IsStable (holds : Progress → Prop) : Prop extends IsLogStable holds where
  draw : ∀ {progress name}, progress.instances.get? name = none → holds progress →
    holds ⟨(progress.log.fresh "generic").2,
      progress.instances.insert name (.const (progress.log.nextName "generic"))⟩
  reset : ∀ {progress}, holds progress → holds { progress with instances := {} }

instance : IsStable fun _ => True where
  fresh _ _ := id
  assert _ _ := id
  draw _ := id
  reset := id

section

variable {holds : Progress → Prop} [stable : IsLogStable holds] {accepts : Fault → Prop}

instance (stem : String) (allowed : Log.isStem stem = true) :
    Respects holds accepts (fresh stem allowed) := ⟨stable.fresh stem allowed⟩

instance (message : String) (parts : List Formula) :
    Respects holds accepts (assert message parts) :=
  ⟨stable.assert message parts⟩

variable [Tolerates accepts]

instance (constant : Term) (types : List Meaning) :
    Respects holds accepts (oneOf constant types) := by
  unfold oneOf
  infer_instance

instance (line : Nat) (options : List Meaning) : Respects holds accepts (unionOf line options) := by
  unfold unionOf
  infer_instance

variable (setting : Setting) (name : String)

instance (meanings : List Meaning) : Respects holds accepts (terms meanings) := by
  unfold terms
  infer_instance

/-- A tuple is short enough when it has been checked. -/
instance (components : List Meaning) : Respects holds accepts (tupleOf setting components) := by
  unfold tupleOf
  split
  · infer_instance
  · next fits =>
    refine .bind_of_ok inferInstance fun _ terms _ _ areTerms => ?_
    have := @TypeSort.failsWith_tuple accepts _ _ (length_of_run_mapM areTerms ▸ Nat.not_lt.mp fits)
    infer_instance

instance (params : List Meaning) (result : Meaning) :
    Respects holds accepts (functionOf setting params result) := by
  unfold functionOf
  split
  · infer_instance
  · next fits =>
    refine .bind_of_ok inferInstance fun _ terms _ _ areTerms => ?_
    have := @TypeSort.failsWith_func accepts _ _ (length_of_run_mapM areTerms ▸ Nat.not_lt.mp fits)
    infer_instance

instance (args : List Meaning) : Respects holds accepts (classOf setting name args) := by
  unfold classOf
  split <;> infer_instance

instance : FailsWith accepts (setting.classType name) := by
  unfold Setting.classType
  split <;> infer_instance

instance : FailsWith accepts (setting.typeVar? name) := by
  unfold Setting.typeVar?
  dsimp only
  split <;> infer_instance

instance (mode : VarMode) (name : String) : FailsWith accepts (setting.instantiates mode name) := by
  unfold Setting.instantiates
  split <;> infer_instance

end

section

variable {holds : Progress → Prop} [stable : IsStable holds] {accepts : Fault → Prop}
  [Tolerates accepts] (setting : Setting)

section

variable (reads : ∀ options, Respects holds accepts (readOptions (ofExprs options)))
include reads

/-- The options of type variables are written hints. -/
theorem respects_instanceOf (name : String) (line : Nat) :
    Respects holds accepts (instanceOf setting readOptions name line) := by
  refine ⟨fun {progress} held => ?_⟩
  rw [instanceOf, run_get_bind]
  split
  · exact held
  · next new =>
    split
    · exact Respects.run held
    · -- A constant is drawn and noted before the options are read.
      exact (Respects.andThen (reads _) fun types => inferInstance).run (stable.draw new held)

theorem respects_resolveName (mode : VarMode) (text : String) (line : Nat) :
    Respects holds accepts (resolveName setting readOptions mode text line) := by
  have := respects_instanceOf setting reads
  unfold resolveName
  dsimp only
  split
  · infer_instance
  · split
    · infer_instance
    · refine .andThen inferInstance fun isInstance => ?_
      split
      · infer_instance
      · refine .andThen inferInstance fun typeVar => ?_
        cases typeVar <;> infer_instance

end

end

mutual

theorem respects_resolveWith [IsStable holds] [Tolerates accepts] (setting : Setting)
    (reads : ∀ options, Respects holds accepts (readOptions (ofExprs options))) (mode : VarMode) :
    (hint : Hint) → (∀ fault ∈ hint.faults, accepts fault) →
      Respects holds accepts (resolveWith setting readOptions mode hint)
  | .noneType, _ => .pure _
  | .name text line, _ => respects_resolveName setting reads mode text line
  | .list part, faults | .set part, faults | .typeOf part, faults => by
    have := respects_resolveWith setting reads mode part faults
    unfold resolveWith
    infer_instance
  | .dict key value, faults => by
    obtain ⟨ofKey, ofValue⟩ := forall_mem_append.mp faults
    have := respects_resolveWith setting reads mode key ofKey
    have := respects_resolveWith setting reads mode value ofValue
    unfold resolveWith
    infer_instance
  | .optional part, faults => respects_resolveWith setting reads mode part faults
  | .tuple parts, faults | .union parts _, faults => by
    have := respects_resolveAllWith setting reads mode parts faults
    unfold resolveWith
    infer_instance
  | .callable params result, faults => by
    obtain ⟨ofParams, ofResult⟩ := forall_mem_append.mp faults
    have := respects_resolveAllWith setting reads mode params ofParams
    have := respects_resolveWith setting reads mode result ofResult
    unfold resolveWith
    infer_instance
  | .applied className none line, _ => by
    unfold resolveWith
    infer_instance
  | .applied className (some args) line, faults => by
    have := respects_resolveAllWith setting reads mode args faults
    unfold resolveWith
    infer_instance
  | .invalid fault, faults => .throw (faults fault mem_cons_self)

theorem respects_resolveAllWith [IsStable holds] [Tolerates accepts] (setting : Setting)
    (reads : ∀ options, Respects holds accepts (readOptions (ofExprs options))) (mode : VarMode) :
    (hints : List Hint) → (∀ fault ∈ faultsAll hints, accepts fault) →
      Respects holds accepts (resolveAllWith setting readOptions mode hints)
  | [], _ => .pure _
  | hint :: hints, faults => by
    obtain ⟨own, others⟩ := forall_mem_append.mp faults
    have := respects_resolveWith setting reads mode hint own
    have := respects_resolveAllWith setting reads mode hints others
    unfold resolveAllWith
    infer_instance

end

theorem respects_resolveTo [IsStable holds] [tolerant : Tolerates accepts] (depth : Nat)
    {hint : Hint} (faults : ∀ fault ∈ hint.faults, accepts fault) :
    Respects holds accepts (resolveTo setting depth mode hint) := by
  induction depth generalizing mode hint with
  | zero => exact respects_resolveWith setting (fun _ => inferInstance) mode hint faults
  | succ depth ih =>
    refine respects_resolveWith setting (fun options => ?_) mode hint faults
    refine .mapM_of_mem fun option member => ih mode.ofOptions ?_
    rw [ofExprs_eq_map] at member
    obtain ⟨e, -, rfl⟩ := mem_map.mp member
    exact fun fault inside => tolerant.of_isOff (isLimited_of_mem_faults (some e) fault inside)

/-- Readings that only add to their progress and blame no measured arity. -/
class Reading.IsPlain {α : Type} (act : Reading α) : Prop where
  respects : ∀ (holds : Progress → Prop) [IsStable holds] (accepts : Fault → Prop)
    [Tolerates accepts], Respects holds accepts act

instance (hint : Option Expr) : (resolve setting mode (ofExpr? hint)).IsPlain where
  respects _ _ _ tolerant := respects_resolveTo setting mode _ fun fault inside =>
    tolerant.of_isOff (isLimited_of_mem_faults hint fault inside)

instance (e : Expr) : (resolve setting mode (ofExpr e)).IsPlain :=
  inferInstanceAs (resolve setting mode (ofExpr? (some e))).IsPlain

instance (signature : Signature) (theory : Theory) (vars : DeclaredVars) (args : List Meaning)
    (result : Meaning) : (signature.callConstraint theory vars args result).IsPlain where
  respects holds stable accepts _ := by
    have forget : Respects holds accepts (modify fun progress =>
        { progress with instances := {} } : Reading PUnit) := ⟨stable.reset⟩
    have read (setting : Setting) (hint : Option Expr) :
        Respects holds accepts (resolve setting .instantiated (ofExpr? hint)) :=
      Reading.IsPlain.respects holds accepts
    unfold Signature.callConstraint
    infer_instance

end Hint

/-- The modules that a statement imports. `typing` is not needed. -/
def Node.imports : Node → List String
  | .stmt (.importModules _ names) => names.map (·.name)
  | .stmt (.importFrom _ (some moduleName) _ _) =>
    if moduleName == "typing" then [] else [moduleName]
  | _ => []

namespace Limits

/-- A session that goes by the limits. -/
structure Holds (limits : Limits) (session : Session) : Prop where
  theory : session.theory = limits.theory
  sources : session.sources = limits.sources
  names : ∀ name ∈ session.names, limits.named name

/-- Limits under which any definition may be unknown. -/
class IsLenient (limits : Limits) : Prop where
  unknown : ∀ name, limits.unknown name

/-- Arities are allowed or may be blamed, and modules may be imported. -/
structure Fits (limits : Limits) (node : Node) : Prop where
  tuple : ∀ {length}, Survey.tupleLength node = some length →
    limits.theory.sort.maxTuple < length → limits.blamed .tuple
  function : ∀ {count}, Survey.argCount node = some count →
    limits.theory.sort.maxFunc < count → limits.blamed .function
  imports : ∀ name ∈ node.imports, limits.imported name

/-- All nodes at or below a node fit. -/
abbrev Covers (limits : Limits) (node : Node) : Prop := node.All limits.Fits

end Limits

namespace Infer

/-- Inference that goes by the limits. -/
abbrev FailsWithin {α : Type} (act : Infer α) (limits : Limits) : Prop :=
  Respects limits.Holds limits.Accepts act

variable {limits : Limits} {session : Session}

/-- Steps that change nothing that the session goes by. -/
theorem failsWithin_modify {change : Session → Session}
    (theory : ∀ session, (change session).theory = session.theory)
    (sources : ∀ session, (change session).sources = session.sources)
    (names : ∀ session, (change session).names = session.names) :
    (modify change : Infer PUnit).FailsWithin limits := by
  refine .modify fun session before => ⟨?_, ?_, ?_⟩
  · rw [theory, before.theory]
  · rw [sources, before.sources]
  · rw [names]
    exact before.names

instance (name : String) (type : Meaning) : (bind name type).FailsWithin limits :=
  failsWithin_modify (fun _ => rfl) (fun _ => rfl) fun _ => rfl

instance (chain : Chain) (name : String) : FailsWith limits.Accepts (chain.delete name) := by
  induction chain with
  | nil =>
    unfold Chain.delete
    infer_instance
  | cons scope outer ih =>
    unfold Chain.delete
    infer_instance

instance (name : String) : (unbind name).FailsWithin limits := by
  unfold unbind
  refine .get_bind fun session before => .andThen inferInstance fun scopes => ?_
  split
  · exact ⟨fun _ => ⟨before.theory, before.sources, before.names⟩⟩
  · infer_instance

/-- Scopes come and go. -/
theorem holds_leave (before : limits.Holds session) (index : Nat) :
    limits.Holds (session.leave index) := by
  unfold Session.leave
  split
  · exact before
  · exact ⟨before.theory, before.sources, before.names⟩

instance failsWithin_inChild {α : Type} (index : Nat) (act : Infer α)
    [respects : act.FailsWithin limits] : (inChild index act).FailsWithin limits := by
  refine ⟨fun {session} before => ?_⟩
  change EndsWell limits.Holds limits.Accepts (inChild index act session)
  unfold inChild
  split
  · exact respects.run before
  · next child _ =>
    have entered : limits.Holds (session.enter child) :=
      ⟨before.theory, before.sources, before.names⟩
    exact (respects.run entered).change (·.leave index) fun after kept => holds_leave kept index

theorem holds_keepRoot (before : limits.Holds session) : limits.Holds session.keepRoot := by
  unfold Session.keepRoot
  split
  · exact before
  · exact ⟨before.theory, before.sources, before.names⟩

end Infer

end TypeInference
