/- A call depends only on the type variables to which the hints lead. -/

import TypeInference.Proofs.HintValues

namespace TypeInference

open List

namespace Hint

theorem run_fresh_bind {α : Type} {stem : String} {allowed : Log.isStem stem = true}
    (next : Term → Reading α) (progress : Progress) : (fresh stem allowed >>= next).run progress =
      (next (progress.log.fresh stem allowed).1).run
        { progress with log := (progress.log.fresh stem allowed).2 } := rfl

/-- Two runs end alike, with a property of the progress. -/
def SameEnd (holds : Progress → Prop) {α : Type} (first second : Except Fault α × Progress) :
    Prop :=
  first = second ∧ EndsWell holds (fun _ => True) first

/-- Readings that do the same and keep a property. -/
structure Same (holds : Progress → Prop) {α : Type} (act other : Reading α) : Prop where
  run : ∀ {progress}, holds progress → SameEnd holds (act.run progress) (other.run progress)

namespace Same

variable {α β : Type} {holds : Progress → Prop} {act other : Reading α}

theorem refl [kept : Respects holds (fun _ => True) act] : Same holds act act :=
  ⟨fun before => ⟨rfl, kept.run before⟩⟩

theorem bind_at {next nextOther : α → Reading β} {progress : Progress}
    (first : SameEnd holds (act.run progress) (other.run progress))
    (rest : ∀ value, Same holds (next value) (nextOther value)) :
    SameEnd holds ((act >>= next).run progress) ((other >>= nextOther).run progress) := by
  obtain ⟨same, ends⟩ := first
  rw [run_bind, run_bind, ← same]
  rcases result : act.run progress with ⟨fault | value, after⟩ <;> rw [result] at ends
  · exact ⟨rfl, trivial⟩
  · exact (rest value).run ends

theorem bind {next nextOther : α → Reading β} (first : Same holds act other)
    (rest : ∀ value, Same holds (next value) (nextOther value)) :
    Same holds (act >>= next) (other >>= nextOther) :=
  ⟨fun before => bind_at (first.run before) rest⟩

theorem mapM {values : List α} {act other : α → Reading β}
    (each : ∀ value ∈ values, Same holds (act value) (other value)) :
    Same holds (values.mapM act) (values.mapM other) := by
  induction values with
  | nil => exact ⟨fun before => ⟨rfl, before⟩⟩
  | cons value values ih =>
    obtain ⟨first, others⟩ := forall_mem_cons.mp each
    rw [mapM_cons, mapM_cons]
    exact first.bind fun _ => (ih others).bind fun _ => refl

end Same

/-- Settings in which some names and their options mean the same. -/
structure Setting.Alike (setting other : Setting) (covers : String → Prop) : Prop where
  classes : setting.theory.classNames = other.theory.classNames
  accessors : ∀ name, setting.theory.sort.accessors? ("class_" ++ name) =
    other.theory.sort.accessors? ("class_" ++ name)
  tuples : setting.theory.sort.maxTuple = other.theory.sort.maxTuple
  functions : setting.theory.sort.maxFunc = other.theory.sort.maxFunc
  typeVars : ∀ {name}, covers name → setting.typeVar? name = other.typeVar? name
  options : ∀ {name}, covers name → setting.vars.options.get? name = other.vars.options.get? name
  closed : ∀ {name options}, covers name → setting.vars.options.get? name = some options →
    ∀ hint ∈ ofExprs options, ∀ other ∈ hint.names, covers other

/-- Options are read alike after the constant is drawn. -/
def Setting.ReadsAlike (setting : Setting) (covers : String → Prop) (holds : Progress → Prop)
    (readOptions readOthers : List Hint → Reading (List Meaning)) : Prop :=
  ∀ name options progress constant, covers name → setting.vars.options.get? name = some options →
    holds progress → progress.instances.get? name = none →
    let next : Progress := { progress with instances := progress.instances.insert name constant }
    SameEnd holds ((readOptions (ofExprs options)).run next)
      ((readOthers (ofExprs options)).run next)

section

variable {setting other : Setting} {covers : String → Prop} (alike : setting.Alike other covers)
  {holds : Progress → Prop} [stable : IsLogStable holds]
  {readOptions readOthers : List Hint → Reading (List Meaning)}
  (reads : setting.ReadsAlike covers holds readOptions readOthers)
include alike reads

theorem same_instanceOf {name : String} (inside : covers name) (line : Nat) :
    Same holds (instanceOf setting readOptions name line)
      (instanceOf other readOthers name line) := by
  refine ⟨fun {progress} before => ?_⟩
  unfold instanceOf
  rw [run_get_bind, run_get_bind, ← alike.options inside]
  cases known : progress.instances.get? name with
  | some constant => exact ⟨rfl, before⟩
  | none =>
    cases declared : setting.vars.options.get? name with
    | none => exact ⟨rfl, trivial⟩
    | some options =>
      have started := stable.fresh "generic" (by decide) before
      have same := reads name options _ (progress.log.fresh "generic" (by decide)).1 inside
        declared started known
      rw [run_fresh_bind]
      exact Same.bind_at same fun types => .refl

theorem same_resolveName {text : String} (inside : covers (baseName text)) (mode : VarMode)
    (line : Nat) : Same holds (resolveName setting readOptions mode text line)
      (resolveName other readOthers mode text line) := by
  have instantiates : setting.instantiates mode (baseName text) =
      other.instantiates mode (baseName text) := by
    simp only [Setting.instantiates, alike.typeVars inside]
  have classType : setting.classType (baseName text) = other.classType (baseName text) := by
    simp only [Setting.classType, alike.accessors]
  unfold resolveName
  dsimp only
  rw [← alike.classes, ← alike.typeVars inside, ← instantiates, ← classType]
  split
  · exact .refl
  · split
    · exact .refl
    · refine Same.refl.bind fun isInstance => ?_
      split
      · exact same_instanceOf alike reads inside line
      · refine Same.refl.bind fun typeVar => ?_
        cases typeVar <;> exact .refl

set_option linter.unusedSectionVars false in
mutual

theorem same_resolveWith (mode : VarMode) : (hint : Hint) → (∀ name ∈ hint.names, covers name) →
    Same holds (resolveWith setting readOptions mode hint) (resolveWith other readOthers mode hint)
  | .noneType, _ => ⟨fun before => ⟨rfl, before⟩⟩
  | .invalid _, _ => ⟨fun _ => ⟨rfl, trivial⟩⟩
  | .name text line, inside =>
    same_resolveName alike reads (inside _ mem_cons_self) mode line
  | .list part, inside | .set part, inside | .typeOf part, inside => by
    unfold resolveWith
    exact (same_resolveWith mode part inside).bind fun _ => .refl
  | .dict key value, inside => by
    obtain ⟨ofKey, ofValue⟩ := forall_mem_append.mp inside
    unfold resolveWith
    exact (same_resolveWith mode key ofKey).bind fun _ =>
      (same_resolveWith mode value ofValue).bind fun _ => .refl
  | .optional part, inside => same_resolveWith mode part inside
  | .tuple parts, inside => by
    unfold resolveWith tupleOf TypeSort.tuple
    rw [← alike.tuples]
    exact (same_resolveAllWith mode parts inside).bind fun _ => .refl
  | .union parts line, inside => by
    unfold resolveWith
    exact (same_resolveAllWith mode parts inside).bind fun _ => .refl
  | .callable params result, inside => by
    obtain ⟨ofParams, ofResult⟩ := forall_mem_append.mp inside
    unfold resolveWith functionOf TypeSort.func
    rw [← alike.functions]
    exact (same_resolveAllWith mode params ofParams).bind fun _ =>
      (same_resolveWith mode result ofResult).bind fun _ => .refl
  | .applied className none line, _ => by
    rw [resolveWith_applied, resolveWith_applied, ← alike.classes]
    unfold TypeSort.hasConstructor
    rw [← alike.accessors]
    exact .refl
  | .applied className (some args) line, inside => by
    rw [resolveWith_applied, resolveWith_applied, ← alike.classes]
    have sameClass : classOf setting className = classOf other className := by
      funext args
      simp only [classOf, TypeSort.apply, alike.accessors]
    rw [← sameClass]
    unfold TypeSort.hasConstructor
    rw [← alike.accessors]
    split
    · split
      · exact (same_resolveAllWith mode args inside).bind fun _ => .refl
      · exact .refl
    · exact .refl

theorem same_resolveAllWith (mode : VarMode) :
    (hints : List Hint) → (∀ name ∈ namesOfAll hints, covers name) →
      Same holds (resolveAllWith setting readOptions mode hints)
        (resolveAllWith other readOthers mode hints)
  | [], _ => ⟨fun before => ⟨rfl, before⟩⟩
  | hint :: hints, inside => by
    obtain ⟨first, others⟩ := forall_mem_append.mp inside
    unfold resolveAllWith
    exact (same_resolveWith mode hint first).bind fun _ =>
      (same_resolveAllWith mode hints others).bind fun _ => .refl

end

end

/-- The type variables with options and without a constant. -/
def Progress.pending (progress : Progress) (vars : DeclaredVars) : List String :=
  vars.options.keys.filter fun name => (progress.instances.get? name).isNone

/-- A type variable is pending until it has a constant. -/
theorem Progress.length_pending_insert {progress : Progress} {vars : DeclaredVars} {name : String}
    {options : List Expr} (declared : vars.options.get? name = some options)
    (new : progress.instances.get? name = none) (constant : Term) :
    ({ progress with instances := progress.instances.insert name constant }.pending vars).length <
      (progress.pending vars).length := by
  have same : { progress with instances := progress.instances.insert name constant }.pending vars =
      (progress.pending vars).filter fun other => other ≠ name := by
    unfold pending
    rw [filter_filter]
    congr 1
    funext other
    by_cases is : other = name
    · simp [is, Table.get?_insert_self]
    · simp [is, Table.get?_insert_of_ne]
  rw [same, length_filter_lt_length_iff_exists]
  have known : name ∈ vars.options.keys := mem_map_of_mem (Table.mem_of_get? declared)
  exact ⟨name, mem_filter.mpr ⟨known, by rw [new]; rfl⟩, by simp⟩

/-- Both depths suffice for what is pending. -/
structure Progress.Within (vars others : DeclaredVars) (depth otherDepth : Nat)
    (progress : Progress) : Prop where
  own : (progress.pending vars).length ≤ depth
  other : (progress.pending others).length ≤ otherDepth

instance (vars others : DeclaredVars) (depth otherDepth : Nat) :
    IsLogStable (Progress.Within vars others depth otherDepth) where
  fresh _ _ within := ⟨within.own, within.other⟩
  assert _ _ within := ⟨within.own, within.other⟩

variable {setting other : Setting} {covers : String → Prop}

/-- The depth does not matter if all pending ones can be followed. -/
theorem same_resolveTo (alike : setting.Alike other covers) (depth otherDepth : Nat)
    (mode : VarMode) {hint : Hint} (inside : ∀ name ∈ hint.names, covers name) :
    Same (Progress.Within setting.vars other.vars depth otherDepth)
      (resolveTo setting depth mode hint) (resolveTo other otherDepth mode hint) := by
  have fewer {name : String} {options : List Expr} {progress : Progress} (isCovered : covers name)
      (declared : setting.vars.options.get? name = some options)
      (new : progress.instances.get? name = none) (constant : Term) :=
    And.intro (progress.length_pending_insert declared new constant)
      (progress.length_pending_insert (alike.options isCovered ▸ declared) new constant)
  induction depth generalizing otherDepth mode hint with
  | zero =>
    cases otherDepth <;>
      exact same_resolveWith alike (fun _ _ _ constant isCovered declared within new =>
        absurd (fewer isCovered declared new constant).1 (by have := within.own; omega)) mode hint
        inside
  | succ depth ih =>
    cases otherDepth with
    | zero =>
      exact same_resolveWith alike (fun _ _ _ constant isCovered declared within new =>
        absurd (fewer isCovered declared new constant).2 (by have := within.other; omega)) mode
        hint inside
    | succ otherDepth =>
      refine same_resolveWith alike ?_ mode hint inside
      intro name options progress constant isCovered declared within new
      obtain ⟨own, others⟩ := fewer isCovered declared new constant
      have same := (Same.mapM fun option member => ih otherDepth mode.ofOptions
        (alike.closed isCovered declared option member)).run
          ⟨Nat.le_of_lt_succ (own.trans_le within.own),
            Nat.le_of_lt_succ (others.trans_le within.other)⟩
      exact ⟨same.1, EndsWell.change same.2 id fun _ within => ⟨Nat.le_succ_of_le within.own,
        Nat.le_succ_of_le within.other⟩⟩

end Hint

/-- The names to which hints lead through options. -/
inductive DeclaredVars.Reaches (vars : DeclaredVars) (hints : List Hint) : String → Prop
  | ofHint {hint name} : hint ∈ hints → name ∈ hint.names → Reaches vars hints name
  | ofOption {name options hint other} : Reaches vars hints name →
      vars.options.get? name = some options → hint ∈ Hint.ofExprs options → other ∈ hint.names →
      Reaches vars hints other

namespace Signature

/-- The hints that a call is compared with. -/
def hints (signature : Signature) (argCount : Nat) : List Hint :=
  (signature.args.take argCount ++ [signature.returns]).map Hint.ofExpr?

variable {signature : Signature} {theory other : Theory} {vars others : DeclaredVars}
  {args : List Meaning}

theorem callConstraint_congr {covers : String → Prop}
    (alike : Hint.Setting.Alike
      ⟨theory, vars, signature.scope⟩ ⟨other, others, signature.scope⟩ covers)
    (inside : ∀ hint ∈ signature.hints args.length, ∀ name ∈ hint.names, covers name)
    (result : Meaning) : signature.callConstraint theory vars args result =
      signature.callConstraint other others args result := by
  unfold callConstraint
  split
  · rfl
  · next accepted =>
    simp only [accepts, Bool.not_eq_true, Bool.not_eq_false', Bool.and_eq_true,
      decide_eq_true_eq] at accepted
    have same (hint : Option Expr) (member : Hint.ofExpr? hint ∈ signature.hints args.length) :=
      Hint.same_resolveTo alike vars.options.size others.options.size .instantiated
        (inside _ member)
    refine ExceptT.ext (funext fun progress => ?_)
    have start : Hint.Progress.Within vars others vars.options.size others.options.size
        { progress with instances := {} } := by
      constructor <;> exact (length_filter_le _ _).trans_eq (length_map _)
    refine (Hint.Same.run (.bind (.mapM fun pair member => ?_) fun fits => ?_) start).1
    · have taken : pair.2 ∈ signature.args.take args.length := by
        rw [zip_eq_zip_take_min, Nat.min_eq_left accepted.2] at member
        exact (of_mem_zip member).2
      exact (same pair.2 (mem_map_of_mem (mem_append_left _ taken))).bind fun _ => .refl
    · have returned := mem_append_right (signature.args.take args.length)
        (mem_singleton_self signature.returns)
      exact (same signature.returns (mem_map_of_mem returned)).bind fun _ => .refl

end Signature

end TypeInference
