/- The type variables in the hints for functions, and those that a module declares. -/

import TypeInference.Output.Typed
import TypeInference.Proofs.Branches

namespace TypeInference

open List Node

/-- A hint is written for a parameter or for the result of a function. -/
def Edits.HintsFunction (edits : Edits) (hint : Expr) : Prop :=
  (∃ label hints index, edits.params.get? label = some hints ∧ hints.get? index = some hint) ∨
    ∃ label, edits.results.get? label = some hint

namespace Edits

variable {edits : Edits} {label index : Nat} {hint other : Expr}

theorem eq_or_hintsFunction_of_param
    (written : HintsFunction { edits with params := (edits.params.insert label
      (((edits.params.get? label).getD {}).insert index hint)) } other) :
    other = hint ∨ edits.HintsFunction other := by
  rcases written with ⟨owner, hints, place, known, is⟩ | result
  · rcases Table.get?_insert_eq_some known with ⟨rfl, rfl⟩ | old
    · rcases Table.get?_insert_eq_some is with ⟨-, same⟩ | earlier
      · exact .inl same
      · cases before : edits.params.get? owner with
        | none =>
          rw [before] at earlier
          cases earlier
        | some hints =>
          rw [before] at earlier
          exact .inr (.inl ⟨owner, hints, place, before, earlier⟩)
    · exact .inr (.inl ⟨owner, hints, place, old, is⟩)
  · exact .inr (.inr result)

theorem eq_or_hintsFunction_of_result
    (written : HintsFunction { edits with results := edits.results.insert label hint } other) :
    other = hint ∨ edits.HintsFunction other := by
  rcases written with param | ⟨owner, known⟩
  · exact .inr (.inl param)
  · rcases Table.get?_insert_eq_some known with ⟨-, same⟩ | old
    · exact .inl same
    · exact .inr (.inr ⟨owner, old⟩)

end Edits

namespace Typed

variable {source : Source} {scope root : Scope} {typed after : Typed} {key : String}
  {used next : Table String String} {α β : Type} {entry : String × FunctionDef} {values : List α}
  {type : Term}

/-- The model gives a type to what a scope binds to a name. -/
def HasType (source : Source) (scope : Scope) (name : String) (type : Term) : Prop :=
  ∃ object, scope.types.get? name = some object ∧ source.model.value? object = .ok (some type)

theorem HasType.unique {name : String} {other : Term} (is : HasType source scope name type)
    (isOther : HasType source scope name other) : other = type := by
  obtain ⟨object, found, isValue⟩ := is
  obtain ⟨_, foundOther, isOther⟩ := isOther
  obtain rfl := Option.some.inj (found.symm.trans foundOther)
  exact Option.some.inj (Except.ok.inj (isOther.symm.trans isValue))

/-- The type of a function binds a type variable. -/
def Binds (source : Source) (scope : Scope) (key : String) (entry : String × FunctionDef) : Prop :=
  ∃ type, HasType source scope entry.1 type ∧
    ∃ var ∈ boundVars source.theory.sort type, var.display = key

/-- A class has a type parameter. -/
def Lists (source : Source) (key : String) (c : ClassDef) : Prop :=
  ∃ params, source.theory.survey.classParams.get? c.name = some params ∧
    ∃ param ∈ params, (Term.typeVar param.text).display = key

theorem run_bind_ok {act : Writing α} {follow : α → Writing β} {result : β}
    (done : (act >>= follow).run typed = .ok (result, after)) :
    ∃ value mid, act.run typed = .ok (value, mid) ∧
      (follow value).run mid = .ok (result, after) := by
  obtain ⟨⟨value, mid⟩, first, rest⟩ := bind_ok done
  exact ⟨value, mid, first, rest⟩

theorem run_lift_ok {outcome : Except Fault α} {value : α}
    (done : (liftM outcome : Writing α).run typed = .ok (value, after)) :
    outcome = .ok value ∧ typed = after := by
  obtain ⟨found, is, same⟩ := bind_ok done
  obtain ⟨rfl, rfl⟩ := Prod.mk.inj (pure_ok same)
  exact ⟨is, rfl⟩

/-- A hint is that for a part of the type of a function. -/
structure IsPartHint (source : Source) (scope : Scope) (entry : String × FunctionDef)
    (type part : Term) (hint : Expr) : Prop where
  hasType : HasType source scope entry.1 type
  isPart : ∃ accessor, part = source.theory.sort.simplify (.get accessor (innerFunction type))
  written : ∃ line, hintFor source (placeIn scope line) part = .ok hint

/-- The hints that have been written for functions are hints for parts of their types. -/
def Traces (source : Source) (scopes : List Scope) (typed : Typed) : Prop :=
  ∀ hint, typed.edits.HintsFunction hint → ∃ scope ∈ scopes, ∃ entry ∈ ownFunctions source scope,
    ∃ type part, IsPartHint source scope entry type part hint

/-- What is written keeps a property. -/
structure Keeps (holds : Typed → Prop) (act : Writing α) : Prop where
  run : ∀ {typed value after}, act.run typed = .ok (value, after) → holds typed → holds after

namespace Keeps

variable {holds : Typed → Prop} {scopes : List Scope}

theorem lift (outcome : Except Fault α) : Keeps holds (liftM outcome : Writing α) := by
  refine ⟨fun done held => ?_⟩
  obtain rfl := (run_lift_ok done).2
  exact held

theorem isSequential : IsSequential fun α (act : Writing α) => Keeps holds act := by
  refine ⟨fun value => ⟨fun done held => ?_⟩, fun first rest => ⟨fun done held => ?_⟩⟩
  · obtain rfl := (Prod.mk.inj (pure_ok done)).2
    exact held
  · obtain ⟨value, mid, isFirst, isRest⟩ := run_bind_ok done
    exact (rest value).run isRest (first.run isFirst held)

theorem modify {change : Typed → Typed} (kept : ∀ {typed}, holds typed → holds (change typed)) :
    Keeps holds (modify change : Writing PUnit) := by
  refine ⟨fun done held => ?_⟩
  obtain rfl := (Prod.mk.inj (Except.ok.inj done)).2
  exact kept held

theorem useTypeVars (source : Source) (toVar : α → Term) (values : List α)
    (used : Table String String) :
    Keeps holds (values.foldlM (fun used value => liftM (useTypeVar source used (toVar value)))
      used : Writing _) :=
  isSequential.foldlM_of_mem (fun _ _ _ => .lift _) _

theorem paramHint (inside : scope ∈ scopes) (own : entry ∈ ownFunctions source scope)
    (hasType : HasType source scope entry.1 type) (index : Nat) :
    Keeps (Traces source scopes) (paramHint source scope entry.2 (innerFunction type) index) := by
  refine ⟨fun done traces => ?_⟩
  obtain ⟨hint, _, lifted, rest⟩ := run_bind_ok done
  obtain ⟨isHint, rfl⟩ := run_lift_ok lifted
  split at rest
  · obtain rfl := (Prod.mk.inj (Except.ok.inj rest)).2
    intro other written
    rcases Edits.eq_or_hintsFunction_of_param written with rfl | old
    · exact ⟨scope, inside, entry, own, type, _, hasType, ⟨_, rfl⟩, _, isHint⟩
    · exact traces other old
  · obtain rfl := (Prod.mk.inj (pure_ok rest)).2
    exact traces

theorem resultHint (inside : scope ∈ scopes) (own : entry ∈ ownFunctions source scope)
    (hasType : HasType source scope entry.1 type) :
    Keeps (Traces source scopes) (resultHint source scope entry.2 (innerFunction type)) := by
  refine ⟨fun done traces => ?_⟩
  obtain ⟨hint, _, lifted, rest⟩ := run_bind_ok done
  obtain ⟨isHint, rfl⟩ := run_lift_ok lifted
  obtain rfl := (Prod.mk.inj (Except.ok.inj rest)).2
  intro other written
  rcases Edits.eq_or_hintsFunction_of_result written with rfl | old
  · exact ⟨scope, inside, entry, own, type, _, hasType, ⟨_, rfl⟩, _, isHint⟩
  · exact traces other old

theorem functionHints (inside : scope ∈ scopes) (own : entry ∈ ownFunctions source scope) :
    Keeps (Traces source scopes) (functionHints source scope used entry.1 entry.2) := by
  refine ⟨fun done traces => ?_⟩
  unfold Typed.functionHints at done
  split at done
  · cases done
  · next object found =>
    obtain ⟨value, _, lifted, rest⟩ := run_bind_ok done
    obtain ⟨isValue, rfl⟩ := run_lift_ok lifted
    split at rest
    · cases rest
    · next type =>
      have hasType : HasType source scope entry.1 type := ⟨object, found, isValue⟩
      obtain ⟨_, _, isUsed, rest⟩ := run_bind_ok rest
      obtain ⟨_, _, params, rest⟩ := run_bind_ok rest
      obtain ⟨_, _, result, rest⟩ := run_bind_ok rest
      obtain ⟨rfl, rfl⟩ := Prod.mk.inj (pure_ok rest)
      have traces := (useTypeVars source id _ _).run isUsed traces
      have traces := (isSequential.forM_of_mem fun index _ =>
        paramHint inside own hasType index).run params traces
      exact (resultHint inside own hasType).run result traces

theorem allFunctions (source : Source) (scopes : List Scope) :
    Keeps (Traces source scopes) (allFunctions source scopes) := by
  refine isSequential.andThen (isSequential.mapM_of_mem fun scope inside => ?_) fun _ =>
    isSequential.pure _
  exact isSequential.foldlM_of_mem (fun _ _ own => functionHints inside own) _

/-- Classes get no hints for functions, nor do assignments. -/
theorem classBases (source : Source) (used : Table String String) (body : List Stmt) :
    Keeps (Traces source scopes) (classBases source used body) := by
  refine isSequential.foldlM_of_mem (fun used c _ => ?_) _
  split
  · exact isSequential.pure _
  · refine isSequential.andThen (useTypeVars ..) fun used => ?_
    exact isSequential.andThen (.modify fun traces => traces) fun _ => isSequential.pure _

theorem assignmentHint (source : Source) (scope : Scope) (entry : Stmt × Meaning) :
    Keeps (Traces source scopes) (assignmentHint source scope entry) := by
  unfold Typed.assignmentHint
  split
  · refine isSequential.andThen (.lift _) fun type => ?_
    dsimp only
    split
    · unfold tupleAssignment
      split
      · exact isSequential.pure _
      · exact isSequential.pure _
      · split
        · exact .modify fun traces => traces
        · exact isSequential.pure _
    · unfold plainAssignment
      split
      · exact isSequential.pure _
      · exact isSequential.pure _
      · refine isSequential.andThen (.lift _) fun hint => ?_
        split
        · exact isSequential.andThen (.modify fun traces => traces) fun _ =>
            .modify fun traces => traces
        · exact isSequential.pure _
  · exact isSequential.pure _

end Keeps

/-- The type variables that the hints for a function name are bound by its type, at the top of the
module, or listed by a class there. -/
def IsClosed (source : Source) (root scope : Scope) (entry : String × FunctionDef) : Prop :=
  ∀ type part hint, IsPartHint source scope entry type part hint →
    ∀ id ∈ source.theory.typeVars, Hint.typeVarName id ∈ hint.names →
      scope = root ∧ (∃ var ∈ boundVars source.theory.sort type, var.display = "tv" ++ id) ∨
        ∃ c ∈ root.body.filterMap Stmt.classDef?, Lists source ("tv" ++ id) c

end Typed

end TypeInference
