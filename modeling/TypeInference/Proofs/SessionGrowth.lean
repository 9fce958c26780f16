/- Sessions grow, and inferences are composed of steps. -/

import Mathlib.Order.Basic
import TypeInference.Inference.Statement
import TypeInference.Proofs.Faults

namespace TypeInference

/-- Steps that leave a greater state if they succeed. -/
abbrev Grows {σ ε α : Type} [Preorder σ] (act : ExceptT ε (StateM σ) α) : Prop :=
  ∀ start : σ, Respects (start ≤ ·) (fun _ => True) act

instance {ε α : Type} (outcome : Except ε α) : FailsWith (fun _ => True) outcome :=
  ⟨fun _ => trivial⟩

instance {σ ε α : Type} (holds : σ → Prop) (fault : ε) :
    Respects holds (fun _ => True) (throw fault : ExceptT ε (StateM σ) α) := .throw trivial

namespace Grows

variable {σ ε α β : Type} [Preorder σ] {act : ExceptT ε (StateM σ) α}

theorem le [grows : Grows act] {state after : σ} {value : α}
    (done : act.run state = (.ok value, after)) : state ≤ after := by
  have grown := (grows state).run le_rfl
  rw [done] at grown
  exact grown

theorem of_le (grown : ∀ {state value after}, act.run state = (.ok value, after) → state ≤ after) :
    Grows act := by
  refine fun start => ⟨fun {state} reached => ?_⟩
  rcases result : act.run state with ⟨fault | value, after⟩
  · trivial
  · exact reached.trans (grown result)

theorem modify {change : σ → σ} (grown : ∀ state, state ≤ change state) :
    Grows (modify change : ExceptT ε (StateM σ) PUnit) :=
  fun _ => .modify fun state reached => reached.trans (grown state)

theorem andThen {next : α → ExceptT ε (StateM σ) β} (first : Grows act)
    (rest : ∀ value, Grows (next value)) : Grows (act >>= next) := inferInstance

/-- A loop that succeeds has taken each of its steps. -/
theorem exists_run_forM {act : α → ExceptT ε (StateM σ) PUnit} [∀ value, Grows (act value)]
    {values : List α} {state after : σ} (done : (values.forM act).run state = (.ok ⟨⟩, after))
    {value : α} (member : value ∈ values) :
    ∃ start finish, (act value).run start = (.ok ⟨⟩, finish) ∧ state ≤ start ∧ finish ≤ after := by
  induction values generalizing state with
  | nil => exact absurd member List.not_mem_nil
  | cons other values ih =>
    obtain ⟨⟨⟩, mid, first, rest⟩ := run_bind_ok done
    rcases List.mem_cons.mp member with rfl | later
    · exact ⟨state, mid, first, le_rfl, le rest⟩
    · obtain ⟨start, finish, step, reached, left⟩ := ih rest later
      exact ⟨start, finish, step, (le first).trans reached, left⟩

end Grows

/-- A log with more constraints and more numbers taken. -/
structure Log.Extends (before after : Log) : Prop where
  hard : before.hard.toList <+: after.hard.toList
  count : before.count ≤ after.count

instance : Preorder Log where
  le := Log.Extends
  le_refl _ := ⟨List.prefix_rfl, Nat.le_refl _⟩
  le_trans _ _ _ first second :=
    ⟨List.IsPrefix.trans first.hard second.hard, Nat.le_trans first.count second.count⟩

namespace Log

theorem mem_of_le {log more : Log} (le : log ≤ more) {assertion : Assertion}
    (member : assertion ∈ log.hard) : assertion ∈ more.hard :=
  Array.mem_toList_iff.mp (List.IsPrefix.subset le.hard (Array.mem_toList_iff.mpr member))

theorem le_assert (log : Log) (message : String) (parts : List Formula) :
    log ≤ log.assert message parts := by
  refine ⟨?_, Nat.le_succ _⟩
  change log.hard.toList <+: (log.hard.push _).toList
  rw [Array.toList_push]
  exact List.prefix_append _ _

theorem le_prefer (log : Log) (weight : Nat) (formula : Formula) :
    log ≤ log.prefer weight formula :=
  ⟨List.prefix_rfl, Nat.le_refl _⟩

theorem le_fresh (log : Log) (stem : String) (allowed : isStem stem) :
    log ≤ (log.fresh stem allowed).2 :=
  ⟨List.prefix_rfl, Nat.le_succ _⟩

end Log

namespace ClassFacts

/-- An inherited method has the type of its origin. -/
def inheritance (facts : ClassFacts) (method origin : String) : Assertion :=
  ⟨"Inherited method " ++ method ++ " in subclass " ++ facts.name
      ++ " has same type as that in superclass " ++ origin,
    [.eq (facts.attr method) (.classAttr origin method)]⟩

/-- A parameter takes what that of the base takes. -/
def contravariance (facts : ClassFacts) (method base : String) (baseArgs args index : Nat) :
    Assertion :=
  ⟨Infer.inLine "Arguments contravariance" facts.line,
    [.subtype facts.method (.get (TypeSort.funcArg baseArgs (index + 2)) (.classAttr base method))
      (.get (TypeSort.funcArg args (index + 2)) (facts.attr method))]⟩

/-- The result is what the method of the base gives. -/
def covariance (facts : ClassFacts) (method base : String) (baseArgs args : Nat) : Assertion :=
  ⟨Infer.inLine "Return covariance" facts.line,
    [.subtype facts.method (.get (TypeSort.funcResult args) (facts.attr method))
      (.get (TypeSort.funcResult baseArgs) (.classAttr base method))]⟩

end ClassFacts

/-- Whether a method takes no receiver. -/
def MethodShape.isStatic (shape : MethodShape) : Bool := shape.decorators.contains "staticmethod"

namespace ClassFacts

/-- A method with a receiver has been compared with that of a base. -/
def Overrides (facts : ClassFacts) (theory : Theory) (log : Log) (method base : String) : Prop :=
  ∀ shape baseShape, theory.method? facts.name method = some shape →
    theory.method? base method = some baseShape → shape.isStatic = false →
    baseShape.isStatic = false →
    (∀ index, index + 1 < baseShape.args →
      facts.contravariance method base baseShape.args shape.args index ∈ log.hard) ∧
    facts.covariance method base baseShape.args shape.args ∈ log.hard

/-- A member has been checked. An initialiser is no method here. -/
structure ChecksMember (facts : ClassFacts) (theory : Theory) (log : Log) (member : String) :
    Prop where
  inherited : member ≠ "__init__" → facts.methods.contains member = true →
    ∀ {origin}, facts.inherited.get? member = some origin →
    facts.inheritance member origin ∈ log.hard
  own : member ≠ "__init__" → facts.inherited.contains member = false →
    facts.bound.contains member = true → ∀ base ∈ facts.bases,
    (theory.method? base member).isSome → facts.Overrides theory log member base

/-- All members of a class have been checked. -/
structure IsChecked (facts : ClassFacts) (theory : Theory) (log : Log) : Prop where
  methods : theory.survey.methods.get? facts.name = some facts.methods
  inherited : theory.survey.inheritance.supers.get? facts.name = some facts.inherited
  members : ∀ {member}, theory.hasInstanceAttr facts.name member = true →
    facts.ChecksMember theory log member

variable {facts : ClassFacts} {theory : Theory} {log more : Log}

theorem Overrides.mono {method base : String} (before : facts.Overrides theory log method base)
    (le : log ≤ more) : facts.Overrides theory more method base := by
  intro shape baseShape own given ownReceiver receiver
  obtain ⟨args, result⟩ := before _ _ own given ownReceiver receiver
  exact ⟨fun index within => Log.mem_of_le le (args index within), Log.mem_of_le le result⟩

theorem ChecksMember.mono {member : String} (before : facts.ChecksMember theory log member)
    (le : log ≤ more) : facts.ChecksMember theory more member :=
  ⟨fun notInit isMethod _ from_ => Log.mem_of_le le (before.inherited notInit isMethod from_),
    fun notInit own bound base isBase has => (before.own notInit own bound base isBase has).mono le⟩

theorem IsChecked.mono (before : facts.IsChecked theory log) (le : log ≤ more) :
    facts.IsChecked theory more :=
  ⟨before.methods, before.inherited, fun isMember => (before.members isMember).mono le⟩

end ClassFacts

namespace Session

/-- Nothing is taken back, and new classes have been checked. -/
structure Extends (before after : Session) : Prop where
  theory : after.theory = before.theory
  sources : after.sources = before.sources
  method : after.method = before.method
  log : before.log ≤ after.log
  declared : ∀ {name scope}, before.declared.get? name = some scope →
    after.declared.get? name = some scope
  classes : ∀ entry ∈ before.classes, entry ∈ after.classes
  checked : ∀ entry ∈ after.classes, entry ∈ before.classes ∨
    entry.1.IsChecked after.theory after.log

instance : Preorder Session where
  le := Extends
  le_refl _ := ⟨rfl, rfl, rfl, le_rfl, id, fun _ => id, fun _ => .inl⟩
  le_trans _ _ _ first second :=
    { theory := second.theory.trans first.theory
      sources := second.sources.trans first.sources
      method := second.method.trans first.method
      log := first.log.trans second.log
      declared := fun known => second.declared (first.declared known)
      classes := fun entry member => second.classes entry (first.classes entry member)
      checked := by
        intro entry member
        rcases second.checked entry member with early | new
        · rw [second.theory]
          exact (first.checked entry early).imp_right fun checked => checked.mono second.log
        · exact .inr new }

/-- Steps that add no class. -/
theorem le_of_classes_eq {before after : Session} (theory : after.theory = before.theory)
    (method : after.method = before.method) (log : before.log ≤ after.log)
    (classes : after.classes = before.classes)
    (sources : after.sources = before.sources := by rfl)
    (declared : after.declared = before.declared := by rfl) : before ≤ after :=
  ⟨theory, sources, method, log, fun known => declared ▸ known, fun _ member => classes ▸ member,
    fun _ member => .inl (classes ▸ member)⟩

/-- Scopes come and go. -/
theorem le_of_scopes (session : Session) (here : Scope) (outer : Chain) :
    session ≤ { session with here := here, outer := outer } :=
  le_of_classes_eq rfl rfl le_rfl rfl

/-- Growth does not hang on the scopes of declarations. -/
theorem le_forget_declared {before after : Session} (le : before ≤ after) :
    ({ before with declared := {} } : Session) ≤ { after with declared := {} } :=
  ⟨le.theory, le.sources, le.method, le.log, id, le.classes, le.checked⟩

theorem le_keepRoot (session : Session) : session ≤ session.keepRoot := by
  unfold keepRoot
  split
  · exact le_rfl
  · exact le_of_classes_eq rfl rfl le_rfl rfl

end Session

namespace Infer

instance (name : String) (type : Meaning) : Grows (bind name type) :=
  Grows.modify fun session => session.le_of_scopes _ _

/-- Turns to a method, if there is one, and back when all has gone well. -/
def withMethod {α : Type} (method : Option Term) (act : Infer α) : Infer α := do
  let saved ← enterMethod method
  let result ← act
  restoreMethod saved
  pure result

/-- On both of its ways out, a function definition turns back to the saved method. -/
theorem functionBody_eq (f : FunctionDef) (isMethod : Bool) (saved : Option Term)
    (steps : List (Infer Meaning)) : functionBody f isMethod saved steps = (do
      let result ← functionBody f isMethod none steps
      restoreMethod saved
      pure result) := by
  unfold functionBody
  simp only [bind_assoc]
  iterate 7 refine congrArg _ (funext fun _ => ?_)
  split
  · rfl
  · cases f.returns <;> simp only [bind_assoc, restoreMethod, pure_bind]

theorem enterMethod_functionBody (f : FunctionDef) (isMethod : Bool) (method : Option Term)
    (steps : List (Infer Meaning)) :
    (do functionBody f isMethod (← enterMethod method) steps) =
      withMethod method (functionBody f isMethod none steps) :=
  congrArg _ (funext fun saved => functionBody_eq f isMethod saved steps)

/-- A run that goes well is one within the method, after which the saved one is back. -/
theorem run_withMethod_eq_ok {α : Type} {method : Option Term} {act : Infer α}
    {session after : Session} {value : α}
    (done : (withMethod method act).run session = (.ok value, after)) :
    ∃ inner, act.run { session with method := method.getD session.method } = (.ok value, inner) ∧
      after = { inner with method := if method.isSome then session.method else inner.method } := by
  obtain ⟨saved, mid, isSaved, done⟩ := run_bind_ok done
  obtain ⟨result, inner, run, done⟩ := run_bind_ok done
  obtain ⟨_, last, isLast, done⟩ := run_bind_ok done
  obtain ⟨rfl, rfl⟩ := run_pure_ok done
  cases method with
  | none =>
    obtain ⟨rfl, rfl⟩ := run_pure_ok isSaved
    obtain ⟨-, rfl⟩ := run_pure_ok isLast
    exact ⟨_, run, rfl⟩
  | some method =>
    obtain ⟨isOk, rfl⟩ := Prod.mk.inj isSaved
    obtain rfl := Except.ok.inj isOk
    obtain ⟨-, rfl⟩ := Prod.mk.inj isLast
    exact ⟨_, run, rfl⟩

/-- The method is the same again afterwards. -/
instance {α : Type} (method : Option Term) (act : Infer α) [grows : Grows act] :
    Grows (withMethod method act) := by
  refine Grows.of_le fun {session value after} done => ?_
  obtain ⟨inner, run, rfl⟩ := run_withMethod_eq_ok done
  have inside := Grows.le run
  refine ⟨inside.theory, inside.sources, ?_, inside.log, inside.declared, inside.classes,
    inside.checked⟩
  cases method with
  | none => exact inside.method
  | some method => rfl

instance (child : Scope) : Grows (addScope child) :=
  Grows.of_le fun {session _ _} done => (Prod.mk.inj done).2 ▸ session.le_of_scopes _ _

instance {α : Type} (index : Nat) (act : Infer α) [grows : Grows act] :
    Grows (inChild index act) := by
  refine Grows.of_le fun {session value after} done => ?_
  change inChild index act session = _ at done
  unfold inChild at done
  split at done
  · exact Grows.le done
  · next child known =>
    obtain ⟨isOk, rfl⟩ := Prod.mk.inj done
    have entered : session ≤ session.enter child := session.le_of_scopes _ _
    refine entered.trans ((Grows.le (Prod.ext isOk rfl)).trans ?_)
    unfold Session.leave
    split
    · exact le_rfl
    · exact Session.le_of_scopes _ _ _

instance (home : Option ModuleKey) (scope : Scope) (act : Infer Unit) [grows : Grows act] :
    Grows (withRoot home scope act) := by
  refine Grows.of_le fun {session value after} done => ?_
  obtain ⟨isOk, rfl⟩ := Prod.mk.inj done
  let start : Session := { session.keepRoot with here := scope, outer := [], home := home }
  obtain ⟨_, inside⟩ : ∃ result, (act.run start.keepRoot).1 = .ok result := by
    cases inside : (act.run start.keepRoot).1 with
    | error fault => exact nomatch (congrArg (Except.map _) inside).symm.trans isOk
    | ok result => exact ⟨result, rfl⟩
  have grown : session ≤ (act.run start.keepRoot).2.keepRoot :=
    calc session
      _ ≤ session.keepRoot := session.le_keepRoot
      _ ≤ start := Session.le_of_classes_eq rfl rfl le_rfl rfl
      _ ≤ start.keepRoot := start.le_keepRoot
      _ ≤ (act.run start.keepRoot).2 := Grows.le (Prod.ext inside rfl)
      _ ≤ (act.run start.keepRoot).2.keepRoot := Session.le_keepRoot _
  exact grown.trans (Session.le_of_classes_eq rfl rfl le_rfl rfl)

end Infer

/-- What steps may do to the scopes that they start in. -/
structure Rights where
  /-- The names that may be bound in the scope. -/
  binds : String → Prop
  /-- The names that may be deleted, in the scope or around it. -/
  deletes : String → Prop
  /-- Whether more may be noted, and modules imported. -/
  notes : Prop
  /-- The scopes below that may be entered, by index. -/
  enters : List Nat := []

namespace Rights

/-- No rights at all. -/
def none : Rights := ⟨fun _ => False, fun _ => False, False, []⟩

/-- All rights but to note anything. -/
def silent : Rights := ⟨fun _ => True, fun _ => True, False, []⟩

variable (deletes : String → Prop)

/-- All rights but those to delete other names. -/
def free : Rights := ⟨fun _ => True, deletes, True, []⟩

/-- All rights but to bind here, and to delete other names. -/
def below : Rights := ⟨fun _ => False, deletes, True, []⟩

/-- The rights of steps that have opened a scope. -/
def opening (rights : Rights) (index : Nat) : Rights :=
  { rights with enters := index :: rights.enters }

/-- The rights within a newly opened scope. -/
def inside (rights : Rights) : Rights := { rights with binds := fun _ => True, enters := [] }

class Binds (rights : Rights) (name : String) : Prop where
  allowed : rights.binds name

class Notes (rights : Rights) : Prop where
  allowed : rights.notes

class Enters (rights : Rights) (index : Nat) : Prop where
  allowed : index ∈ rights.enters

variable (rights : Rights) (index : Nat)

instance (name : String) : (free deletes).Binds name := ⟨trivial⟩

instance : (below deletes).Notes := ⟨trivial⟩

instance [may : rights.Notes] : (rights.opening index).Notes := ⟨may.allowed⟩

instance : (rights.opening index).Enters index := ⟨List.mem_cons_self⟩

instance (other : Nat) [may : rights.Enters index] : (rights.opening other).Enters index :=
  ⟨List.mem_cons_of_mem other may.allowed⟩

end Rights

/-- A change that leaves alone what names stand for and how scopes are nested. -/
structure Session.Notes (before after : Session) : Prop where
  outer : after.outer = before.outer
  name : after.here.name = before.here.name
  isClass : after.here.isClass = before.here.isClass
  isFunction : after.here.isFunction = before.here.isFunction
  types : after.here.types = before.here.types
  narrowed : after.here.narrowed = before.here.narrowed
  body : after.here.body = before.here.body
  children : after.here.children = before.here.children

namespace Infer

/-- Inference that is composed of steps within some rights. -/
class inductive Composed (importer : Importer) : {α : Type} → Infer α → Rights → Prop where
  | pure {rights} {α : Type} (value : α) : (pure value : Infer α).Composed importer rights
  | throw {rights} {α : Type} (fault : Fault) : (throw fault : Infer α).Composed importer rights
  | get {rights} : (get : Infer Session).Composed importer rights
  | lift {rights} {α : Type} (outcome : Except Fault α) :
      (liftM outcome : Infer α).Composed importer rights
  /-- Steps that only add to the log. -/
  | logs {rights} {α : Type} {act : Infer α}
      (only : ∀ {session value after}, act.run session = (.ok value, after) →
        ∃ log, session.log ≤ log ∧ after = { session with log := log }) :
      act.Composed importer rights
  | notes {rights} {change : Session → Session} (may : rights.notes)
      (kept : ∀ session : Session, session.Notes (change session)) :
      (modify change : Infer PUnit).Composed importer rights
  | andThen {rights} {α β : Type} {act : Infer α} {next : α → Infer β}
      (first : act.Composed importer rights)
      (rest : ∀ value, (next value).Composed importer rights) :
      (act >>= next).Composed importer rights
  | binds {rights} {name : String} (may : rights.binds name) (type : Meaning) :
      (bind name type).Composed importer rights
  | unbinds {rights} {name : String} (may : rights.deletes name) :
      (unbind name).Composed importer rights
  | opens {rights} {α : Type} (child : Scope) {next : Nat → Infer α}
      (rest : ∀ index, (next index).Composed importer (rights.opening index)) :
      (addScope child >>= next).Composed importer rights
  | inChild {rights} {α : Type} {index : Nat} {act : Infer α} (may : index ∈ rights.enters)
      (inside : act.Composed importer rights.inside) :
      (inChild index act).Composed importer rights
  /-- A test is noted in a scope opened for it. -/
  | narrows {rights} {index : Nat} (notes : rights.notes) (may : index ∈ rights.enters)
      (narrowing : Narrowing) : (Infer.inChild index (narrow narrowing)).Composed importer rights
  | withMethod {rights} {α : Type} {act : Infer α} (method : Option Term)
      (inside : act.Composed importer rights) : (withMethod method act).Composed importer rights
  | imports {rights} (may : rights.notes) (name : String) :
      (importer name).Composed importer rights

/-- Steps that are all composed within the rights. -/
class ComposedEach (importer : Importer) {α : Type} (steps : List (Infer α)) (rights : Rights) :
    Prop where
  each : ∀ step ∈ steps, step.Composed importer rights

namespace ComposedEach

variable {importer : Importer} {rights : Rights} {α β : Type} {steps : List (Infer α)}

instance (index : Nat) [each : ComposedEach importer steps rights.inside] :
    ComposedEach importer steps (rights.opening index).inside := each

/-- Steps that come with something else. -/
theorem zip (composed : ComposedEach importer steps rights) (others : List β) :
    ∀ entry ∈ others.zip steps, entry.2.Composed importer rights :=
  fun entry member => composed.each entry.2 (List.of_mem_zip member).2

end ComposedEach

end Infer

end TypeInference
