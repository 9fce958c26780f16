/- What a property of inferences needs so that all rules keep it. -/

import TypeInference.Proofs.ConstraintFaults
import TypeInference.Proofs.DefinitionPlaces

namespace TypeInference

open List

/-- Which names can be looked up, depending on the theory. -/
abbrev Known := Theory → String → Prop

/-- The names that can be looked up in a new scope: those that it starts with, and those around it
unless it is that of a function. -/
def Known.within (known : Known) (body : List Stmt) (isFunction : Bool) : Known :=
  fun theory name => name ∈ theory.announced body ∨ isFunction = false ∧ known theory name

/-- Names that can be looked up, given those around the scope. -/
structure Scope.Offers (scope : Scope) (known names : String → Prop) : Prop where
  plain : (scope.isClass && scope.isFunction) = false
  visible : ∀ {name}, names name → scope.types.contains name = true ∨
    scope.isFunction = false ∧ known name

/-- What steps may do, and which names they know. -/
structure Grants extends Rights where
  /-- The names that can be looked up unless they are deleted. -/
  known : Known
  /-- The names that can be looked up within scopes below. -/
  offers : List (Nat × Known) := []

namespace Grants

/-- Rights without any knowledge. -/
def of (rights : Rights) : Grants :=
  ⟨rights, fun _ _ => False, rights.enters.map fun index => (index, fun _ _ => False)⟩

/-- All rights but those to delete other names. -/
def free (deletes : String → Prop) (known : Known) : Grants := ⟨.free deletes, known, []⟩

def opening (grants : Grants) (index : Nat) (names : Known) : Grants :=
  ⟨grants.toRights.opening index, grants.known, (index, names) :: grants.offers⟩

def inside (grants : Grants) (names : Known) : Grants := ⟨grants.toRights.inside, names, []⟩

class Binds (grants : Grants) (name : String) : Prop where
  allowed : grants.binds name

class Notes (grants : Grants) : Prop where
  allowed : grants.notes

/-- A scope below may be entered, with some names known. -/
class Enters (grants : Grants) (index : Nat) (names : outParam Known) : Prop where
  allowed : index ∈ grants.enters
  offered : (index, names) ∈ grants.offers

/-- Some names are known in a new scope. -/
class Opens (grants : Grants) (body : List Stmt) (isFunction : Bool) (names : outParam Known) :
    Prop where
  visible : ∀ {theory name}, names theory name → grants.known.within body isFunction theory name

/-- The rights that are granted. -/
class Have (grants : Grants) (rights : outParam Rights) : Prop where
  eq : grants.toRights = rights

section

variable (rights : Rights) (grants : Grants) (index : Nat) (names others : Known)
  (deletes : String → Prop) (name : String)

instance : (of rights).Have rights := ⟨rfl⟩

instance [given : grants.Have rights] : (grants.opening index names).Have (rights.opening index) :=
  ⟨congrArg (·.opening index) given.eq⟩

instance [given : grants.Have rights] : (grants.inside names).Have rights.inside :=
  ⟨congrArg (·.inside) given.eq⟩

instance [may : rights.Binds name] : (of rights).Binds name := ⟨may.allowed⟩

instance [may : rights.Notes] : (of rights).Notes := ⟨may.allowed⟩

instance [may : rights.Enters index] : (of rights).Enters index fun _ _ => False :=
  ⟨may.allowed, mem_map_of_mem may.allowed⟩

instance : (free deletes names).Binds name := ⟨trivial⟩

instance : (free deletes names).Notes := ⟨trivial⟩

instance : (grants.inside names).Binds name := ⟨trivial⟩

instance [may : grants.Binds name] : (grants.opening index names).Binds name :=
  ⟨may.allowed⟩

instance [may : grants.Notes] : (grants.opening index names).Notes := ⟨may.allowed⟩

instance : (grants.opening index names).Enters index names := ⟨mem_cons_self, mem_cons_self⟩

instance (other : Nat) [may : grants.Enters index names] :
    (grants.opening other others).Enters index names :=
  ⟨mem_cons_of_mem _ may.allowed, mem_cons_of_mem _ may.offered⟩

instance (priority := low) (body : List Stmt) (isFunction : Bool) :
    grants.Opens body isFunction (grants.known.within body isFunction) := ⟨id⟩

instance (body : List Stmt) (isFunction : Bool) :
    (free deletes names).Opens body isFunction (names.within body isFunction) := ⟨id⟩

instance (body : List Stmt) (isFunction : Bool) [opens : grants.Opens body isFunction names] :
    (grants.opening index others).Opens body isFunction names := ⟨opens.visible⟩

end

end Grants

/-- A property of steps and of what is put together from them. -/
structure Law where
  holds : {α : Type} → Infer α → Grants → Prop
  /-- The limits that all faults have to be within. -/
  within : Limits → Prop
  /-- Whether classes may be kept as defined. -/
  defines : Prop
  gives : ∀ {grants} {α : Type} (value : α), holds (pure value) grants
  fails : ∀ {grants} {α : Type} {fault : Fault},
    (∀ limits, within limits → limits.Accepts fault) → holds (throw fault : Infer α) grants
  lifts : ∀ {grants} {α : Type} {outcome : Except Fault α},
    (∀ limits, within limits → FailsWith limits.Accepts outcome) →
    holds (liftM outcome : Infer α) grants
  /-- The theory is the one that the limits are about. -/
  reads : ∀ {grants} {α : Type} {next : Session → Infer α},
    (∀ session, (∀ limits, within limits → limits.IsAbout session.theory) →
      holds (next session) grants) → holds (get >>= next) grants
  /-- Steps that only add to the log. -/
  logs : ∀ {grants} {α : Type} {act : Infer α},
    (∀ {session value after}, act.run session = (.ok value, after) →
      ∃ log, session.log ≤ log ∧ after = { session with log := log }) →
    (∀ limits, within limits → ∀ session, FailsWith limits.Accepts (act.run session).1) →
    holds act grants
  notes : ∀ {grants : Grants} {change : Session → Session}, grants.notes →
    (∀ session : Session, session.Notes (change session)) →
    (∀ session, session ≤ change session) →
    (∀ session, (change session).names = session.names) →
    holds (modify change : Infer PUnit) grants
  keeps : ∀ {grants : Grants}, grants.notes → defines → ∀ entry,
    holds (modify fun session => { session with classes := session.classes ++ [entry] } :
      Infer PUnit) grants
  /-- Only the values matter that a step can give. -/
  follows : ∀ {grants} {α β : Type} {act : Infer α} {next : α → Infer β}, holds act grants →
    (∀ value, (∀ limits, within limits → ∃ session after, limits.IsAbout session.theory ∧
      act.run session = (.ok value, after)) → holds (next value) grants) →
    holds (act >>= next) grants
  binds : ∀ {grants : Grants} {name}, grants.binds name → ∀ type,
    holds (Infer.bind name type) grants
  unbinds : ∀ {grants : Grants} {name}, grants.deletes name → holds (Infer.unbind name) grants
  finds : ∀ {grants : Grants} {name}, (∀ limits, within limits → limits.unknown name ∨
      grants.known limits.theory name ∧ ¬ grants.deletes name) →
    holds (Infer.findDefinition name) grants
  opens : ∀ {grants : Grants} {α : Type} (child : Scope) (names : Known) {next : Nat → Infer α},
    (∀ limits, within limits → child.Offers (grants.known limits.theory) (names limits.theory)) →
    (∀ index, holds (next index) (grants.opening index names)) →
    holds (Infer.addScope child >>= next) grants
  enters : ∀ {grants : Grants} {α : Type} {index : Nat} {names : Known} {act : Infer α},
    index ∈ grants.enters → (index, names) ∈ grants.offers → holds act (grants.inside names) →
    holds (Infer.inChild index act) grants
  narrows : ∀ {grants : Grants} {index : Nat}, grants.notes → index ∈ grants.enters →
    ∀ narrowing, holds (Infer.inChild index (Infer.narrow narrowing)) grants
  method : ∀ {grants} {α : Type} {act : Infer α} (method : Option Term), holds act grants →
    holds (Infer.withMethod method act) grants

namespace Law

/-- The limits that are to be kept. -/
abbrev Limit (law : Law) : Type := { limits : Limits // law.within limits }

class Defines (law : Law) : Prop where
  allowed : law.defines

/-- The sort allows the number, or it may be blamed. -/
class Allows (law : Law) (arity : Arity) (most : TypeSort → Nat) (count : Nat) : Prop where
  blamed : ∀ limits : law.Limit, most limits.1.theory.sort < count → limits.1.blamed arity

class Covers (law : Law) (node : Node) : Prop where
  all : ∀ limits : law.Limit, limits.1.Covers node

/-- A definition may be unknown, or its name is known. -/
class Finds (law : Law) (grants : Grants) (name : String) : Prop where
  found : ∀ limits : law.Limit, limits.1.unknown name ∨
    grants.known limits.1.theory name ∧ ¬ grants.deletes name

/-- There are no limits to keep. -/
class IsFree (law : Law) : Prop where
  free : ∀ limits, ¬ law.within limits

variable (law : Law)

section

variable [free : law.IsFree]

instance (arity : Arity) (most : TypeSort → Nat) (count : Nat) : law.Allows arity most count :=
  ⟨fun limits => absurd limits.2 (free.free _)⟩

instance (node : Node) : law.Covers node := ⟨fun limits => absurd limits.2 (free.free _)⟩

instance (grants : Grants) (name : String) : law.Finds grants name :=
  ⟨fun limits => absurd limits.2 (free.free _)⟩

end

variable {law}

instance (grants : Grants) (index : Nat) (names : Known) (name : String)
    [finds : law.Finds grants name] : law.Finds (grants.opening index names) name := ⟨finds.found⟩

/-- A law covers what is below a node. -/
theorem Covers.child {node child : Node} (covers : law.Covers node)
    (member : child ∈ node.children) : law.Covers child :=
  ⟨fun limits => (covers.all limits).child member⟩

theorem Covers.fits {node : Node} (covers : law.Covers node) (limits : law.Limit) :
    limits.1.Fits node := (Node.all_iff.mp (covers.all limits)).1

/-- A traversal gives as many results as it has steps. -/
theorem Allows.of_mapM {arity : Arity} {most : TypeSort → Nat} {α β : Type} {values : List α}
    {act : α → Infer β} {results : List β} (allows : law.Allows arity most values.length)
    (done : ∀ limits, law.within limits → ∃ session after, limits.IsAbout session.theory ∧
      (values.mapM act).run session = (.ok results, after)) :
    law.Allows arity most results.length := by
  refine ⟨fun limits => ?_⟩
  obtain ⟨_, _, -, run⟩ := done _ limits.2
  rw [length_of_run_mapM run]
  exact allows.blamed limits

end Law

namespace Infer

class Obeys {α : Type} (act : Infer α) (law : Law) (grants : Grants) : Prop where
  holds : law.holds act grants

variable {law : Law} {grants : Grants} {α β : Type} (name : String) (index : Nat)

namespace Obeys

instance pure (value : α) : (pure value : Infer α).Obeys law grants := ⟨law.gives value⟩

theorem throw {fault : Fault} (accepts : ∀ limits : law.Limit, limits.1.Accepts fault) :
    (throw fault : Infer α).Obeys law grants := ⟨law.fails fun limits is => accepts ⟨limits, is⟩⟩

instance (fault : Fault) [off : IsOff fault.isLimited] :
    (MonadExcept.throw fault : Infer α).Obeys law grants :=
  throw fun _ => Tolerates.of_isOff off.eq

instance lift (outcome : Except Fault α) [fails : ∀ limits : law.Limit,
    FailsWith limits.1.Accepts outcome] : (liftM outcome : Infer α).Obeys law grants :=
  ⟨law.lifts fun limits is => fails ⟨limits, is⟩⟩

variable {act : Infer α} {next : α → Infer β} {values : List α}

/-- The rest need obey the law only for results of the first step. -/
theorem bind_of_ok (first : act.Obeys law grants)
    (rest : ∀ value, (∀ limits, law.within limits → ∃ session after,
      limits.IsAbout session.theory ∧ act.run session = (.ok value, after)) →
      (next value).Obeys law grants) : (act >>= next).Obeys law grants :=
  ⟨law.follows first.holds fun value done => (rest value done).holds⟩

theorem andThen (first : act.Obeys law grants) (rest : ∀ value, (next value).Obeys law grants) :
    (act >>= next).Obeys law grants :=
  bind_of_ok first fun value _ => rest value

instance sequence [first : act.Obeys law grants] [rest : ∀ value, (next value).Obeys law grants] :
    (act >>= next).Obeys law grants :=
  andThen first rest

instance (priority := high) throw_bind {fault : Fault} (next : α → Infer β)
    [fails : (MonadExcept.throw fault : Infer β).Obeys law grants] :
    ((MonadExcept.throw fault : Infer α) >>= next).Obeys law grants := fails

theorem reads {next : Session → Infer α} (rest : ∀ session,
      (∀ limits : law.Limit, limits.1.IsAbout session.theory) → (next session).Obeys law grants) :
    (get >>= next).Obeys law grants :=
  ⟨law.reads fun session about => (rest session fun limits => about limits.1 limits.2).holds⟩

instance get : (get : Infer Session).Obeys law grants :=
  bind_pure (MonadState.get : Infer Session) ▸ reads fun session _ => .pure session

instance ite {condition : Prop} [Decidable condition] {other : Infer α} [act.Obeys law grants]
    [other.Obeys law grants] : (if condition then act else other).Obeys law grants := by
  split <;> infer_instance

/-- A law holds of a sequence if it holds of its steps. -/
theorem isSequential : IsSequential fun α (act : Infer α) => act.Obeys law grants :=
  ⟨.pure, .andThen⟩

theorem mapM_of_mem {act : α → Infer β} (each : ∀ value ∈ values, (act value).Obeys law grants) :
    (values.mapM act).Obeys law grants := isSequential.mapM_of_mem each

instance mapM {act : α → Infer β} [each : ∀ value, (act value).Obeys law grants]
    (values : List α) : (values.mapM act).Obeys law grants :=
  mapM_of_mem fun value _ => each value

theorem flatMapM_of_mem {act : α → Infer (List β)}
    (each : ∀ value ∈ values, (act value).Obeys law grants) :
    (values.flatMapM act).Obeys law grants := isSequential.flatMapM_of_mem each

theorem forM_of_mem {act : α → Infer PUnit}
    (each : ∀ value ∈ values, (act value).Obeys law grants) :
    (values.forM act).Obeys law grants := isSequential.forM_of_mem each

instance forM {act : α → Infer PUnit} [each : ∀ value, (act value).Obeys law grants]
    (values : List α) : (values.forM act).Obeys law grants :=
  forM_of_mem fun value _ => each value

instance foldlM {act : β → α → Infer β} [each : ∀ start value, (act start value).Obeys law grants]
    (values : List α) (start : β) : (values.foldlM act start).Obeys law grants :=
  isSequential.foldlM_of_mem (fun start value _ => each start value) start

instance of_id (act : Infer α) [obeys : act.Obeys law grants] : (id act).Obeys law grants := obeys

end Obeys

/-- Steps that all obey a law. -/
class ObeysEach {α : Type} (steps : List (Infer α)) (law : Law) (grants : Grants) : Prop where
  each : ∀ step ∈ steps, step.Obeys law grants

namespace ObeysEach

instance of_subtype (step : { act : Infer α // act.Obeys law grants }) : step.1.Obeys law grants :=
  step.2

theorem nil : ObeysEach ([] : List (Infer α)) law grants := ⟨forall_mem_nil _⟩

theorem cons {step : Infer α} {steps : List (Infer α)} (first : step.Obeys law grants)
    (rest : ObeysEach steps law grants) : ObeysEach (step :: steps) law grants :=
  ⟨forall_mem_cons.mpr ⟨first, rest.each⟩⟩

instance {steps : List (Infer α)} (names others : Known)
    [each : ObeysEach steps law (grants.inside names)] :
    ObeysEach steps law ((grants.opening index others).inside names) := each

instance {steps : List (Infer α)} {deletes : String → Prop} (known names : Known)
    [each : ObeysEach steps law (.free deletes names)] :
    ObeysEach steps law ((Grants.free deletes known).inside names) := each

variable (steps : List (Infer α)) [ObeysEach steps law grants]

/-- Steps that come with something else. -/
theorem zip (others : List β) : ∀ entry ∈ others.zip steps, entry.2.Obeys law grants :=
  fun entry member => each entry.2 (of_mem_zip member).2

instance mapM (act : Infer α → Infer β)
    [obeys : ∀ step : { act : Infer α // act.Obeys law grants }, (act step.1).Obeys law grants] :
    (steps.mapM act).Obeys law grants :=
  .mapM_of_mem fun step member => obeys ⟨step, each step member⟩

instance forM (act : Infer α → Infer PUnit)
    [obeys : ∀ step : { act : Infer α // act.Obeys law grants }, (act step.1).Obeys law grants] :
    (steps.forM act).Obeys law grants :=
  .forM_of_mem fun step member => obeys ⟨step, each step member⟩

end ObeysEach

instance (stem : String) (allowed : Log.isStem stem = true) :
    (fresh stem allowed).Obeys law grants := by
  refine ⟨law.logs (fun {session _ _} done => ?_) fun _ _ _ => .ok _⟩
  exact ⟨_, session.log.le_fresh stem allowed, (Prod.mk.inj done).2.symm⟩

instance (message : String) (parts : List Formula) : (assert message parts).Obeys law grants := by
  refine ⟨law.logs (fun {session _ _} done => ?_) fun _ _ _ => .ok _⟩
  exact ⟨_, session.log.le_assert message parts, (Prod.mk.inj done).2.symm⟩

instance (formula : Formula) (weight : Nat) : (prefer formula weight).Obeys law grants := by
  refine ⟨law.logs (fun {session _ after} done => ?_) fun _ _ _ => .ok _⟩
  have is : (if session.theory.settings.softConstraints then
      { session with log := session.log.prefer weight formula } else session) = after :=
    (Prod.mk.inj done).2
  split at is
  · exact ⟨_, session.log.le_prefer weight formula, is.symm⟩
  · exact ⟨_, le_rfl, is.symm⟩

instance (act : Hint.Reading α) [plain : act.IsPlain] : (reading act).Obeys law grants := by
  refine ⟨law.logs (fun {session _ after} done => ?_) fun limits is _ =>
    ⟨((plain.respects (fun _ => True) limits.Accepts).run trivial).fault⟩⟩
  have : Hint.IsStable (session.log ≤ ·.log) :=
    { fresh {progress} stem allowed reached := reached.trans (progress.log.le_fresh stem allowed)
      assert {progress} message parts reached :=
        reached.trans (progress.log.le_assert message parts)
      draw {progress _} _ reached := reached.trans (progress.log.le_fresh "generic" rfl)
      reset := id }
  obtain ⟨isOk, rfl⟩ := Prod.mk.inj done
  let start : Hint.Progress := { log := session.log }
  have grown := (plain.respects (session.log ≤ ·.log) fun _ => True).run (le_refl start.log)
  exact ⟨_, grown.state isOk, rfl⟩

theorem obeys_notes [may : grants.Notes] {change : Session → Session}
    (kept : ∀ session : Session, session.Notes (change session))
    (grown : ∀ session, session ≤ change session)
    (names : ∀ session, (change session).names = session.names) :
    (modify change : Infer PUnit).Obeys law grants := ⟨law.notes may.allowed kept grown names⟩

instance (type : Meaning) [may : grants.Binds name] :
    (bind name type).Obeys law grants := ⟨law.binds may.allowed type⟩

instance : (restoreMethod none).Obeys law grants := .pure ()

instance (method : Option Term) (act : Infer α) [inside : act.Obeys law grants] :
    (withMethod method act).Obeys law grants := ⟨law.method method inside.holds⟩

instance (names : Known) (act : Infer α) [may : grants.Enters index names]
    [inside : act.Obeys law (grants.inside names)] : (inChild index act).Obeys law grants :=
  ⟨law.enters may.allowed may.offered inside.holds⟩

instance (names : Known) (narrowing : Narrowing) [notes : grants.Notes]
    [may : grants.Enters index names] : (inChild index (narrow narrowing)).Obeys law grants :=
  ⟨law.narrows notes.allowed may.allowed narrowing⟩

instance : theory.Obeys law grants := by
  unfold theory
  infer_instance

instance : frame.Obeys law grants := by
  unfold frame
  infer_instance

theorem obeys_theory_bind {next : Theory → Infer α} (rest : ∀ theory,
      (∀ limits : law.Limit, limits.1.IsAbout theory) → (next theory).Obeys law grants) :
    (theory >>= next).Obeys law grants := .reads fun session about => rest session.theory about

instance (frame : { frame : Frame // ∀ limits : law.Limit, limits.1.IsAbout frame.theory })
    (limits : law.Limit) : limits.1.IsAbout frame.1.theory := frame.2 limits

instance (priority := high) obeys_frame_bind (next : Frame → Infer α)
    [rest : ∀ frame : { frame : Frame // ∀ limits : law.Limit, limits.1.IsAbout frame.theory },
      (next frame.1).Obeys law grants] : (frame >>= next).Obeys law grants :=
  .reads fun session about => rest ⟨⟨session.theory, session.method⟩, about⟩

instance (sub sup : Term) : (subtype sub sup).Obeys law grants := by
  unfold subtype
  infer_instance

instance (limits : Limits) (chain : Chain) (name : String) :
    FailsWith limits.Accepts (chain.find name) := by
  unfold Chain.find
  split <;> infer_instance

instance : (find name).Obeys law grants := by
  unfold find
  infer_instance

instance [finds : law.Finds grants name] : (findDefinition name).Obeys law grants :=
  ⟨law.finds fun limits is => finds.found ⟨limits, is⟩⟩

instance : typeArgs.Obeys law grants := by
  unfold typeArgs
  infer_instance

instance (isClass isFunction : Bool) (lines : Table String Nat) (body : List Stmt) :
    (newScope name isClass isFunction lines body).Obeys law grants := by
  unfold newScope
  infer_instance

theorem Opens.offers {session : Session} {name : String} {isClass isFunction : Bool}
    {body : List Stmt} {scope : Scope} {log : Log}
    (opens : Opens session name isClass isFunction body scope log)
    (plain : (isClass && isFunction) = false) {names : Known}
    (sees : grants.Opens body isFunction names) :
    scope.Offers (grants.known session.theory) (names session.theory) where
  plain := by rw [opens.isClass, opens.isFunction, plain]
  visible known := by
    rw [opens.contains_iff, opens.isFunction]
    exact sees.visible known

/-- Steps that go on with a new scope of their own. -/
instance (priority := high) openScope_bind (body : List Stmt) (name : String) (isFunction : Bool)
    (next : Nat → Infer α) (names : Known) [sees : grants.Opens body isFunction names]
    [rest : ∀ index, (next index).Obeys law (grants.opening index names)] :
    (openScope body name false isFunction >>= next).Obeys law grants := by
  simp only [openScope, bind_assoc]
  refine .andThen inferInstance fun _ => .bind_of_ok inferInstance fun child done =>
    ⟨law.opens child names (fun limits is => ?_) fun index => (rest index).holds⟩
  obtain ⟨session, _, about, run⟩ := done limits is
  obtain ⟨_, -, opens⟩ := run_newScope_eq_ok run
  exact about.eq ▸ opens.offers rfl sees

instance (priority := high) openClass_bind (c : ClassDef) (next : Nat → Infer α) (names : Known)
    [sees : grants.Opens c.body false names]
    [rest : ∀ index, (next index).Obeys law (grants.opening index names)] :
    (openClass c >>= next).Obeys law grants := by
  simp only [openClass, bind_assoc]
  refine .andThen inferInstance fun _ => .bind_of_ok inferInstance fun child done =>
    ⟨law.opens _ names (fun limits is => ?_) fun index => (rest index).holds⟩
  obtain ⟨session, _, about, run⟩ := done limits is
  obtain ⟨_, -, opens⟩ := run_newScope_eq_ok run
  have offers := about.eq ▸ opens.offers rfl sees
  exact ⟨offers.plain, offers.visible⟩

instance : (child index).Obeys law grants := by
  unfold child
  infer_instance

instance (scope : HintScope) (e : Expr) : (readHint scope (Hint.ofExpr e)).Obeys law grants := by
  unfold readHint
  infer_instance

instance (scope : HintScope) (e : Option Expr) :
    (readHint scope (Hint.ofExpr? e)).Obeys law grants := by
  unfold readHint
  infer_instance

instance (signature : Signature) (args : List Term) (result : Term) :
    (callSignature signature args result).Obeys law grants := by
  unfold callSignature
  infer_instance

instance : Grows (unbind name) := by
  refine Grows.of_le fun {session value after} done => ?_
  rw [unbind, run_get_bind] at done
  obtain ⟨scopes, mid, isChain, rest⟩ := run_bind_ok done
  rw [run_lift] at isChain
  obtain rfl := (Prod.mk.inj isChain).2
  split at rest
  · exact (Prod.mk.inj rest).2 ▸ session.le_of_scopes _ _
  · exact Grows.le rest

end Infer

namespace Law

open Infer

/-- Inference that is composed of steps. -/
def composed (importer : Importer) : Law where
  holds act grants := act.Composed importer grants.toRights
  within _ := False
  defines := True
  gives := .pure
  fails _ := .throw _
  lifts _ := .lift _
  reads rest := .andThen .get fun session => rest session fun _ => False.elim
  logs only _ := .logs only
  notes may kept _ _ := .notes may kept
  keeps may _ _ := .notes may fun _ => ⟨rfl, rfl, rfl, rfl, rfl, rfl, rfl, rfl⟩
  follows first rest := .andThen first fun value => rest value fun _ => False.elim
  binds := .binds
  unbinds := .unbinds
  finds _ := by
    unfold findDefinition
    refine .andThen .get fun session => ?_
    split
    · exact .pure _
    · exact .throw _
  opens child _ _ _ := .opens child
  enters may _ := .inChild may
  narrows := .narrows
  method := .withMethod

/-- Inference that only adds to its session. -/
def growth : Law where
  holds act _ := Grows act
  within _ := False
  defines := False
  gives value _ := .pure value
  fails _ _ := .throw trivial
  lifts _ _ := inferInstance
  reads rest := Grows.andThen inferInstance fun session => rest session fun _ => False.elim
  logs only _ := by
    refine Grows.of_le fun done => ?_
    obtain ⟨log, grown, rfl⟩ := only done
    exact Session.le_of_classes_eq rfl rfl grown rfl
  notes _ _ grown _ := Grows.modify grown
  keeps _ none := none.elim
  follows first rest := Grows.andThen first fun value => rest value fun _ => False.elim
  binds _ _ := inferInstance
  unbinds _ := inferInstance
  finds _ := by
    unfold findDefinition
    refine Grows.andThen inferInstance fun session => ?_
    split <;> infer_instance
  opens _ _ _ _ rest := Grows.andThen inferInstance rest
  enters {_ _ index _ act} _ _ _ := inferInstanceAs (Grows (inChild index act))
  narrows _ _ narrowing := by
    have : Grows (narrow narrowing) := Grows.modify fun session => session.le_of_scopes _ _
    infer_instance
  method {_ _ act} method _ := inferInstanceAs (Grows (withMethod method act))

end Law

namespace Law

variable (importer : Importer)

instance : (composed importer).Defines := ⟨trivial⟩

instance : (composed importer).IsFree := ⟨fun _ => id⟩

instance : growth.IsFree := ⟨fun _ => id⟩

end Law

namespace Infer

variable {importer : Importer} {rights : Rights} {grants : Grants} {α : Type}

theorem Obeys.composed {act : Infer α} (obeys : act.Obeys (.composed importer) grants) :
    act.Composed importer grants.toRights := obeys.holds

instance (priority := low) composed_of_obeys (act : Infer α)
    [obeys : act.Obeys (.composed importer) (.of rights)] : act.Composed importer rights :=
  obeys.composed

instance (priority := low) obeys_of_composed (act : Infer α) [given : grants.Have rights]
    [composed : act.Composed importer rights] : act.Obeys (.composed importer) grants := by
  obtain rfl := given.eq
  exact ⟨composed⟩

instance (priority := low) grows_of_obeys (act : Infer α)
    [obeys : act.Obeys .growth (.of .silent)] : Grows act := obeys.holds

instance (steps : List (Infer α)) [given : grants.Have rights]
    [each : ComposedEach importer steps rights] : ObeysEach steps (.composed importer) grants := by
  obtain rfl := given.eq
  exact ⟨fun step member => ⟨each.each step member⟩⟩

theorem ObeysEach.composed {steps : List (Infer α)}
    (each : ObeysEach steps (.composed importer) grants) :
    ComposedEach importer steps grants.toRights :=
  ⟨fun step member => (each.each step member).composed⟩

end Infer

end TypeInference
