/- What a run can do to the scopes around it. -/

import TypeInference.Proofs.InferenceGrowth

namespace TypeInference

open List Table Session

variable {name : String} {session after : Session}

namespace Scope

variable {binds deletes : String → Prop} {before mid after : Scope} (scope : Scope)

/-- A scope that has only lost names. -/
structure Sheds (deletes : String → Prop) (before after : Scope) : Prop where
  same : after = { before with types := after.types }
  types : ∀ name, after.types.get? name = before.types.get? name ∨
    deletes name ∧ after.types.get? name = none
  distinct : before.types.keys.Nodup → after.types.keys.Nodup

/-- A scope in which names have been bound and lost. -/
structure Evolves (binds deletes : String → Prop) (before after : Scope) : Prop where
  isClass : after.isClass = before.isClass
  isFunction : after.isFunction = before.isFunction
  kept : ∀ {name}, ¬ deletes name → before.types.contains name = true →
    after.types.contains name = true
  bound : ∀ {name}, ¬ binds name → after.types.get? name = before.types.get? name ∨
    deletes name ∧ after.types.get? name = none
  distinct : before.types.keys.Nodup → after.types.keys.Nodup

theorem Sheds.refl : Sheds deletes scope scope :=
  ⟨by cases scope; rfl, fun _ => .inl rfl, id⟩

theorem Sheds.trans (first : Sheds deletes before mid) (second : Sheds deletes mid after) :
    Sheds deletes before after := by
  refine ⟨?_, fun name => ?_, second.distinct ∘ first.distinct⟩
  · rw [second.same, first.same]
  · rcases second.types name with same | lost
    · rw [same]
      exact first.types name
    · exact .inr lost

theorem Sheds.trans_chain {first second third : List Scope}
    (left : Forall₂ (Sheds deletes) first second)
    (right : Forall₂ (Sheds deletes) second third) :
    Forall₂ (Sheds deletes) first third := by
  induction left generalizing third with
  | nil => exact right
  | cons sheds _ ih =>
    obtain ⟨last, others, further, rest, rfl⟩ := forall₂_cons_left_iff.mp right
    exact .cons (sheds.trans further) (ih rest)

/-- What tests have narrowed is not lost with a name. -/
theorem Sheds.map_narrowed {first second : List Scope}
    (shed : Forall₂ (Sheds deletes) first second) :
    second.map (·.narrowed) = first.map (·.narrowed) := by
  induction shed with
  | nil => rfl
  | cons sheds _ ih => rw [map_cons, map_cons, ih, sheds.same]

theorem Evolves.refl : Evolves binds deletes scope scope :=
  ⟨rfl, rfl, fun _ => id, fun _ => .inl rfl, id⟩

theorem Evolves.trans (first : Evolves binds deletes before mid)
    (second : Evolves binds deletes mid after) : Evolves binds deletes before after where
  isClass := second.isClass.trans first.isClass
  isFunction := second.isFunction.trans first.isFunction
  kept spared known := second.kept spared (first.kept spared known)
  bound {name} unbound := by
    rcases second.bound unbound with same | lost
    · rw [same]
      exact first.bound unbound
    · exact .inr lost
  distinct := second.distinct ∘ first.distinct

/-- Scopes that differ in nothing about names. -/
theorem Evolves.of_types_eq (isClass : after.isClass = before.isClass)
    (isFunction : after.isFunction = before.isFunction) (types : after.types = before.types) :
    Evolves binds deletes before after :=
  ⟨isClass, isFunction, fun _ known => types ▸ known, fun _ => .inl (by rw [types]),
    fun distinct => types ▸ distinct⟩

theorem Evolves.get?_eq (evolves : Evolves binds deletes before after) (unbound : ¬ binds name)
    (spared : ¬ deletes name) : after.types.get? name = before.types.get? name :=
  (evolves.bound unbound).resolve_right fun lost => spared lost.1

/-- A name that may not be bound is not new. -/
theorem Evolves.contains_before (evolves : Evolves binds deletes before after)
    (unbound : ¬ binds name) (known : after.types.contains name) :
    before.types.contains name := by
  rw [← isSome_get?] at known ⊢
  rcases evolves.bound unbound with same | lost
  · rwa [← same]
  · rw [lost.2] at known
    cases known

theorem Sheds.evolves (sheds : Sheds deletes before after) :
    Evolves binds deletes before after where
  isClass := by rw [sheds.same]
  isFunction := by rw [sheds.same]
  kept {name} spared known := by
    rw [← isSome_get?, (sheds.types name).resolve_right fun lost => spared lost.1, isSome_get?]
    exact known
  bound {name} _ := sheds.types name
  distinct := sheds.distinct

theorem evolves_bind (may : binds name) (type : Meaning) :
    Evolves binds deletes scope (scope.bind name type) where
  isClass := rfl
  isFunction := rfl
  kept _ known := contains_insert.mpr (.inr known)
  bound {other} unbound := by
    have different : other ≠ name := by
      rintro rfl
      exact unbound may
    exact .inl (get?_insert_of_ne _ _ different)
  distinct before := nodup_keys_insert before name type

end Scope

namespace Chain

variable {chain other : Chain} {name : String}

/-- Deletion takes one name out of one of the scopes. -/
theorem sheds_delete {deletes : String → Prop} (may : deletes name)
    (done : chain.delete name = .ok other) : Forall₂ (Scope.Sheds deletes) chain other := by
  induction chain generalizing other with
  | nil => cases done
  | cons scope outer ih =>
    unfold delete at done
    split at done
    · obtain rfl := Except.ok.inj done
      refine .cons ⟨rfl, fun entry => ?_, fun distinct => nodup_keys_erase distinct name⟩
        (forall₂_same.mpr fun _ _ => .refl _)
      by_cases same : entry = name
      · subst same
        exact .inr ⟨may, get?_erase_self _ _⟩
      · exact .inl (get?_erase_of_ne _ same)
    · obtain ⟨rest, isRest, rfl⟩ := map_ok done
      exact .cons (.refl scope) (ih isRest)

/-- A name is looked up alike in scopes that agree on it. -/
theorem findFrom_eq (inFunction : Bool)
    (agree : Forall₂ (fun before after : Scope => after.isClass = before.isClass ∧
      after.isFunction = before.isFunction ∧
      after.types.get? name = before.types.get? name) chain other) :
    other.findFrom inFunction name = chain.findFrom inFunction name := by
  induction agree generalizing inFunction with
  | nil => rfl
  | cons same rest ih =>
    obtain ⟨isClass, isFunction, types⟩ := same
    simp only [findFrom, isClass, isFunction, types, ih]

theorem binds_eq (agree : Forall₂ (fun before after : Scope =>
    after.isClass = before.isClass ∧ after.types.contains name = before.types.contains name)
      chain other) : other.binds name = chain.binds name := by
  induction agree with
  | nil => rfl
  | cons same rest ih =>
    simp only [binds, any_cons, same.1, same.2] at ih ⊢
    rw [ih]

/-- A name stays known if no scope loses it. -/
theorem isSome_findFrom (inFunction : Bool)
    (kept : Forall₂ (fun before after : Scope => after.isClass = before.isClass ∧
      after.isFunction = before.isFunction ∧
      (before.types.contains name → after.types.contains name)) chain other)
    (found : (chain.findFrom inFunction name).isSome) :
    (other.findFrom inFunction name).isSome := by
  induction kept generalizing inFunction with
  | nil => exact found
  | @cons before after _ _ same rest ih =>
    obtain ⟨isClass, isFunction, stays⟩ := same
    simp only [findFrom, isClass, isFunction] at found ⊢
    rw [← isSome_get?, ← isSome_get?] at stays
    generalize before.types.get? name = old at found stays
    generalize after.types.get? name = new at stays ⊢
    cases old <;> cases new <;> grind

end Chain

/-- What a run can have done to the scopes of a session. -/
structure Session.Within (rights : Rights) (before after : Session) : Prop where
  here : before.here.Evolves rights.binds rights.deletes after.here
  outer : Forall₂ (Scope.Sheds rights.deletes) before.outer after.outer
  children : ∀ {index child}, before.here.children[index]? = some child →
    ∃ later, after.here.children[index]? = some later ∧
      (index ∉ rights.enters → later = child) ∧
      child.Evolves (fun _ => True) rights.deletes later

namespace Session.Within

variable {rights : Rights} {before mid after : Session}

/-- Steps that change neither the names nor the nesting of scopes. -/
theorem of_eq (isClass : after.here.isClass = before.here.isClass)
    (isFunction : after.here.isFunction = before.here.isFunction)
    (types : after.here.types = before.here.types)
    (children : after.here.children = before.here.children) (outer : after.outer = before.outer) :
    Within rights before after where
  here := .of_types_eq isClass isFunction types
  outer := outer ▸ forall₂_same.mpr fun _ _ => .refl _
  children {_ child} known := ⟨child, by rw [children, known], fun _ => rfl, .refl child⟩

theorem trans (first : Within rights before mid) (second : Within rights mid after) :
    Within rights before after where
  here := first.here.trans second.here
  outer := Scope.Sheds.trans_chain first.outer second.outer
  children {index child} known := by
    obtain ⟨next, isNext, sameNext, evolves⟩ := first.children known
    obtain ⟨later, isLater, sameLater, further⟩ := second.children isNext
    exact ⟨later, isLater, fun away => (sameLater away).trans (sameNext away),
      evolves.trans further⟩

/-- Scopes below the current one stay there. -/
theorem lt_length (within : Within rights before after) {index : Nat}
    (inside : index < before.here.children.length) : index < after.here.children.length := by
  obtain ⟨later, isLater, -⟩ := within.children (getElem?_eq_getElem inside)
  exact (List.getElem?_eq_some_iff.mp isLater).1

end Session.Within

namespace Session

/-- What tests have narrowed in the scopes around. -/
def narrowings (session : Session) : List (Table String Meaning) := session.chain.map (·.narrowed)

theorem narrowings_leave {inner : Session} {child : Scope} (index : Nat)
    (inside : inner.narrowings = (session.enter child).narrowings) :
    (inner.leave index).narrowings = session.narrowings := by
  have around : inner.outer.map (·.narrowed) = session.narrowings := (List.cons.inj inside).2
  rw [leave]
  split
  · next areOuter => rw [areOuter] at around; cases around
  · next areOuter => rw [← around, areOuter]; rfl

/-- Expressions are narrowed alike in like scopes. -/
theorem narrowing?_eq {before : Session} (same : after.narrowings = before.narrowings) (e : Expr) :
    after.chain.narrowing? e = before.chain.narrowing? e := by
  have looked (session : Session) : session.chain.narrowing? e =
      session.narrowings.findSome? fun table => table.get? e.key := by
    rw [narrowings, findSome?_map]
    rfl
  rw [looked, looked, same]

end Session

namespace Infer

/-- An importer that gives the scopes back as they were. -/
class KeepsScopes (importer : Importer) : Prop where
  here : ∀ {name session key after}, (importer name).run session = (.ok key, after) →
    after.here = session.here
  outer : ∀ {name session key after}, (importer name).run session = (.ok key, after) →
    after.outer = session.outer

variable {importer : Importer} {rights : Rights} {α : Type}

theorem within_unbind {here : Scope} {outer : Chain} (may : rights.deletes name)
    (done : session.chain.delete name = .ok (here :: outer)) :
    session.Within rights { session with here := here, outer := outer } := by
  obtain ⟨first, others⟩ := forall₂_cons.mp (Chain.sheds_delete may done)
  refine ⟨first.evolves, others, fun {_ child} known => ⟨child, ?_, fun _ => rfl, .refl child⟩⟩
  rw [first.same]
  exact known

variable {child : Scope} {index : Nat} {act : Infer α} {value : α}
  {relation : Rights → Session → Session → Prop}

/-- A scope that is opened for the steps that follow. -/
theorem within_opens (rest : Session.Within (rights.opening session.here.children.length)
      { session with here := session.here.addChild child } after) :
    session.Within rights after where
  here := ⟨rest.here.isClass, rest.here.isFunction, rest.here.kept, rest.here.bound,
    rest.here.distinct⟩
  outer := rest.outer
  children {index old} known := by
    have inside := (List.getElem?_eq_some_iff.mp known).1
    have still : (session.here.addChild child).children[index]? = some old := by
      rw [← known]
      exact getElem?_append_left inside
    obtain ⟨later, isLater, same, evolves⟩ := rest.children still
    refine ⟨later, isLater, fun away => same fun member => ?_, evolves⟩
    rcases mem_cons.mp member with rfl | earlier
    · exact Nat.lt_irrefl _ inside
    · exact away earlier

/-- A scope below changes alone, but for deletions. -/
theorem within_leave {inner : Session} (known : session.here.children[index]? = some child)
    (may : index ∈ rights.enters)
    (inside : Session.Within rights.inside (session.enter child) inner) :
    session.Within rights (inner.leave index) := by
  obtain ⟨parent, others, shed, rest, areOuter⟩ := forall₂_cons_left_iff.mp inside.outer
  have sameChildren : parent.children = session.here.children := by rw [shed.same]
  rw [leave, areOuter]
  refine ⟨?_, rest, fun {place old} isOld => ?_⟩
  · have evolves : session.here.Evolves rights.binds rights.deletes parent := shed.evolves
    exact ⟨evolves.isClass, evolves.isFunction, evolves.kept, evolves.bound, evolves.distinct⟩
  · dsimp only
    rw [sameChildren]
    by_cases same : place = index
    · subst same
      obtain rfl := Option.some.inj (known.symm.trans isOld)
      have within := (List.getElem?_eq_some_iff.mp known).1
      exact ⟨inner.here, by simp [within], fun away => absurd may away, inside.here⟩
    · exact ⟨old, by rw [getElem?_set_ne (Ne.symm same), isOld], fun _ => rfl, .refl old⟩

theorem run_inChild_eq_ok (known : session.here.children[index]? = some child)
    (done : (inChild index act).run session = (.ok value, after)) :
    ∃ inner, act.run (session.enter child) = (.ok value, inner) ∧ after = inner.leave index := by
  change inChild index act session = _ at done
  simp only [inChild, known] at done
  obtain ⟨isOk, isAfter⟩ := Prod.mk.inj done
  exact ⟨_, Prod.ext isOk rfl, isAfter.symm⟩

/-- A relation that holds of each step and of composed ones. -/
structure HoldsOfSteps (relation : Rights → Session → Session → Prop) : Prop where
  refl : ∀ {rights} (session : Session), relation rights session session
  trans : ∀ {rights} {before mid after : Session}, relation rights before mid →
    relation rights mid after → relation rights before after
  logs : ∀ {rights} {session : Session} {log : Log}, session.log ≤ log →
    relation rights session { session with log := log }
  notes : ∀ {rights} {before after : Session}, rights.notes → before.Notes after →
    relation rights before after
  binds : ∀ {rights} {name : String} (session : Session) (type : Meaning), rights.binds name →
    relation rights session { session with here := session.here.bind name type }
  unbinds : ∀ {rights} {name : String} {session : Session} {here : Scope} {outer : Chain},
    rights.deletes name → session.chain.delete name = .ok (here :: outer) →
    relation rights session { session with here := here, outer := outer }
  opens : ∀ {rights} {session after : Session} {child : Scope},
    relation (rights.opening session.here.children.length)
      { session with here := session.here.addChild child } after → relation rights session after
  leaves : ∀ {rights} {session inner : Session} {index : Nat} {child : Scope},
    session.here.children[index]? = some child → index ∈ rights.enters →
    relation rights.inside (session.enter child) inner →
    relation rights session (inner.leave index)
  narrows : ∀ {rights} {session : Session} {index : Nat} {child : Scope},
    session.here.children[index]? = some child → index ∈ rights.enters → rights.notes →
    ∀ narrowed, relation rights session
      ((session.enter { child with narrowed := narrowed }).leave index)
  method : ∀ {rights} {session after : Session} {method : Term},
    relation rights { session with method := method } after →
    relation rights session { after with method := session.method }
  imports : ∀ {rights} {before after : Session}, rights.notes → after.here = before.here →
    after.outer = before.outer → relation rights before after

/-- What holds of each step holds of a run, if the scopes exist that it may enter. -/
theorem Composed.relates_of_lt_length [keeps : KeepsScopes importer]
    (composed : act.Composed importer rights) (holds : HoldsOfSteps relation)
    (lt_length : ∀ {rights before after}, relation rights before after → ∀ {index},
      index < before.here.children.length → index < after.here.children.length)
    (exist : ∀ index ∈ rights.enters, index < session.here.children.length)
    (done : act.run session = (.ok value, after)) : relation rights session after := by
  induction composed generalizing session after with
  | pure | get =>
    obtain rfl := (Prod.mk.inj done).2
    exact holds.refl session
  | throw fault =>
    exact absurd done run_throw_ne_ok
  | lift outcome =>
    obtain rfl := (Prod.mk.inj done).2
    exact holds.refl session
  | logs only =>
    obtain ⟨log, grown, rfl⟩ := only done
    exact holds.logs grown
  | notes may kept =>
    obtain rfl := (Prod.mk.inj done).2
    exact holds.notes may (kept session)
  | andThen first rest ihFirst ihRest =>
    obtain ⟨result, mid, start, finish⟩ := run_bind_ok done
    have begun := ihFirst exist start
    have still := fun index member => lt_length begun (exist index member)
    exact holds.trans begun (ihRest result still finish)
  | binds may type =>
    obtain rfl := (Prod.mk.inj done).2
    exact holds.binds session type may
  | unbinds may =>
    rw [unbind, run_get_bind] at done
    obtain ⟨scopes, _, looked, rest⟩ := run_bind_ok done
    obtain ⟨isChain, rfl⟩ := Prod.mk.inj looked
    cases scopes with
    | nil => cases Chain.sheds_delete may isChain
    | cons here outer =>
      obtain rfl := (Prod.mk.inj rest).2
      exact holds.unbinds may isChain
  | opens child rest ih =>
    obtain ⟨index, mid, opened, finish⟩ := run_bind_ok done
    obtain ⟨isIndex, rfl⟩ := Prod.mk.inj opened
    obtain rfl := Except.ok.inj isIndex
    refine holds.opens (ih _ (fun index member => ?_) finish)
    have longer : (session.here.addChild child).children.length =
      session.here.children.length + 1 := length_append
    rcases mem_cons.mp member with rfl | earlier
    · exact longer ▸ Nat.lt_succ_self _
    · exact longer ▸ Nat.lt_succ_of_lt (exist index earlier)
  | @inChild rights _ index act may inside ih =>
    have known := getElem?_eq_getElem (exist index may)
    obtain ⟨inner, run, rfl⟩ := run_inChild_eq_ok known done
    exact holds.leaves known may (ih (forall_mem_nil _) run)
  | @narrows rights index notes may narrowing =>
    have known := getElem?_eq_getElem (exist index may)
    obtain ⟨inner, run, rfl⟩ := run_inChild_eq_ok known done
    obtain rfl := (Prod.mk.inj run).2
    exact holds.narrows known may notes _
  | @withMethod rights _ act method inside ih =>
    obtain ⟨inner, run, rfl⟩ := run_withMethod_eq_ok done
    cases method with
    | none => exact ih exist run
    | some method =>
      have within : relation rights { session with method := method } inner := ih exist run
      exact holds.method within
  | imports may name =>
    exact holds.imports may (keeps.here done) (keeps.outer done)

theorem holdsOfSteps_within : HoldsOfSteps Session.Within where
  refl _ := .of_eq rfl rfl rfl rfl rfl
  trans := Session.Within.trans
  logs _ := .of_eq rfl rfl rfl rfl rfl
  notes _ noted := .of_eq noted.isClass noted.isFunction noted.types noted.children noted.outer
  binds session type may := ⟨Scope.evolves_bind session.here may type,
    forall₂_same.mpr fun _ _ => .refl _,
    fun {_ child} known => ⟨child, known, fun _ => rfl, .refl child⟩⟩
  unbinds := within_unbind
  opens := within_opens
  leaves := within_leave
  narrows known may _ _ := within_leave known may (.of_eq rfl rfl rfl rfl rfl)
  method within := ⟨within.here, within.outer, within.children⟩
  imports _ here outer := .of_eq (by rw [here]) (by rw [here]) (by rw [here]) (by rw [here]) outer

/-- A run in existing scopes stays within its rights. -/
theorem Composed.within [KeepsScopes importer] (composed : act.Composed importer rights)
    {session after : Session}
    (exist : ∀ index ∈ rights.enters, index < session.here.children.length)
    (done : act.run session = (.ok value, after)) : session.Within rights after :=
  composed.relates_of_lt_length holdsOfSteps_within Session.Within.lt_length exist done

theorem HoldsOfSteps.and {left right : Rights → Session → Session → Prop}
    (first : HoldsOfSteps left) (second : HoldsOfSteps right) :
    HoldsOfSteps fun rights before after =>
      left rights before after ∧ right rights before after where
  refl session := ⟨first.refl session, second.refl session⟩
  trans one two := ⟨first.trans one.1 two.1, second.trans one.2 two.2⟩
  logs grown := ⟨first.logs grown, second.logs grown⟩
  notes may noted := ⟨first.notes may noted, second.notes may noted⟩
  binds session type may := ⟨first.binds session type may, second.binds session type may⟩
  unbinds may shed := ⟨first.unbinds may shed, second.unbinds may shed⟩
  opens rest := ⟨first.opens rest.1, second.opens rest.2⟩
  leaves known may inside := ⟨first.leaves known may inside.1, second.leaves known may inside.2⟩
  narrows known may notes narrowed :=
    ⟨first.narrows known may notes narrowed, second.narrows known may notes narrowed⟩
  method inside := ⟨first.method inside.1, second.method inside.2⟩
  imports may here outer := ⟨first.imports may here outer, second.imports may here outer⟩

/-- What holds of each step holds of a run, if the scopes exist that it may enter. -/
theorem Composed.relates [KeepsScopes importer] (composed : act.Composed importer rights)
    (holds : HoldsOfSteps relation)
    (exist : ∀ index ∈ rights.enters, index < session.here.children.length)
    (done : act.run session = (.ok value, after)) : relation rights session after :=
  (composed.relates_of_lt_length (holdsOfSteps_within.and holds)
    (fun both => Session.Within.lt_length both.1) exist done).2

theorem holdsOfSteps_narrowings :
    HoldsOfSteps fun _ before after => after.narrowings = before.narrowings where
  refl _ := rfl
  trans first second := second.trans first
  logs _ := rfl
  notes _ noted := by simp only [narrowings, chain, map_cons, noted.narrowed, noted.outer]
  binds _ _ _ := rfl
  unbinds may shed := Scope.Sheds.map_narrowed (Chain.sheds_delete may shed)
  opens rest := rest
  leaves {_ _ _ index _} _ _ inside := narrowings_leave index inside
  narrows _ _ _ _ := rfl
  method inside := inside
  imports _ here outer := by rw [narrowings, chain, here, outer]; rfl

/-- A run keeps what tests have narrowed around it. -/
theorem Composed.narrowings_eq [KeepsScopes importer] (composed : act.Composed importer rights)
    (exist : ∀ index ∈ rights.enters, index < session.here.children.length)
    (done : act.run session = (.ok value, after)) : after.narrowings = session.narrowings :=
  composed.relates holdsOfSteps_narrowings exist done

section Modules

variable {body : List Stmt} {key : ModuleKey}

/-- A module of its own leaves the scopes around. -/
theorem scopes_of_run_inModule {home : Option ModuleKey} {act : Infer Unit} (done : (do
      let start ← newScope "" false false {} body
      let _ ← withRoot home start act : Infer Unit).run session = (.ok (), after)) :
    after.here = session.here ∧ after.outer = session.outer := by
  obtain ⟨start, opened, isStart, rest⟩ := run_bind_ok done
  obtain ⟨log, rfl, -⟩ := run_newScope_eq_ok isStart
  obtain ⟨last, left, isLeft, rest⟩ := run_bind_ok rest
  obtain ⟨-, rfl⟩ := run_pure_ok rest
  obtain rfl := (Prod.mk.inj isLeft).2
  exact ⟨rfl, rfl⟩

theorem scopes_of_run_declaredScope {owner : Option String} {scope : Scope}
    (done : (declaredScope importer name owner body).run session = (.ok scope, after)) :
    after.here = session.here ∧ after.outer = session.outer := by
  unfold declaredScope at done
  rw [run_get_bind] at done
  split at done
  · obtain ⟨-, rfl⟩ := run_pure_ok done
    exact ⟨rfl, rfl⟩
  · obtain ⟨stmts, selected, isSelected, rest⟩ := run_bind_ok done
    obtain ⟨start, opened, isOpened, rest⟩ := run_bind_ok rest
    obtain ⟨log, rfl, -⟩ := run_newScope_eq_ok isOpened
    obtain ⟨⟨⟩, noted, isNoted, rest⟩ := run_bind_ok rest
    obtain rfl := (Prod.mk.inj isNoted).2
    obtain ⟨last, left, isLeft, rest⟩ := run_bind_ok rest
    obtain ⟨⟨⟩, kept, isKept, rest⟩ := run_bind_ok rest
    obtain ⟨-, rfl⟩ := run_pure_ok rest
    obtain rfl := (Prod.mk.inj isKept).2
    obtain rfl := (Prod.mk.inj isLeft).2
    obtain ⟨_, -, -, rfl⟩ := run_selectDeclarations_eq_ok isSelected
    exact ⟨rfl, rfl⟩

theorem scopes_of_run_library (done : (library importer key body).run session = (.ok (), after)) :
    after.here = session.here ∧ after.outer = session.outer := by
  obtain ⟨stmts, selected, isSelected, rest⟩ := run_bind_ok done
  obtain ⟨_, -, -, rfl⟩ := run_selectDeclarations_eq_ok isSelected
  have restored := scopes_of_run_inModule rest
  exact restored

theorem scopes_of_run_file (done : (file importer name key body).run session = (.ok (), after)) :
    after.here = session.here ∧ after.outer = session.outer := by
  obtain ⟨⟨⟩, noted, isNoted, rest⟩ := run_bind_ok done
  obtain rfl := (Prod.mk.inj isNoted).2
  rw [run_theory_bind] at rest
  have restored := scopes_of_run_inModule rest
  exact restored

theorem scopes_of_run_moduleTo {depth : Nat}
    (done : (moduleTo depth name).run session = (.ok key, after)) :
    after.here = session.here ∧ after.outer = session.outer := by
  cases depth with
  | zero => exact absurd done run_throw_ne_ok
  | succ depth =>
    change (get >>= _ : Infer ModuleKey).run session = _ at done
    rw [run_get_bind] at done
    dsimp only at done
    generalize (if Library.isLibrary name then ModuleKey.library name
      else .file (Files.moduleName name)) = place at done
    split at done
    · obtain ⟨-, rfl⟩ := run_pure_ok done
      exact ⟨rfl, rfl⟩
    · split at done
      · obtain ⟨⟨⟩, mid, inferred, rest⟩ := run_bind_ok done
        obtain ⟨-, rfl⟩ := run_pure_ok rest
        exact scopes_of_run_library inferred
      · obtain ⟨⟨⟩, mid, inferred, rest⟩ := run_bind_ok done
        obtain ⟨-, rfl⟩ := run_pure_ok rest
        exact scopes_of_run_file inferred
      · exact absurd done run_throw_bind_ne_ok

instance (depth : Nat) : KeepsScopes (moduleTo depth) :=
  ⟨fun done => (scopes_of_run_moduleTo done).1, fun done => (scopes_of_run_moduleTo done).2⟩

instance : KeepsScopes Infer.importer where
  here {_ session _ _} done := by
    rw [Infer.importer, run_get_bind] at done
    exact (scopes_of_run_moduleTo done).1
  outer {_ session _ _} done := by
    rw [Infer.importer, run_get_bind] at done
    exact (scopes_of_run_moduleTo done).2

end Modules

end Infer

end TypeInference
