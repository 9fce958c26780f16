/- Going by limits is a law: inference keeps names known. -/

import TypeInference.Proofs.ScopeChanges

namespace TypeInference

open List

variable {limits : Limits} {grants : Grants} {name : String} {scope : Scope}

/-- Names can be looked up here, and others in scopes below. -/
structure Limits.Knows (limits : Limits) (grants : Grants) (session : Session) : Prop where
  holds : limits.Holds session
  exist : ∀ index ∈ grants.enters, index < session.here.children.length
  known : ∀ {name}, grants.known limits.theory name → ¬ grants.deletes name →
    (session.chain.find? name).isSome = true
  offers : ∀ {index names}, (index, names) ∈ grants.offers → ∃ child,
    session.here.children[index]? = some child ∧ ∀ {name}, names limits.theory name →
      ¬ grants.deletes name → (Chain.find? (child :: session.chain) name).isSome = true

/-- Names that are not deleted stay where they are. -/
theorem Session.Within.chain_kept {rights : Rights} {before after : Session}
    (within : before.Within rights after) (spared : ¬ rights.deletes name) :
    Forall₂ (fun before after : Scope => after.isClass = before.isClass ∧
      after.isFunction = before.isFunction ∧
      (before.types.contains name → after.types.contains name))
      before.chain after.chain := by
  refine .cons ⟨within.here.isClass, within.here.isFunction, within.here.kept spared⟩ ?_
  apply within.outer.imp
  intro _ _ sheds
  have evolves : Scope.Evolves rights.binds rights.deletes _ _ := sheds.evolves
  exact ⟨evolves.isClass, evolves.isFunction, evolves.kept spared⟩

theorem Limits.Knows.of_within {before after : Session} (knows : limits.Knows grants before)
    (within : before.Within grants.toRights after) (holds : limits.Holds after) :
    limits.Knows grants after where
  holds := holds
  exist index member := within.lt_length (knows.exist index member)
  known isKnown spared :=
    Chain.isSome_findFrom false (within.chain_kept spared) (knows.known isKnown spared)
  offers offered := by
    obtain ⟨child, isChild, visible⟩ := knows.offers offered
    obtain ⟨later, isLater, -, evolves⟩ := within.children isChild
    refine ⟨later, isLater, fun isKnown spared => ?_⟩
    refine Chain.isSome_findFrom false (.cons ?_ (within.chain_kept spared))
      (visible isKnown spared)
    exact ⟨evolves.isClass, evolves.isFunction, evolves.kept spared⟩

/-- What a run leaves of a session. -/
structure Limits.Keeps (limits : Limits) (rights : Rights) (before after : Session) : Prop where
  holds : limits.Holds after
  within : before.Within rights after

/-- A name of the first scope is found, unless it is a class. -/
theorem Chain.isSome_find?_of_contains {outer : Chain}
    (plain : (scope.isClass && scope.isFunction) = false) (contains : scope.types.contains name) :
    (Chain.find? (scope :: outer) name).isSome := by
  rw [← Table.isSome_get?] at contains
  obtain ⟨type, found⟩ := Option.isSome_iff_exists.mp contains
  rw [Chain.find?, Chain.findFrom, Bool.false_or, plain, found]
  rfl

/-- What a scope offers can be looked up in it. -/
theorem Scope.Offers.isSome_find? {known names : String → Prop} (offers : scope.Offers known names)
    {chain : Chain} (visible : names name) (around : known name → (chain.find? name).isSome) :
    (Chain.find? (scope :: chain) name).isSome := by
  by_cases own : scope.types.contains name = true
  · exact Chain.isSome_find?_of_contains offers.plain own
  · obtain ⟨noFunction, isKnown⟩ := (offers.visible visible).resolve_left own
    rw [← Table.isSome_get?, Bool.not_eq_true, Option.isSome_eq_false_iff,
      Option.isNone_iff_eq_none] at own
    rw [Chain.find?, Chain.findFrom, noFunction, own]
    exact around isKnown

namespace Infer

/-- Inference comes to unknown definitions only where it may. -/
def Finds {α : Type} (act : Infer α) (limits : Limits) (grants : Grants) : Prop :=
  ∀ session, limits.Knows grants session →
    EndsWell (limits.Keeps grants.toRights session) limits.Accepts (act.run session)

variable {α β : Type} {act : Infer α} {names : Known}

theorem finds_of_within (fails : act.FailsWithin limits)
    (within : ∀ {session value after}, limits.Knows grants session →
      act.run session = (.ok value, after) → session.Within grants.toRights after) :
    act.Finds limits grants := by
  intro session knows
  have well := fails.run knows.holds
  rcases result : act.run session with ⟨fault | value, after⟩ <;> rw [result] at well
  · exact well
  · exact ⟨well, within knows result⟩

instance : KeepsScopes fun _ => throw .circular where
  here done := absurd done run_throw_ne_ok
  outer done := absurd done run_throw_ne_ok

theorem finds_of_composed (composed : act.Composed (fun _ => throw .circular) grants.toRights)
    (fails : act.FailsWithin limits) : act.Finds limits grants :=
  finds_of_within fails fun knows done => composed.within knows.exist done

/-- Steps that leave the scopes as they are. -/
theorem finds_of_scopes (fails : act.FailsWithin limits)
    (kept : ∀ {session value after}, act.run session = (.ok value, after) →
      after.here = session.here ∧ after.outer = session.outer) : act.Finds limits grants :=
  finds_of_within fails fun _ done =>
    have same := kept done
    .of_eq (by rw [same.1]) (by rw [same.1]) (by rw [same.1]) (by rw [same.1]) same.2

theorem Finds.andThen {next : α → Infer β} (first : act.Finds limits grants)
    (rest : ∀ value, (∃ session after, limits.IsAbout session.theory ∧
      act.run session = (.ok value, after)) → (next value).Finds limits grants) :
    (act >>= next).Finds limits grants := by
  intro session knows
  have well := first session knows
  rw [run_bind]
  rcases result : act.run session with ⟨fault | value, mid⟩ <;> rw [result] at well
  · exact well
  · have after := rest value ⟨session, mid, ⟨knows.holds.theory⟩, result⟩ mid
      (knows.of_within well.within well.holds)
    exact after.change id fun _ kept => ⟨kept.holds, well.within.trans kept.within⟩

theorem finds_findDefinition
    (found : limits.unknown name ∨ grants.known limits.theory name ∧ ¬ grants.deletes name) :
    (findDefinition name).Finds limits grants := by
  intro session knows
  rw [findDefinition, run_get_bind]
  cases isType : session.chain.find? name with
  | some type => exact ⟨knows.holds, .of_eq rfl rfl rfl rfl rfl⟩
  | none =>
    refine found.resolve_right fun ⟨isKnown, spared⟩ => ?_
    have isSome := knows.known isKnown spared
    rw [isType] at isSome
    cases isSome

/-- A scope that is opened offers names to what comes next. -/
theorem finds_addScope_bind {child : Scope}
    (offers : child.Offers (grants.known limits.theory) (names limits.theory))
    {next : Nat → Infer α}
    (rest : ∀ index, (next index).Finds limits (grants.opening index names)) :
    (addScope child >>= next).Finds limits grants := by
  intro session knows
  have inside {index : Nat} (isInside : index < session.here.children.length) :
      index < (session.here.addChild child).children.length := by
    have longer : (session.here.addChild child).children.length =
      session.here.children.length + 1 := length_append
    omega
  have start : limits.Knows (grants.opening session.here.children.length names)
      { session with here := session.here.addChild child } := by
    refine ⟨⟨knows.holds.theory, knows.holds.sources, knows.holds.names⟩,
      forall_mem_cons.mpr ⟨by simp [Scope.addChild], fun index member =>
        inside (knows.exist index member)⟩, knows.known, fun offered => ?_⟩
    rcases mem_cons.mp offered with same | earlier
    · obtain ⟨rfl, rfl⟩ := Prod.mk.inj same
      exact ⟨child, by simp [Scope.addChild], fun isKnown spared =>
        offers.isSome_find? isKnown fun around => knows.known around spared⟩
    · obtain ⟨old, isOld, visible⟩ := knows.offers earlier
      have within := (List.getElem?_eq_some_iff.mp isOld).1
      exact ⟨old, (getElem?_append_left within).trans isOld, visible⟩
  exact (rest _ _ start).change id fun _ kept => ⟨kept.holds, within_opens kept.within⟩

/-- Within a scope below, the names that it offers are known. -/
theorem finds_inChild {index : Nat} (may : index ∈ grants.enters)
    (offered : (index, names) ∈ grants.offers) (inside : act.Finds limits (grants.inside names)) :
    (inChild index act).Finds limits grants := by
  intro session knows
  obtain ⟨child, isChild, found⟩ := knows.offers offered
  have entered : limits.Knows (grants.inside names) (session.enter child) :=
    ⟨⟨knows.holds.theory, knows.holds.sources, knows.holds.names⟩,
      fun _ member => absurd member not_mem_nil, found,
      fun member => absurd member not_mem_nil⟩
  have run : (inChild index act).run session =
      ((act.run (session.enter child)).1, (act.run (session.enter child)).2.leave index) := by
    change inChild index act session = _
    simp only [inChild, isChild]
    rfl
  rw [run]
  exact (inside _ entered).change (·.leave index) fun after kept =>
    ⟨holds_leave kept.holds index, within_leave isChild may kept.within⟩

theorem finds_withMethod (method : Option Term) (finds : act.Finds limits grants) :
    (withMethod method act).Finds limits grants := by
  cases method with
  | none =>
    have same : withMethod none act = act := bind_pure act
    rwa [same]
  | some method =>
    intro session knows
    let inside : Session := { session with method := method }
    have entered : limits.Knows grants inside :=
      ⟨⟨knows.holds.theory, knows.holds.sources, knows.holds.names⟩, knows.exist, knows.known,
        knows.offers⟩
    have ends := finds inside entered
    have run : (withMethod (some method) act).run session = (do
        let result ← act
        restoreMethod (some session.method)
        pure result : Infer α).run inside := rfl
    rw [run, run_bind]
    rcases result : act.run inside with ⟨fault | value, after⟩ <;> rw [result] at ends
    · exact ends
    · obtain ⟨holds, within⟩ := ends
      exact ⟨⟨holds.theory, holds.sources, holds.names⟩,
        ⟨within.here, within.outer, within.children⟩⟩

end Infer

open Infer in
/-- Inference that goes by limits. -/
def Limits.law (limits : Limits) : Law where
  holds act grants := act.Finds limits grants
  within := (· = limits)
  defines := True
  gives value := finds_of_composed (.pure value) inferInstance
  fails accepts := finds_of_composed (.throw _) (.throw (accepts limits rfl))
  lifts fails := finds_of_composed (.lift _) (@Respects.lift _ _ _ _ _ _ (fails limits rfl))
  reads rest session knows :=
    rest session (by rintro _ rfl; exact ⟨knows.holds.theory⟩) session knows
  logs {_ _ act} only fails := by
    refine finds_of_composed (.logs only) ⟨fun {session} before => ?_⟩
    rcases result : act.run session with ⟨fault | value, after⟩
    · exact (fails limits rfl session).fault (congrArg Prod.fst result)
    · obtain ⟨log, -, rfl⟩ := only result
      exact ⟨before.theory, before.sources, before.names⟩
  notes may kept grown names := finds_of_composed (.notes may kept)
    (failsWithin_modify (fun session => (grown session).theory)
      (fun session => (grown session).sources) names)
  keeps may _ _ := finds_of_composed
    (.notes may fun _ => ⟨rfl, rfl, rfl, rfl, rfl, rfl, rfl, rfl⟩)
    (failsWithin_modify (fun _ => rfl) (fun _ => rfl) fun _ => rfl)
  follows first rest := .andThen first fun value done =>
    rest value (by rintro _ rfl; exact done)
  binds may type := finds_of_composed (.binds may type) inferInstance
  unbinds may := finds_of_composed (.unbinds may) inferInstance
  finds found := finds_findDefinition (found limits rfl)
  opens _ _ _ offers rest := finds_addScope_bind (offers limits rfl) rest
  enters := finds_inChild
  narrows notes may narrowing := finds_of_composed (.narrows notes may narrowing)
    (@failsWithin_inChild _ _ _ _ (failsWithin_modify (fun _ => rfl) (fun _ => rfl) fun _ => rfl))
  method := finds_withMethod

instance : limits.law.Defines := ⟨trivial⟩

/-- Where nothing has to be known, there are only limits. -/
theorem Limits.Holds.knows {session : Session} (holds : limits.Holds session)
    {deletes : String → Prop} : limits.Knows (.free deletes fun _ _ => False) session :=
  ⟨holds, fun _ member => absurd member not_mem_nil, False.elim,
    fun member => absurd member not_mem_nil⟩

instance (priority := low) Infer.failsWithin_of_obeys {α : Type} (act : Infer α)
    [obeys : act.Obeys limits.law (.free (fun _ => True) fun _ _ => False)] :
    act.FailsWithin limits where
  run before := (obeys.holds _ before.knows).change id fun _ kept => kept.holds

end TypeInference
