/- Steps that keep a property of their state and fail only with accepted faults. -/

import TypeInference.Fault
import TypeInference.Proofs.Traversal

namespace TypeInference

open List

section

/-- A property that is kept by steps one after the other. -/
structure IsSequential {m : Type → Type} [Monad m] (property : (α : Type) → m α → Prop) : Prop where
  pure : ∀ {α : Type} (value : α), property _ (pure value)
  andThen : ∀ {α β : Type} {act : m α} {next : α → m β}, property α act →
    (∀ value, property _ (next value)) → property _ (act >>= next)

namespace IsSequential

variable {m : Type → Type} [Monad m] {property : (α : Type) → m α → Prop}
  (kept : IsSequential property) {α β : Type} {values : List α}

include kept

theorem forM_of_mem {act : α → m PUnit} (each : ∀ value ∈ values, property _ (act value)) :
    property _ (values.forM act) := by
  induction values with
  | nil => exact kept.pure _
  | cons value values ih =>
    exact kept.andThen (each value mem_cons_self) fun _ =>
      ih fun other member => each other (mem_cons_of_mem _ member)

theorem foldlM_of_mem {act : β → α → m β}
    (each : ∀ start, ∀ value ∈ values, property _ (act start value)) (start : β) :
    property _ (values.foldlM act start) := by
  induction values generalizing start with
  | nil => exact kept.pure _
  | cons value values ih =>
    exact kept.andThen (each start value mem_cons_self) fun next =>
      ih (fun start other member => each start other (mem_cons_of_mem _ member)) next

variable [LawfulMonad m]

theorem mapM_of_mem {act : α → m β} (each : ∀ value ∈ values, property _ (act value)) :
    property _ (values.mapM act) := by
  induction values with
  | nil => exact kept.pure _
  | cons value values ih =>
    have others := ih fun other member => each other (mem_cons_of_mem _ member)
    rw [mapM_cons]
    exact kept.andThen (each value mem_cons_self) fun _ =>
      kept.andThen others fun _ => kept.pure _

theorem flatMapM_of_mem {act : α → m (List β)} (each : ∀ value ∈ values, property _ (act value)) :
    property _ (values.flatMapM act) := by
  induction values with
  | nil => exact kept.pure _
  | cons value values ih =>
    have others := ih fun other member => each other (mem_cons_of_mem _ member)
    rw [flatMapM_cons]
    exact kept.andThen (each value mem_cons_self) fun _ =>
      kept.andThen others fun _ => kept.pure _

end IsSequential

variable {σ ε α β : Type} {act : ExceptT ε (StateM σ) α} {next : α → ExceptT ε (StateM σ) β}
  {state mid after : σ} {outcome : Except ε α}

theorem run_bind (act : ExceptT ε (StateM σ) α) (next : α → ExceptT ε (StateM σ) β) (state : σ) :
    (act >>= next).run state = match act.run state with
      | (.ok value, mid) => (next value).run mid
      | (.error fault, mid) => (.error fault, mid) := by
  change (ExceptT.bindCont next (act.run state).1 : StateM σ _) (act.run state).2 = _
  rcases act.run state with ⟨_ | _, _⟩ <;> rfl

theorem run_bind_of_ok {value : α} (done : act.run state = (.ok value, mid)) :
    (act >>= next).run state = (next value).run mid := by
  rw [run_bind, done]

variable {result : β} {fault : ε} {values : List α}

/-- A sequence succeeds when both of its parts do. -/
theorem run_bind_eq_ok_iff : (act >>= next).run state = (.ok result, after) ↔
    ∃ value mid, act.run state = (.ok value, mid) ∧
      (next value).run mid = (.ok result, after) := by
  rw [run_bind]
  rcases act.run state with ⟨fault | value, mid⟩
  · constructor
    · intro failed
      cases (Prod.mk.inj failed).1
    · rintro ⟨_, _, failed, -⟩
      cases (Prod.mk.inj failed).1
  · constructor
    · intro rest
      exact ⟨value, mid, rfl, rest⟩
    · rintro ⟨_, _, same, rest⟩
      obtain ⟨isValue, rfl⟩ := Prod.mk.inj same
      obtain rfl := Except.ok.inj isValue
      exact rest

theorem run_bind_ok (done : (act >>= next).run state = (.ok result, after)) :
    ∃ value mid, act.run state = (.ok value, mid) ∧ (next value).run mid = (.ok result, after) :=
  run_bind_eq_ok_iff.mp done

theorem run_pure_ok {value result : α}
    (done : (pure value : ExceptT ε (StateM σ) α).run state = (.ok result, after)) :
    value = result ∧ state = after :=
  (Prod.mk.inj done).imp_left Except.ok.inj

theorem run_map_ok {f : α → β}
    (done : (do pure (f (← act)) : ExceptT ε (StateM σ) β).run state = (.ok result, after)) :
    ∃ value, act.run state = (.ok value, after) ∧ f value = result := by
  obtain ⟨value, _, first, rest⟩ := run_bind_ok done
  obtain ⟨rfl, rfl⟩ := run_pure_ok rest
  exact ⟨value, first, rfl⟩

theorem run_throw_ne_ok {result : α} :
    (throw fault : ExceptT ε (StateM σ) α).run state ≠ (.ok result, after) := by
  intro failed
  cases (Prod.mk.inj failed).1

theorem run_throw_bind_ne_ok :
    ((throw fault : ExceptT ε (StateM σ) α) >>= next).run state ≠ (.ok result, after) := by
  intro done
  obtain ⟨_, _, failed, -⟩ := run_bind_ok done
  exact run_throw_ne_ok failed

theorem run_get_bind (next : σ → ExceptT ε (StateM σ) β) :
    (get >>= next).run state = (next state).run state := rfl

theorem run_lift (outcome : Except ε α) :
    (liftM outcome : ExceptT ε (StateM σ) α).run state = (outcome, state) := by
  cases outcome <;> rfl

theorem run_lift_ok {result : α}
    (done : (liftM outcome : ExceptT ε (StateM σ) α).run state = (.ok result, after)) :
    outcome = .ok result ∧ state = after := by
  rwa [run_lift, Prod.mk.injEq] at done

theorem run_lift_bind_ok (done : (liftM outcome >>= next).run state = (.ok result, after)) :
    ∃ value, outcome = .ok value ∧ (next value).run state = (.ok result, after) := by
  obtain ⟨value, _, first, rest⟩ := run_bind_ok done
  obtain ⟨isOk, rfl⟩ := run_lift_ok first
  exact ⟨value, isOk, rest⟩

/-- A traversal by steps that do not know the state. -/
theorem run_mapM_lift (f : α → Except ε β) (values : List α) :
    (values.mapM fun value => (liftM (f value) : ExceptT ε (StateM σ) β)).run state =
      (values.mapM f, state) := by
  induction values with
  | nil => rfl
  | cons value values ih =>
    rw [mapM_cons, mapM_cons, run_bind, run_lift]
    cases f value with
    | error fault => rfl
    | ok result =>
      dsimp only
      rw [run_bind, ih]
      cases values.mapM f <;> rfl

/-- A traversal whose steps leave the state alone. -/
theorem run_flatMapM_eq_ok {act : α → ExceptT ε (StateM σ) (List β)} (part : α → List β)
    (each : ∀ value result state after, (act value).run state = (.ok result, after) →
      result = part value ∧ after = state) {results : List β}
    (done : (values.flatMapM act).run state = (.ok results, after)) :
    results = values.flatMap part ∧ after = state := by
  induction values generalizing results after with
  | nil =>
    obtain ⟨rfl, rfl⟩ := run_pure_ok done
    exact ⟨rfl, rfl⟩
  | cons value values ih =>
    rw [flatMapM_cons] at done
    obtain ⟨first, _, isFirst, rest⟩ := run_bind_ok done
    obtain ⟨rfl, rfl⟩ := each _ _ _ _ isFirst
    obtain ⟨others, _, areOthers, last⟩ := run_bind_ok rest
    obtain ⟨rfl, rfl⟩ := ih areOthers
    obtain ⟨rfl, rfl⟩ := run_pure_ok last
    exact ⟨rfl, rfl⟩

/-- What each step of a loop keeps. -/
theorem run_forM_invariant (invariant : σ → Prop) {act : α → ExceptT ε (StateM σ) PUnit}
    (done : (values.forM act).run state = (.ok ⟨⟩, after)) (initial : invariant state)
    (step : ∀ value ∈ values, ∀ before after, invariant before →
      (act value).run before = (.ok ⟨⟩, after) → invariant after) : invariant after := by
  induction values generalizing state with
  | nil => exact (run_pure_ok done).2 ▸ initial
  | cons value values ih =>
    obtain ⟨⟨⟩, mid, first, rest⟩ := run_bind_ok done
    refine ih rest (step value mem_cons_self state mid initial first) ?_
    intro other member
    exact step other (mem_cons_of_mem value member)

end

/-- An outcome whose fault, if it is one, is accepted. -/
class FailsWith {ε α : Type} (accepts : ε → Prop) (outcome : Except ε α) : Prop where
  fault : ∀ {fault}, outcome = .error fault → accepts fault

namespace FailsWith

variable {ε α β : Type} {accepts : ε → Prop}

instance ok (value : α) : FailsWith accepts (.ok value : Except ε α) :=
  ⟨fun failed => nomatch failed⟩

instance pure (value : α) : FailsWith accepts (pure value : Except ε α) := ok value

theorem error {fault : ε} (accepted : accepts fault) :
    FailsWith accepts (.error fault : Except ε α) :=
  ⟨fun failed => Except.error.inj failed ▸ accepted⟩

variable {first : Except ε α} {next act : α → Except ε β} {values : List α}

/-- A step after which only the values that it can give matter. -/
theorem bind_of_ok (start : FailsWith accepts first)
    (rest : ∀ value, first = .ok value → FailsWith accepts (next value)) :
    FailsWith accepts (first >>= next) where
  fault failed := by
    rcases bind_eq_error_iff.mp failed with here | ⟨value, isValue, later⟩
    · exact start.fault here
    · exact (rest value isValue).fault later

instance bind [start : FailsWith accepts first] [rest : ∀ value, FailsWith accepts (next value)] :
    FailsWith accepts (first >>= next) :=
  bind_of_ok start fun value _ => rest value

/-- Nothing comes after a failure. -/
instance (priority := high) error_bind {fault : ε} (next : α → Except ε β)
    [start : FailsWith accepts (.error fault : Except ε α)] :
    FailsWith accepts (Except.error fault >>= next) :=
  bind_of_ok start fun _ done => nomatch done

/-- A step after which a case distinction is made. -/
theorem andThen (start : FailsWith accepts first) (rest : ∀ value, FailsWith accepts (next value)) :
    FailsWith accepts (first >>= next) :=
  inferInstance

instance ite {condition : Prop} [Decidable condition] {outcome other : Except ε α}
    [FailsWith accepts outcome] [FailsWith accepts other] :
    FailsWith accepts (if condition then outcome else other) := by
  split <;> infer_instance

theorem isSequential : IsSequential fun α (outcome : Except ε α) => FailsWith accepts outcome :=
  ⟨.pure, .andThen⟩

theorem mapM_of_mem (each : ∀ value ∈ values, FailsWith accepts (act value)) :
    FailsWith accepts (values.mapM act) :=
  isSequential.mapM_of_mem each

instance mapM [each : ∀ value, FailsWith accepts (act value)] (values : List α) :
    FailsWith accepts (values.mapM act) :=
  mapM_of_mem fun value _ => each value

theorem flatMapM_of_mem {act : α → Except ε (List β)}
    (each : ∀ value ∈ values, FailsWith accepts (act value)) :
    FailsWith accepts (values.flatMapM act) :=
  isSequential.flatMapM_of_mem each

instance foldlM {act : β → α → Except ε β}
    [each : ∀ start value, FailsWith accepts (act start value)]
    (values : List α) (start : β) : FailsWith accepts (values.foldlM act start) :=
  isSequential.foldlM_of_mem (fun start value _ => each start value) start

end FailsWith

/-- The state has the property, or the fault is accepted. -/
def EndsWell {σ ε α : Type} (holds : σ → Prop) (accepts : ε → Prop) : Except ε α × σ → Prop
  | (.ok _, after) => holds after
  | (.error fault, _) => accepts fault

namespace EndsWell

variable {σ τ ε α β : Type} {holds : σ → Prop} {other : τ → Prop} {accepts : ε → Prop}
  {result : Except ε α × σ}

section

variable (well : EndsWell holds accepts result)
include well

theorem fault {fault : ε} (failed : result.1 = .error fault) : accepts fault := by
  rcases result with ⟨other | value, after⟩
  · exact Except.error.inj failed ▸ well
  · cases failed

theorem state {value : α} (done : result.1 = .ok value) : holds result.2 := by
  rcases result with ⟨other | value, after⟩
  · cases done
  · exact well

/-- The state is changed after the run. -/
theorem change (change : σ → τ) (kept : ∀ state, holds state → other (change state)) :
    EndsWell other accepts (result.1, change result.2) := by
  rcases result with ⟨fault | value, after⟩
  · exact well
  · exact kept after well

/-- The result, too, is changed after the run. -/
theorem map {value : α → β} (change : σ → τ) (kept : ∀ state, holds state → other (change state)) :
    EndsWell other accepts (result.1.map value, change result.2) := by
  rcases result with ⟨fault | value, after⟩
  · exact well
  · exact kept after well

end

end EndsWell

/-- Steps that keep a property, or fail with an accepted fault. -/
class Respects {σ ε α : Type} (holds : σ → Prop) (accepts : ε → Prop)
    (act : ExceptT ε (StateM σ) α) : Prop where
  run : ∀ {state}, holds state → EndsWell holds accepts (act.run state)

namespace Respects

variable {σ ε α β : Type} {holds : σ → Prop} {accepts : ε → Prop}
  {next : α → ExceptT ε (StateM σ) β}

instance pure (value : α) : Respects holds accepts (pure value : ExceptT ε (StateM σ) α) where
  run before := before

theorem throw {fault : ε} (accepted : accepts fault) :
    Respects holds accepts (throw fault : ExceptT ε (StateM σ) α) where
  run _ := accepted

instance get : Respects holds accepts (get : ExceptT ε (StateM σ) σ) where
  run before := before

instance lift (outcome : Except ε α) [fails : FailsWith accepts outcome] :
    Respects holds accepts (liftM outcome : ExceptT ε (StateM σ) α) where
  run before := by
    rw [run_lift]
    cases outcome with
    | ok value => exact before
    | error fault => exact fails.fault rfl

theorem modify {change : σ → σ} (kept : ∀ state, holds state → holds (change state)) :
    Respects holds accepts (modify change : ExceptT ε (StateM σ) PUnit) where
  run before := kept _ before

variable {act : ExceptT ε (StateM σ) α} {values : List α}

/-- A step after which only the values that it can give matter. -/
theorem bind_of_ok (start : Respects holds accepts act)
    (rest : ∀ state value after, holds state → act.run state = (.ok value, after) →
      Respects holds accepts (next value)) : Respects holds accepts (act >>= next) where
  run {state} before := by
    have first := start.run before
    rw [run_bind]
    rcases result : act.run state with ⟨fault | value, after⟩ <;> rw [result] at first
    · exact first
    · exact (rest state value after before result).run first

instance bind [start : Respects holds accepts act]
    [rest : ∀ value, Respects holds accepts (next value)] : Respects holds accepts (act >>= next) :=
  bind_of_ok start fun _ value _ _ _ => rest value

/-- Nothing comes after a failure. -/
instance (priority := high) throw_bind {fault : ε} (next : α → ExceptT ε (StateM σ) β)
    [start : Respects holds accepts (MonadExcept.throw fault : ExceptT ε (StateM σ) α)] :
    Respects holds accepts ((MonadExcept.throw fault : ExceptT ε (StateM σ) α) >>= next) :=
  bind_of_ok start fun _ _ _ _ done => absurd done run_throw_ne_ok

/-- A step after which a case distinction is made. -/
theorem andThen (start : Respects holds accepts act)
    (rest : ∀ value, Respects holds accepts (next value)) : Respects holds accepts (act >>= next) :=
  inferInstance

/-- The state that is read has the property. -/
theorem get_bind {next : σ → ExceptT ε (StateM σ) β}
    (rest : ∀ state, holds state → Respects holds accepts (next state)) :
    Respects holds accepts (MonadState.get >>= next) where
  run before := (rest _ before).run before

instance ite {condition : Prop} [Decidable condition] {other : ExceptT ε (StateM σ) α}
    [Respects holds accepts act] [Respects holds accepts other] :
    Respects holds accepts (if condition then act else other) := by
  split <;> infer_instance

theorem isSequential :
    IsSequential fun α (act : ExceptT ε (StateM σ) α) => Respects holds accepts act :=
  ⟨.pure, .andThen⟩

theorem mapM_of_mem {act : α → ExceptT ε (StateM σ) β}
    (each : ∀ value ∈ values, Respects holds accepts (act value)) :
    Respects holds accepts (values.mapM act) :=
  isSequential.mapM_of_mem each

instance mapM {act : α → ExceptT ε (StateM σ) β}
    [each : ∀ value, Respects holds accepts (act value)] (values : List α) :
    Respects holds accepts (values.mapM act) :=
  mapM_of_mem fun value _ => each value

theorem forM_of_mem {act : α → ExceptT ε (StateM σ) PUnit}
    (each : ∀ value ∈ values, Respects holds accepts (act value)) :
    Respects holds accepts (values.forM act) :=
  isSequential.forM_of_mem each

instance forM {act : α → ExceptT ε (StateM σ) PUnit}
    [each : ∀ value, Respects holds accepts (act value)] (values : List α) :
    Respects holds accepts (values.forM act) :=
  forM_of_mem fun value _ => each value

end Respects

/-- A traversal has a result for each element. -/
theorem length_of_run_mapM {σ ε α β : Type} {act : α → ExceptT ε (StateM σ) β} {values : List α}
    {results : List β} {state after : σ}
    (done : (values.mapM act).run state = (.ok results, after)) :
    results.length = values.length := by
  induction values generalizing results state after with
  | nil =>
    obtain ⟨rfl, -⟩ := run_pure_ok done
    rfl
  | cons value values ih =>
    rw [List.mapM_cons] at done
    obtain ⟨first, mid, -, rest⟩ := run_bind_ok done
    obtain ⟨others, last, areOthers, finish⟩ := run_bind_ok rest
    obtain ⟨rfl, -⟩ := run_pure_ok finish
    exact congrArg Nat.succ (ih areOthers)

end TypeInference
