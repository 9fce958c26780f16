/- What the success of a computation says about its parts. -/

import Mathlib.Data.List.Forall2

namespace TypeInference

open List

variable {ε α β γ : Type} {first : Except ε α} {next : α → Except ε β} {result start : β}
  {value : α} {f : α → Except ε β} {values : List α} {results others : List β}
  {related : α → β → Prop}

/-- A sequence succeeds when both of its steps do. -/
theorem bind_eq_ok_iff :
    first >>= next = .ok result ↔ ∃ value, first = .ok value ∧ next value = .ok result := by
  cases first with
  | error fault => simp [bind, Except.bind]
  | ok value => simp [bind, Except.bind]

theorem bind_ok (done : first >>= next = .ok result) :
    ∃ value, first = .ok value ∧ next value = .ok result :=
  bind_eq_ok_iff.mp done

variable {fault : ε} {outcome : Except ε α} {property : α → β → Prop}

/-- A sequence fails when one of its steps does. -/
theorem bind_eq_error_iff :
    first >>= next = .error fault ↔
      first = .error fault ∨ ∃ value, first = .ok value ∧ next value = .error fault := by
  cases first with
  | error other => simp [bind, Except.bind]
  | ok value => simp [bind, Except.bind]

theorem pure_eq_ok_iff {result : α} : (pure value : Except ε α) = .ok result ↔ value = result := by
  simp [pure, Except.pure]

theorem pure_ok {result : α} (done : (pure value : Except ε α) = .ok result) : value = result :=
  pure_eq_ok_iff.mp done

theorem map_ok {f : α → β} (done : (do pure (f (← first))) = Except.ok result) :
    ∃ value, first = .ok value ∧ f value = result :=
  (bind_ok done).imp fun _ found => found.imp_right pure_ok

/-- Whether there is a good result can be evaluated. -/
instance decidableExistsOk {property : α → Prop} [DecidablePred property] :
    Decidable (∃ value, outcome = .ok value ∧ property value) :=
  match outcome with
  | .error _ => isFalse fun ⟨_, is, _⟩ => nomatch is
  | .ok value => decidable_of_iff (property value) (by simp)

instance decidableIsOk : Decidable (∃ value, outcome = .ok value) :=
  decidable_of_iff (∃ value, outcome = .ok value ∧ True) (by simp)

instance decidableExistsOkPair {outcome : Except ε (α × β)}
    [∀ first second, Decidable (property first second)] :
    Decidable (∃ first second, outcome = .ok (first, second) ∧ property first second) :=
  decidable_of_iff (∃ pair, outcome = .ok pair ∧ property pair.1 pair.2) (by simp)

instance decidableExistsRun {run : Except ε α × β}
    [∀ value after, Decidable (property value after)] :
    Decidable (∃ value after, run = (.ok value, after) ∧ property value after) :=
  decidable_of_iff (∃ value, run.1 = .ok value ∧ property value run.2) (by simp [Prod.ext_iff])

instance decidableExistsRunUnit {run : Except ε Unit × β} {property : β → Prop}
    [DecidablePred property] : Decidable (∃ after, run = (.ok (), after) ∧ property after) :=
  decidable_of_iff (∃ value after, run = (.ok value, after) ∧ property after)
    ⟨fun ⟨(), found⟩ => found, fun found => ⟨(), found⟩⟩

/-- A traversal succeeds when it does so at each element. -/
theorem mapM_eq_ok_iff :
    values.mapM f = .ok results ↔
      Forall₂ (fun value result => f value = .ok result) values results := by
  induction values generalizing results with
  | nil =>
    rw [mapM_nil, pure_eq_ok_iff, forall₂_nil_left_iff]
    exact eq_comm
  | cons value values ih =>
    rw [mapM_cons, bind_eq_ok_iff, forall₂_cons_left_iff]
    constructor
    · rintro ⟨result, here, rest⟩
      obtain ⟨tail, there, done⟩ := bind_ok rest
      exact ⟨result, tail, here, ih.mp there, (pure_ok done).symm⟩
    · rintro ⟨result, tail, here, there, rfl⟩
      exact ⟨result, here, bind_eq_ok_iff.mpr ⟨tail, ih.mpr there, rfl⟩⟩

/-- The results of a traversal are those of its elements. -/
theorem mem_mapM_iff (done : values.mapM f = .ok results) (result : β) :
    result ∈ results ↔ ∃ value ∈ values, f value = .ok result := by
  have each := mapM_eq_ok_iff.mp done
  clear done
  induction each with
  | nil => simp
  | @cons value head values tail here _ ih =>
    simp only [mem_cons, ih, exists_eq_or_imp, here, Except.ok.injEq]
    rw [eq_comm]

/-- A joining traversal succeeds when each element does. -/
theorem flatMapM_eq_ok_iff {f : α → Except ε (List β)} :
    values.flatMapM f = .ok results ↔
      ∃ parts, values.mapM f = .ok parts ∧ parts.flatten = results := by
  induction values generalizing results with
  | nil => simp [pure_eq_ok_iff]
  | cons value values ih =>
    rw [flatMapM_cons, mapM_cons, bind_eq_ok_iff]
    constructor
    · rintro ⟨part, here, rest⟩
      obtain ⟨tail, there, done⟩ := bind_ok rest
      obtain ⟨parts, each, rfl⟩ := ih.mp there
      refine ⟨part :: parts, ?_, pure_ok done⟩
      exact bind_eq_ok_iff.mpr ⟨part, here, bind_eq_ok_iff.mpr ⟨parts, each, rfl⟩⟩
    · rintro ⟨parts, each, rfl⟩
      obtain ⟨part, here, rest⟩ := bind_ok each
      obtain ⟨tail, there, done⟩ := bind_ok rest
      obtain rfl := pure_ok done
      refine ⟨part, here, bind_eq_ok_iff.mpr ⟨tail.flatten, ih.mpr ⟨tail, there, rfl⟩, ?_⟩⟩
      rfl

/-- What a joining traversal collects comes from its elements. -/
theorem mem_flatMapM_iff {f : α → Except ε (List β)} (done : values.flatMapM f = .ok results)
    (result : β) :
    result ∈ results ↔ ∃ value ∈ values, ∃ part, f value = .ok part ∧ result ∈ part := by
  obtain ⟨parts, each, rfl⟩ := flatMapM_eq_ok_iff.mp done
  rw [mem_flatten]
  constructor
  · rintro ⟨part, inside, here⟩
    obtain ⟨value, member, is⟩ := (mem_mapM_iff each part).mp inside
    exact ⟨value, member, part, is, here⟩
  · rintro ⟨value, member, part, is, here⟩
    exact ⟨part, (mem_mapM_iff each part).mpr ⟨value, member, is⟩, here⟩

section

variable (each : Forall₂ related values others)
include each

/-- Each element of the first list has a partner. -/
theorem forall₂_exists_right (member : value ∈ values) : ∃ other ∈ others, related value other := by
  induction each with
  | nil => simp at member
  | @cons head other values others here _ ih =>
    rcases mem_cons.mp member with rfl | later
    · exact ⟨other, mem_cons_self, here⟩
    · obtain ⟨found, inside, holds⟩ := ih later
      exact ⟨found, mem_cons_of_mem _ inside, holds⟩

/-- Each element of the second list has a partner. -/
theorem forall₂_exists_left {other : β} (member : other ∈ others) :
    ∃ value ∈ values, related value other :=
  forall₂_exists_right (Forall₂.flip (R := flip related) each) member

theorem forall₂_restrict {left : α → Prop} {right : β → Prop}
    (ofValues : ∀ value ∈ values, left value) (ofOthers : ∀ other ∈ others, right other) :
    Forall₂ (fun value other => (left value ∧ right other) ∧ related value other)
      values others := by
  rw [forall₂_iff_zip] at each ⊢
  refine ⟨each.1, fun {value other} pair => ?_⟩
  have inside := of_mem_zip pair
  exact ⟨⟨ofValues value inside.1, ofOthers other inside.2⟩, each.2 pair⟩

end

theorem forall₂_iff_forall {property : β → Prop}
    (means : ∀ value ∈ values, ∀ other, related value other ↔ property other) :
    Forall₂ related values others ↔
      values.length = others.length ∧ ∀ other ∈ others, property other := by
  induction values generalizing others with
  | nil => cases others <;> simp
  | cons value values ih =>
    cases others with
    | nil => simp
    | cons other others =>
      rw [forall₂_cons, means value mem_cons_self,
        ih fun value member => means value (mem_cons_of_mem _ member)]
      simp [and_left_comm]

theorem forall₂_congr_of {given first second : α → β → Prop}
    (each : Forall₂ given values others)
    (means : ∀ value other, given value other → (first value other ↔ second value other)) :
    Forall₂ first values others ↔ Forall₂ second values others := by
  induction each with
  | nil => simp
  | cons here _ ih => rw [forall₂_cons, forall₂_cons, means _ _ here, ih]

theorem forall_zipWith_iff {combine : α → β → γ} {property : γ → Prop}
    (same : values.length = others.length) :
    (∀ result ∈ List.zipWith combine values others, property result) ↔
      Forall₂ (fun value other => property (combine value other)) values others := by
  induction values generalizing others with
  | nil => simp [length_eq_zero_iff.mp same.symm]
  | cons value values ih =>
    cases others with
    | nil => simp at same
    | cons other others =>
      rw [zipWith_cons_cons, forall_mem_cons, forall₂_cons, ih (Nat.succ.inj same)]

theorem forall₂_trans {first : α → β → Prop} {second : β → γ → Prop} {both : α → γ → Prop}
    (compose : ∀ a b c, first a b → second b c → both a c) {middle : List β} {others : List γ}
    (left : Forall₂ first values middle) (right : Forall₂ second middle others) :
    Forall₂ both values others := by
  induction left generalizing others with
  | nil =>
    cases right
    exact .nil
  | cons here _ ih =>
    cases right with
    | cons there rest => exact .cons (compose _ _ _ here there) (ih rest)

theorem forall₂_concat_left {last : α} (each : Forall₂ related (values ++ [last]) others) :
    ∃ rest final, others = rest ++ [final] ∧ Forall₂ related values rest ∧
      related last final := by
  induction values generalizing others with
  | nil =>
    obtain ⟨final, others, here, none, rfl⟩ := forall₂_cons_left_iff.mp each
    cases none
    exact ⟨[], final, rfl, .nil, here⟩
  | cons value values ih =>
    obtain ⟨other, others, here, later, rfl⟩ := forall₂_cons_left_iff.mp each
    obtain ⟨rest, final, rfl, front, back⟩ := ih later
    exact ⟨other :: rest, final, rfl, .cons here front, back⟩

theorem forall₂_take (short : values.length ≤ others.length)
    (each : ∀ pair ∈ values.zip others, related pair.1 pair.2) :
    Forall₂ related values (others.take values.length) := by
  induction values generalizing others with
  | nil => exact .nil
  | cons value values ih =>
    cases others with
    | nil => simp at short
    | cons other others =>
      rw [zip_cons_cons, forall_mem_cons] at each
      exact .cons each.1 (ih (Nat.le_of_succ_le_succ short) each.2)

/-- A traversal that succeeds does so at each element. -/
theorem exists_of_mapM (done : values.mapM f = .ok results) (member : value ∈ values) :
    ∃ result, f value = .ok result := by
  obtain ⟨result, -, is⟩ := forall₂_exists_right (mapM_eq_ok_iff.mp done) member
  exact ⟨result, is⟩

theorem exists_of_flatMapM {f : α → Except ε (List β)} (done : values.flatMapM f = .ok results)
    (member : value ∈ values) : ∃ part, f value = .ok part := by
  obtain ⟨parts, each, -⟩ := flatMapM_eq_ok_iff.mp done
  exact exists_of_mapM each member

/-- All that is collected holds if each part does. -/
theorem forall_mem_flatMapM_iff {f : α → Except ε (List β)} {holds : β → Prop} {law : α → Prop}
    (done : values.flatMapM f = .ok results)
    (means : ∀ {value part}, value ∈ values → f value = .ok part →
      ((∀ result ∈ part, holds result) ↔ law value)) :
    (∀ result ∈ results, holds result) ↔ ∀ value ∈ values, law value := by
  constructor
  · intro all value member
    obtain ⟨part, is⟩ := exists_of_flatMapM done member
    refine (means member is).mp fun result here => all result ?_
    exact (mem_flatMapM_iff done result).mpr ⟨value, member, part, is, here⟩
  · intro laws result member
    obtain ⟨value, isValue, part, is, here⟩ := (mem_flatMapM_iff done result).mp member
    exact (means isValue is).mpr (laws value isValue) result here

/-- A traversal that fails does so at some element. -/
theorem exists_of_mapM_error (failed : values.mapM f = .error fault) :
    ∃ value ∈ values, f value = .error fault := by
  induction values with
  | nil => cases failed
  | cons value values ih =>
    rw [mapM_cons, bind_eq_error_iff] at failed
    rcases failed with here | ⟨_, -, later⟩
    · exact ⟨value, mem_cons_self, here⟩
    · rcases bind_eq_error_iff.mp later with inside | ⟨_, -, last⟩
      · obtain ⟨other, member, is⟩ := ih inside
        exact ⟨other, mem_cons_of_mem value member, is⟩
      · cases last

/-- A loop keeps what each of its steps keeps. -/
theorem foldlM_invariant (invariant : β → Prop) {f : β → α → Except ε β}
    (done : values.foldlM f start = .ok result) (initial : invariant start)
    (step : ∀ value ∈ values, ∀ before after, invariant before → f before value = .ok after →
      invariant after) : invariant result := by
  induction values generalizing start with
  | nil =>
    rw [foldlM_nil, pure_eq_ok_iff] at done
    exact done ▸ initial
  | cons value values ih =>
    obtain ⟨middle, first, rest⟩ := bind_ok done
    refine ih rest (step value mem_cons_self start middle initial first) ?_
    intro other member
    exact step other (mem_cons_of_mem value member)

section

variable (property : β → Prop)

/-- What a fold reaches, it keeps if no element takes it away. -/
theorem foldlM_reaches {f : β → α → Except ε β} (done : values.foldlM f start = .ok result)
    (member : value ∈ values) (reach : ∀ before after, f before value = .ok after → property after)
    (keep : ∀ other ∈ values, ∀ before after, property before → f before other = .ok after →
      property after) : property result := by
  obtain ⟨left, right, rfl⟩ := append_of_mem member
  rw [foldlM_append, bind_eq_ok_iff] at done
  obtain ⟨before, -, done⟩ := done
  rw [foldlM_cons, bind_eq_ok_iff] at done
  obtain ⟨after, here, done⟩ := done
  refine foldlM_invariant property done (reach before after here) fun other inside => keep other ?_
  exact mem_append_right _ (mem_cons_of_mem _ inside)

theorem foldl_reaches {f : β → α → β} (member : value ∈ values)
    (reach : ∀ before, property (f before value))
    (keep : ∀ other before, property before → property (f before other)) :
    property (values.foldl f start) := by
  have done : values.foldlM (fun before value => .ok (f before value)) start =
      (.ok (values.foldl f start) : Except Unit β) := foldlM_pure
  refine foldlM_reaches property done member ?_ ?_
  · intro before after is
    exact Except.ok.inj is ▸ reach before
  · intro other _ before after kept is
    exact Except.ok.inj is ▸ keep other before kept

/-- What holds after a fold held before or is brought in. -/
theorem foldlM_iff (brings : α → Prop) {f : β → α → Except ε β}
    (done : values.foldlM f start = .ok result)
    (step : ∀ value before after, f before value = .ok after →
      (property after ↔ property before ∨ brings value)) :
    property result ↔ property start ∨ ∃ value ∈ values, brings value := by
  induction values generalizing start with
  | nil =>
    rw [foldlM_nil, pure_eq_ok_iff] at done
    simp [done]
  | cons value values ih =>
    rw [foldlM_cons, bind_eq_ok_iff] at done
    obtain ⟨next, here, rest⟩ := done
    rw [ih rest, step value start next here, or_assoc]
    simp

theorem foldl_iff (brings : α → Prop) {f : β → α → β}
    (step : ∀ value before, property (f before value) ↔ property before ∨ brings value) :
    property (values.foldl f start) ↔ property start ∨ ∃ value ∈ values, brings value := by
  have done : values.foldlM (fun before value => .ok (f before value)) start =
      (.ok (values.foldl f start) : Except Unit β) := foldlM_pure
  refine foldlM_iff property brings done ?_
  intro value before after is
  rw [← Except.ok.inj is]
  exact step value before

end

end TypeInference
