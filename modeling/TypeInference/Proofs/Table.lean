/- The operations of tables, their keys and entries. -/

import Mathlib.Data.List.Nodup
import TypeInference.Table

namespace TypeInference.Table

open List

variable {κ α : Type} [BEq κ] [LawfulBEq κ] {value : α} {other : κ} {entries : List (κ × α)}
  {table : Table κ α} {key : κ} {entry : κ × α}

/-- A table contains exactly its keys. -/
theorem contains_iff : table.contains key ↔ key ∈ table.keys := by
  simp [contains, keys]

omit [LawfulBEq κ] in
theorem isSome_get? (table : Table κ α) (key : κ) :
    (table.get? key).isSome = table.contains key := by
  simp [get?, contains, isSome_find?]

omit [LawfulBEq κ] in
theorem get?_map {β : Type} (f : α → β) (table : Table κ α) (key : κ) :
    (table.map f).get? key = (table.get? key).map f := by
  simp [get?, map, find?_map, Function.comp_def]

/-- What is looked up stands in the table. -/
theorem mem_of_get? (found : table.get? key = some value) : (key, value) ∈ table.entries := by
  obtain ⟨⟨same, result⟩, here, rfl⟩ := Option.map_eq_some_iff.mp found
  have equal : same = key := by simpa using find?_some here
  exact equal ▸ mem_of_find?_eq_some here

/-- A new key comes last. -/
theorem keys_insert (table : Table κ α) (key : κ) (value : α) :
    (table.insert key value).keys =
      if key ∈ table.keys then table.keys else table.keys ++ [key] := by
  unfold insert
  by_cases known : key ∈ table.keys
  · rw [if_pos (contains_iff.mpr known), if_pos known]
    simp only [keys, map_map]
    apply map_congr_left
    intro entry _
    by_cases same : entry.1 == key <;> simp [same]
  · rw [if_neg (fun holds => known (contains_iff.mp holds)), if_neg known]
    simp [keys]

theorem mem_keys_insert :
    other ∈ (table.insert key value).keys ↔ other = key ∨ other ∈ table.keys := by
  rw [keys_insert]
  by_cases known : key ∈ table.keys
  · rw [if_pos known]
    exact ⟨.inr, fun either => either.elim (fun same => same ▸ known) id⟩
  · rw [if_neg known, mem_append, mem_singleton, or_comm]

theorem contains_insert :
    (table.insert key value).contains other ↔
      other = key ∨ table.contains other := by
  rw [contains_iff, mem_keys_insert, contains_iff]

theorem nodup_keys_insert (distinct : table.keys.Nodup) (key : κ) (value : α) :
    (table.insert key value).keys.Nodup := by
  rw [keys_insert]
  by_cases known : key ∈ table.keys
  · rwa [if_pos known]
  · rw [if_neg known]
    exact distinct.append (nodup_singleton key) (by simpa using known)

omit [LawfulBEq κ] in
theorem nodup_keys_erase (distinct : table.keys.Nodup) (key : κ) : (table.erase key).keys.Nodup :=
  distinct.sublist (filter_sublist.map _)

/-- An insertion brings in no entry but its own. -/
theorem mem_entries_insert (member : entry ∈ (table.insert key value).entries) :
    entry = (key, value) ∨ entry ∈ table.entries := by
  unfold insert at member
  by_cases known : table.contains key = true
  · rw [if_pos known] at member
    obtain ⟨old, here, rfl⟩ := mem_map.mp member
    by_cases same : old.1 == key
    · left
      rw [if_pos same, eq_of_beq same]
    · right
      rwa [if_neg same]
  · rw [if_neg known] at member
    rcases mem_append.mp member with old | new
    · exact .inr old
    · exact .inl (mem_singleton.mp new)

/-- The inserted value can be found. -/
theorem get?_insert_self (table : Table κ α) (key : κ) (value : α) :
    (table.insert key value).get? key = some value := by
  unfold insert get?
  by_cases known : table.contains key = true
  · rw [if_pos known]
    have replaced : ∀ entries : List (κ × α), (entries.any fun entry => entry.1 == key) = true →
        ((entries.map fun entry => if entry.1 == key then (entry.1, value) else entry).find?
          fun entry => entry.1 == key).map (·.2) = some value := by
      intro entries inside
      induction entries with
      | nil => simp at inside
      | cons entry entries ih =>
        by_cases same : entry.1 == key
        · simp [same]
        · have later : (entries.any fun entry => entry.1 == key) = true := by
            simpa [same] using inside
          simpa [same] using ih later
    exact replaced table.entries known
  · rw [if_neg known]
    have absent : (table.entries.find? fun entry => entry.1 == key) = none := by
      rw [find?_eq_none]
      intro entry here same
      exact known (any_eq_true.mpr ⟨entry, here, same⟩)
    simp [find?_append, absent]

/-- An insertion leaves the other keys as they are. -/
theorem get?_insert_of_ne (table : Table κ α) (value : α) (different : other ≠ key) :
    (table.insert key value).get? other = table.get? other := by
  unfold insert get?
  by_cases known : table.contains key = true
  · rw [if_pos known]
    congr 1
    rw [find?_map]
    have unchanged : ∀ entries : List (κ × α), Option.map
        (fun entry : κ × α => if entry.1 == key then (entry.1, value) else entry)
          (entries.find? ((fun entry => entry.1 == other) ∘
            fun entry : κ × α => if entry.1 == key then (entry.1, value) else entry)) =
        entries.find? fun entry => entry.1 == other := by
      intro entries
      induction entries with
      | nil => rfl
      | cons entry entries ih =>
        by_cases same : entry.1 == other
        · have away : (entry.1 == key) = false := by
            rw [eq_of_beq same]
            simpa using different
          simp [same, away]
        · by_cases replaced : entry.1 == key <;> simpa [same, replaced] using ih
    exact unchanged table.entries
  · rw [if_neg known]
    have away : (key == other) = false := by simpa using fun same => different same.symm
    simp [find?_append, away]

/-- A key has the new value, or one that it had. -/
theorem get?_insert_eq_some {found : α} (known : (table.insert key value).get? other = some found) :
    other = key ∧ found = value ∨ table.get? other = some found := by
  by_cases same : other = key
  · subst same
    rw [get?_insert_self] at known
    exact .inl ⟨rfl, (Option.some.inj known).symm⟩
  · exact .inr ((get?_insert_of_ne table value same).symm.trans known)

/-- An erased key is gone. -/
theorem get?_erase_self (table : Table κ α) (key : κ) : (table.erase key).get? key = none := by
  simp [erase, get?]

theorem get?_erase_of_ne (table : Table κ α) (different : other ≠ key) :
    (table.erase key).get? other = table.get? other := by
  unfold erase get?
  rw [find?_filter]
  congr 2
  funext entry
  by_cases same : entry.1 = other
  · simp [same, different]
  · simp [same]

theorem contains_union (known : table.contains key) (other : Table κ α) :
    (table.union other).contains key := by
  refine List.foldlRecOn (motive := fun result : Table κ α => result.contains key = true)
    other.entries _ known ?_
  intro result kept entry _
  exact contains_insert.mpr (.inr kept)

/-- The second table of a union has precedence. -/
theorem get?_union (table : Table κ α) {other : Table κ α} (distinct : other.keys.Nodup) (key : κ) :
    (table.union other).get? key = (other.get? key).or (table.get? key) := by
  obtain ⟨entries⟩ := other
  induction entries generalizing table with
  | nil => rfl
  | cons entry entries ih =>
    obtain ⟨absent, distinct⟩ := nodup_cons.mp distinct
    have step := ih (table.insert entry.1 entry.2) distinct
    change ((table.insert entry.1 entry.2).union ⟨entries⟩).get? key = _
    by_cases same : key = entry.1
    · have none : (⟨entries⟩ : Table κ α).get? key = none := by
        rw [← Option.not_isSome_iff_eq_none, isSome_get?, contains_iff, same]
        exact absent
      rw [step, none, same, get?_insert_self]
      simp [get?]
    · rw [step, get?_insert_of_ne _ _ same]
      simp [get?, Ne.symm same]

theorem mem_keys_ofList : key ∈ (ofList entries).keys ↔ key ∈ entries.map (·.1) := by
  have gathered : ∀ (entries : List (κ × α)) (table : Table κ α),
      key ∈ (table.union ⟨entries⟩).keys ↔ key ∈ table.keys ∨ key ∈ entries.map (·.1) := by
    intro entries
    induction entries with
    | nil => intro table; simp [union]
    | cons entry entries ih =>
      intro table
      have step := ih (table.insert entry.1 entry.2)
      simp only [union, foldl_cons] at step ⊢
      rw [step, mem_keys_insert, map_cons, mem_cons]
      tauto
  have whole := gathered entries empty
  simpa [ofList, empty, keys] using whole

theorem nodup_keys_union (distinct : table.keys.Nodup) (other : Table κ α) :
    (table.union other).keys.Nodup := by
  refine List.foldlRecOn (motive := fun result : Table κ α => result.keys.Nodup)
    other.entries _ distinct ?_
  intro result kept entry _
  exact nodup_keys_insert kept entry.1 entry.2

/-- A table made from a list has each key once. -/
theorem nodup_keys_ofList (entries : List (κ × α)) : (ofList entries).keys.Nodup :=
  @nodup_keys_union κ α _ _ empty nodup_nil ⟨entries⟩

/-- A table made from a list has only entries of the list. -/
theorem mem_of_mem_ofList (member : entry ∈ (ofList entries).entries) : entry ∈ entries := by
  have gathered : ∀ (entries : List (κ × α)) (table : Table κ α),
      entry ∈ (table.union ⟨entries⟩).entries → entry ∈ table.entries ∨ entry ∈ entries := by
    intro entries
    induction entries with
    | nil => intro table inside; exact .inl inside
    | cons head entries ih =>
      intro table inside
      rcases ih (table.insert head.1 head.2) inside with old | later
      · rcases mem_entries_insert old with same | old
        · exact .inr (same ▸ mem_cons_self)
        · exact .inl old
      · exact .inr (mem_cons_of_mem _ later)
  exact (gathered entries empty member).resolve_left (by simp [empty])

omit [BEq κ] [LawfulBEq κ] in
/-- A key that occurs once in a table has one value. -/
theorem eq_of_mem_entries (distinct : table.keys.Nodup) {first second : α}
    (left : (key, first) ∈ table.entries) (right : (key, second) ∈ table.entries) :
    first = second := by
  have same := inj_on_of_nodup_map distinct left right rfl
  exact congrArg Prod.snd same

/-- With each key once, a key has the value beside it. -/
theorem get?_eq_some_iff (distinct : table.keys.Nodup) :
    table.get? key = some value ↔ (key, value) ∈ table.entries := by
  refine ⟨mem_of_get?, fun member => ?_⟩
  cases found : table.get? key with
  | none =>
    have absent := find?_eq_none.mp (Option.map_eq_none_iff.mp found) _ member
    simp at absent
  | some other => exact congrArg some (eq_of_mem_entries distinct (mem_of_get? found) member)

/-- A list with each key once is a table as it stands. -/
theorem ofList_eq_of_nodup (distinct : (entries.map (·.1)).Nodup) : ofList entries = ⟨entries⟩ := by
  have gathered : ∀ later earlier : List (κ × α), ((earlier ++ later).map (·.1)).Nodup →
      (⟨earlier⟩ : Table κ α).union ⟨later⟩ = ⟨earlier ++ later⟩ := by
    intro later
    induction later with
    | nil =>
      simp [union]
    | cons entry later ih =>
      intro earlier distinct
      have new : ¬ (⟨earlier⟩ : Table κ α).contains entry.1 = true := by
        rw [contains_iff]
        simp only [map_append, map_cons] at distinct
        exact fun member => disjoint_of_nodup_append distinct member mem_cons_self
      have rest := ih (earlier ++ [entry]) (by simpa using distinct)
      simp only [union, foldl_cons, insert, if_neg new, append_assoc, singleton_append] at rest ⊢
      exact rest
  exact gathered entries [] distinct

/-- The inserted keys get the value, the others stay. -/
theorem get?_foldl_insert [DecidableEq κ] (keys : List κ) (value : α) (table : Table κ α)
    (key : κ) : (keys.foldl (fun table other => table.insert other value) table).get? key =
      if key ∈ keys then some value else table.get? key := by
  induction keys generalizing table with
  | nil => simp
  | cons other keys ih =>
    rw [foldl_cons, ih]
    by_cases later : key ∈ keys
    · simp [later]
    · by_cases same : key = other
      · subst same
        simp [later, get?_insert_self]
      · simp [later, same, get?_insert_of_ne _ value same]

end TypeInference.Table
