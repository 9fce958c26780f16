/- The first flag for type parameters only opens an empty table. -/

import TypeInference.Proofs.Classes

namespace TypeInference

open List

namespace Flag

/-- The names and counts in a flag, as they are written. -/
def words (pairs : List (String × Nat)) : List String :=
  pairs.flatMap fun pair => [pair.1, toString pair.2]

def encode (pairs : List (String × Nat)) : String := ",".intercalate (words pairs)

/-- The entries of the table that the names and counts stand for. -/
def entries (pairs : List (String × Nat)) : List (String × List TypeParam) :=
  pairs.map fun pair => (pair.1, typeParams pair.1 pair.2)

section Numbers

theorem digits?_eq_some {cs : List Char} (digits : ∀ c ∈ cs, c.isDigit) (value : Nat) :
    digits? cs value = some (Nat.ofDigitChars 10 cs value) := by
  induction cs generalizing value with
  | nil => rfl
  | cons c cs ih =>
    obtain ⟨digit, rest⟩ := forall_mem_cons.mp digits
    rw [Nat.ofDigitChars_cons, ← ih rest, digits?.eq_3, if_pos digit]
    rintro _ _ rfl
    cases digit

theorem isBlank_of_isDigit {c : Char} (digit : c.isDigit) : isBlank c = false := by
  have bounds : 48 ≤ c.toNat ∧ c.toNat ≤ 57 := by
    simpa [Char.isDigit, UInt32.le_iff_toNat_le] using digit
  have notSpace : c ≠ ' ' := by
    rintro rfl
    cases digit
  simp [isBlank, notSpace]
  omega

theorem dropWhile_isBlank {cs : List Char} (digits : ∀ c ∈ cs, c.isDigit) :
    cs.dropWhile isBlank = cs := by
  cases cs with
  | nil => rfl
  | cons c cs => rw [dropWhile_cons_of_neg (by simp [isBlank_of_isDigit (digits c mem_cons_self)])]

/-- A number is read back from its digits. -/
theorem wholeNumber?_toString (n : Nat) : wholeNumber? (toString n) = some (n : Int) := by
  have digits : ∀ c ∈ (toString n).toList, c.isDigit := fun _ => isDigit_of_mem_toString
  have trimmed : (((toString n).toList.dropWhile isBlank).reverse.dropWhile isBlank).reverse =
      (toString n).toList := by
    rw [dropWhile_isBlank digits, dropWhile_isBlank (by simpa using digits), reverse_reverse]
  have isNumber : unsigned? (toString n).toList = some n := by
    have value := digits?_eq_some digits 0
    have same : Nat.ofDigitChars 10 (toString n).toList 0 = n := by simp [Nat.repr]
    rw [same] at value
    cases is : (toString n).toList with
    | nil => exact absurd is (by simp [Nat.repr, Nat.toDigits_ne_nil])
    | cons c cs =>
      rw [is] at value digits
      rw [unsigned?, if_pos (digits c mem_cons_self), value]
  rw [wholeNumber?, trimmed]
  split
  · next is => exact absurd (digits '-' (is ▸ mem_cons_self)) (by decide)
  · next is => exact absurd (digits '+' (is ▸ mem_cons_self)) (by decide)
  · rw [isNumber]
    rfl

end Numbers

/-- Names and counts are read one after the other. -/
theorem readCounts_words (pairs : List (String × Nat)) (table : TypeParams) :
    readCounts (words pairs) table = .ok (table.union ⟨entries pairs⟩) := by
  induction pairs generalizing table with
  | nil => rfl
  | cons pair pairs ih =>
    change readCounts (pair.1 :: toString pair.2 :: words pairs) table = _
    rw [readCounts, wholeNumber?_toString]
    exact ih _

/-- Texts without commas are split at the commas. -/
theorem splitOn_intercalate_comma {texts : List String} (some : texts ≠ [])
    (free : ∀ text ∈ texts, ',' ∉ text.toList) :
    ((",".intercalate texts).toList.splitOn ',').map String.ofList = texts := by
  rw [String.toList_intercalate]
  change ((intercalate [','] (texts.map String.toList)).splitOn ',').map _ = _
  rw [splitOn_intercalate _ (by simpa using free) (by simpa using some), map_map]
  simp [Function.comp_def]

variable {pairs : List (String × Nat)}

theorem forall_mem_words (free : ∀ pair ∈ pairs, ',' ∉ pair.1.toList) :
    ∀ text ∈ words pairs, ',' ∉ text.toList := by
  intro text member
  obtain ⟨pair, inside, isText⟩ := mem_flatMap.mp member
  rcases mem_pair.mp isText with rfl | rfl
  · exact free pair inside
  · exact fun comma => absurd (isDigit_of_mem_toString comma) (by decide)

/-- A later flag for the same definitions is decoded. -/
theorem extend_encode (free : ∀ pair ∈ pairs, ',' ∉ pair.1.toList) :
    extend (some {}) (some (encode pairs)) = .ok (.ofList (entries pairs)) := by
  cases pairs with
  | nil => rfl
  | cons pair pairs =>
    have separated : encode (pair :: pairs) ≠ "" := by
      intro empty
      have none := congrArg String.toList empty
      simp [encode, words, String.toList_intercalate, intercalate] at none
    have some : words (pair :: pairs) ≠ [] := cons_ne_nil _ _
    rw [extend, encode, splitOn_intercalate_comma some (forall_mem_words free)]
    · exact readCounts_words _ _
    · exact separated

/-- The definitions that flags give type parameters to. -/
inductive Owner where
  | functions
  | classes

def Owner.flag : Owner → String
  | functions => "func_type_params"
  | classes => "class_type_params"

def Outcome.params (outcome : Outcome) : Owner → Option TypeParams
  | .functions => outcome.funcParams
  | .classes => outcome.classParams

def Outcome.withParams (outcome : Outcome) (table : TypeParams) : Owner → Outcome
  | .functions => { outcome with funcParams := some table }
  | .classes => { outcome with classParams := some table }

theorem configure_flag (owner : Owner) (value : Option String)
    (rest : List (String × Option String)) (outcome : Outcome) :
    configure ((owner.flag, value) :: rest) outcome =
      match extend (outcome.params owner) value with
      | .ok table => configure rest (outcome.withParams table owner)
      | .error fault => (some fault, outcome) := by
  cases owner <;> rfl

/-- The first flag for functions or for classes only opens an empty table. A second one is decoded:
each name has as many type parameters as its count says. -/
theorem only_repeated_flag_decoded (owner : Owner) (outcome : Outcome)
    (unset : outcome.params owner = none) (pairs : List (String × Nat))
    (free : ∀ pair ∈ pairs, ',' ∉ pair.1.toList) (distinct : (pairs.map (·.1)).Nodup) :
    (configure [(owner.flag, some (encode pairs))] outcome =
      (none, outcome.withParams ⟨entries pairs⟩ owner) ↔ pairs = []) ∧
    ∀ value, configure [(owner.flag, value)] outcome = (none, outcome.withParams {} owner) ∧
      configure [(owner.flag, value), (owner.flag, some (encode pairs))] outcome =
        (none, outcome.withParams ⟨entries pairs⟩ owner) := by
  have first (value : Option String) (rest : List (String × Option String)) :
      configure ((owner.flag, value) :: rest) outcome =
        configure rest (outcome.withParams {} owner) := by
    rw [configure_flag, unset]
    rfl
  refine ⟨?_, fun value => ⟨first value [], ?_⟩⟩
  · rw [first]
    constructor
    · intro same
      have tables := congrArg (fun result => result.2.params owner) same
      cases owner <;> simpa [configure, Outcome.params, Outcome.withParams, entries] using tables
    · rintro rfl
      rfl
  · have names : ((entries pairs).map (·.1)).Nodup := by simpa [entries, Function.comp_def]
    have opened : (outcome.withParams {} owner).params owner = some {} := by cases owner <;> rfl
    rw [first, configure_flag, opened, extend_encode free, Table.ofList_eq_of_nodup names]
    cases owner <;> rfl

/-- A flag without pairs is decoded. -/
theorem empty_flag_decoded : configure [(Owner.functions.flag, some "")] ⟨{}, none, none⟩ =
    (none, ⟨{}, none, some {}⟩) :=
  (only_repeated_flag_decoded .functions ⟨{}, none, none⟩ rfl [] (by simp) .nil).1.mpr rfl

/-- What the only flag says about two functions gets lost. -/
theorem only_flag_lost : configure [(Owner.functions.flag, some "f,1,g,2")] ⟨{}, none, none⟩ =
    (none, ⟨{}, none, some {}⟩) := rfl

end Flag

end TypeInference
