/- What a class gathers from its ancestors. -/

import Mathlib.Data.List.Induction
import TypeInference.Hierarchy.Inheritance
import TypeInference.Proofs.Table
import TypeInference.Proofs.Traversal

namespace TypeInference

open List Stmt

namespace Stmt

variable {stmt : Stmt}

/-- The name of the method that a statement defines. -/
def methodName? : Stmt → Option String
  | .functionDef definition => some definition.name
  | _ => none

/-- The name that an assignment binds first. -/
def assignedName? : Stmt → Option String
  | .assign _ (.name _ id _ :: _) _ => some id
  | _ => none

theorem assignedName?_eq_none (other : ∀ site line id usage targets value,
    stmt ≠ .assign site (.name line id usage :: targets) value) : stmt.assignedName? = none := by
  unfold assignedName?
  split
  · exact absurd rfl (other _ _ _ _ _ _)
  · rfl

theorem assignedName?_of_methodName? (method : stmt.methodName?.isSome) :
    stmt.assignedName? = none := by
  cases stmt with
  | functionDef definition => rfl
  | _ => simp [methodName?] at method

theorem methodName?_of_assignedName? (assigned : stmt.assignedName?.isSome) :
    stmt.methodName? = none := by
  cases stmt with
  | functionDef definition => simp [assignedName?] at assigned
  | _ => rfl

end Stmt

namespace Inheritance

variable {names : List String} {before after : Gathered} {name : String}

section Kind

-- Methods and attributes are inherited alike. A kind of members is given by the names they define.
variable (nameOf : Stmt → Option String)

/-- The statements of a body that define a name. -/
def definitions (name : String) (body : List Stmt) : List Stmt :=
  body.filter fun stmt => nameOf stmt == some name

def defines (name : String) (c : ClassDef) : Bool :=
  c.body.any fun stmt => nameOf stmt == some name

/-- The first class of an order that defines a name. -/
def provider (classes : List ClassDef) (order : List String) (name : String) : Option ClassDef :=
  (order.filterMap fun className => classes.find? fun c => c.name == className).find?
    (defines nameOf name)

/-- The definitions in the first class that has one. -/
def lookup (classes : List ClassDef) (order : List String) (name : String) : List Stmt :=
  ((provider nameOf classes order name).map fun c => definitions nameOf name c.body).getD []

/-- The statements with names that are not yet known. -/
def added (known body : List Stmt) : List Stmt :=
  body.filter fun stmt => (nameOf stmt).any fun name => !(known.filterMap nameOf).contains name

/-- What ancestors add to what a class has gathered. -/
def gather (own : List Stmt) : List Stmt → List ClassDef → List Stmt
  | gathered, [] => gathered
  | gathered, ancestor :: ancestors =>
    gather own (gathered ++ added nameOf (own ++ gathered) ancestor.body) ancestors

variable {nameOf}

theorem definitions_append (name : String) (first second : List Stmt) :
    definitions nameOf name (first ++ second) =
      definitions nameOf name first ++ definitions nameOf name second :=
  filter_append ..

theorem definitions_eq_nil_iff {body : List Stmt} :
    definitions nameOf name body = [] ↔ name ∉ body.filterMap nameOf := by
  simp [definitions, filter_eq_nil_iff]

theorem definitions_ne_nil_iff {c : ClassDef} :
    definitions nameOf name c.body ≠ [] ↔ defines nameOf name c := by
  simp [definitions, defines, filter_eq_nil_iff]

/-- A body adds all its definitions of a name or none. -/
theorem definitions_added (name : String) (known body : List Stmt) :
    definitions nameOf name (added nameOf known body) =
      if definitions nameOf name known = [] then definitions nameOf name body else [] := by
  unfold definitions added
  rw [filter_filter]
  split
  · next unknown =>
    have new := definitions_eq_nil_iff.mp unknown
    refine filter_congr fun stmt _ => ?_
    by_cases named : nameOf stmt = some name
    · simpa [named] using new
    · simp [named]
  · next known =>
    have old : name ∈ _ := Decidable.not_not.mp (mt definitions_eq_nil_iff.mpr known)
    rw [filter_eq_nil_iff]
    intro stmt _ holds
    simp only [Bool.and_eq_true, beq_iff_eq] at holds
    rw [holds.1, Option.any_some, Bool.not_eq_true', contains_eq_mem,
      decide_eq_false_iff_not] at holds
    exact holds.2 old

/-- A name that is known keeps its definitions. -/
theorem definitions_append_added (name : String) (known body : List Stmt) :
    definitions nameOf name (known ++ added nameOf known body) =
      if definitions nameOf name known = [] then definitions nameOf name body
      else definitions nameOf name known := by
  rw [definitions_append, definitions_added]
  by_cases unknown : definitions nameOf name known = []
  · simp [unknown]
  · simp [unknown]

/-- The first ancestor with an unknown name defines it. -/
theorem definitions_gather (name : String) (own : List Stmt) (ancestors : List ClassDef) :
    ∀ gathered, definitions nameOf name (own ++ gather nameOf own gathered ancestors) =
      if definitions nameOf name (own ++ gathered) = [] then
        ((ancestors.find? (defines nameOf name)).map fun c =>
          definitions nameOf name c.body).getD []
      else definitions nameOf name (own ++ gathered) := by
  induction ancestors with
  | nil =>
    intro gathered
    by_cases unknown : definitions nameOf name (own ++ gathered) = []
    · simp [gather, unknown]
    · simp [gather, unknown]
  | cons ancestor ancestors ih =>
    intro gathered
    rw [gather, ih, ← append_assoc, definitions_append_added]
    by_cases unknown : definitions nameOf name (own ++ gathered) = []
    · rw [if_pos unknown, if_pos unknown]
      by_cases here : defines nameOf name ancestor = true
      · rw [if_neg (definitions_ne_nil_iff.mpr here), find?_cons_of_pos here]
        rfl
      · have absent := Decidable.not_not.mp (mt definitions_ne_nil_iff.mp here)
        rw [if_pos absent, find?_cons_of_neg here]
    · rw [if_neg unknown, if_neg unknown, if_neg unknown]

theorem isSome_of_mem_gather {own gathered : List Stmt} {ancestors : List ClassDef}
    (known : ∀ stmt ∈ gathered, (nameOf stmt).isSome) :
    ∀ stmt ∈ gather nameOf own gathered ancestors, (nameOf stmt).isSome := by
  induction ancestors generalizing gathered with
  | nil => exact known
  | cons ancestor ancestors ih =>
    refine ih fun stmt member => ?_
    rcases mem_append.mp member with before | here
    · exact known stmt before
    · exact Option.isSome_of_any (mem_filter.mp here).2

/-- Members of one kind define no names of another one. -/
theorem definitions_gather_of_disjoint {other : Stmt → Option String}
    (disjoint : ∀ stmt, (nameOf stmt).isSome → other stmt = none) (name : String)
    (own : List Stmt) (ancestors : List ClassDef) :
    definitions other name (gather nameOf own [] ancestors) = [] := by
  rw [definitions, filter_eq_nil_iff]
  intro stmt member
  have named := isSome_of_mem_gather (by simp) stmt member
  simp [disjoint stmt named]

end Kind

/-- The names that are assigned are those of the assignments. -/
theorem assignedNames_eq {body : List Stmt} (done : assignedNames body = .ok names) :
    names = body.filterMap assignedName? := by
  induction body using List.reverseRecOn generalizing names with
  | nil => exact (pure_ok done).symm
  | append_singleton body stmt ih =>
    unfold assignedNames at done
    rw [foldlM_append] at done
    obtain ⟨before, first, last⟩ := bind_ok done
    rw [foldlM_cons] at last
    obtain ⟨after, here, rfl⟩ := map_ok last
    rw [filterMap_append, ← ih first]
    split at here
    · exact (Except.ok.inj here).symm
    · simp at here
    · next notNamed notAssign =>
      rw [filterMap_cons_none (assignedName?_eq_none notNamed), filterMap_nil, append_nil]
      exact (Except.ok.inj here).symm

theorem inheritedMethods_eq (ancestor : ClassDef) (known : List Stmt) :
    inheritedMethods ancestor (methodNames known) = added methodName? known ancestor.body := by
  exact filter_congr fun stmt _ => by cases stmt <;> rfl

theorem inheritedAttributes_eq (ancestor : ClassDef) (known : List Stmt) :
    inheritedAttributes ancestor (known.filterMap assignedName?) =
      added assignedName? known ancestor.body := by
  refine filter_congr fun stmt _ => ?_
  split
  · rfl
  · next other => rw [assignedName?_eq_none other, Option.any_none]

/-- What is gathered when one more ancestor has given its part. -/
def Gathered.extend (c ancestor : ClassDef) (name : String) (before : Gathered) : Gathered :=
  let methods := added methodName? (c.body ++ before.methods) ancestor.body
  let attributes := added assignedName? (c.body ++ before.attributes) ancestor.body
  { methods := before.methods ++ methods
    attributes := before.attributes ++ attributes
    supers := (methods.filterMap methodName?).foldl (fun table method =>
      table.insert method name) before.supers
    origins := ((methods ++ attributes).map label).foldl (fun table label =>
      table.insert label name) before.origins }

/-- One ancestor fails only if an assignment has no name. -/
theorem inherit_eq_ok {c ancestor : ClassDef} :
    inherit c before ancestor name = .ok after ↔
      (∃ names, assignedNames (c.body ++ before.attributes) = .ok names) ∧
        after = before.extend c ancestor name := by
  unfold inherit Gathered.extend
  dsimp only
  rw [bind_eq_ok_iff, ← exists_and_right]
  refine exists_congr fun names => and_congr_right fun known => ?_
  rw [pure_eq_ok_iff, assignedNames_eq known, inheritedMethods_eq, inheritedAttributes_eq,
    foldl_map]
  exact eq_comm

/-- A method is marked with the name of its ancestor. -/
theorem supers_extend (c ancestor : ClassDef) (name method : String) (before : Gathered) :
    (before.extend c ancestor name).supers.get? method =
      if definitions methodName? method (c.body ++ before.methods) = [] ∧
        defines methodName? method ancestor then some name
      else before.supers.get? method := by
  rw [Gathered.extend, Table.get?_foldl_insert]
  refine if_congr ?_ rfl rfl
  rw [← Decidable.not_not (p := method ∈ _), ← definitions_eq_nil_iff, definitions_added,
    ← definitions_ne_nil_iff]
  by_cases unknown : definitions methodName? method (c.body ++ before.methods) = []
  · simp [unknown]
  · simp [unknown]

section Ancestors

variable {table : Table String ClassDef} {c : ClassDef}

theorem inheritAll_cons_eq_ok :
    inheritAll table c before (name :: names) = .ok after ↔
      if name = c.name then inheritAll table c before names = .ok after
      else ∃ ancestor, table.get? name = some ancestor ∧
        (∃ known, assignedNames (c.body ++ before.attributes) = .ok known) ∧
        inheritAll table c (before.extend c ancestor name) names = .ok after := by
  rw [inheritAll]
  by_cases own : name = c.name
  · simp [own]
  · rw [if_neg (by simpa using own), if_neg own]
    cases table.get? name with
    | none => simp
    | some ancestor =>
      simp only [bind_eq_ok_iff, inherit_eq_ok, Option.some.injEq, exists_eq_left', and_assoc,
        exists_and_left, exists_eq_left]

/-- Ancestors give methods, attributes and origins. -/
theorem inheritAll_eq_ok
    (named : ∀ {name ancestor}, table.get? name = some ancestor → ancestor.name = name)
    (done : inheritAll table c before names = .ok after) :
    ∃ ancestors, (names.filter (· ≠ c.name)).map table.get? = ancestors.map some ∧
      after.methods = gather methodName? c.body before.methods ancestors ∧
      after.attributes = gather assignedName? c.body before.attributes ancestors ∧
      ∀ method, after.supers.get? method =
        if definitions methodName? method (c.body ++ before.methods) = [] then
          ((ancestors.find? (defines methodName? method)).map (·.name)).or
            (before.supers.get? method)
        else before.supers.get? method := by
  induction names generalizing before with
  | nil =>
    obtain rfl := Except.ok.inj done
    exact ⟨[], rfl, rfl, rfl, fun method => by simp⟩
  | cons name names ih =>
    rw [inheritAll_cons_eq_ok] at done
    by_cases own : name = c.name
    · rw [if_pos own] at done
      obtain ⟨ancestors, found, rest⟩ := ih done
      exact ⟨ancestors, by simpa [own] using found, rest⟩
    · rw [if_neg own] at done
      obtain ⟨ancestor, isAncestor, -, done⟩ := done
      obtain ⟨ancestors, found, methods, attributes, supers⟩ := ih done
      refine ⟨ancestor :: ancestors, by simpa [own, isAncestor] using found, methods, attributes,
        fun method => ?_⟩
      rw [supers method, supers_extend, Gathered.extend, ← append_assoc, definitions_append_added]
      by_cases unknown : definitions methodName? method (c.body ++ before.methods) = []
      · by_cases here : defines methodName? method ancestor = true
        · have some := definitions_ne_nil_iff.mpr here
          simp [unknown, here, some, named isAncestor]
        · have none := Decidable.not_not.mp (mt definitions_ne_nil_iff.mp here)
          simp [unknown, here, none]
      · simp [unknown]

theorem inheritAll_invariant (invariant : Gathered → Prop)
    (done : inheritAll table c before names = .ok after) (start : invariant before)
    (step : ∀ {before name ancestor}, table.get? name = some ancestor →
      invariant before → invariant (before.extend c ancestor name)) : invariant after := by
  induction names generalizing before with
  | nil => exact Except.ok.inj done ▸ start
  | cons name names ih =>
    rw [inheritAll_cons_eq_ok] at done
    by_cases own : name = c.name
    · rw [if_pos own] at done
      exact ih done start
    · rw [if_neg own] at done
      obtain ⟨ancestor, isAncestor, -, done⟩ := done
      exact ih done (step isAncestor start)

/-- Marks have no influence on what is inherited. -/
theorem inheritAll_withOrigins (done : inheritAll table c before names = .ok after)
    (origins : Table Nat String) :
    ∃ marks, inheritAll table c { before with origins := origins } names =
      .ok { after with origins := marks } := by
  induction names generalizing before origins with
  | nil =>
    obtain rfl := Except.ok.inj done
    exact ⟨origins, rfl⟩
  | cons name names ih =>
    rw [inheritAll_cons_eq_ok] at done
    simp only [inheritAll_cons_eq_ok]
    by_cases own : name = c.name
    · simp only [if_pos own] at done ⊢
      exact ih done origins
    · simp only [if_neg own] at done ⊢
      obtain ⟨ancestor, isAncestor, known, done⟩ := done
      obtain ⟨marks, rest⟩ := ih done
        (Gathered.extend c ancestor name { before with origins := origins }).origins
      exact ⟨marks, ancestor, isAncestor, known, rest⟩

theorem inheritAll_congr {other : Table String ClassDef}
    (same : ∀ name, table.get? name = other.get? name) (names : List String) (before : Gathered) :
    inheritAll table c before names = inheritAll other c before names := by
  induction names generalizing before with
  | nil => rfl
  | cons name names ih =>
    rw [inheritAll, inheritAll, same]
    simp only [ih]

end Ancestors

end Inheritance

end TypeInference
