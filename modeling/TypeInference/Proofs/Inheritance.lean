/- Members of a class come from the first class in its order that defines them. -/

import Mathlib.Data.List.Perm.Basic
import TypeInference.Proofs.Members
import TypeInference.Proofs.Precedence

namespace TypeInference

open List Table Stmt

namespace Bases

/-- Orders depend only on what is looked up. -/
theorem linearizeWithin_congr {bases others : Bases}
    (same : ∀ name, bases.get? name = others.get? name) (fuel : Nat) :
    linearizeWithin bases fuel = linearizeWithin others fuel := by
  induction fuel with
  | zero => rfl
  | succ fuel ih =>
    funext name
    rw [linearizeWithin, linearizeWithin, same, ih]

end Bases

namespace Inheritance

variable {c : ClassDef} {ancestors : List ClassDef} {name : String} {others : List ClassDef}
  {before : Gathered}

theorem origins_extend (c ancestor : ClassDef) (name : String) (label : Nat) (before : Gathered) :
    (before.extend c ancestor name).origins.get? label =
      if label ∈ (added Stmt.methodName? (c.body ++ before.methods) ancestor.body ++
        added Stmt.assignedName? (c.body ++ before.attributes) ancestor.body).map Stmt.label then
        some name
      else before.origins.get? label := by
  rw [Gathered.extend, get?_foldl_insert]

/-- Statements are marked with a class that they stand in. -/
def Marks (classes : List ClassDef) (origins : Table Nat String) : Prop :=
  ∀ {label name}, origins.get? label = some name →
    ∃ c ∈ classes, c.name = name ∧ label ∈ c.body.map Stmt.label

theorem Marks.extend {classes : List ClassDef} {ancestor : ClassDef}
    (marks : Marks classes before.origins) (member : ancestor ∈ classes) :
    Marks classes (before.extend c ancestor ancestor.name).origins := by
  intro label name found
  rw [origins_extend] at found
  split at found
  · next given =>
    refine ⟨ancestor, member, Option.some.inj found, ?_⟩
    obtain ⟨stmt, inside, rfl⟩ := mem_map.mp given
    refine mem_map_of_mem ?_
    rcases mem_append.mp inside with method | assigned
    · exact mem_of_mem_filter method
    · exact mem_of_mem_filter assigned
  · exact marks found

/-- The marked statements are those that are inherited. -/
def IsMarked (start : Table Nat String) (gathered : Gathered) : Prop :=
  ∀ label, (gathered.origins.get? label).isSome = true ↔ (start.get? label).isSome = true ∨
    label ∈ (gathered.methods ++ gathered.attributes).map Stmt.label

theorem IsMarked.extend {start : Table Nat String} (marked : IsMarked start before)
    (c ancestor : ClassDef) (name : String) : IsMarked start (before.extend c ancestor name) := by
  intro label
  rw [origins_extend]
  have whole := marked label
  simp only [Gathered.extend, map_append, mem_append] at whole ⊢
  split
  · next given => tauto
  · next notGiven => tauto

/-- What one class gathers from its ancestors. -/
def gatheredBy (classes : List ClassDef) (c : ClassDef) : Except Fault Gathered := do
  inheritAll (named classes) c { origins := {} } (← (bases classes).linearize c.name)

theorem name_of_get?_named {classes : List ClassDef} (found : (named classes).get? name = some c) :
    c ∈ classes ∧ c.name = name := by
  obtain ⟨d, member, is⟩ := mem_map.mp (mem_of_mem_ofList (mem_of_get? found))
  obtain ⟨rfl, rfl⟩ := Prod.mk.inj is
  exact ⟨member, rfl⟩

section Classes

variable {classes : List ClassDef} (distinct : (classes.map (·.name)).Nodup) {rest : List String}
include distinct

theorem ofList_byName {α : Type} (value : ClassDef → α) :
    Table.ofList (classes.map fun c => (c.name, value c)) =
      ⟨classes.map fun c => (c.name, value c)⟩ :=
  ofList_eq_of_nodup (by simpa [Function.comp_def] using distinct)

theorem get?_byName {α : Type} (value : ClassDef → α) (name : String) :
    (Table.ofList (classes.map fun c => (c.name, value c))).get? name =
      (classes.find? fun c => c.name == name).map value := by
  rw [ofList_byName distinct]
  simp [Table.get?, find?_map, Function.comp_def]

theorem find?_name_eq_some_iff :
    (classes.find? fun d => d.name == name) = some c ↔ c ∈ classes ∧ c.name = name := by
  constructor
  · intro found
    exact ⟨mem_of_find?_eq_some found, by simpa using find?_some found⟩
  · rintro ⟨member, rfl⟩
    have known : (named classes).keys.Nodup := nodup_keys_ofList _
    have entry : (c.name, c) ∈ (named classes).entries := by
      rw [named, ofList_byName distinct]
      exact mem_map_of_mem member
    have found := (get?_eq_some_iff known).mpr entry
    rwa [named, get?_byName distinct, Option.map_id'] at found

theorem get?_named (name : String) :
    (named classes).get? name = classes.find? fun c => c.name == name := by
  rw [named, get?_byName distinct, Option.map_id']

theorem find?_name_perm (same : others.Perm classes) (name : String) :
    (others.find? fun c => c.name == name) = classes.find? fun c => c.name == name := by
  have otherDistinct : (others.map (·.name)).Nodup := (same.map _).nodup_iff.mpr distinct
  refine Option.ext fun c => ?_
  rw [find?_name_eq_some_iff otherDistinct, find?_name_eq_some_iff distinct, same.mem_iff]

/-- What is gathered does not depend on the order of classes. -/
theorem gatheredBy_perm (same : others.Perm classes) (c : ClassDef) :
    gatheredBy others c = gatheredBy classes c := by
  have otherDistinct : (others.map (·.name)).Nodup := (same.map _).nodup_iff.mpr distinct
  have sameNames := find?_name_perm distinct same
  have sameBases (name : String) : (bases others).get? name = (bases classes).get? name := by
    rw [bases, bases, get?_byName otherDistinct, get?_byName distinct, sameNames]
  have sameSize : (bases others).size = (bases classes).size := by
    rw [bases, bases, ofList_byName otherDistinct, ofList_byName distinct]
    simpa [Table.size] using same.length_eq
  have sameTable (name : String) : (named others).get? name = (named classes).get? name := by
    rw [get?_named otherDistinct, get?_named distinct, sameNames]
  rw [gatheredBy, gatheredBy, Bases.linearize, Bases.linearize, sameSize,
    Bases.linearizeWithin_congr sameBases]
  simp only [inheritAll_congr sameTable]

/-- The first ancestor that has a member provides it. -/
theorem provider_eq (member : c ∈ classes)
    (found : ((c.name :: rest).filter (· ≠ c.name)).map (named classes).get? = ancestors.map some)
    (nameOf : Stmt → Option String) (name : String) :
    provider nameOf classes (c.name :: rest) name =
      if defines nameOf name c then some c else ancestors.find? (defines nameOf name) := by
  have own : (classes.find? fun d => d.name == c.name) = some c :=
    (find?_name_eq_some_iff distinct).mpr ⟨member, rfl⟩
  have listed : ancestors = (rest.filter (· ≠ c.name)).filterMap fun className =>
      classes.find? fun d => d.name == className := by
    have each := congrArg (List.filterMap id) found
    simpa [get?_named distinct] using each.symm
  rw [provider, filterMap_cons_some
    (f := fun className => classes.find? fun d => d.name == className) own]
  by_cases here : defines nameOf name c = true
  · rw [find?_cons_of_pos here, if_pos here]
  · rw [find?_cons_of_neg here, if_neg here, listed, find?_filterMap, find?_filterMap, find?_filter]
    congr 2
    funext other
    by_cases isOwn : other = c.name
    · simp [isOwn, own, here]
    · simp [isOwn]

/-- A class and its ancestors define a name as the order says. -/
theorem definitions_eq_lookup (member : c ∈ classes)
    (found : ((c.name :: rest).filter (· ≠ c.name)).map (named classes).get? = ancestors.map some)
    (nameOf : Stmt → Option String) (name : String) :
    definitions nameOf name (c.body ++ gather nameOf c.body [] ancestors) =
      lookup nameOf classes (c.name :: rest) name := by
  rw [definitions_gather, append_nil, lookup, provider_eq distinct member found]
  by_cases here : defines nameOf name c = true
  · rw [if_pos here, if_neg (definitions_ne_nil_iff.mpr here)]
    rfl
  · rw [if_neg here, if_pos (Decidable.not_not.mp (mt definitions_ne_nil_iff.mp here))]

end Classes

/-- A class gets what it has gathered. -/
def give (inheritance : Inheritance) (c : ClassDef) (gathered : Gathered) : Inheritance :=
  { supers := inheritance.supers.insert c.name gathered.supers
    members := inheritance.members.insert c.name (gathered.methods ++ gathered.attributes)
    origins := gathered.origins }

theorem membersOf_give_self (inheritance : Inheritance) (c : ClassDef) (gathered : Gathered) :
    (inheritance.give c gathered).membersOf c.name = gathered.methods ++ gathered.attributes := by
  rw [membersOf, give, get?_insert_self, Option.getD_some]

theorem membersOf_give_of_ne (inheritance : Inheritance) (gathered : Gathered)
    (different : name ≠ c.name) :
    (inheritance.give c gathered).membersOf name = inheritance.membersOf name := by
  rw [membersOf, give, get?_insert_of_ne _ _ different, membersOf]

/-- Treated classes have what they gather. -/
structure IsInherited (classes treated : List ClassDef) (inheritance : Inheritance) : Prop where
  gathered : ∀ c ∈ treated, ∃ gathered, gatheredBy classes c = .ok gathered ∧
    inheritance.supers.get? c.name = some gathered.supers ∧
    inheritance.members.get? c.name = some (gathered.methods ++ gathered.attributes)
  untreated : ∀ name ∉ treated.map (·.name),
    inheritance.supers.get? name = (classes.find? fun c => c.name == name).map (fun _ => {}) ∧
    inheritance.members.get? name = none
  marks : Marks classes inheritance.origins
  marked : ∀ label, (inheritance.origins.get? label).isSome = true ↔
    ∃ c ∈ treated, label ∈ (inheritance.membersOf c.name).map Stmt.label

section Run

variable {classes treated : List ClassDef} {inheritance next : Inheritance} {c : ClassDef}
  {rest : List ClassDef}

/-- A class is treated if it has an order of ancestors. -/
theorem addClass_eq_ok (isInherited : IsInherited classes treated inheritance)
    (new : c.name ∉ treated.map (·.name)) : addClass classes inheritance c = .ok next ↔
      ∃ order gathered, (bases classes).linearize c.name = .ok order ∧
        inheritAll (named classes) c { origins := inheritance.origins } order = .ok gathered ∧
        next = inheritance.give c gathered := by
  have empty : (inheritance.supers.get? c.name).getD {} = {} := by
    rw [(isInherited.untreated c.name new).1]
    cases classes.find? fun d => d.name == c.name <;> rfl
  unfold addClass give
  simp only [bind_eq_ok_iff, pure_eq_ok_iff, empty, exists_and_left]
  simp only [eq_comm]

theorem name_not_mem_of_nodup (new : ((treated ++ [c] ++ rest).map (·.name)).Nodup) :
    c.name ∉ treated.map (·.name) := by
  rw [map_append, map_append] at new
  have apart := disjoint_of_nodup_append new.of_append_left
  exact fun member => apart member mem_cons_self

section

variable (isInherited : IsInherited classes treated inheritance)
include isInherited

/-- A class gets what it gathers, and those before keep theirs. -/
theorem IsInherited.addClass (new : c.name ∉ treated.map (·.name))
    (added : addClass classes inheritance c = .ok next) :
    IsInherited classes (treated ++ [c]) next := by
  obtain ⟨order, gathered, isOrder, done, rfl⟩ := (addClass_eq_ok isInherited new).mp added
  have other {d : ClassDef} (member : d ∈ treated) : d.name ≠ c.name :=
    fun same => new (same ▸ mem_map_of_mem member)
  refine ⟨?_, ?_, ?_, ?_⟩
  · intro d member
    rcases mem_append.mp member with before | last
    · obtain ⟨own, isOwn, supers, members⟩ := isInherited.gathered d before
      rw [give, get?_insert_of_ne _ _ (other before), get?_insert_of_ne _ _ (other before)]
      exact ⟨own, isOwn, supers, members⟩
    · obtain rfl := mem_singleton.mp last
      obtain ⟨marks, own⟩ := inheritAll_withOrigins done {}
      exact ⟨_, bind_eq_ok_iff.mpr ⟨order, isOrder, own⟩, get?_insert_self .., get?_insert_self ..⟩
  · intro name absent
    rw [map_append, mem_append, not_or] at absent
    have different : name ≠ c.name := by simpa using absent.2
    rw [give, get?_insert_of_ne _ _ different, get?_insert_of_ne _ _ different]
    exact isInherited.untreated name absent.1
  · refine inheritAll_invariant (fun gathered => Marks classes gathered.origins) done
      isInherited.marks fun found marks => ?_
    obtain ⟨member, rfl⟩ := name_of_get?_named found
    exact marks.extend member
  · intro label
    have marked := inheritAll_invariant (IsMarked inheritance.origins) done
      (fun label => by simp) (fun _ marked => marked.extend c _ _) label
    rw [give, marked, isInherited.marked, ← give]
    constructor
    · rintro (⟨d, member, given⟩ | given)
      · refine ⟨d, mem_append_left _ member, ?_⟩
        rwa [membersOf_give_of_ne inheritance gathered (other member)]
      · refine ⟨c, mem_append_right _ mem_cons_self, ?_⟩
        rwa [membersOf_give_self]
    · rintro ⟨d, member, given⟩
      rcases mem_append.mp member with before | last
      · rw [membersOf_give_of_ne inheritance gathered (other before)] at given
        exact .inl ⟨d, before, given⟩
      · rw [mem_singleton.mp last, membersOf_give_self] at given
        exact .inr given

/-- A whole run, by induction on the classes that are left. -/
theorem IsInherited.foldlM {result : Inheritance} (new : ((treated ++ rest).map (·.name)).Nodup)
    (done : rest.foldlM (Inheritance.addClass classes) inheritance = .ok result) :
    IsInherited classes (treated ++ rest) result := by
  induction rest generalizing treated inheritance with
  | nil =>
    obtain rfl := pure_ok done
    rwa [append_nil]
  | cons c rest ih =>
    obtain ⟨middle, first, done⟩ := bind_ok done
    rw [append_cons] at new ⊢
    exact ih (isInherited.addClass (name_not_mem_of_nodup new) first) new done

/-- All classes are treated if members can be gathered for each. -/
theorem IsInherited.exists_foldlM (new : ((treated ++ rest).map (·.name)).Nodup)
    (each : ∀ c ∈ rest, ∃ gathered, gatheredBy classes c = .ok gathered) :
    ∃ result, rest.foldlM (Inheritance.addClass classes) inheritance = .ok result := by
  induction rest generalizing treated inheritance with
  | nil => exact ⟨inheritance, rfl⟩
  | cons c rest ih =>
    rw [append_cons] at new
    have isNew := name_not_mem_of_nodup new
    obtain ⟨gathered, isGathered⟩ := each c mem_cons_self
    obtain ⟨order, isOrder, gathers⟩ := bind_ok isGathered
    obtain ⟨marks, inherits⟩ := inheritAll_withOrigins gathers inheritance.origins
    have first := (addClass_eq_ok isInherited isNew).mpr ⟨order, _, isOrder, inherits, rfl⟩
    obtain ⟨result, last⟩ := ih (isInherited.addClass isNew first) new
      fun d member => each d (mem_cons_of_mem c member)
    refine ⟨result, ?_⟩
    exact bind_eq_ok_iff.mpr ⟨_, first, last⟩

end

variable (distinct : (classes.map (·.name)).Nodup)
include distinct

theorem isInherited_start : IsInherited classes []
    { supers := .ofList (classes.map fun c => (c.name, {})) } := by
  refine ⟨by simp, fun name _ => ⟨?_, rfl⟩, ?_, ?_⟩
  · exact get?_byName distinct (fun _ => ({} : Table String String)) name
  · intro label name found
    cases found
  · simp [Table.get?]

end Run

/-- The body of a class with what it inherits. -/
def bodyOf (inheritance : Inheritance) (c : ClassDef) : List Stmt :=
  c.body ++ inheritance.membersOf c.name

/-- Names are looked up along an order, with origins in a table. -/
structure FollowsOrder (classes : List ClassDef) (c : ClassDef) (body : List Stmt)
    (supers : Table String String) (order : List String) : Prop where
  methods : ∀ name, definitions methodName? name body =
    lookup methodName? classes order name
  attributes : ∀ name, definitions assignedName? name body =
    lookup assignedName? classes order name
  supers : ∀ name, supers.get? name =
    ((provider methodName? classes order name).map (·.name)).filter (· ≠ c.name)

/-- The label of a statement tells its class. -/
def LabelsTellApart (classes : List ClassDef) : Prop :=
  ∀ c ∈ classes, ∀ d ∈ classes, ∀ label ∈ c.body.map Stmt.label,
    label ∈ d.body.map Stmt.label → c = d

theorem LabelsTellApart.origins_eq {classes : List ClassDef} (apart : LabelsTellApart classes)
    {first second : Table Nat String} (left : Marks classes first) (right : Marks classes second)
    {label : Nat} (marked : (first.get? label).isSome ↔ (second.get? label).isSome) :
    first.get? label = second.get? label := by
  cases isFirst : first.get? label with
  | none =>
    rw [isFirst] at marked
    exact (by simpa using marked : second.get? label = none).symm
  | some name =>
    obtain ⟨other, isOther⟩ := Option.isSome_iff_exists.mp (marked.mp (by rw [isFirst]; rfl))
    obtain ⟨c, inC, rfl, ofC⟩ := left isFirst
    obtain ⟨d, inD, rfl, ofD⟩ := right isOther
    rw [isOther, apart c inC d inD label ofC ofD]

/-- Two outcomes agree on members and origins. -/
structure SameOutcome (classes : List ClassDef) (first second : Inheritance) : Prop where
  supers : ∀ name, first.supers.get? name = second.supers.get? name
  members : ∀ name, first.members.get? name = second.members.get? name
  origins : LabelsTellApart classes → ∀ label, first.origins.get? label = second.origins.get? label

section Lookup

variable {classes : List ClassDef}

variable (distinct : (classes.map (·.name)).Nodup)
include distinct

/-- Members are gathered in the order of ancestors. -/
theorem followsOrder_of_gatheredBy (member : c ∈ classes) {gathered : Gathered}
    (done : gatheredBy classes c = .ok gathered) :
    ∃ order, (bases classes).linearize c.name = .ok order ∧
      FollowsOrder classes c (c.body ++ (gathered.methods ++ gathered.attributes))
        gathered.supers order := by
  obtain ⟨order, isOrder, done⟩ := bind_ok done
  refine ⟨order, isOrder, ?_⟩
  obtain ⟨-, -, rest, -, -, -, rfl⟩ := Bases.linearizeWithin_eq_ok.mp isOrder
  obtain ⟨ancestors, found, methods, attributes, supers⟩ :=
    inheritAll_eq_ok (fun found => (name_of_get?_named found).2) done
  refine ⟨fun name => ?_, fun name => ?_, fun name => ?_⟩
  · rw [← append_assoc, definitions_append, methods, attributes,
      definitions_gather_of_disjoint fun _ => methodName?_of_assignedName?, append_nil,
      definitions_eq_lookup distinct member found]
  · rw [definitions_append, definitions_append, methods, attributes,
      definitions_gather_of_disjoint fun _ => assignedName?_of_methodName?, nil_append,
      ← definitions_append, definitions_eq_lookup distinct member found]
  · rw [supers, provider_eq distinct member found, append_nil]
    by_cases here : defines methodName? name c = true
    · rw [if_pos here, if_neg (definitions_ne_nil_iff.mpr here)]
      simp [Table.get?, Option.filter]
    · rw [if_neg here, if_pos (Decidable.not_not.mp (mt definitions_ne_nil_iff.mp here))]
      cases first : ancestors.find? (defines methodName? name) with
      | none => rfl
      | some d =>
        have listed := found ▸ mem_map_of_mem (f := some) (mem_of_find?_eq_some first)
        obtain ⟨name, inside, isName⟩ := mem_map.mp listed
        have isOther : name ≠ c.name := by simpa using (mem_filter.mp inside).2
        rw [← (name_of_get?_named isName).2] at isOther
        simp [Option.filter, isOther]

/-- The order of the classes does not matter. -/
theorem sameOutcome_of_perm (same : others.Perm classes) {first second : Inheritance}
    (left : IsInherited others others first) (right : IsInherited classes classes second) :
    SameOutcome classes first second := by
  have each (name : String) : first.supers.get? name = second.supers.get? name ∧
      first.members.get? name = second.members.get? name := by
    by_cases known : name ∈ classes.map (·.name)
    · obtain ⟨c, member, rfl⟩ := mem_map.mp known
      obtain ⟨gathered, isGathered, supers, members⟩ := right.gathered c member
      obtain ⟨own, isOwn, ownSupers, ownMembers⟩ := left.gathered c (same.mem_iff.mpr member)
      rw [gatheredBy_perm distinct same, isGathered] at isOwn
      obtain rfl := Except.ok.inj isOwn
      exact ⟨ownSupers.trans supers.symm, ownMembers.trans members.symm⟩
    · obtain ⟨supers, members⟩ := right.untreated name known
      have unknown := mt (same.map _).mem_iff.mp known
      obtain ⟨ownSupers, ownMembers⟩ := left.untreated name unknown
      rw [find?_name_perm distinct same] at ownSupers
      exact ⟨ownSupers.trans supers.symm, ownMembers.trans members.symm⟩
  refine ⟨fun name => (each name).1, fun name => (each name).2, fun apart label => ?_⟩
  have marks : Marks classes first.origins := fun found => by
    obtain ⟨c, member, is⟩ := left.marks found
    exact ⟨c, same.mem_iff.mp member, is⟩
  refine apart.origins_eq marks right.marks ?_
  rw [left.marked, right.marked]
  refine exists_congr fun c => and_congr same.mem_iff ?_
  rw [membersOf, membersOf, (each c.name).2]

end Lookup

/-- Members are found along the order of their class. -/
theorem members_follow_order {classes : List ClassDef} {inheritance : Inheritance}
    (distinct : (classes.map (·.name)).Nodup) (done : ofClasses classes = .ok inheritance) :
    (∀ c ∈ classes, ∃ order supers, (bases classes).linearize c.name = .ok order ∧
      inheritance.supers.get? c.name = some supers ∧
      FollowsOrder classes c (inheritance.bodyOf c) supers order) ∧
    ∀ others : List ClassDef, others.Perm classes →
      ∃ same, ofClasses others = .ok same ∧ SameOutcome classes same inheritance := by
  have isInherited := (isInherited_start distinct).foldlM distinct done
  refine ⟨fun c member => ?_, fun others same => ?_⟩
  · obtain ⟨gathered, isGathered, supers, members⟩ := isInherited.gathered c member
    obtain ⟨order, isOrder, follows⟩ := followsOrder_of_gatheredBy distinct member isGathered
    refine ⟨order, gathered.supers, isOrder, supers, ?_⟩
    rwa [bodyOf, membersOf, members, Option.getD_some]
  · have otherDistinct : (others.map (·.name)).Nodup := (same.map _).nodup_iff.mpr distinct
    obtain ⟨other, isOther⟩ : ∃ other, ofClasses others = .ok other := by
      refine (isInherited_start otherDistinct).exists_foldlM otherDistinct fun c member => ?_
      obtain ⟨gathered, isGathered, -⟩ := isInherited.gathered c (same.mem_iff.mp member)
      exact ⟨gathered, (gatheredBy_perm distinct same c).trans isGathered⟩
    exact ⟨other, isOther, sameOutcome_of_perm distinct same
      ((isInherited_start otherDistinct).foldlM otherDistinct isOther) isInherited⟩

namespace Diamond

def method (label : Nat) (name : String) : Stmt :=
  .functionDef ⟨⟨label, none, none⟩, name, ⟨[], [], none, [], [], none, []⟩, [], [], none, false⟩

def assignment (label : Nat) (name : String) : Stmt :=
  .assign ⟨label, none, none⟩ [.name none name .store] (.literal none .none)

def inheriting (name : String) (parents : List String) (body : List Stmt) : ClassDef :=
  ⟨{}, name, parents.map fun base => .name none base .load, [], body, []⟩

def bottom : ClassDef := inheriting "D" ["B", "C"] []

/-- Two bases override different members of a common base. -/
def classes : List ClassDef :=
  [inheriting "A" [] [method 1 "f", assignment 2 "x"],
    inheriting "B" ["A"] [assignment 3 "x"],
    inheriting "C" ["A"] [method 4 "f", method 5 "f", assignment 6 "x"],
    bottom]

end Diamond

/-- In a diamond, `f` comes from `C`. -/
theorem diamond_members_follow_order : ∃ inheritance supers,
    ofClasses Diamond.classes = .ok inheritance ∧
    inheritance.supers.get? "D" = some supers ∧ supers.get? "f" = some "C" ∧
    definitions methodName? "f" (inheritance.bodyOf Diamond.bottom) =
      [Diamond.method 4 "f", Diamond.method 5 "f"] ∧
    definitions assignedName? "x" (inheritance.bodyOf Diamond.bottom) =
      [Diamond.assignment 3 "x"] ∧
    ∃ same, ofClasses Diamond.classes.reverse = .ok same ∧
      same.members.get? "D" = inheritance.members.get? "D" := by
  have distinct : (Diamond.classes.map (·.name)).Nodup := by decide
  have evaluated : ∃ inheritance, ofClasses Diamond.classes = .ok inheritance := by decide +kernel
  obtain ⟨inheritance, done⟩ := evaluated
  obtain ⟨follows, anyOrder⟩ := members_follow_order distinct done
  obtain ⟨order, supers, isOrder, isSupers, methods, attributes, origins⟩ :=
    follows Diamond.bottom (by simp [Diamond.classes])
  have known : (bases Diamond.classes).linearize "D" = .ok ["D", "B", "C", "A"] := by
    decide +kernel
  obtain rfl := Except.ok.inj (known.symm.trans isOrder)
  obtain ⟨same, isSame, outcome⟩ := anyOrder _ Diamond.classes.reverse_perm
  refine ⟨inheritance, supers, done, isSupers, (origins "f").trans ?_, (methods "f").trans ?_,
    (attributes "x").trans ?_, same, isSame, outcome.members "D"⟩
  · decide
  · rfl
  · rfl

end Inheritance

end TypeInference
