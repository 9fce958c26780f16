/- Structural subtyping over a class table. -/

import Mathlib.Tactic.MkIffOfInductiveProp
import TypeInference.Proofs.WellFormed

namespace TypeInference

open List TypeSort Term

variable {noneBelowAll : Bool} {s t arg : Term} {name : String} {own others args : List Term}
  {below : Term → Term → Prop} {key : ClassKey} {table : ClassTable}

/-- A type that binds type variables. -/
def Term.IsGeneric : Term → Prop
  | .con name _ => name ∈ TypeSort.genericConstructors.map (·.1)
  | _ => False

/-- Tuples vary with their components, functions with their results and against their arguments. -/
@[mk_iff]
inductive Varies (below : Term → Term → Prop) : String → List Term → List Term → Prop where
  | tuple (length : Nat) {own others : List Term} (each : Forall₂ below own others) :
      Varies below ("tuple_" ++ toString length) own others
  | function (args : Nat) {count otherCount result otherResult : Term} {own others : List Term}
      (each : Forall₂ (fun arg other => below other arg) own others)
      (last : below result otherResult) :
      Varies below ("func_" ++ toString args) (count :: (own ++ [result]))
        (otherCount :: (others ++ [otherResult]))

/-- The rules of structural subtyping over a relation of components. -/
@[mk_iff]
inductive StructuralStep (table : ClassTable) (noneBelowAll : Bool) (below : Term → Term → Prop) :
    Term → Term → Prop where
  | refl (t : Term) : StructuralStep table noneBelowAll below t t
  /-- If so set, none is below all types without variables. -/
  | none {t : Term} (on : noneBelowAll = true) (other : ¬ t.IsGeneric) :
      StructuralStep table noneBelowAll below none t
  /-- A class is below its bases, whatever its arguments. -/
  | ancestor {key : ClassKey} {name : String} (args : List Term)
      (above : table.HasProperAncestor key (.plain name)) :
      StructuralStep table noneBelowAll below (.con key.name args) (.con name [])
  | varies {name : String} {own others : List Term} (each : Varies below name own others) :
      StructuralStep table noneBelowAll below (.con name own) (.con name others)

/-- The rules hold of types and of their components. -/
inductive StructuralSubtype (table : ClassTable) (noneBelowAll : Bool) : Term → Term → Prop where
  | intro {s t : Term} (step : StructuralStep table noneBelowAll
      (StructuralSubtype table noneBelowAll) s t) : StructuralSubtype table noneBelowAll s t

theorem structuralSubtype_iff :
    StructuralSubtype table noneBelowAll s t ↔
      StructuralStep table noneBelowAll (StructuralSubtype table noneBelowAll) s t :=
  ⟨fun ⟨step⟩ => step, .intro⟩

/-- A plain class is not below one outside a closed set. -/
theorem not_structuralSubtype_of_closed {names : List String}
    (closed : ∀ entry ∈ table.entries, entry.1.name ∈ names → ∀ base ∈ entry.2, base ∈ names)
    {own other : String} (inside : own ∈ names) (outside : other ∉ names) (some : own ≠ "none") :
    ¬ StructuralSubtype table noneBelowAll (.atom own) (.atom other) := by
  have step {key base : ClassKey} (inside : key.name ∈ names) (isBase : table.IsBase key base) :
      base.name ∈ names := by
    obtain ⟨bases, name, entry, member, rfl⟩ := isBase
    exact closed _ entry inside name member
  have ancestors {key base : ClassKey} (above : table.HasProperAncestor key base)
      (inside : key.name ∈ names) : base.name ∈ names := by
    induction above with
    | single isBase => exact step inside isBase
    | tail _ isBase ih => exact step ih isBase
  rintro ⟨below⟩
  rcases (structuralStep_iff _ _ _ _ _).mp below with same | ⟨-, -, isNone⟩ |
    ⟨key, name, args, above, isKey, isName⟩ | ⟨name, _, _, -, isOwn, isOther⟩
  · exact outside ((con.inj same).1 ▸ inside)
  · exact some (con.inj isNone).1
  · obtain ⟨rfl, -⟩ := con.inj isKey
    obtain ⟨rfl, -⟩ := con.inj isName
    exact outside (ancestors above inside)
  · obtain ⟨rfl, -⟩ := con.inj isOwn
    exact outside ((con.inj isOther).1 ▸ inside)

namespace Term

mutual

/-- The type with default values set to zero. -/
def eraseDefaults : Term → Term
  | con name (first :: rest) =>
    if name.startsWith "tuple_" then con name (eraseDefaults first :: eraseDefaultsList rest)
    else if name.startsWith "func_" then con name (num 0 :: eraseDefaultsList rest)
    else con name (first :: rest)
  | t => t

def eraseDefaultsList : List Term → List Term
  | [] => []
  | arg :: args => eraseDefaults arg :: eraseDefaultsList args

end

theorem eraseDefaultsList_eq_map (args : List Term) :
    eraseDefaultsList args = args.map eraseDefaults := by
  induction args with
  | nil => rfl
  | cons arg args ih => rw [eraseDefaultsList, ih, map_cons]

theorem eraseDefaults_tuple (starts : "tuple_".toList <+: name.toList) (args : List Term) :
    (con name args).eraseDefaults = con name (args.map eraseDefaults) := by
  cases args with
  | nil => simp [eraseDefaults]
  | cons first rest =>
    rw [eraseDefaults, if_pos (String.startsWith_string_iff.mpr starts),
      eraseDefaultsList_eq_map, map_cons]

theorem eraseDefaults_function (starts : "func_".toList <+: name.toList) (count : Term)
    (args : List Term) :
    (con name (count :: args)).eraseDefaults = con name (num 0 :: args.map eraseDefaults) := by
  have notTuple : ¬ name.startsWith "tuple_" = true := by
    intro tuple
    obtain ⟨rest, letters⟩ := String.startsWith_string_iff.mp tuple
    obtain ⟨others, otherLetters⟩ := starts
    simp [← otherLetters] at letters
  rw [eraseDefaults, if_neg notTuple, if_pos (String.startsWith_string_iff.mpr starts),
    eraseDefaultsList_eq_map]

theorem eraseDefaults_other (notTuple : ¬ "tuple_".toList <+: name.toList)
    (notFunction : ¬ "func_".toList <+: name.toList) (args : List Term) :
    (con name args).eraseDefaults = con name args := by
  cases args with
  | nil => simp [eraseDefaults]
  | cons first rest =>
    rw [eraseDefaults, if_neg (mt String.startsWith_string_iff.mp notTuple),
      if_neg (mt String.startsWith_string_iff.mp notFunction)]

theorem map_eraseDefaults_eq_iff :
    own.map eraseDefaults = others.map eraseDefaults ↔
      Forall₂ (fun a b => a.eraseDefaults = b.eraseDefaults) own others := by
  rw [← forall₂_eq_eq_eq, forall₂_map_left_iff, forall₂_map_right_iff]

theorem eraseDefaults_con (name : String) (args : List Term) :
    ∃ others, (con name args).eraseDefaults = con name others := by
  cases args with
  | nil => exact ⟨[], by simp [eraseDefaults]⟩
  | cons first rest =>
    rw [eraseDefaults]
    split_ifs <;> exact ⟨_, rfl⟩

end Term

namespace Varies

variable {below other : Term → Term → Prop} {name : String} {own others : List Term}

theorem mono (varies : Varies below name own others)
    (imp : ∀ a b, below a b → other a b) : Varies other name own others := by
  cases varies with
  | tuple length each => exact .tuple length (each.imp imp)
  | function args each last =>
    exact .function args (each.imp fun a b => imp b a) (imp _ _ last)

/-- What varies is called like a tuple or a function. -/
theorem name_take (varies : Varies below name own others) :
    name.toList.take 2 ∈ [['t', 'u'], ['f', 'u']] := by
  cases varies with
  | tuple length each => simp
  | function args each last => simp

theorem eq_nil (varies : Varies below name [] others) : others = [] := by
  rcases (varies_iff _ _ _ _).mp varies with ⟨_, each, -⟩ | ⟨_, _, _, _, _, _, _, -, -, -, no, -⟩
  · exact forall₂_nil_left_iff.mp each
  · simp at no

theorem of_tuple {length : Nat} (varies : Varies below ("tuple_" ++ toString length) own others) :
    Forall₂ below own others := by
  rcases (varies_iff _ _ _ _).mp varies with ⟨_, each, -⟩ | ⟨_, _, _, _, _, _, _, -, -, same, -⟩
  · exact each
  · have letters := congrArg String.toList same
    simp at letters

theorem of_function {args : Nat} {count result : Term}
    (varies : Varies below ("func_" ++ toString args) (count :: (own ++ [result])) others) :
    ∃ otherCount rest otherResult, others = otherCount :: (rest ++ [otherResult]) ∧
      Forall₂ (fun arg other => below other arg) own rest ∧ below result otherResult := by
  rcases (varies_iff _ _ _ _).mp varies with ⟨_, -, same⟩ |
    ⟨_, _, otherCount, _, otherResult, _, rest, each, last, -, same, rfl⟩
  · have letters := congrArg String.toList same
    simp at letters
  · obtain ⟨-, tail⟩ := List.cons.inj same
    obtain ⟨rfl, equal⟩ := append_inj' tail rfl
    obtain rfl := singleton_inj.mp equal
    exact ⟨otherCount, rest, otherResult, rfl, each, last⟩

theorem tuple_iff {length : Nat} :
    Varies below ("tuple_" ++ toString length) own others ↔ Forall₂ below own others :=
  ⟨of_tuple, .tuple length⟩

theorem function_iff {args : Nat} {count otherCount result otherResult : Term} :
    Varies below ("func_" ++ toString args) (count :: (own ++ [result]))
        (otherCount :: (others ++ [otherResult])) ↔
      Forall₂ (fun arg other => below other arg) own others ∧ below result otherResult := by
  constructor
  · intro varies
    obtain ⟨_, _, _, same, each, last⟩ := varies.of_function
    obtain ⟨-, tail⟩ := List.cons.inj same
    obtain ⟨rfl, equal⟩ := append_inj' tail rfl
    obtain rfl := singleton_inj.mp equal
    exact ⟨each, last⟩
  · rintro ⟨each, last⟩
    exact .function args each last

theorem trans {first second both : Term → Term → Prop} {middle : List Term}
    (left : Varies first name own middle) (right : Varies second name middle others)
    (covariant : ∀ a b c, first a b → second b c → both a c)
    (contravariant : ∀ a b c, second a b → first b c → both a c) :
    Varies both name own others := by
  cases left with
  | tuple length each => exact .tuple length (forall₂_trans covariant each right.of_tuple)
  | function args each last =>
    obtain ⟨_, rest, _, rfl, further, final⟩ := right.of_function
    refine .function args (forall₂_trans ?_ each further) (covariant _ _ _ last final)
    intro a b c backward forward
    exact contravariant c b a forward backward

/-- The variance is the same from the other side. -/
theorem flip (varies : Varies below name own others) :
    Varies (fun a b => below b a) name others own := by
  cases varies with
  | tuple length each => exact .tuple length each.flip
  | function args each last => exact .function args each.flip last

theorem and (left : Varies below name own others) (right : Varies other name own others) :
    Varies (fun a b => below a b ∧ other a b) name own others := by
  cases left with
  | tuple length each => exact .tuple length (each.mp (fun _ _ => And.intro) right.of_tuple)
  | function args each last =>
    obtain ⟨alsoEach, alsoLast⟩ := function_iff.mp right
    exact .function args (each.mp (fun _ _ => And.intro) alsoEach) ⟨last, alsoLast⟩

theorem eraseDefaults_eq
    (varies : Varies (fun a b => a.eraseDefaults = b.eraseDefaults) name own others) :
    (con name own).eraseDefaults = (con name others).eraseDefaults := by
  cases varies with
  | tuple length each =>
    rw [eraseDefaults_tuple (by simp), eraseDefaults_tuple (by simp),
      map_eraseDefaults_eq_iff.mpr each]
  | @function args _ _ result otherResult own others each last =>
    rw [eraseDefaults_function (by simp), eraseDefaults_function (by simp),
      map_append, map_append, map_eraseDefaults_eq_iff.mpr each.flip,
      map_singleton, map_singleton, last]

end Varies

theorem Term.exists_of_generic (generic : (con name args).IsGeneric) :
    ∃ count : Nat, name = "generic" ++ toString count := by
  obtain ⟨entry, member, rfl⟩ := mem_map.mp generic
  obtain ⟨index, -, rfl⟩ := mem_map.mp member
  exact ⟨index + 1, rfl⟩

section

variable (varies : Varies below name own others)
include varies

theorem Varies.not_generic : ¬ (con name args).IsGeneric := by
  intro generic
  obtain ⟨count, rfl⟩ := exists_of_generic generic
  have letters := varies.name_take
  simp at letters

theorem Varies.name_ne_typeVar (id : String) : name ≠ "tv" ++ id := by
  rintro rfl
  have letters := varies.name_take
  simp at letters

theorem Varies.name_ne_none : name ≠ "none" := by
  rintro rfl
  exact absurd varies.name_take (by decide)

end

/-- The arguments of a type have a smaller bound. -/
theorem Term.sizeOf_arg_lt {bound : Nat} (small : sizeOf (con name args) < bound + 1)
    (member : arg ∈ args) : sizeOf arg < bound := by
  have smaller := sizeOf_lt_of_mem member
  rw [con.sizeOf_spec] at small
  omega

namespace TypeSort

variable {sort : TypeSort}

/-- Induction over types and the types among their arguments. -/
theorem IsType.structural {motive : Term → Prop}
    (step : ∀ {name accessors args}, (name, accessors) ∈ sort.declared →
      sort.AreArguments accessors args → (∀ arg ∈ args, sort.IsType arg → motive arg) →
      motive (.con name args)) (type : sort.IsType t) : motive t := by
  obtain ⟨bound, small⟩ : ∃ bound, sizeOf t < bound := ⟨_, Nat.lt_succ_self _⟩
  induction bound generalizing t with
  | zero => omega
  | succ bound ih =>
    obtain ⟨name, args, rfl⟩ := type.exists_con
    obtain ⟨accessors, known, fit⟩ := type
    refine step known fit fun arg member isType => ?_
    exact ih isType (sizeOf_arg_lt small member)

/-- The arguments of a type are numbers and types. -/
theorem AreArguments.num_or_isType {accessors : List String}
    (fit : sort.AreArguments accessors args) (member : arg ∈ args) :
    (∃ value, arg = .num value) ∨ sort.IsType arg := by
  obtain ⟨accessor, -, is⟩ := forall₂_exists_left (areArguments_iff.mp fit) member
  unfold IsArgument at is
  split at is
  · exact .inl is
  · exact .inr is

end TypeSort

namespace Theory.WellFormed

variable {theory : Theory} (formed : theory.WellFormed) {part : Term → Prop}
include formed

theorem not_generic (member : key ∈ theory.survey.sortClasses) (args : List Term) :
    ¬ (con key.name args).IsGeneric := by
  intro generic
  obtain ⟨count, same⟩ := exists_of_generic generic
  exact formed.name_ne_generic member _ same

section

variable (type : theory.sort.IsType (.con name args))
include type

/-- Types are of classes, type variables or generic types. -/
theorem isType_cases :
    (∃ key ∈ theory.survey.sortClasses, key.name = name ∧
        theory.sort.AreArguments key.accessors args) ∨
      (∃ id ∈ theory.survey.typeVars.values, con name args = .typeVar id) ∨
      (con name args).IsGeneric := by
  obtain ⟨accessors, known, fit⟩ := type
  rcases formed.declared.mp known with ofClass | ofVariable | ofGeneric
  · obtain ⟨key, member, is⟩ := mem_map.mp ofClass
    obtain ⟨rfl, rfl⟩ := Prod.ext_iff.mp is
    exact .inl ⟨key, member, rfl, fit⟩
  · obtain ⟨id, member, is⟩ := mem_map.mp ofVariable
    obtain ⟨rfl, rfl⟩ := Prod.ext_iff.mp is
    have none : args = [] := length_eq_zero_iff.mp fit.length_eq.symm
    exact .inr (.inl ⟨id, member, by rw [none]; rfl⟩)
  · exact .inr (.inr (mem_map_of_mem ofGeneric))

/-- The type of a class with a name of classes only. -/
theorem exists_class (letters : name.toList.take 2 ∈ [['t', 'u'], ['f', 'u']]) :
    ∃ key bases, Survey.IsSortClass key bases ∧ key.name = name ∧
      theory.sort.AreArguments key.accessors args := by
  rcases formed.isType_cases type with ⟨key, member, rfl, fit⟩ | ⟨id, -, is⟩ | generic
  · rcases mem_cons.mp member with rfl | listed
    · exact absurd letters (by decide)
    · obtain ⟨⟨key, bases⟩, entry, rfl⟩ := mem_map.mp listed
      exact ⟨key, bases, formed.kind entry, rfl, fit⟩
  · obtain ⟨rfl, -⟩ := con.inj is
    simp at letters
  · obtain ⟨count, rfl⟩ := exists_of_generic generic
    simp at letters

/-- The components of a tuple are types. -/
theorem isType_tuple (starts : "tuple_".toList <+: name.toList) :
    (∃ length : Nat, name = "tuple_" ++ toString length) ∧
      ∀ arg ∈ args, theory.sort.IsType arg := by
  obtain ⟨rest, letters⟩ := starts
  obtain ⟨key, bases, kind, rfl, fit⟩ := formed.exists_class type (by simp [← letters])
  rcases kind.eq_tuple ⟨'_' :: rest, by simpa using letters⟩ with rfl | ⟨length, rfl⟩
  · simp [ClassKey.name] at letters
  · refine ⟨⟨length, Survey.tupleClass_name length⟩, fun arg member => ?_⟩
    rw [Survey.tupleClass_accessors] at fit
    obtain ⟨accessor, listed, is⟩ := forall₂_exists_left (areArguments_iff.mp fit) member
    simpa [TypeSort.IsArgument, isCount_of_mem_argumentNames listed] using is

/-- The arguments and the result of a function are types. -/
theorem isType_function (starts : "func_".toList <+: name.toList) :
    (∃ count : Nat, name = "func_" ++ toString count) ∧
      ∃ count own result, args = .num count :: (own ++ [result]) ∧
        (∀ arg ∈ own, theory.sort.IsType arg) ∧ theory.sort.IsType result := by
  obtain ⟨rest, letters⟩ := starts
  obtain ⟨key, bases, kind, rfl, fit⟩ := formed.exists_class type (by simp [← letters])
  obtain ⟨count, rfl⟩ := kind.eq_function ⟨'_' :: rest, by simpa using letters⟩
  refine ⟨⟨count, rfl⟩, ?_⟩
  obtain ⟨first, rest, isCount, each, rfl⟩ := forall₂_cons_left_iff.mp (areArguments_iff.mp fit)
  obtain ⟨own, result, rfl, isOwn, isResult⟩ := forall₂_concat_left each
  obtain ⟨value, rfl⟩ : ∃ value, first = .num value := by
    simpa [TypeSort.IsArgument, isCount_defaults] using isCount
  refine ⟨value, own, result, rfl, fun arg member => ?_, ?_⟩
  · obtain ⟨accessor, listed, is⟩ := forall₂_exists_left isOwn member
    simpa [TypeSort.IsArgument, isCount_of_mem_argumentNames listed] using is
  · simpa [TypeSort.IsArgument, isCount_return] using isResult

end

/-- What varies relates components that are types. -/
theorem restrict (varies : Varies below name own others)
    (typeOwn : theory.sort.IsType (.con name own))
    (typeOthers : theory.sort.IsType (.con name others))
    (left : ∀ arg ∈ own, theory.sort.IsType arg → part arg)
    (right : ∀ arg ∈ others, theory.sort.IsType arg → part arg) :
    Varies (fun a b => (part a ∧ part b) ∧ below a b) name own others := by
  cases varies with
  | tuple length each =>
    have ofOwn := (formed.isType_tuple typeOwn (by simp)).2
    have ofOthers := (formed.isType_tuple typeOthers (by simp)).2
    exact .tuple length (forall₂_restrict each
      (fun arg member => left arg member (ofOwn arg member))
      (fun arg member => right arg member (ofOthers arg member)))
  | function args each last =>
    obtain ⟨-, _, _, _, sameOwn, ofOwn, ofResult⟩ := formed.isType_function typeOwn (by simp)
    obtain ⟨-, _, _, _, sameOthers, ofOthers, ofOtherResult⟩ :=
      formed.isType_function typeOthers (by simp)
    obtain ⟨-, sameOwn⟩ := List.cons.inj sameOwn
    obtain ⟨-, sameOthers⟩ := List.cons.inj sameOthers
    obtain ⟨rfl, equal⟩ := append_inj' sameOwn rfl
    obtain ⟨rfl, otherEqual⟩ := append_inj' sameOthers rfl
    obtain rfl := singleton_inj.mp equal
    obtain rfl := singleton_inj.mp otherEqual
    have partOwn := fun arg member => left arg (by simp [member]) (ofOwn arg member)
    have partOthers := fun arg member => right arg (by simp [member]) (ofOthers arg member)
    refine .function args ?_ ⟨⟨left _ (by simp) ofResult, right _ (by simp) ofOtherResult⟩, last⟩
    exact (forall₂_restrict each partOwn partOthers).imp
      fun a b ⟨⟨first, second⟩, related⟩ => ⟨⟨second, first⟩, related⟩

/-- What varies relates types with a smaller bound. -/
theorem restrict_smaller {bound : Nat} (varies : Varies below name own others)
    (typeOwn : theory.sort.IsType (.con name own))
    (typeOthers : theory.sort.IsType (.con name others))
    (smallOwn : sizeOf (con name own) < bound + 1)
    (smallOthers : sizeOf (con name others) < bound + 1) :
    Varies (fun a b => ((theory.sort.IsType a ∧ sizeOf a < bound) ∧
      theory.sort.IsType b ∧ sizeOf b < bound) ∧ below a b) name own others :=
  formed.restrict varies typeOwn typeOthers
    (fun _ member type => ⟨type, sizeOf_arg_lt smallOwn member⟩)
    (fun _ member type => ⟨type, sizeOf_arg_lt smallOthers member⟩)

/-- The rules depend only on how arguments relate. -/
theorem step_congr {other : Term → Term → Prop} (typeS : theory.sort.IsType s)
    (typeT : theory.sort.IsType t)
    (ofS : ∀ {name args}, s = .con name args → ∀ arg ∈ args, theory.sort.IsType arg → part arg)
    (ofT : ∀ {name args}, t = .con name args → ∀ arg ∈ args, theory.sort.IsType arg → part arg)
    (agree : ∀ a b, part a → part b → (below a b ↔ other a b)) :
    StructuralStep theory.survey.allClasses noneBelowAll below s t ↔
      StructuralStep theory.survey.allClasses noneBelowAll other s t := by
  have imp {below other : Term → Term → Prop}
      (agree : ∀ a b, part a → part b → (below a b ↔ other a b))
      (step : StructuralStep theory.survey.allClasses noneBelowAll below s t) :
      StructuralStep theory.survey.allClasses noneBelowAll other s t := by
    cases step with
    | refl => exact .refl _
    | none on notGeneric => exact .none on notGeneric
    | ancestor args above => exact .ancestor args above
    | varies each =>
      refine .varies ((formed.restrict each typeS typeT (ofS rfl) (ofT rfl)).mono ?_)
      rintro a b ⟨⟨partA, partB⟩, related⟩
      exact (agree a b partA partB).mp related
  exact ⟨imp agree, imp fun a b partA partB => (agree a b partA partB).symm⟩

/-- Types that bind variables are related to themselves. -/
theorem eq_of_generic (step : StructuralStep theory.survey.allClasses noneBelowAll below s t)
    (generic : s.IsGeneric ∨ t.IsGeneric) : s = t := by
  cases step with
  | refl => rfl
  | none on other =>
    have notNone := formed.not_generic (formed.mem_sortClasses formed.isClass_none) []
    exact absurd generic (not_or.mpr ⟨notNone, other⟩)
  | ancestor args above =>
    obtain ⟨isClass, isBase⟩ := formed.isClass_of_properAncestor above
    exact absurd generic (not_or.mpr ⟨formed.not_generic (formed.mem_sortClasses isClass) _,
      formed.not_generic (formed.mem_sortClasses isBase) _⟩)
  | varies each => exact absurd generic (not_or.mpr ⟨each.not_generic, each.not_generic⟩)

theorem con_ne_typeVar (isClass : theory.IsClass key) (args : List Term) (id : String) :
    con key.name args ≠ .typeVar id := by
  intro same
  exact formed.name_ne_typeVar (formed.mem_sortClasses isClass) id (con.inj same).1

/-- A type variable is related to itself and to none. -/
theorem eq_of_typeVar {id : String}
    (step : StructuralStep theory.survey.allClasses noneBelowAll below s t)
    (isVar : s = .typeVar id ∨ t = .typeVar id) : s = t ∨ (noneBelowAll ∧ s = .none) := by
  cases step with
  | refl => exact .inl rfl
  | none on other => exact .inr ⟨on, rfl⟩
  | ancestor args above =>
    obtain ⟨isClass, isBase⟩ := formed.isClass_of_properAncestor above
    rcases isVar with same | same
    · exact absurd same (formed.con_ne_typeVar isClass _ id)
    · exact absurd same (formed.con_ne_typeVar isBase _ id)
  | varies each =>
    rcases isVar with same | same <;>
      exact absurd (con.inj same).1 (each.name_ne_typeVar id)

/-- Types that differ in default values vary with each other. -/
theorem varies_of_eraseDefaults_eq (typeS : theory.sort.IsType s) (typeT : theory.sort.IsType t)
    (same : s.eraseDefaults = t.eraseDefaults) :
    s = t ∨ ∃ name own others, s = .con name own ∧ t = .con name others ∧
      Varies (fun a b => a.eraseDefaults = b.eraseDefaults) name own others := by
  obtain ⟨name, own, rfl⟩ := typeS.exists_con
  obtain ⟨other, others, rfl⟩ := typeT.exists_con
  obtain rfl : name = other := by
    obtain ⟨_, erased⟩ := eraseDefaults_con name own
    obtain ⟨_, otherErased⟩ := eraseDefaults_con other others
    rw [erased, otherErased] at same
    exact (con.inj same).1
  by_cases tuple : "tuple_".toList <+: name.toList
  · obtain ⟨⟨length, rfl⟩, -⟩ := formed.isType_tuple typeS tuple
    rw [eraseDefaults_tuple tuple, eraseDefaults_tuple tuple] at same
    refine .inr ⟨_, own, others, rfl, rfl, .tuple length ?_⟩
    exact map_eraseDefaults_eq_iff.mp (con.inj same).2
  by_cases function : "func_".toList <+: name.toList
  · obtain ⟨⟨count, rfl⟩, _, own, result, rfl, -, -⟩ := formed.isType_function typeS function
    obtain ⟨-, _, others, otherResult, rfl, -, -⟩ := formed.isType_function typeT function
    rw [eraseDefaults_function function, eraseDefaults_function function,
      map_append, map_append] at same
    obtain ⟨-, tail⟩ := List.cons.inj (con.inj same).2
    obtain ⟨front, last⟩ := append_inj' tail rfl
    exact .inr ⟨_, _, _, rfl, rfl, .function count
      (map_eraseDefaults_eq_iff.mp front.symm).flip (singleton_inj.mp last)⟩
  · rw [eraseDefaults_other tuple function, eraseDefaults_other tuple function] at same
    exact .inl same

end Theory.WellFormed

namespace Theory

/-- A name tells the class, and a type its arguments. -/
structure Unambiguous (theory : Theory) : Prop extends theory.WellFormed where
  datatype : theory.sort.IsDatatype
  unique : ∀ {key other}, theory.IsClass key → theory.IsClass other → key.name = other.name →
    key = other

namespace Unambiguous

variable {theory : Theory} (clear : theory.Unambiguous) {noneBelowAll : Bool}
include clear

/-- A class above that of a type gives a type above it. -/
theorem ancestor_trans (args : List Term)
    (above : theory.survey.allClasses.HasProperAncestor key (.plain name)) {u : Term}
    (later : StructuralSubtype theory.survey.allClasses noneBelowAll (.con name []) u) :
    StructuralSubtype theory.survey.allClasses noneBelowAll (.con key.name args) u := by
  rcases (structuralStep_iff _ _ _ _ _).mp (structuralSubtype_iff.mp later) with
    rfl | ⟨-, -, isNone⟩ | ⟨next, top, _, further, is, rfl⟩ | ⟨_, _, _, varies, is, rfl⟩
  · exact .intro (.ancestor args above)
  · obtain ⟨rfl, -⟩ := con.inj isNone
    exact absurd above (clear.not_properAncestor_none key)
  · obtain ⟨named, -⟩ := con.inj is
    have same : ClassKey.plain name = next := clear.unique
      (clear.isClass_of_properAncestor above).2 (clear.isClass_of_properAncestor further).1 named
    subst same
    exact .intro (.ancestor args (above.trans further))
  · obtain ⟨rfl, rfl⟩ := con.inj is
    rw [varies.eq_nil]
    exact .intro (.ancestor args above)

/-- Structural subtyping is transitive on types. -/
theorem structural_trans {u : Term} (typeS : theory.sort.IsType s) (typeT : theory.sort.IsType t)
    (typeU : theory.sort.IsType u)
    (first : StructuralSubtype theory.survey.allClasses noneBelowAll s t)
    (second : StructuralSubtype theory.survey.allClasses noneBelowAll t u) :
    StructuralSubtype theory.survey.allClasses noneBelowAll s u := by
  -- Functions turn the order of their arguments around, so the induction is on a bound for all
  -- three types and not on one of them.
  obtain ⟨bound, boundS, boundT, boundU⟩ :
      ∃ bound, sizeOf s < bound ∧ sizeOf t < bound ∧ sizeOf u < bound :=
    ⟨sizeOf s + sizeOf t + sizeOf u + 1, by omega, by omega, by omega⟩
  induction bound generalizing s t u with
  | zero => exact absurd boundS (Nat.not_lt_zero _)
  | succ bound ih =>
    cases structuralSubtype_iff.mp first with
    | refl => exact second
    | none on other =>
      refine .intro (.none on fun generic => ?_)
      have same := clear.eq_of_generic (structuralSubtype_iff.mp second) (.inr generic)
      exact other (same ▸ generic)
    | ancestor args above => exact clear.ancestor_trans args above second
    | @varies name own middle each =>
      rcases (structuralStep_iff _ _ _ _ _).mp (structuralSubtype_iff.mp second) with
        rfl | ⟨-, -, isNone⟩ | ⟨key, top, args, further, is, rfl⟩ |
        ⟨_, _, others, next, is, rfl⟩
      · exact first
      · exact absurd (con.inj isNone).1 each.name_ne_none
      · obtain ⟨rfl, -⟩ := con.inj is
        exact .intro (.ancestor own further)
      · obtain ⟨rfl, rfl⟩ := con.inj is
        have left := clear.restrict_smaller each typeS typeT boundS boundT
        have right := clear.restrict_smaller next typeT typeU boundT boundU
        refine .intro (.varies (left.trans right ?_ ?_))
        all_goals
          rintro a b c ⟨⟨⟨typeA, smallA⟩, ⟨typeB, smallB⟩⟩, down⟩ ⟨⟨-, ⟨typeC, smallC⟩⟩, up⟩
          exact ih typeA typeB typeC down up smallA smallB smallC

/-- Types below each other differ in default values only. -/
theorem eraseDefaults_eq_of_structural (typeS : theory.sort.IsType s)
    (typeT : theory.sort.IsType t)
    (first : StructuralSubtype theory.survey.allClasses noneBelowAll s t)
    (second : StructuralSubtype theory.survey.allClasses noneBelowAll t s) :
    s.eraseDefaults = t.eraseDefaults := by
  obtain ⟨bound, boundS, boundT⟩ : ∃ bound, sizeOf s < bound ∧ sizeOf t < bound :=
    ⟨sizeOf s + sizeOf t + 1, by omega, by omega⟩
  induction bound generalizing s t with
  | zero => exact absurd boundS (Nat.not_lt_zero _)
  | succ bound ih =>
    have back := (structuralStep_iff _ _ _ _ _).mp (structuralSubtype_iff.mp second)
    cases structuralSubtype_iff.mp first with
    | refl => rfl
    | none on other =>
      rcases back with same | ⟨-, -, isNone⟩ | ⟨key, top, _, above, -, is⟩ |
        ⟨_, _, _, varies, -, is⟩
      · rw [same]
      · rw [isNone]
      · obtain ⟨rfl, -⟩ := con.inj is
        exact absurd above (clear.not_properAncestor_none key)
      · exact absurd (con.inj is).1.symm varies.name_ne_none
    | @ancestor key name args above =>
      rcases back with same | ⟨-, -, isNone⟩ | ⟨next, top, _, further, is, alsoIs⟩ |
        ⟨_, _, _, varies, is, alsoIs⟩
      · rw [same]
      · obtain ⟨rfl, -⟩ := con.inj isNone
        exact absurd above (clear.not_properAncestor_none key)
      · have up := clear.unique (clear.isClass_of_properAncestor above).2
          (clear.isClass_of_properAncestor further).1 (con.inj is).1
        have down := clear.unique (clear.isClass_of_properAncestor above).1
          (clear.isClass_of_properAncestor further).2 (con.inj alsoIs).1
        subst up down
        exact absurd (above.trans further) (clear.not_properAncestor_self _)
      · obtain ⟨rfl, rfl⟩ := con.inj is
        obtain ⟨named, rfl⟩ := con.inj alsoIs
        rw [named, varies.eq_nil]
    | @varies name own others each =>
      rcases back with same | ⟨-, -, isNone⟩ | ⟨key, top, _, above, is, alsoIs⟩ |
        ⟨_, _, _, further, is, alsoIs⟩
      · rw [same]
      · exact absurd (con.inj isNone).1 each.name_ne_none
      · obtain ⟨named, -⟩ := con.inj is
        obtain ⟨rfl, -⟩ := con.inj alsoIs
        have same : .plain name = key := clear.unique (clear.isClass_of_properAncestor above).2
          (clear.isClass_of_properAncestor above).1 named
        subst same
        exact absurd above (clear.not_properAncestor_self _)
      · obtain ⟨rfl, rfl⟩ := con.inj is
        obtain ⟨-, rfl⟩ := con.inj alsoIs
        have both :=
          clear.restrict_smaller (each.and further.flip) typeS typeT boundS boundT
        refine (both.mono ?_).eraseDefaults_eq
        rintro a b ⟨⟨⟨typeA, smallA⟩, ⟨typeB, smallB⟩⟩, up, down⟩
        exact ih typeA typeB up down smallA smallB

theorem structural_of_eraseDefaults_eq (typeS : theory.sort.IsType s)
    (typeT : theory.sort.IsType t) (same : s.eraseDefaults = t.eraseDefaults) :
    StructuralSubtype theory.survey.allClasses noneBelowAll s t := by
  obtain ⟨bound, boundS, boundT⟩ : ∃ bound, sizeOf s < bound ∧ sizeOf t < bound :=
    ⟨sizeOf s + sizeOf t + 1, by omega, by omega⟩
  induction bound generalizing s t with
  | zero => exact absurd boundS (Nat.not_lt_zero _)
  | succ bound ih =>
    rcases clear.varies_of_eraseDefaults_eq typeS typeT same with
      rfl | ⟨name, own, others, rfl, rfl, varies⟩
    · exact .intro (.refl s)
    · have parts := clear.restrict_smaller varies typeS typeT boundS boundT
      refine .intro (.varies (parts.mono ?_))
      rintro a b ⟨⟨⟨typeA, smallA⟩, ⟨typeB, smallB⟩⟩, equal⟩
      exact ih typeA typeB equal smallA smallB

end Unambiguous

end Theory

end TypeInference
