/- Which constants of fixed-width integer types their constraints allow. -/

import TypeInference.Proofs.ClassEntries
import TypeInference.Proofs.WellFormed
import TypeInference.Theory.LimitAxioms

namespace TypeInference

open List Interpretation Theory

/-- Some interpretation and assignment make all formulas true. -/
def Theory.Satisfiable (theory : Theory) (formulas : List Formula) : Prop :=
  ∃ (model : Interpretation theory) (assigned : Assignment),
    (∀ name, theory.sort.IsType (assigned name)) ∧
      ∀ formula ∈ formulas, model.holds formula assigned

/-- An integer type of fixed width. -/
structure FixedType where
  signed : Bool
  width : Nat
  isWidth : width ∈ TypeSort.widths
deriving DecidableEq

namespace FixedType

variable (type : FixedType) (value : Int)

def mark : String := if type.signed then "i" else "u"

def name : String := type.mark ++ toString type.width

/-- The values that the bits of the type can stand for. -/
def Represents : Prop :=
  if type.signed then -Int.pow 2 (type.width - 1) ≤ value ∧ value < Int.pow 2 (type.width - 1)
  else 0 ≤ value ∧ value < Int.pow 2 type.width

instance : Decidable (type.Represents value) := by
  unfold Represents
  infer_instance

/-- Values that need one bit more, for the sign. -/
def FallsShortOf : Prop :=
  type.signed = true ∧ -Int.pow 2 type.width ≤ value ∧ value < -Int.pow 2 (type.width - 1)

instance : Decidable (type.FallsShortOf value) := by
  unfold FallsShortOf
  infer_instance

def lower : Int := if type.signed then -Int.pow 2 type.width else 0

def upper : Int := Int.pow 2 (if type.signed then type.width - 1 else type.width)

theorem bounds_iff : type.lower ≤ value ∧ value < type.upper ↔
    type.Represents value ∨ type.FallsShortOf value := by
  obtain ⟨signed, width, isWidth⟩ := type
  have twice : Int.pow 2 width = 2 * Int.pow 2 (width - 1) ∧ 0 < Int.pow 2 (width - 1) := by
    revert width
    decide
  cases signed with
  | false => simp [lower, upper, Represents, FallsShortOf]
  | true =>
    simp only [lower, upper, Represents, FallsShortOf, if_true, true_and]
    omega

/-- The constant is of the type and stands for the value. -/
def fixes (constant : String) (value : Int) : Formula :=
  .and [.isCon type.name (.const constant), .eq (.toInt type.name (.const constant)) (.num value)]

theorem mem_limitAxioms_iff {formula : Formula} : formula ∈ limitAxioms ↔
    ∃ type : FixedType, formula = Theory.LimitAxioms.within type.name type.lower type.upper := by
  simp only [limitAxioms, mem_append, mem_map]
  constructor
  · rintro (⟨width, isWidth, rfl⟩ | ⟨width, isWidth, rfl⟩)
    · exact ⟨⟨false, width, isWidth⟩, rfl⟩
    · exact ⟨⟨true, width, isWidth⟩, rfl⟩
  · rintro ⟨⟨_ | _, width, isWidth⟩, rfl⟩
    · exact .inl ⟨width, isWidth, rfl⟩
    · exact .inr ⟨width, isWidth, rfl⟩

theorem name_injective {first second : FixedType} (same : first.name = second.name) :
    first = second := by
  have apart : ∀ width ∈ TypeSort.widths, ∀ other ∈ TypeSort.widths, ∀ signed otherSigned : Bool,
      (if signed then "i" else "u") ++ toString width =
        (if otherSigned then "i" else "u") ++ toString other →
      signed = otherSigned ∧ width = other := by
    decide
  obtain ⟨signed, width, isWidth⟩ := first
  obtain ⟨otherSigned, other, isOther⟩ := second
  obtain ⟨rfl, rfl⟩ := apart width isWidth other isOther signed otherSigned same
  rfl

theorem zero_within : type.lower ≤ 0 ∧ 0 < type.upper := by
  have within : ∀ width ∈ TypeSort.widths, ∀ signed : Bool,
      (if signed then -Int.pow 2 width else 0) ≤ 0 ∧
        0 < Int.pow 2 (if signed then width - 1 else width) := by
    decide
  exact within type.width type.isWidth type.signed

end FixedType

namespace Interpretation

variable {theory : Theory} {model : Interpretation theory}

variable {assigned : Assignment}

/-- A formula for all types says something of each of them. -/
theorem holds_all_type_iff {v : Variable} (isType : v.sort = .type) {body : Formula}
    {trigger : Option Trigger} :
    model.holds (.all [v] body trigger) assigned ↔
      ∀ t, theory.sort.IsType t → model.holds body (assigned.bind [v] [t]) := by
  constructor
  · intro all t type
    refine all [t] (.cons ?_ .nil)
    rw [Theory.Fits, isType]
    exact type
  · intro all values sorted
    cases sorted with
    | cons here rest =>
      rw [Theory.Fits, isType] at here
      exact all _ here

theorem holds_within_iff {name : String} {lower upper : Int} :
    model.holds (Theory.LimitAxioms.within name lower upper) assigned ↔
      ∀ args, theory.sort.IsType (.con name args) →
        lower ≤ model.toInt name (.con name args) ∧ model.toInt name (.con name args) < upper := by
  have value (t : Term) (assigned : Assignment) :
      model.eval (assigned.bind [Theory.LimitAxioms.x] [t]) Theory.LimitAxioms.x.term = t := by
    rw [Variable.term, eval, Assignment.bind_self]
  have isType : Theory.LimitAxioms.x.sort = .type := rfl
  rw [Theory.LimitAxioms.within]
  simp only [holds_all_type_iff isType]
  simp only [holds, Formula.isCon, holdsAtom, value, eval, holdsAll, Term.num.injEq]
  constructor
  · intro all args type
    obtain ⟨⟨_, _, rfl, rfl, less⟩, ⟨_, _, rfl, rfl, atLeast⟩, -⟩ := all _ type _ type ⟨args, rfl⟩
    exact ⟨atLeast, less⟩
  · intro all _ _ t type isCon
    obtain ⟨args, rfl⟩ := isCon
    obtain ⟨atLeast, less⟩ := all args type
    exact ⟨⟨_, _, rfl, rfl, less⟩, ⟨_, _, rfl, rfl, atLeast⟩, trivial⟩

theorem holds_fixes_iff {type : FixedType} {constant : String} {value : Int} :
    model.holds (type.fixes constant value) assigned ↔
      (∃ args, assigned constant = .con type.name args) ∧
        model.toInt type.name (assigned constant) = value := by
  simp [FixedType.fixes, holds, holdsAll, Formula.isCon, holdsAtom, eval]

end Interpretation

/-- A constant that has to stand for a value of a type. -/
structure Fixing where
  constant : String
  type : FixedType
  value : Int

namespace Fixing

def formula (fixing : Fixing) : Formula := fixing.type.fixes fixing.constant fixing.value

variable {settings : Settings} {survey : Survey} {theory : Theory} {fixings : List Fixing}
  {f : Fixing}

theorem isType_fixed (complete : survey.IsComplete)
    (built : ofSurvey settings survey = .ok theory) (type : FixedType) :
    theory.sort.IsType (.con type.name []) := by
  have builtin : ∀ width ∈ TypeSort.widths, ∀ signed : Bool,
      ClassKey.plain ((if signed then "i" else "u") ++ toString width) ∈
        builtinClasses.map (·.1) := by
    decide
  obtain ⟨⟨key, bases⟩, member, isKey⟩ := mem_map.mp (builtin type.width type.isWidth type.signed)
  obtain rfl : key = .plain type.name := isKey
  have formed := ofSurvey_wellFormed complete built
  have listed : .plain type.name ∈ theory.survey.sortClasses := by
    obtain ⟨-, isSurvey, -⟩ := ofSurvey_eq_ok built
    obtain ⟨before, -, rfl⟩ := complete
    rw [isSurvey]
    exact mem_cons_of_mem _ (mem_map_of_mem (Survey.mem_allClasses_of_builtin before member))
  exact formed.isType_con (isClass_of_isComplete complete built _ listed) trivial

/-- A fixed-width integer type takes no arguments. -/
theorem eq_nil_of_isType (datatype : theory.sort.IsDatatype) {type : FixedType}
    (isType : theory.sort.IsType (.con type.name [])) {args : List Term}
    (applied : theory.sort.IsType (.con type.name args)) : args = [] := by
  obtain ⟨accessors, declared, fit⟩ := isType
  have noAccessors := length_eq_zero_iff.mp fit.length_eq
  have fits := ((datatype.arguments declared).mp applied).length_eq
  rw [noAccessors] at fits
  exact length_eq_zero_iff.mp fits.symm

/-- The value that is asked of a type, by its name. -/
def valueOf (fixings : List Fixing) (name : String) : Int :=
  ((fixings.find? fun f => f.type.name == name).map (·.value)).getD 0

/-- The types that the constants are of. -/
def constants (fixings : List Fixing) : Table String Term :=
  ⟨fixings.map fun f => (f.constant, .con f.type.name [])⟩

theorem valueOf_cases (fixings : List Fixing) (type : FixedType) :
    (∀ f ∈ fixings, f.type ≠ type) ∧ valueOf fixings type.name = 0 ∨
      ∃ f ∈ fixings, f.type = type ∧ valueOf fixings type.name = f.value := by
  unfold valueOf
  cases found : fixings.find? fun f => f.type.name == type.name with
  | none =>
    refine .inl ⟨fun f member same => ?_, rfl⟩
    have differs := find?_eq_none.mp found f member
    simp [same] at differs
  | some f =>
    have named : f.type.name = type.name := by simpa using find?_some found
    exact .inr ⟨f, mem_of_find?_eq_some found, FixedType.name_injective named, rfl⟩

theorem valueOf_within (within : ∀ f ∈ fixings, f.type.lower ≤ f.value ∧ f.value < f.type.upper)
    (type : FixedType) :
    type.lower ≤ valueOf fixings type.name ∧ valueOf fixings type.name < type.upper := by
  rcases valueOf_cases fixings type with ⟨-, isZero⟩ | ⟨f, isF, rfl, isValue⟩
  · rw [isZero]
    exact type.zero_within
  · rw [isValue]
    exact within f isF

theorem valueOf_eq (agree : ∀ f ∈ fixings, ∀ g ∈ fixings, f.type = g.type → f.value = g.value)
    (member : f ∈ fixings) : valueOf fixings f.type.name = f.value := by
  rcases valueOf_cases fixings f.type with ⟨absent, -⟩ | ⟨g, isG, same, isValue⟩
  · exact absurd rfl (absent f member)
  · rw [isValue]
    exact agree g isG f member same

/-- The values of the constants, or else the root class. -/
def assigned (fixings : List Fixing) : Assignment := fun name =>
  ((constants fixings).get? name).getD .object

theorem assigned_eq (distinct : (fixings.map (·.constant)).Nodup) (member : f ∈ fixings) :
    assigned fixings f.constant = .con f.type.name [] := by
  have once : (constants fixings).keys.Nodup := by
    simpa [constants, Table.keys, Function.comp_def] using distinct
  have entry : (f.constant, Term.con f.type.name []) ∈ (constants fixings).entries :=
    mem_map_of_mem member
  rw [assigned, (Table.get?_eq_some_iff once).mpr entry, Option.getD_some]

theorem isType_assigned (complete : survey.IsComplete)
    (built : ofSurvey settings survey = .ok theory) (fixings : List Fixing) (name : String) :
    theory.sort.IsType (assigned fixings name) := by
  unfold assigned
  cases found : (constants fixings).get? name with
  | none =>
    have formed := ofSurvey_wellFormed complete built
    exact formed.isType_con formed.isClass_object trivial
  | some t =>
    obtain ⟨f, -, isEntry⟩ := mem_map.mp (Table.mem_of_get? found)
    obtain rfl := (Prod.mk.inj isEntry).2
    exact isType_fixed complete built f.type

/-- Each type has the value that is asked of it. -/
def interpretation (formed : theory.WellFormed) (datatype : theory.sort.IsDatatype)
    (fixings : List Fixing) : Interpretation theory :=
  { Interpretation.ofRelation formed datatype (fun _ _ _ => False) id id with
    toInt := fun name _ => valueOf fixings name }

/-- Constants can stand for their values exactly if these are within the limits of their types and
the same for each type. -/
theorem satisfiable_iff (complete : survey.IsComplete)
    (built : ofSurvey settings survey = .ok theory)
    (distinct : (fixings.map (·.constant)).Nodup) :
    theory.Satisfiable (limitAxioms ++ fixings.map formula) ↔ theory.sort.IsDatatype ∧
      (∀ f ∈ fixings, f.type.lower ≤ f.value ∧ f.value < f.type.upper) ∧
      ∀ f ∈ fixings, ∀ g ∈ fixings, f.type = g.type → f.value = g.value := by
  have isType := isType_fixed complete built
  constructor
  · rintro ⟨model, assigned, typed, satisfied⟩
    have valueOf {f : Fixing} (member : f ∈ fixings) :
        model.toInt f.type.name (.con f.type.name []) = f.value := by
      have holds := satisfied f.formula (mem_append_right _ (mem_map_of_mem member))
      obtain ⟨⟨args, isCon⟩, isValue⟩ := holds_fixes_iff.mp holds
      have applied := typed f.constant
      rw [isCon] at applied isValue
      rwa [eq_nil_of_isType model.datatype (isType f.type) applied] at isValue
    refine ⟨model.datatype, ?_, ?_⟩
    · intro f member
      have limit := satisfied _ (mem_append_left _
        (FixedType.mem_limitAxioms_iff.mpr ⟨f.type, rfl⟩))
      have within := holds_within_iff.mp limit [] (isType f.type)
      rwa [valueOf member] at within
    · intro f isF g isG same
      rw [← valueOf isF, ← valueOf isG, same]
  · rintro ⟨datatype, within, agree⟩
    have formed := ofSurvey_wellFormed complete built
    refine ⟨interpretation formed datatype fixings, assigned fixings,
      isType_assigned complete built fixings, ?_⟩
    intro formula member
    rcases mem_append.mp member with limit | fixing
    · obtain ⟨type, rfl⟩ := FixedType.mem_limitAxioms_iff.mp limit
      exact holds_within_iff.mpr fun _ _ => valueOf_within within type
    · obtain ⟨f, isF, rfl⟩ := mem_map.mp fixing
      exact holds_fixes_iff.mpr ⟨⟨[], assigned_eq distinct isF⟩, valueOf_eq agree isF⟩

end Fixing

end TypeInference
