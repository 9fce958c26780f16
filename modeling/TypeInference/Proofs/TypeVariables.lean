/- For which scopes and bounds of type variables the subtype axioms have a model. -/

import Mathlib.Data.Fintype.Card
import Mathlib.Data.Set.Finite.Basic
import TypeInference.Proofs.BoundedSubtype
import TypeInference.Proofs.GenericClasses

namespace TypeInference

open List Survey

variable {id : String} {method t : Term} {other : String}

namespace Theory

variable {theory : Theory}

theorem WellFormed.isMethod_of_inScope (formed : theory.WellFormed)
    (inScope : theory.InScope method id) : theory.IsMethod method := by
  obtain ⟨name, member, rfl⟩ := inScope
  exact ⟨name, formed.scopes member, rfl⟩

namespace Bounds

/-- The types that a type variable leads to if bounds are followed. -/
inductive Reaches (bounds : theory.Bounds) (id : String) : Term → Prop where
  | first : Reaches bounds id (bounds.upper id)
  | next {other : String} (isVar : other ∈ theory.typeVars)
      (reached : Reaches bounds id (.typeVar other)) : Reaches bounds id (bounds.upper other)

/-- No type variable leads back to itself. -/
def Acyclic (bounds : theory.Bounds) : Prop :=
  ∀ id ∈ theory.typeVars, ¬ bounds.Reaches id (.typeVar id)

/-- A type variable and what it leads to share a method. -/
def StayInScope (bounds : theory.Bounds) (method : Term) (id : String) : Prop :=
  theory.InScope method id ∧ ∀ other ∈ theory.typeVars, bounds.Reaches id (.typeVar other) →
    theory.InScope method other

variable {bounds : theory.Bounds}

theorem Reaches.trans (isVar : other ∈ theory.typeVars)
    (reached : bounds.Reaches id (.typeVar other)) (further : bounds.Reaches other t) :
    bounds.Reaches id t := by
  induction further with
  | first => exact .next isVar reached
  | next isNext _ ih => exact .next isNext ih

theorem Reaches.exists_upper (reached : bounds.Reaches id t) : ∃ own, bounds.upper own = t := by
  cases reached <;> exact ⟨_, rfl⟩

/-- Bounds that go down in some measure do not lead back. -/
theorem acyclic_of_measure (measure : String → Nat) (down : ∀ id ∈ theory.typeVars, ∀ other,
    bounds.upper id = .typeVar other → measure other < measure id) : bounds.Acyclic := by
  have lower {id : String} {t : Term} (isVar : id ∈ theory.typeVars)
      (reached : bounds.Reaches id t) : ∀ other, t = .typeVar other →
        measure other < measure id := by
    induction reached with
    | first => exact down id isVar
    | @next middle isMiddle _ ih =>
      intro other is
      exact (down middle isMiddle other is).trans (ih middle rfl)
  intro id isVar reached
  exact Nat.lt_irrefl _ (lower isVar reached id rfl)

/-- Bounds can be followed to the end. -/
theorem Acyclic.induct (acyclic : bounds.Acyclic) {property : String → Prop}
    (ofClass : ∀ id ∈ theory.typeVars, theory.IsClassType (bounds.upper id) → property id)
    (ofVariable : ∀ id ∈ theory.typeVars, ∀ other ∈ theory.typeVars,
      bounds.upper id = .typeVar other → property other → property id) :
    ∀ id ∈ theory.typeVars, property id := by
  let above (first second : {id // id ∈ theory.typeVars}) : Prop :=
    bounds.Reaches second.1 (.typeVar first.1)
  have : IsTrans _ above := ⟨fun _ second _ low high => high.trans second.2 low⟩
  have : Std.Irrefl above := ⟨fun first => acyclic first.1 first.2⟩
  intro id isVar
  refine (Finite.wellFounded_of_trans_of_irrefl above).induction (C := fun own => property own.1)
    ⟨id, isVar⟩ ?_
  intro own ih
  rcases bounds.kind own.2 with isClass | ⟨other, isOther, is⟩
  · exact ofClass own.1 own.2 isClass
  · have reached : bounds.Reaches own.1 (.typeVar other) := is ▸ .first
    exact ofVariable own.1 own.2 other isOther is (ih ⟨other, isOther⟩ reached)

end Bounds

end Theory

namespace Interpretation

variable {theory : Theory} {model : Interpretation theory}

/-- A model in which the type variables have given bounds. -/
def HasBounds (model : Interpretation theory) (bounds : theory.Bounds) : Prop :=
  ∀ id ∈ theory.typeVars, model.upper (.typeVar id) = bounds.upper id

namespace SubtypeLaws

variable (laws : model.SubtypeLaws) (formed : theory.WellFormed)
include laws formed

/-- None has a type variable above it only if it is below all types. -/
theorem noneBelowAll_of_inScope (isVar : id ∈ theory.typeVars)
    (inScope : theory.InScope method id) : theory.settings.noneBelowAll := by
  by_contra off
  have isMethod := formed.isMethod_of_inScope inScope
  have below : model.subtype method Term.none (.typeVar id) :=
    ((laws.ofVariable isVar).below formed.isType_none isMethod).mpr (.inl ⟨inScope, .inr rfl⟩)
  have noArguments : theory.sort.AreArguments (ClassKey.plain "none").accessors [] := trivial
  have step := ((laws.ofClass formed.isClass_none).up (fun none => off none.1)
    (formed.isType_typeVar isVar) isMethod noArguments).mp below
  rcases formed.eq_of_typeVar step (.inr rfl) with same | ⟨on, -⟩
  · exact formed.none_ne_typeVar id same
  · exact off on

variable {bounds : theory.Bounds} (bounded : model.HasBounds bounds)
include bounded

theorem subtype_typeVar (isVar : id ∈ theory.typeVars) (inScope : theory.InScope method id)
    (type : theory.sort.IsType t) :
    model.subtype method (.typeVar id) t ↔
      t = .typeVar id ∨ model.subtype method (bounds.upper id) t := by
  rw [(laws.ofVariable isVar).above type (formed.isMethod_of_inScope inScope), bounded id isVar,
    and_iff_right inScope]

/-- Of two variables below each other, one bounds the other. -/
theorem upper_eq_of_subtype {first second : String} (isFirst : first ∈ theory.typeVars)
    (isSecond : second ∈ theory.typeVars) (inScope : theory.InScope method first)
    (different : first ≠ second) (below : model.subtype method (.typeVar first) (.typeVar second)) :
    bounds.upper first = .typeVar second := by
  have isMethod := formed.isMethod_of_inScope inScope
  rcases ((laws.ofVariable isSecond).below (formed.isType_typeVar isFirst) isMethod).mp below with
    ⟨-, same | none⟩ | ⟨other, isOther, -, -, -, same, is⟩
  · exact absurd (Term.typeVar_inj.mp same) different
  · exact absurd none.symm (formed.none_ne_typeVar first)
  · rw [bounded other isOther] at is
    rwa [Term.typeVar_inj.mp same]

/-- What is below in one step and above in many agrees. -/
theorem fit : bounds.Fit := by
  constructor
  · intro method first second third isFirst isSecond isThird inFirst inSecond inThird
      _ secondThird firstThird isUpper isNext
    have type := formed.isType_typeVar isThird
    have self : model.subtype method (.typeVar third) (.typeVar third) :=
      (laws.subtype_typeVar formed bounded isThird inThird type).mpr (.inl rfl)
    have step : model.subtype method (.typeVar second) (.typeVar third) :=
      (laws.subtype_typeVar formed bounded isSecond inSecond type).mpr (.inr (isNext ▸ self))
    have steps : model.subtype method (.typeVar first) (.typeVar third) :=
      (laws.subtype_typeVar formed bounded isFirst inFirst type).mpr (.inr (isUpper ▸ step))
    have bound := laws.upper_eq_of_subtype formed bounded isFirst isThird inFirst firstThird steps
    exact secondThird (Term.typeVar_inj.mp (isUpper.symm.trans bound))
  · intro method first second isFirst isSecond inFirst inSecond different isNone
    have below : model.subtype method Term.none (.typeVar second) :=
      ((laws.ofVariable isSecond).below formed.isType_none
        (formed.isMethod_of_inScope inSecond)).mpr (.inl ⟨inSecond, .inr rfl⟩)
    have step : model.subtype method (.typeVar first) (.typeVar second) :=
      (laws.subtype_typeVar formed bounded isFirst inFirst (formed.isType_typeVar isSecond)).mpr
        (.inr (isNone ▸ below))
    have bound := laws.upper_eq_of_subtype formed bounded isFirst isSecond inFirst different step
    exact formed.none_ne_typeVar second (isNone.symm.trans bound)

variable {method : Term}

/-- What is above where a variable leads is above it. -/
theorem subtype_of_reaches {r : Term} (isVar : id ∈ theory.typeVars)
    (stay : bounds.StayInScope method id) (reached : bounds.Reaches id r)
    (type : theory.sort.IsType t) (above : model.subtype method r t) :
    model.subtype method (.typeVar id) t := by
  induction reached with
  | first => exact (laws.subtype_typeVar formed bounded isVar stay.1 type).mpr (.inr above)
  | @next other isOther reached ih =>
    have inScope := stay.2 other isOther reached
    exact ih ((laws.subtype_typeVar formed bounded isOther inScope type).mpr (.inr above))

/-- A bound is below itself. -/
theorem subtype_upper_self (isVar : id ∈ theory.typeVars) (isMethod : theory.IsMethod method)
    (inScope : ∀ other ∈ theory.typeVars, bounds.upper id = .typeVar other →
      theory.InScope method other) : model.subtype method (bounds.upper id) (bounds.upper id) := by
  rcases bounds.kind isVar with ⟨key, args, isClass, fit, is⟩ | ⟨other, isOther, is⟩
  · rw [is, (laws.ofClass isClass).down (formed.isType_con isClass fit) isMethod fit]
    exact .inl (.refl _)
  · rw [is, laws.subtype_typeVar formed bounded isOther (inScope other isOther is)
      (formed.isType_typeVar isOther)]
    exact .inl rfl

/-- A type that a type variable leads to is below itself. -/
theorem subtype_self_of_reaches {r : Term} (isVar : id ∈ theory.typeVars)
    (stay : bounds.StayInScope method id) (reached : bounds.Reaches id r) :
    model.subtype method r r := by
  have isMethod := formed.isMethod_of_inScope stay.1
  have inScope (other : String) (isOther : other ∈ theory.typeVars) (is : r = .typeVar other) :
      theory.InScope method other :=
    stay.2 other isOther (is ▸ reached)
  cases reached with
  | first => exact laws.subtype_upper_self formed bounded isVar isMethod inScope
  | next isOther => exact laws.subtype_upper_self formed bounded isOther isMethod inScope

/-- Above a type variable are itself, what it leads to, and what is above that. -/
theorem subtype_iff_reaches (acyclic : bounds.Acyclic) (type : theory.sort.IsType t)
    (isVar : id ∈ theory.typeVars) (stay : bounds.StayInScope method id) :
    model.subtype method (.typeVar id) t ↔ t = .typeVar id ∨ ∃ r, bounds.Reaches id r ∧
      (t = r ∨ theory.IsClassType r ∧ model.subtype method r t) := by
  have onBound {id : String} (isVar : id ∈ theory.typeVars) (stay : bounds.StayInScope method id) :=
    laws.subtype_typeVar formed bounded isVar stay.1 type
  have followed : ∀ id ∈ theory.typeVars, bounds.StayInScope method id →
      model.subtype method (.typeVar id) t → t = .typeVar id ∨ ∃ r, bounds.Reaches id r ∧
        (t = r ∨ theory.IsClassType r ∧ model.subtype method r t) := by
    refine acyclic.induct ?_ ?_
    · intro id isVar isClass stay below
      refine ((onBound isVar stay).mp below).imp_right fun above => ?_
      exact ⟨bounds.upper id, .first, .inr ⟨isClass, above⟩⟩
    · intro id isVar other isOther is ih stay below
      have reached : bounds.Reaches id (.typeVar other) := is ▸ .first
      have stayOther : bounds.StayInScope method other :=
        ⟨stay.2 other isOther reached, fun next isNext further =>
          stay.2 next isNext (reached.trans isOther further)⟩
      refine ((onBound isVar stay).mp below).imp_right fun above => ?_
      rw [is] at above
      rcases ih stayOther above with rfl | ⟨r, further, related⟩
      · exact ⟨_, reached, .inl rfl⟩
      · exact ⟨r, reached.trans isOther further, related⟩
  refine ⟨followed id isVar stay, ?_⟩
  rintro (rfl | ⟨r, reached, rfl | ⟨-, above⟩⟩)
  · exact (onBound isVar stay).mpr (.inl rfl)
  · exact laws.subtype_of_reaches formed bounded isVar stay reached type
      (laws.subtype_self_of_reaches formed bounded isVar stay reached)
  · exact laws.subtype_of_reaches formed bounded isVar stay reached type above

end SubtypeLaws

end Interpretation

namespace Theory

variable {theory : Theory} {settings : Settings} {survey : Survey} {base : Option String}
  {program : Program}

/-- All type variables are bounded by the root class. -/
def rootBounds (formed : theory.WellFormed) : theory.Bounds where
  upper _ := .object
  kind _ := .inl ⟨.plain "object", [], formed.isClass_object, trivial, rfl⟩

theorem rootBounds_fit (formed : theory.WellFormed) : (rootBounds formed).Fit := by
  constructor
  · intro _ _ second _ _ _ _ _ _ _ _ _ _ is
    exact absurd is (formed.con_ne_typeVar formed.isClass_object [] second)
  · intro _ _ _ _ _ _ _ _ is
    exact absurd (Term.con.inj is).1 (by decide)

/-- There is a model in which the root bounds all variables. -/
theorem exists_model_of_rootBounds {axioms : List Formula}
    (formed : theory.WellFormed) (stated : theory.subtypeAxioms = .ok axioms)
    (datatype : theory.sort.IsDatatype) (on : theory.settings.noneBelowAll) :
    ∃ model : Interpretation theory, model.Satisfies axioms := by
  have clear := unambiguous stated formed datatype
  exact ⟨(rootBounds formed).interpretation clear, (satisfies_iff_subtypeLaws stated formed).mpr
    (Bounds.interpretation_subtypeLaws clear (rootBounds_fit formed) on)⟩

/-- The theory of the empty program, with type parameters. -/
def ofEmptyProgram (settings : Settings) (funcParams : TypeParams) :
    Except Fault (Theory × List Formula) := do
  let program ← Program.read {} [] none
  let survey ← ofProgram settings none program funcParams {}
  let theory ← ofSurvey settings survey
  pure (theory, ← theory.subtypeAxioms)

theorem ofEmptyProgram_eq_ok {funcParams : TypeParams} {axioms : List Formula}
    (done : ofEmptyProgram settings funcParams = .ok (theory, axioms)) :
    ∃ program survey, ofProgram settings none program funcParams {} = .ok survey ∧
      ofSurvey settings survey = .ok theory ∧ theory.subtypeAxioms = .ok axioms := by
  obtain ⟨program, -, done⟩ := bind_ok done
  obtain ⟨survey, surveyed, done⟩ := bind_ok done
  obtain ⟨_, built, done⟩ := bind_ok done
  obtain ⟨_, stated, done⟩ := bind_ok done
  obtain ⟨rfl, rfl⟩ := Prod.ext_iff.mp (pure_ok done)
  exact ⟨program, survey, surveyed, built, stated⟩

/-- The theory of the empty program, which has models. -/
structure IsEmpty (theory : Theory) (funcParams : TypeParams) (axioms : List Formula) : Prop where
  done : ofEmptyProgram {} funcParams = .ok (theory, axioms)
  datatype : theory.sort.IsDatatype

namespace IsEmpty

variable {funcParams : TypeParams} {axioms : List Formula}
  (empty : theory.IsEmpty funcParams axioms)
include empty

theorem steps : ∃ program, ofProgram {} none program funcParams {} = .ok theory.survey ∧
    ofSurvey {} theory.survey = .ok theory ∧ theory.subtypeAxioms = .ok axioms := by
  obtain ⟨program, survey, surveyed, built, stated⟩ := ofEmptyProgram_eq_ok empty.done
  obtain ⟨-, rfl, -⟩ := ofSurvey_eq_ok built
  exact ⟨program, surveyed, built, stated⟩

theorem complete : theory.survey.IsComplete := by
  obtain ⟨_, surveyed, -⟩ := empty.steps
  exact ofProgram_isComplete surveyed

theorem built : ofSurvey {} theory.survey = .ok theory := empty.steps.choose_spec.2.1

theorem stated : theory.subtypeAxioms = .ok axioms := empty.steps.choose_spec.2.2

theorem formed : theory.WellFormed := ofSurvey_wellFormed empty.complete empty.built

theorem noneBelowAll : theory.settings.noneBelowAll := (ofSurvey_eq_ok empty.built).1 ▸ rfl

theorem exists_model : ∃ model : Interpretation theory, model.Satisfies axioms :=
  exists_model_of_rootBounds empty.formed empty.stated empty.datatype empty.noneBelowAll

end IsEmpty

/-- Every program has a type variable with none below it. -/
theorem noneBelowAll_of_model {funcParams classParams : TypeParams}
    (surveyed : ofProgram settings base program funcParams classParams = .ok survey)
    (built : ofSurvey settings survey = .ok theory) {model : Interpretation theory}
    (laws : model.SubtypeLaws) : settings.noneBelowAll := by
  have formed := ofSurvey_wellFormed (ofProgram_isComplete surveyed) built
  obtain ⟨id, isVar, some⟩ := exists_scope_ne_nil surveyed built
  obtain ⟨name, member⟩ := exists_mem_of_ne_nil _ some
  obtain ⟨rfl, -⟩ := ofSurvey_eq_ok built
  exact laws.noneBelowAll_of_inScope formed isVar ⟨name, member, rfl⟩

/-- The axioms have a model exactly if the constructors generate a datatype and none is below all
types. -/
theorem exists_model_iff_noneBelowAll {funcParams classParams : TypeParams} {axioms : List Formula}
    (surveyed : Survey.ofProgram settings base program funcParams classParams = .ok survey)
    (built : ofSurvey settings survey = .ok theory) (stated : theory.subtypeAxioms = .ok axioms) :
    (∃ model : Interpretation theory, model.Satisfies axioms) ↔
      theory.sort.IsDatatype ∧ settings.noneBelowAll = true := by
  have formed := ofSurvey_wellFormed (ofProgram_isComplete surveyed) built
  constructor
  · rintro ⟨model, satisfied⟩
    have laws := (satisfies_iff_subtypeLaws stated formed).mp satisfied
    exact ⟨model.datatype, noneBelowAll_of_model surveyed built laws⟩
  · rintro ⟨datatype, on⟩
    obtain ⟨rfl, -⟩ := ofSurvey_eq_ok built
    exact exists_model_of_rootBounds formed stated datatype on

theorem exists_isEmpty : ∃ theory axioms, IsEmpty theory {} axioms := by
  have evaluated : ∃ theory axioms, ofEmptyProgram {} {} = .ok (theory, axioms) ∧
      theory.sort.IsDatatype := by
    decide +kernel
  obtain ⟨theory, axioms, done, datatype⟩ := evaluated
  exact ⟨theory, axioms, done, datatype⟩

/-- The axioms of the program without statements have a model. -/
theorem emptyProgram_has_model : ∃ theory axioms, ofEmptyProgram {} {} = .ok (theory, axioms) ∧
    ∃ model : Interpretation theory, model.Satisfies axioms := by
  obtain ⟨theory, axioms, empty⟩ := exists_isEmpty
  obtain ⟨_, surveyed, built, stated⟩ := empty.steps
  exact ⟨theory, axioms, empty.done, (exists_model_iff_noneBelowAll surveyed built stated).mpr
    ⟨empty.datatype, rfl⟩⟩

/-- If none is not below all types, the empty program has no model. -/
theorem emptyProgram_has_no_model : ∃ theory axioms,
    ofEmptyProgram { noneBelowAll := false } {} = .ok (theory, axioms) ∧
      theory.sort.IsDatatype ∧ ¬ ∃ model : Interpretation theory, model.Satisfies axioms := by
  have evaluated : ∃ theory axioms, ofEmptyProgram { noneBelowAll := false } {} =
      .ok (theory, axioms) ∧ theory.sort.IsDatatype := by
    decide +kernel
  obtain ⟨theory, axioms, done, datatype⟩ := evaluated
  obtain ⟨program, survey, surveyed, built, stated⟩ := ofEmptyProgram_eq_ok done
  refine ⟨theory, axioms, done, datatype, ?_⟩
  rintro ⟨model, satisfied⟩
  have formed := ofSurvey_wellFormed (ofProgram_isComplete surveyed) built
  have laws := (satisfies_iff_subtypeLaws stated formed).mp satisfied
  have on := noneBelowAll_of_model surveyed built laws
  exact Bool.false_ne_true on

/-- The type parameters of a function with three type variables. -/
def threeVariables : TypeParams := ⟨[("f", [.named "A", .named "B", .named "C"])]⟩

theorem exists_threeVariables : ∃ theory axioms, IsEmpty theory threeVariables axioms ∧
    theory.IsClass (.plain "int") ∧
    ∀ id ∈ ["A", "B", "C"], id ∈ theory.typeVars ∧ theory.InScope (.method "f") id := by
  have evaluated : ∃ theory axioms, ofEmptyProgram {} threeVariables = .ok (theory, axioms) ∧
      .plain "int" ∈ theory.survey.sortClasses ∧ theory.sort.IsDatatype ∧
      ∀ id ∈ ["A", "B", "C"], id ∈ theory.typeVars ∧ "f" ∈ theory.scope id := by
    decide +kernel
  obtain ⟨theory, axioms, done, isInt, datatype, inScope⟩ := evaluated
  have empty : IsEmpty theory threeVariables axioms := ⟨done, datatype⟩
  exact ⟨theory, axioms, empty, isClass_of_isComplete empty.complete empty.built _ isInt,
    fun id member => ⟨(inScope id member).1, "f", (inScope id member).2, rfl⟩⟩

namespace Bounds

/-- Some type variables are bounded by others, and the rest by a class. -/
def ofPairs {name : String} (isClass : theory.IsClass (.plain name))
    (pairs : List (String × String)) (known : ∀ pair ∈ pairs, pair.2 ∈ theory.typeVars) :
    theory.Bounds where
  upper id := ((pairs.find? fun pair => pair.1 == id).map fun pair => .typeVar pair.2).getD
    (.con name [])
  kind {id} _ := by
    cases found : pairs.find? fun pair => pair.1 == id with
    | none => exact .inl ⟨.plain name, [], isClass, trivial, rfl⟩
    | some pair => exact .inr ⟨pair.2, known pair (mem_of_find?_eq_some found), rfl⟩

variable {theory : Theory} {name : String} (isClass : theory.IsClass (.plain name))
  {pairs : List (String × String)} (known : ∀ pair ∈ pairs, pair.2 ∈ theory.typeVars)

theorem ofPairs_upper (id : String) : (ofPairs isClass pairs known).upper id = .con name [] ∨
    ∃ other, (id, other) ∈ pairs ∧ (ofPairs isClass pairs known).upper id = .typeVar other := by
  dsimp only [ofPairs]
  cases found : pairs.find? fun pair => pair.1 == id with
  | none => exact .inl rfl
  | some pair =>
    have first : pair.1 = id := by simpa using find?_some found
    exact .inr ⟨pair.2, first ▸ mem_of_find?_eq_some found, rfl⟩

variable (formed : theory.WellFormed)
include formed

theorem mem_of_ofPairs (is : (ofPairs isClass pairs known).upper id = .typeVar other) :
    (id, other) ∈ pairs := by
  rcases ofPairs_upper isClass known id with ofClass | ⟨own, member, ofOwn⟩
  · exact absurd (ofClass.symm.trans is) (formed.con_ne_typeVar isClass [] other)
  · exact Term.typeVar_inj.mp (ofOwn.symm.trans is) ▸ member

theorem ofPairs_ne_none (notNone : name ≠ "none") (id : String) :
    (ofPairs isClass pairs known).upper id ≠ .none := by
  intro isNone
  rcases ofPairs_upper isClass known id with ofClass | ⟨own, -, ofOwn⟩
  · exact notNone (Term.con.inj (ofClass.symm.trans isNone)).1
  · exact formed.none_ne_typeVar own (isNone.symm.trans ofOwn)

end Bounds

/-- If none is below all types, the axioms have a model with given bounds exactly if the
constructors generate a datatype and the bounds fit. If the bounds do not lead back, then above a
type variable are itself, the types that it leads to, and the types above those. -/
theorem exists_model_with_bounds_iff_fit {axioms : List Formula} (on : settings.noneBelowAll = true)
    (complete : survey.IsComplete) (built : ofSurvey settings survey = .ok theory)
    (stated : theory.subtypeAxioms = .ok axioms) (bounds : theory.Bounds) :
    ((∃ model : Interpretation theory, model.Satisfies axioms ∧ model.HasBounds bounds) ↔
      theory.sort.IsDatatype ∧ bounds.Fit) ∧
    (bounds.Acyclic → ∀ model : Interpretation theory, model.Satisfies axioms →
      model.HasBounds bounds → ∀ {method id t}, id ∈ theory.typeVars →
      bounds.StayInScope method id → theory.sort.IsType t →
      (model.subtype method (.typeVar id) t ↔ t = .typeVar id ∨ ∃ r, bounds.Reaches id r ∧
        (t = r ∨ theory.IsClassType r ∧ model.subtype method r t))) := by
  have formed := ofSurvey_wellFormed complete built
  obtain ⟨rfl, -⟩ := ofSurvey_eq_ok built
  refine ⟨⟨?_, ?_⟩, ?_⟩
  · rintro ⟨model, satisfied, bounded⟩
    have laws := (satisfies_iff_subtypeLaws stated formed).mp satisfied
    exact ⟨model.datatype, laws.fit formed bounded⟩
  · rintro ⟨datatype, fit⟩
    have clear := unambiguous stated formed datatype
    refine ⟨bounds.interpretation clear, ?_, fun id => Bounds.interpretation_upper clear⟩
    exact (satisfies_iff_subtypeLaws stated formed).mpr
      (Bounds.interpretation_subtypeLaws clear fit on)
  · intro acyclic model satisfied bounded method id t isVar stay type
    have laws := (satisfies_iff_subtypeLaws stated formed).mp satisfied
    exact laws.subtype_iff_reaches formed bounded acyclic type isVar stay

/-- A type variable is below the bound of its bound. -/
theorem typeVar_below_bound_of_bound : ∃ theory axioms,
    ofEmptyProgram {} threeVariables = .ok (theory, axioms) ∧
    ∃ (bounds : theory.Bounds) (model : Interpretation theory), model.Satisfies axioms ∧
      model.HasBounds bounds ∧ bounds.upper "A" = .typeVar "B" ∧ bounds.upper "B" = .con "int" [] ∧
      model.subtype (.method "f") (.typeVar "A") (.con "int" []) := by
  obtain ⟨theory, axioms, empty, isInt, inScope⟩ := exists_threeVariables
  have formed := empty.formed
  obtain ⟨isA, scopeA⟩ := inScope "A" (by decide)
  obtain ⟨isB, scopeB⟩ := inScope "B" (by decide)
  have known : ∀ pair ∈ [("A", "B")], pair.2 ∈ theory.typeVars := by simpa using isB
  let bounds := Bounds.ofPairs isInt [("A", "B")] known
  have only {id other : String} (is : bounds.upper id = .typeVar other) :
      id = "A" ∧ other = "B" := by
    simpa using Bounds.mem_of_ofPairs isInt known formed is
  have fit : bounds.Fit := by
    constructor
    · intro _ _ _ _ _ _ _ _ _ _ different _ _ isUpper isNext
      exact different ((only isUpper).1.trans (only isNext).1.symm)
    · intro _ first _ _ _ _ _ _
      exact Bounds.ofPairs_ne_none isInt known formed (by decide) first
  have acyclic : bounds.Acyclic := by
    refine Bounds.acyclic_of_measure (fun id => if id = "A" then 1 else 0) ?_
    intro id _ other is
    obtain ⟨rfl, rfl⟩ := only is
    decide
  have stay : bounds.StayInScope (.method "f") "A" := by
    refine ⟨scopeA, fun other _ reached => ?_⟩
    obtain ⟨own, is⟩ := reached.exists_upper
    exact (only is).2 ▸ scopeB
  obtain ⟨models, above⟩ :=
    exists_model_with_bounds_iff_fit rfl empty.complete empty.built empty.stated bounds
  obtain ⟨model, satisfied, bounded⟩ := models.mpr ⟨empty.datatype, fit⟩
  have type : theory.sort.IsType (.con "int" []) := formed.isType_con isInt trivial
  have reached : bounds.Reaches "A" (.con "int" []) := .next isB .first
  exact ⟨theory, axioms, empty.done, bounds, model, satisfied, bounded, rfl, rfl,
    (above acyclic model satisfied bounded isA stay type).mpr (.inr ⟨_, reached, .inl rfl⟩)⟩

/-- Three type variables in a row of bounds have no model. -/
theorem rowOfBounds_has_no_model : ∃ theory axioms,
    ofEmptyProgram {} threeVariables = .ok (theory, axioms) ∧ theory.sort.IsDatatype ∧
    ∃ bounds : theory.Bounds, bounds.Acyclic ∧ bounds.upper "A" = .typeVar "B" ∧
      bounds.upper "B" = .typeVar "C" ∧ bounds.upper "C" = .con "int" [] ∧
      ¬ ∃ model : Interpretation theory, model.Satisfies axioms ∧ model.HasBounds bounds := by
  obtain ⟨theory, axioms, empty, isInt, inScope⟩ := exists_threeVariables
  have formed := empty.formed
  obtain ⟨isA, scopeA⟩ := inScope "A" (by decide)
  obtain ⟨isB, scopeB⟩ := inScope "B" (by decide)
  obtain ⟨isC, scopeC⟩ := inScope "C" (by decide)
  have known : ∀ pair ∈ [("A", "B"), ("B", "C")], pair.2 ∈ theory.typeVars := by
    simpa using ⟨isB, isC⟩
  let bounds := Bounds.ofPairs isInt [("A", "B"), ("B", "C")] known
  have acyclic : bounds.Acyclic := by
    refine Bounds.acyclic_of_measure
      (fun id => if id = "A" then 2 else if id = "B" then 1 else 0) ?_
    intro id _ other is
    have member := Bounds.mem_of_ofPairs isInt known formed is
    simp only [mem_cons, Prod.mk.injEq, not_mem_nil, or_false] at member
    rcases member with ⟨rfl, rfl⟩ | ⟨rfl, rfl⟩
    · decide
    · decide
  refine ⟨theory, axioms, empty.done, empty.datatype, bounds, acyclic, rfl, rfl, rfl, ?_⟩
  rintro ⟨model, satisfied, bounded⟩
  have laws := (satisfies_iff_subtypeLaws empty.stated formed).mp satisfied
  exact (laws.fit formed bounded).chain isA isB isC scopeA scopeB scopeC (by decide) (by decide)
    (by decide) rfl rfl

end Theory

end TypeInference
