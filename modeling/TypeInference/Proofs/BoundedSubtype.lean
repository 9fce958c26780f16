/- Subtyping with given bounds of type variables. -/

import Mathlib.Order.FixedPoints
import TypeInference.Proofs.SubtypeLaws

namespace TypeInference

open List Term

variable {method t : Term} {s : Term}

theorem Term.typeVar_inj {first second : String} :
    typeVar first = .typeVar second ↔ first = second := by
  simp [typeVar, atom]

/-- The rules of subtyping with type variables below their bounds, for a relation above bounds and
between components. -/
inductive BoundedStep (theory : Theory) (bound : String → Term)
    (below : Term → Term → Term → Prop) : Term → Term → Term → Prop where
  | structural {method s t : Term} (notS : ∀ id ∈ theory.typeVars, s ≠ .typeVar id)
      (notT : ∀ id ∈ theory.typeVars, t ≠ .typeVar id)
      (step : StructuralStep theory.survey.allClasses theory.settings.noneBelowAll
        (below noMethod) s t) : BoundedStep theory bound below method s t
  | none {method : Term} {id : String} (isVar : id ∈ theory.typeVars)
      (inScope : theory.InScope method id) :
      BoundedStep theory bound below method none (.typeVar id)
  | refl {method : Term} {id : String} (isVar : id ∈ theory.typeVars)
      (inScope : theory.InScope method id) :
      BoundedStep theory bound below method (.typeVar id) (.typeVar id)
  | bound {method t : Term} {id : String} (isVar : id ∈ theory.typeVars)
      (inScope : theory.InScope method id) (above : below method (bound id) t) :
      BoundedStep theory bound below method (.typeVar id) t

namespace BoundedStep

variable {theory : Theory} {bound : String → Term}

theorem mono {below other : Term → Term → Term → Prop} (imp : below ≤ other)
    (step : BoundedStep theory bound below method s t) :
    BoundedStep theory bound other method s t := by
  cases step with
  | structural notS notT step =>
    refine .structural notS notT ?_
    cases step with
    | refl => exact .refl _
    | none on notGeneric => exact .none on notGeneric
    | ancestor args above => exact .ancestor args above
    | varies each => exact .varies (each.mono fun a b => imp noMethod a b)
  | none isVar inScope => exact .none isVar inScope
  | refl isVar inScope => exact .refl isVar inScope
  | bound isVar inScope above => exact .bound isVar inScope (imp _ _ _ above)

end BoundedStep

/-- What the rules make of a relation. -/
def boundedRules (theory : Theory) (bound : String → Term) :
    (Term → Term → Term → Prop) →o (Term → Term → Term → Prop) :=
  ⟨BoundedStep theory bound, fun _ _ imp _ _ _ => BoundedStep.mono imp⟩

/-- Subtyping with given bounds: the least relation that the rules keep. -/
def BoundedSubtype (theory : Theory) (bound : String → Term) : Term → Term → Term → Prop :=
  OrderHom.lfp (boundedRules theory bound)

namespace BoundedSubtype

variable {theory : Theory} {bound : String → Term} {method s t : Term}

/-- The relation is closed under its steps. -/
theorem iff_step : BoundedSubtype theory bound method s t ↔
    BoundedStep theory bound (BoundedSubtype theory bound) method s t := by
  have fixed := OrderHom.map_lfp (boundedRules theory bound)
  exact iff_of_eq (congrFun (congrFun (congrFun fixed.symm method) s) t)

/-- It is the least such relation. -/
theorem induct {property : Term → Term → Term → Prop}
    (closed : ∀ method s t, BoundedStep theory bound property method s t → property method s t)
    (below : BoundedSubtype theory bound method s t) : property method s t :=
  OrderHom.lfp_le (boundedRules theory bound) closed method s t below

end BoundedSubtype

namespace Theory

/-- Upper bounds for the type variables, by types of classes and by type variables. -/
structure Bounds (theory : Theory) where
  upper : String → Term
  kind : ∀ {id}, id ∈ theory.typeVars → theory.IsClassType (upper id) ∨
    ∃ other ∈ theory.typeVars, upper id = .typeVar other

/-- Bounds that look the same from below and from above: no three type variables of a method follow
each other, and none that shares a method is bounded by none. -/
structure Bounds.Fit {theory : Theory} (bounds : theory.Bounds) : Prop where
  chain : ∀ {method first second third}, first ∈ theory.typeVars → second ∈ theory.typeVars →
    third ∈ theory.typeVars → theory.InScope method first → theory.InScope method second →
    theory.InScope method third → first ≠ second → second ≠ third → first ≠ third →
    bounds.upper first = .typeVar second → bounds.upper second ≠ .typeVar third
  none : ∀ {method first second}, first ∈ theory.typeVars → second ∈ theory.typeVars →
    theory.InScope method first → theory.InScope method second → first ≠ second →
    bounds.upper first ≠ .none

variable {theory : Theory} {id : String}

section

variable (formed : theory.WellFormed)
include formed

theorem IsClassType.isType (isClass : theory.IsClassType t) : theory.sort.IsType t := by
  obtain ⟨key, args, isClass, fit, rfl⟩ := isClass
  exact formed.isType_con isClass fit

theorem WellFormed.isType_typeVar (isVar : id ∈ theory.typeVars) :
    theory.sort.IsType (.typeVar id) := by
  have known : ("tv" ++ id, []) ∈ theory.sort.declared :=
    formed.declared.mpr (.inr (.inl (mem_map_of_mem (formed.typeVars isVar))))
  exact ⟨[], known, trivial⟩

theorem WellFormed.isType_none : theory.sort.IsType .none := by
  have fit : theory.sort.AreArguments (ClassKey.plain "none").accessors [] := trivial
  exact formed.isType_con formed.isClass_none fit

theorem WellFormed.none_ne_typeVar (id : String) : Term.none ≠ .typeVar id :=
  formed.con_ne_typeVar formed.isClass_none [] id

end

theorem Term.typeVar_not_generic (id : String) : ¬ (typeVar id).IsGeneric := by
  intro generic
  obtain ⟨count, same⟩ := exists_of_generic generic
  have letters := congrArg String.toList same
  simp at letters

theorem IsClassType.not_generic (formed : theory.WellFormed) (isClass : theory.IsClassType t) :
    ¬ t.IsGeneric := by
  obtain ⟨key, args, isClass, -, rfl⟩ := isClass
  exact formed.not_generic (formed.mem_sortClasses isClass) args

namespace Bounds

variable {bounds : theory.Bounds}

/-- The bounds of type variables; another type is its own bound. -/
def ofType (bounds : theory.Bounds) (t : Term) : Term :=
  ((theory.typeVars.find? fun id => t == .typeVar id).map bounds.upper).getD t

theorem ofType_typeVar (bounds : theory.Bounds) (isVar : id ∈ theory.typeVars) :
    bounds.ofType (.typeVar id) = bounds.upper id := by
  unfold ofType
  cases found : theory.typeVars.find? fun other => typeVar id == .typeVar other with
  | none =>
    have absent := find?_eq_none.mp found id isVar
    simp at absent
  | some other =>
    have same : typeVar id = .typeVar other := by simpa using find?_some found
    rw [typeVar_inj.mp same]
    rfl

theorem ofType_isType (formed : theory.WellFormed) (bounds : theory.Bounds)
    (type : theory.sort.IsType t) : theory.sort.IsType (bounds.ofType t) := by
  unfold ofType
  cases found : theory.typeVars.find? fun id => t == .typeVar id with
  | none => exact type
  | some id =>
    rcases bounds.kind (mem_of_find?_eq_some found) with isClass | ⟨other, isVar, is⟩
    · exact isClass.isType formed
    · rw [Option.map_some, is]
      exact formed.isType_typeVar isVar

theorem upper_not_generic (formed : theory.WellFormed) (bounds : theory.Bounds)
    (isVar : id ∈ theory.typeVars) : ¬ (bounds.upper id).IsGeneric := by
  rcases bounds.kind isVar with isClass | ⟨other, -, is⟩
  · exact isClass.not_generic formed
  · rw [is]
    exact Term.typeVar_not_generic other

/-- Below a type variable are itself, none and what it bounds. -/
def BelowVariable (bounds : theory.Bounds) (method s : Term) (id : String) : Prop :=
  (theory.InScope method id ∧ (s = .typeVar id ∨ s = .none)) ∨
    ∃ other ∈ theory.typeVars, other ≠ id ∧ theory.InScope method id ∧
      theory.InScope method other ∧ s = .typeVar other ∧ bounds.upper other = .typeVar id

/-- What a bound has above it stays above its type variable. -/
theorem Fit.belowVariable_of_upper (fit : bounds.Fit) {own : String}
    (isOwn : own ∈ theory.typeVars) (isVar : id ∈ theory.typeVars)
    (inScope : theory.InScope method own)
    (above : bounds.BelowVariable method (bounds.upper own) id) :
    bounds.BelowVariable method (.typeVar own) id := by
  by_cases same : own = id
  · rw [same] at inScope
    exact .inl ⟨inScope, .inl (congrArg typeVar same)⟩
  · rcases above with ⟨shared, is | none⟩ |
      ⟨other, isOther, different, shared, alsoShared, is, next⟩
    · exact .inr ⟨own, isOwn, same, shared, inScope, rfl, is⟩
    · exact absurd none (fit.none isOwn isVar inScope shared same)
    · have away : own ≠ other := by
        rintro rfl
        exact same (typeVar_inj.mp (is.symm.trans next))
      exact absurd next
        (fit.chain isOwn isOther isVar inScope alsoShared shared away different same is)

theorem Fit.belowVariable (fit : bounds.Fit) (isVar : id ∈ theory.typeVars)
    (below : BoundedSubtype theory bounds.upper method s (.typeVar id)) :
    bounds.BelowVariable method s id := by
  have closed (method s t : Term) (step : BoundedStep theory bounds.upper
      (fun method s t => ∀ id ∈ theory.typeVars, t = .typeVar id → bounds.BelowVariable method s id)
      method s t) : ∀ id ∈ theory.typeVars, t = .typeVar id → bounds.BelowVariable method s id := by
    intro id isVar is
    cases step with
    | structural _ notT => exact absurd is (notT id isVar)
    | none _ inScope =>
      obtain rfl := typeVar_inj.mp is
      exact .inl ⟨inScope, .inr rfl⟩
    | refl _ inScope =>
      obtain rfl := typeVar_inj.mp is
      exact .inl ⟨inScope, .inl rfl⟩
    | bound isOwn inScope above =>
      exact fit.belowVariable_of_upper isOwn isVar inScope (above id isVar is)
  exact BoundedSubtype.induct closed below id isVar rfl

/-- What is below a type variable. -/
theorem boundedSubtype_typeVar_iff (fit : bounds.Fit) (isVar : id ∈ theory.typeVars) :
    BoundedSubtype theory bounds.upper method s (.typeVar id) ↔
      bounds.BelowVariable method s id := by
  refine ⟨fit.belowVariable isVar, ?_⟩
  rintro (⟨inScope, rfl | rfl⟩ | ⟨other, isOther, -, shared, inScope, rfl, is⟩)
  · exact BoundedSubtype.iff_step.mpr (.refl isVar inScope)
  · exact BoundedSubtype.iff_step.mpr (.none isVar inScope)
  · refine BoundedSubtype.iff_step.mpr (.bound isOther inScope ?_)
    rw [is]
    exact BoundedSubtype.iff_step.mpr (.refl isVar shared)

/-- What is above a type variable. -/
theorem typeVar_boundedSubtype_iff (formed : theory.WellFormed) (isVar : id ∈ theory.typeVars) :
    BoundedSubtype theory bounds.upper method (.typeVar id) t ↔ theory.InScope method id ∧
      (t = .typeVar id ∨ BoundedSubtype theory bounds.upper method (bounds.upper id) t) := by
  rw [BoundedSubtype.iff_step]
  constructor
  · intro step
    generalize is : typeVar id = s at step
    cases step with
    | structural notS => exact absurd is.symm (notS id isVar)
    | none => exact absurd is.symm (formed.none_ne_typeVar id)
    | refl _ inScope =>
      obtain rfl := Term.typeVar_inj.mp is
      exact ⟨inScope, .inl rfl⟩
    | bound _ inScope above =>
      obtain rfl := typeVar_inj.mp is
      exact ⟨inScope, .inr above⟩
  · rintro ⟨inScope, rfl | above⟩
    · exact .refl isVar inScope
    · exact .bound isVar inScope above

/-- A generic function is comparable only with itself. -/
theorem boundedSubtype_generic_iff (formed : theory.WellFormed)
    (generic : s.IsGeneric ∨ t.IsGeneric) :
    BoundedSubtype theory bounds.upper method s t ↔ s = t := by
  constructor
  · intro below
    have closed (method s t : Term) (step : BoundedStep theory bounds.upper
        (fun _ s t => s.IsGeneric ∨ t.IsGeneric → s = t) method s t)
        (generic : s.IsGeneric ∨ t.IsGeneric) : s = t := by
      cases step with
      | structural _ _ step => exact formed.eq_of_generic step generic
      | none =>
        have notNone := formed.not_generic (formed.mem_sortClasses formed.isClass_none) []
        exact absurd generic (not_or.mpr ⟨notNone, Term.typeVar_not_generic _⟩)
      | refl => rfl
      | bound isVar _ above =>
        have isGeneric := generic.resolve_left (Term.typeVar_not_generic _)
        rw [← above (.inr isGeneric)] at isGeneric
        exact absurd isGeneric (bounds.upper_not_generic formed isVar)
    exact BoundedSubtype.induct closed below generic
  · rintro rfl
    have notVar (id : String) (_ : id ∈ theory.typeVars) : s ≠ .typeVar id := by
      rintro rfl
      exact Term.typeVar_not_generic id (or_self_iff.mp generic)
    exact BoundedSubtype.iff_step.mpr (.structural notVar notVar (.refl s))

/-- The least model with given bounds. -/
def interpretation (clear : theory.Unambiguous) (bounds : theory.Bounds) : Interpretation theory :=
  .ofRelation clear.toWellFormed clear.datatype (BoundedSubtype theory bounds.upper) bounds.ofType
    (bounds.ofType_isType clear.toWellFormed)

variable {bounds : theory.Bounds} (clear : theory.Unambiguous)

theorem interpretation_upper (isVar : id ∈ theory.typeVars) :
    (bounds.interpretation clear).upper (.typeVar id) = bounds.upper id :=
  bounds.ofType_typeVar isVar

theorem interpretation_classLaws (on : theory.settings.noneBelowAll) {key : ClassKey}
    (isClass : theory.IsClass key) : (bounds.interpretation clear).ClassLaws key := by
  have notVar (args : List Term) (id : String) (_ : id ∈ theory.typeVars) :
      con key.name args ≠ .typeVar id :=
    clear.con_ne_typeVar isClass args id
  constructor
  · intro notNone t method args type isMethod fit
    refine BoundedSubtype.iff_step.trans ⟨?_, ?_⟩
    · intro step
      generalize is : con key.name args = s at step
      cases step with
      | structural _ _ step => exact step
      | none =>
        have isNone := clear.unique isClass clear.isClass_none (con.inj is).1
        exact absurd ⟨on, isNone⟩ notNone
      | refl isVar => exact absurd is (notVar args _ isVar)
      | bound isVar => exact absurd is (notVar args _ isVar)
    · intro step
      refine .structural (notVar args) ?_ step
      rintro id isVar rfl
      rcases clear.eq_of_typeVar step (.inr rfl) with same | ⟨-, none⟩
      · exact notVar args id isVar same
      · exact notNone ⟨on, clear.unique isClass clear.isClass_none (con.inj none).1⟩
  · intro s method args type isMethod fit
    refine BoundedSubtype.iff_step.trans ⟨?_, ?_⟩
    · intro step
      generalize is : con key.name args = t at step
      cases step with
      | structural _ _ step => exact .inl step
      | none isVar => exact absurd is (notVar args _ isVar)
      | refl isVar => exact absurd is (notVar args _ isVar)
      | bound isVar inScope above =>
        refine .inr ⟨_, isVar, inScope, rfl, ?_⟩
        rw [interpretation_upper clear isVar]
        exact above
    · rintro (step | ⟨id, isVar, inScope, rfl, above⟩)
      · refine .structural ?_ (notVar args) step
        rintro id isVar rfl
        rcases clear.eq_of_typeVar step (.inl rfl) with same | ⟨-, none⟩
        · exact notVar args id isVar same.symm
        · exact clear.none_ne_typeVar id none.symm
      · rw [interpretation_upper clear isVar] at above
        exact .bound isVar inScope above

/-- The relation is a model of the axioms. -/
theorem interpretation_subtypeLaws (fit : bounds.Fit) (on : theory.settings.noneBelowAll) :
    (bounds.interpretation clear).SubtypeLaws where
  ofClass isClass := interpretation_classLaws clear on isClass
  ofVariable {id} isVar := by
    constructor
    · intro s method type isMethod
      refine (boundedSubtype_typeVar_iff fit isVar).trans (or_congr_right ?_)
      refine exists_congr fun other => and_congr_right fun isOther => ?_
      rw [interpretation_upper clear isOther]
    · intro t method type isMethod
      rw [interpretation_upper clear isVar]
      exact typeVar_boundedSubtype_iff clear.toWellFormed isVar
  generic _ _ _ generic := boundedSubtype_generic_iff clear.toWellFormed generic

end Bounds

end Theory

end TypeInference
