/- Models of all axioms of a theory, in which formulas can be computed. -/

import TypeInference.Proofs.FixedWidth
import TypeInference.Proofs.SessionGrowth
import TypeInference.Proofs.Substitution
import TypeInference.Proofs.Subtyping

namespace TypeInference

open List Option Interpretation Theory

variable {axioms : Axioms}

/-- The formulas of the first log are axioms. -/
theorem Axioms.mem_of_mem_log {assertion : Assertion} (member : assertion ∈ axioms.log.hard)
    {part : Formula} (inside : part ∈ assertion.parts) :
    part ∈ axioms.subtype ∨ part ∈ axioms.subst ∨ part ∈ axioms.limit := by
  have one_by_one (formulas : List Formula) (log : Log) {assertion : Assertion}
      (member : assertion ∈ (formulas.foldl (fun log formula =>
        log.assert "Subtyping error" [formula]) log).hard) :
      assertion ∈ log.hard ∨ ∃ formula ∈ formulas, assertion.parts = [formula] := by
    induction formulas generalizing log with
    | nil => exact .inl member
    | cons formula formulas ih =>
      rcases ih _ member with early | ⟨other, listed, is⟩
      · rcases Array.mem_push.mp early with old | rfl
        · exact .inl old
        · exact .inr ⟨formula, mem_cons_self, rfl⟩
      · exact .inr ⟨other, mem_cons_of_mem _ listed, is⟩
  rcases Array.mem_push.mp member with early | rfl
  · rcases Array.mem_push.mp early with first | rfl
    · rcases one_by_one axioms.subtype _ first with none | ⟨formula, listed, is⟩
      · exact absurd none (Array.not_mem_empty assertion)
      · rw [is, mem_singleton] at inside
        exact .inl (inside ▸ listed)
    · exact .inr (.inl inside)
  · exact .inr (.inr inside)

theorem Axioms.ofTheory_eq_ok {theory : Theory} (stated : ofTheory theory = .ok axioms) :
    theory.subtypeAxioms = .ok axioms.subtype ∧
      theory.substAxioms = .ok axioms.subst ∧ axioms.limit = limitAxioms := by
  obtain ⟨subtype, isSubtype, rest⟩ := bind_ok stated
  obtain ⟨subst, isSubst, rfl⟩ := map_ok rest
  exact ⟨isSubtype, isSubst, rfl⟩

namespace Interpretation

variable {theory : Theory}

/-- Accessors give the root class elsewhere, and it bounds all type variables. -/
structure IsStandard (model : Interpretation theory) (axioms : Axioms) : Prop where
  holds : ∀ assertion ∈ axioms.log.hard, ∀ part ∈ assertion.parts, ∀ assigned,
    model.holds part assigned
  satisfies : model.Satisfies axioms.subtype
  laws : model.SubtypeLaws
  select : model.select = theory.sort.select
  upper : ∀ id ∈ theory.typeVars, model.upper (.typeVar id) = .object

theorem exists_isStandard (formed : theory.WellFormed)
    (stated : Axioms.ofTheory theory = .ok axioms) (datatype : theory.sort.IsDatatype)
    (on : theory.settings.noneBelowAll) :
    ∃ model : Interpretation theory, model.IsStandard axioms := by
  obtain ⟨subtypes, substs, limits⟩ := Axioms.ofTheory_eq_ok stated
  have clear := unambiguous subtypes formed datatype
  let plain := (rootBounds formed).interpretation clear
  have plainLaws : plain.SubtypeLaws :=
    Theory.Bounds.interpretation_subtypeLaws clear (rootBounds_fit formed) on
  -- Substitution has no part in the laws of subtyping.
  have laws : plain.withReplacing.SubtypeLaws :=
    ⟨fun isClass => ⟨(plainLaws.ofClass isClass).up, (plainLaws.ofClass isClass).down⟩,
      fun isVar => ⟨(plainLaws.ofVariable isVar).below, (plainLaws.ofVariable isVar).above⟩,
      plainLaws.generic⟩
  have satisfies := (satisfies_iff_subtypeLaws subtypes formed).mpr laws
  refine ⟨plain.withReplacing, ?_, satisfies, laws, rfl, fun id isVar => ?_⟩
  · intro assertion member part inside assigned
    rcases Axioms.mem_of_mem_log member inside with subtype | subst | limit
    · exact satisfies part subtype assigned
    · exact (satisfies_iff_substLaws substs formed).mpr (withReplacing_substLaws formed) part
        subst assigned
    · rw [limits] at limit
      obtain ⟨type, rfl⟩ := FixedType.mem_limitAxioms_iff.mp limit
      exact holds_within_iff.mpr fun _ _ => type.zero_within
  · exact Theory.Bounds.interpretation_upper clear isVar

/-- A complete survey has a standard model with structural subtyping. -/
theorem exists_isStandard_structural {settings : Settings} {survey : Survey}
    (complete : survey.IsComplete) (built : ofSurvey settings survey = .ok theory)
    (on : settings.noneBelowAll) (stated : Axioms.ofTheory theory = .ok axioms)
    (datatype : theory.sort.IsDatatype) :
    ∃ model : Interpretation theory, model.IsStandard axioms ∧
      ∀ {s t}, theory.IsGround s → theory.IsGround t → (model.subtype Term.noMethod s t ↔
        StructuralSubtype theory.survey.allClasses theory.settings.noneBelowAll s t) := by
  have formed := ofSurvey_wellFormed complete built
  have isOn : theory.settings.noneBelowAll = true := (ofSurvey_eq_ok built).1 ▸ on
  obtain ⟨model, standard⟩ := exists_isStandard formed stated datatype isOn
  exact ⟨model, standard, standard.laws.subtype_iff formed
    (isClass_of_isComplete complete built) theory.isMethod_noMethod⟩

end Interpretation

/-- What is needed to compute truth: the sort, the type variables, values of constants, and pairs of
types in order. -/
structure Valuation where
  sort : TypeSort
  typeVars : List String
  assigned : Assignment
  below : List (Term × Term)

namespace Valuation

variable (valuation : Valuation)

mutual

/-- The value of a term, if it can be computed. -/
def value? : Term → Option Term
  | .const name => some (valuation.assigned name)
  | .num value => some (.num value)
  | .method name => some (.method name)
  | .con name args => (values? args).map (.con name)
  | .get accessor whole => (value? whole).map (valuation.sort.select accessor)
  | .upper var => (value? var).bind fun t =>
    if valuation.typeVars.any fun id => t == .typeVar id then some .object else none
  | .subst .. | .toInt .. => none

def values? : List Term → Option (List Term)
  | [] => some []
  | arg :: args => (value? arg).bind fun value => (values? args).map (value :: ·)

end

/-- Two terms have values that are related. -/
def compare? (related : Term → Term → Bool) (left right : Term) : Option Bool :=
  (valuation.value? left).bind fun first => (valuation.value? right).map (related first)

mutual

/-- The truth of a formula, if it can be computed. -/
def truth? : Formula → Option Bool
  | .truth value => some value
  | .atom (.subtype method sub sup) =>
    (valuation.compare? (fun s t => valuation.below.contains (s, t)) sub sup).bind fun known =>
      if known && method == Term.noMethod then some true else none
  | .eq left right => valuation.compare? (· == ·) left right
  | .distinct left right => valuation.compare? (· != ·) left right
  | .implies premise conclusion => (truth? premise).bind fun first =>
    if first then truth? conclusion else some true
  | .and parts => (truths? parts).map fun values => values.all id
  | .or parts => (truths? parts).map fun values => values.any id
  | _ => none

def truths? : List Formula → Option (List Bool)
  | [] => some []
  | part :: parts => (truth? part).bind fun value => (truths? parts).map (value :: ·)

end

/-- The values are those of a model. -/
structure Fits {theory : Theory} (model : Interpretation theory) : Prop where
  select : model.select = valuation.sort.select
  upper : ∀ id ∈ valuation.typeVars, model.upper (.typeVar id) = .object
  below : ∀ pair ∈ valuation.below, model.subtype Term.noMethod pair.1 pair.2

namespace Fits

variable {valuation} {theory : Theory} {model : Interpretation theory}

mutual

theorem eval_eq (fits : valuation.Fits model) : (t : Term) → {value : Term} →
    valuation.value? t = some value → model.eval valuation.assigned t = value
  | .const _, _, is | .num _, _, is | .method _, _, is => by
    rw [value?, Option.some.injEq] at is
    rw [eval, is]
  | .con name args, _, is => by
    rw [value?] at is
    obtain ⟨values, are, rfl⟩ := map_eq_some_iff.mp is
    rw [eval, evalList_eq fits args are]
  | .get accessor whole, _, is => by
    rw [value?] at is
    obtain ⟨value, isWhole, rfl⟩ := map_eq_some_iff.mp is
    rw [eval, eval_eq fits whole isWhole, fits.select]
  | .upper var, _, is => by
    rw [value?] at is
    obtain ⟨t, isVar, found⟩ := bind_eq_some_iff.mp is
    rw [eval, eval_eq fits var isVar]
    split at found
    · next listed =>
      obtain ⟨id, member, same⟩ := any_eq_true.mp listed
      rw [eq_of_beq same, fits.upper id member]
      exact Option.some.inj found
    · cases found
  | .subst .., _, is | .toInt .., _, is => by
    rw [value?] at is
    cases is

theorem evalList_eq (fits : valuation.Fits model) : (args : List Term) → {values : List Term} →
    valuation.values? args = some values → model.evalList valuation.assigned args = values
  | [], _, are => by
    rw [values?, Option.some.injEq] at are
    rw [evalList, are]
  | arg :: args, _, are => by
    rw [values?] at are
    obtain ⟨value, is, rest⟩ := bind_eq_some_iff.mp are
    obtain ⟨values, areOthers, rfl⟩ := map_eq_some_iff.mp rest
    rw [evalList, eval_eq fits arg is, evalList_eq fits args areOthers]

end

theorem compare?_eq (fits : valuation.Fits model) {related : Term → Term → Bool}
    {left right : Term} {value : Bool} (is : valuation.compare? related left right = some value) :
    related (model.eval valuation.assigned left) (model.eval valuation.assigned right) = value := by
  obtain ⟨first, isFirst, rest⟩ := bind_eq_some_iff.mp is
  obtain ⟨second, isSecond, same⟩ := map_eq_some_iff.mp rest
  rw [fits.eval_eq left isFirst, fits.eval_eq right isSecond, same]

mutual

/-- What is computed is the truth. -/
theorem holds_iff (fits : valuation.Fits model) : (formula : Formula) → {value : Bool} →
    valuation.truth? formula = some value → (model.holds formula valuation.assigned ↔ value)
  | .truth _, _, is => by
    rw [truth?, Option.some.injEq] at is
    rw [holds, is]
  | .atom (.subtype method sub sup), _, is => by
    rw [truth?] at is
    obtain ⟨known, compared, rest⟩ := bind_eq_some_iff.mp is
    split at rest
    · next both =>
      obtain ⟨rfl, isMethod⟩ := Bool.and_eq_true_iff.mp both
      obtain rfl := Option.some.inj rest
      have listed := contains_iff_mem.mp (fits.compare?_eq compared)
      have below := fits.below _ listed
      rw [holds, holdsAtom, eq_of_beq isMethod, Term.noMethod, eval_methodConstant]
      exact iff_of_true below rfl
    · cases rest
  | .eq left right, _, is => by
    rw [truth?] at is
    rw [holds, ← fits.compare?_eq is, beq_iff_eq]
  | .distinct left right, _, is => by
    rw [truth?] at is
    rw [holds, ← fits.compare?_eq is, bne_iff_ne]
  | .implies premise conclusion, _, is => by
    rw [truth?] at is
    obtain ⟨first, isFirst, rest⟩ := bind_eq_some_iff.mp is
    rw [holds, holds_iff fits premise isFirst]
    cases first with
    | false => simp [← Option.some.inj rest]
    | true => simp [holds_iff fits conclusion rest]
  | .and parts, _, is => by
    rw [truth?] at is
    obtain ⟨values, are, rfl⟩ := map_eq_some_iff.mp is
    rw [holds, (holdsAll_iff fits parts are).1]
  | .or parts, _, is => by
    rw [truth?] at is
    obtain ⟨values, are, rfl⟩ := map_eq_some_iff.mp is
    rw [holds, (holdsAll_iff fits parts are).2]
  | .atom (.issubst ..), _, is | .atom (.isCon ..), _, is | .less .., _, is | .atLeast .., _, is
  | .not _, _, is | .iff .., _, is | .all .., _, is => by
    rw [truth?] at is
    · cases is
    all_goals simp

theorem holdsAll_iff (fits : valuation.Fits model) : (parts : List Formula) → {values : List Bool} →
    valuation.truths? parts = some values →
    (model.holdsAll parts valuation.assigned ↔ values.all id) ∧
      (model.holdsAny parts valuation.assigned ↔ values.any id)
  | [], _, are => by
    rw [truths?, Option.some.injEq] at are
    simp [holdsAll, holdsAny, ← are]
  | part :: parts, _, are => by
    rw [truths?] at are
    obtain ⟨value, is, rest⟩ := bind_eq_some_iff.mp are
    obtain ⟨values, areOthers, rfl⟩ := map_eq_some_iff.mp rest
    obtain ⟨all, any⟩ := holdsAll_iff fits parts areOthers
    rw [holdsAll, holdsAny, holds_iff fits part is, all, any]
    simp

end

end Fits

end Valuation

/-- A log after the axioms holds if the rest is computed to be true. -/
theorem Interpretation.IsStandard.holds_of_le {theory : Theory} {model : Interpretation theory}
    (standard : model.IsStandard axioms) {log : Log} (le : axioms.log ≤ log)
    {valuation : Valuation} (fits : valuation.Fits model)
    (computed : ∀ assertion ∈ log.hard.toList.drop axioms.log.hard.toList.length,
      ∀ part ∈ assertion.parts, valuation.truth? part = some true) :
    ∀ assertion ∈ log.hard, ∀ part ∈ assertion.parts, model.holds part valuation.assigned := by
  intro assertion member part inside
  obtain ⟨rest, is⟩ := le.hard
  rw [← is, drop_left] at computed
  rw [← Array.mem_toList_iff, ← is] at member
  rcases mem_append.mp member with early | late
  · exact standard.holds assertion (Array.mem_toList_iff.mp early) part inside _
  · exact (fits.holds_iff part (computed assertion late part inside)).mpr rfl

end TypeInference
