/- The axioms of substitution as laws about types. -/

import TypeInference.Proofs.SubtypeLaws
import TypeInference.Theory.SubstAxioms

namespace TypeInference

open List ClassKey

variable {assigned : Assignment} {other : Term} {id : String}

/-- What an argument turns into. Numbers stay. -/
inductive ReplacedArgument (replaced : Term → Term → Prop) : Term → Term → Prop where
  | count (value : Int) : ReplacedArgument replaced (.num value) (.num value)
  | type {arg other : Term} (notCount : ∀ value, arg ≠ .num value) (is : replaced arg other) :
      ReplacedArgument replaced arg other

/-- One step of replacing a type, with a relation for the arguments. -/
@[mk_iff]
inductive ReplaceStep (replaced : Term → Term → Prop) (what replacement : Term) :
    Term → Term → Prop where
  | whole : ReplaceStep replaced what replacement what replacement
  | parts {name : String} {own others : List Term} (different : Term.con name own ≠ what)
      (each : Forall₂ (ReplacedArgument replaced) own others) :
      ReplaceStep replaced what replacement (.con name own) (.con name others)

namespace ReplacedArgument

variable {replaced : Term → Term → Prop}

theorem num_iff {value : Int} :
    ReplacedArgument replaced (.num value) other ↔ other = .num value := by
  refine ⟨fun is => ?_, fun is => by rw [is]; exact .count value⟩
  cases is with
  | count => rfl
  | type notCount => exact absurd rfl (notCount value)

theorem iff_of_not_count {arg : Term} (notCount : ∀ value, arg ≠ .num value) :
    ReplacedArgument replaced arg other ↔ replaced arg other := by
  refine ⟨fun is => ?_, .type notCount⟩
  cases is with
  | count value => exact absurd rfl (notCount value)
  | type _ is => exact is

end ReplacedArgument

namespace ReplaceStep

variable {replaced : Term → Term → Prop} {what replacement : Term} {name : String}

/-- A type turns into the replacement or one of its constructor. -/
theorem con_left_iff {own : List Term} {r : Term} :
    ReplaceStep replaced what replacement (.con name own) r ↔
      (r = replacement ∧ .con name own = what) ∨
      (what ≠ .con name own ∧ ∃ others, r = .con name others ∧
        Forall₂ (ReplacedArgument replaced) own others) := by
  rw [replaceStep_iff]
  grind

/-- A type comes from what is replaced or one of its constructor. -/
theorem con_right_iff {others : List Term} {t : Term} :
    ReplaceStep replaced what replacement t (.con name others) ↔
      (replacement = .con name others ∧ what = t) ∨
      (what ≠ t ∧ ∃ own, t = .con name own ∧
        Forall₂ (ReplacedArgument replaced) own others) := by
  rw [replaceStep_iff]
  grind

end ReplaceStep

namespace Theory

/-- The types that the axioms are about. -/
def IsNamed (theory : Theory) (t : Term) : Prop :=
  theory.IsClassType t ∨ ∃ id ∈ theory.typeVars, t = .typeVar id

end Theory

namespace Interpretation

variable {theory : Theory} (model : Interpretation theory) {what replacement : Term}

/-- One step of replacing with a model's substitution. -/
def Replaces (what replacement : Term) : Term → Term → Prop :=
  ReplaceStep (fun arg other => model.issubst arg what replacement other) what replacement

/-- What the axioms of substitution say of a model. -/
@[mk_iff]
structure SubstLaws : Prop where
  forward : ∀ {what replacement t r}, theory.sort.IsType what → theory.sort.IsType replacement →
    theory.IsNamed t → theory.sort.IsType r →
    (model.issubst t what replacement r ↔ model.Replaces what replacement t r)
  backward : ∀ {what replacement t r}, theory.sort.IsType what → theory.sort.IsType replacement →
    theory.sort.IsType t → theory.IsNamed r →
    (model.issubst t what replacement r ↔ model.Replaces what replacement t r)
  related : ∀ {what replacement t}, theory.sort.IsType what → theory.sort.IsType replacement →
    theory.sort.IsType t → model.issubst t what replacement (model.subst t what replacement)
  generic : ∀ {what replacement t}, theory.sort.IsType what → theory.sort.IsType replacement →
    theory.sort.IsType t → t.IsGeneric → model.subst t what replacement = t

variable {model}

/-- A type variable is replaced or stays as it is. -/
theorem replaces_typeVar_left_iff {r : Term} :
    model.Replaces what replacement (.typeVar id) r ↔
      (.typeVar id = what ∧ replacement = r) ∨ (.typeVar id ≠ what ∧ .typeVar id = r) := by
  refine ReplaceStep.con_left_iff.trans ?_
  simp [forall₂_nil_left_iff, Term.typeVar, Term.atom]
  grind

/-- A type variable comes from itself or what is replaced. -/
theorem replaces_typeVar_right_iff {t : Term} :
    model.Replaces what replacement t (.typeVar id) ↔
      (t = what ∧ replacement = .typeVar id) ∨ (t ≠ what ∧ .typeVar id = t) := by
  refine ReplaceStep.con_right_iff.trans ?_
  simp [forall₂_nil_right_iff, Term.typeVar, Term.atom]
  grind

theorem holds_issubst {whole result : Term} :
    model.holds (.issubst whole what replacement result) assigned ↔
      model.issubst (model.eval assigned whole) (model.eval assigned what)
        (model.eval assigned replacement) (model.eval assigned result) := by
  rw [Formula.issubst, holds, holdsAtom]

theorem holds_distinct {left right : Term} :
    model.holds (.distinct left right) assigned ↔
      model.eval assigned left ≠ model.eval assigned right := by
  rw [holds]

theorem eval_subst (assigned : Assignment) (whole what replacement : Term) :
    model.eval assigned (.subst whole what replacement) = model.subst (model.eval assigned whole)
      (model.eval assigned what) (model.eval assigned replacement) := by
  rw [eval]

/-- An axiom says what its body says of the values. -/
theorem holds_types_iff {first second third : Variable} {rest : List Variable} {body : Formula}
    {trigger : Option Trigger} {law : Term → Term → Term → List Term → Prop}
    (types : first.sort = .type ∧ second.sort = .type ∧ third.sort = .type)
    (distinct : ((first :: second :: third :: rest).map (·.name)).Nodup)
    (means : ∀ {assigned : Assignment}, theory.sort.IsType (assigned first.name) →
      theory.sort.IsType (assigned second.name) → theory.sort.IsType (assigned third.name) →
      Forall₂ theory.Fits rest (assigned.values rest) →
      (model.holds body assigned ↔ law (assigned first.name) (assigned second.name)
        (assigned third.name) (assigned.values rest))) :
    (∀ assigned, model.holds (.all (first :: second :: third :: rest) body trigger) assigned) ↔
      ∀ {a b c args}, theory.sort.IsType a → theory.sort.IsType b → theory.sort.IsType c →
        Forall₂ theory.Fits rest args → law a b c args := by
  have fits {a b c : Term} {args : List Term} :
      Forall₂ theory.Fits (first :: second :: third :: rest) (a :: b :: c :: args) ↔
        theory.sort.IsType a ∧ theory.sort.IsType b ∧ theory.sort.IsType c ∧
          Forall₂ theory.Fits rest args := by
    simp [types, Theory.Fits, Theory.HasSort]
  have bound (assigned : Assignment) {a b c : Term} {args : List Term}
      (fit : Forall₂ theory.Fits (first :: second :: third :: rest) (a :: b :: c :: args)) :
      model.holds body (assigned.bind (first :: second :: third :: rest) (a :: b :: c :: args)) ↔
        law a b c args := by
    have values := assigned.map_bind distinct fit.length_eq
    simp only [map_cons, List.cons.injEq] at values
    have here := @means (assigned.bind (first :: second :: third :: rest) (a :: b :: c :: args))
    simp only [Assignment.values, values] at here
    obtain ⟨typeA, typeB, typeC, isRest⟩ := fits.mp fit
    exact here typeA typeB typeC isRest
  constructor
  · intro always a b c args typeA typeB typeC isRest
    have here := always fun _ => a
    have fit := fits.mpr ⟨typeA, typeB, typeC, isRest⟩
    exact (bound _ fit).mp (here _ fit)
  · intro always assigned
    rintro _ (_ | ⟨isA, _ | ⟨isB, _ | ⟨isC, isRest⟩⟩⟩)
    have fit := Forall₂.cons isA (.cons isB (.cons isC isRest))
    obtain ⟨typeA, typeB, typeC, isRest⟩ := fits.mp fit
    exact (bound assigned fit).mpr (always typeA typeB typeC isRest)

/-- An axiom about three types only. -/
theorem holds_three_iff {first second third : Variable} {body : Formula} {trigger : Option Trigger}
    {law : Term → Term → Term → Prop}
    (types : first.sort = .type ∧ second.sort = .type ∧ third.sort = .type)
    (distinct : ([first, second, third].map (·.name)).Nodup)
    (means : ∀ {assigned : Assignment}, theory.sort.IsType (assigned first.name) →
      theory.sort.IsType (assigned second.name) → theory.sort.IsType (assigned third.name) →
      (model.holds body assigned ↔
        law (assigned first.name) (assigned second.name) (assigned third.name))) :
    (∀ assigned, model.holds (.all [first, second, third] body trigger) assigned) ↔
      ∀ {a b c}, theory.sort.IsType a → theory.sort.IsType b → theory.sort.IsType c →
        law a b c := by
  rw [@holds_types_iff theory model first second third [] body trigger (fun a b c _ => law a b c)
    types distinct fun typeA typeB typeC _ => means typeA typeB typeC]
  exact ⟨fun always a b c typeA typeB typeC => always typeA typeB typeC .nil,
    fun always a b c args typeA typeB typeC _ => always typeA typeB typeC⟩

end Interpretation

namespace Theory

open SubstAxioms Interpretation

variable {theory : Theory} {key : ClassKey} {formula : Formula} {model : Interpretation theory}
  {vars : List Variable}

/-- The direction of an axiom decides which arguments come first. -/
def RelatesParts (model : Interpretation theory) (forwards : Bool) (what replacement : Term)
    (arg other : Term) : Prop :=
  if forwards then ReplacedArgument (fun a b => model.issubst a what replacement b) arg other
  else ReplacedArgument (fun a b => model.issubst a what replacement b) other arg

/-- The formula for a component says that it is replaced. -/
theorem holds_component_iff {forwards : Bool} {v : Variable}
    (sorted : theory.HasSort v.sort (assigned v.name))
    (sortedOther : theory.HasSort v.sort (model.eval assigned other)) :
    model.holds (if v.sort == .int then .eq v.term other
        else if forwards then .issubst v.term what.term replacement.term other
        else .issubst other what.term replacement.term v.term) assigned ↔
      RelatesParts model forwards (assigned what.name) (assigned replacement.name)
        (assigned v.name) (model.eval assigned other) := by
  have notCount {value : Term} (type : v.sort ≠ .int) (is : theory.HasSort v.sort value)
      (number : Int) : value ≠ .num number := by
    rintro rfl
    cases sort : v.sort with
    | int => exact type sort
    | type => simp [sort, HasSort, TypeSort.IsType] at is
    | method => simp [sort, HasSort, IsMethod] at is
  by_cases count : v.sort = .int
  · rw [count] at sorted sortedOther
    obtain ⟨value, isValue⟩ := sorted
    obtain ⟨otherValue, isOther⟩ := sortedOther
    cases forwards <;>
      simp [count, holds_eq, eval_term, isValue, isOther, RelatesParts, ReplacedArgument.num_iff,
        eq_comm]
  · have different : (v.sort == .int) = false := by simpa using count
    cases forwards <;>
      simp [different, holds_issubst, eval_term, RelatesParts,
        ReplacedArgument.iff_of_not_count (notCount count sorted),
        ReplacedArgument.iff_of_not_count (notCount count sortedOther)]

theorem holds_components_iff (forwards : Bool) {others : List Term}
    (fit : Forall₂ theory.Fits vars (vars.map fun v => assigned v.name))
    (fitOthers : Forall₂ theory.Fits vars (others.map (model.eval assigned))) :
    (∀ part ∈ components vars others forwards, model.holds part assigned) ↔
      Forall₂ (RelatesParts model forwards (assigned what.name) (assigned replacement.name))
        (vars.map fun v => assigned v.name) (others.map (model.eval assigned)) := by
  rw [forall₂_map_right_iff] at fitOthers
  have sorted : ∀ v ∈ vars, theory.HasSort v.sort (assigned v.name) := by
    rw [forall₂_map_right_iff, forall₂_same] at fit
    exact fit
  rw [components, forall_zipWith_iff fitOthers.length_eq, forall₂_map_left_iff,
    forall₂_map_right_iff]
  have both := forall₂_restrict fitOthers sorted (fun _ _ => trivial)
  refine forall₂_congr_of both ?_
  rintro v other ⟨⟨isSorted, -⟩, isSortedOther⟩
  exact holds_component_iff isSorted isSortedOther

/-- A type is not what is replaced, and its parts are replaced. -/
theorem holds_parts_iff (formed : theory.WellFormed) (isClass : theory.IsClass key)
    (forwards : Bool) {first second : Term} {v : Variable}
    (type : theory.sort.IsType (assigned v.name))
    (fit : Forall₂ theory.Fits key.vars (assigned.values key.vars)) :
    model.holds (.and (.distinct first second ::
        .eq v.term (.con key.name (key.accessors.map fun accessor => .get accessor v.term)) ::
        components key.vars (key.accessors.map fun accessor => .get accessor v.term) forwards))
        assigned ↔
      model.eval assigned first ≠ model.eval assigned second ∧
        ∃ others, assigned v.name = .con key.name others ∧
          Forall₂ (RelatesParts model forwards (assigned what.name) (assigned replacement.name))
            (assigned.values key.vars) others := by
  have areParts : (key.accessors.map fun accessor => Term.get accessor v.term).map
      (model.eval assigned) =
        key.accessors.map fun accessor => model.select accessor (assigned v.name) := by
    rw [eval_accessors, eval_term]
  rw [holds_and, forall_mem_cons, forall_mem_cons, holds_eq, eval_con, eval_term,
    exists_con_iff formed isClass type, ← areParts]
  refine and_congr_right fun _ => and_congr_right fun whole => holds_components_iff forwards fit ?_
  rw [forall₂_vars_iff]
  rw [whole] at type
  exact (model.datatype.arguments (formed.declared_of_isClass isClass)).mp type

/-- The axioms on what a class turns into and comes from. -/
theorem ofClass_subst_iff (formed : theory.WellFormed) {index : Nat} {part : List Formula}
    (reachable : index ∈ theory.graph.reachable) (done : ofClass theory index = .ok part) :
    (∀ formula ∈ part, ∀ assigned, model.holds formula assigned) ↔
      (∀ {a b r args}, theory.sort.IsType a → theory.sort.IsType b → theory.sort.IsType r →
        theory.sort.AreArguments (theory.graph.key index).accessors args →
        (model.issubst (.con (theory.graph.key index).name args) a b r ↔
          model.Replaces a b (.con (theory.graph.key index).name args) r)) ∧
      ∀ {a b t args}, theory.sort.IsType a → theory.sort.IsType b → theory.sort.IsType t →
        theory.sort.AreArguments (theory.graph.key index).accessors args →
        (model.issubst t a b (.con (theory.graph.key index).name args) ↔
          model.Replaces a b t (.con (theory.graph.key index).name args)) := by
  have isClass : theory.IsClass (theory.graph.key index) := ⟨index, reachable, rfl⟩
  obtain ⟨forwards, isForwards, done⟩ := bind_ok done
  obtain ⟨backwards, isBackwards, rfl⟩ := map_ok done
  obtain ⟨literal, isLiteral, isForwards⟩ := bind_ok isForwards
  obtain ⟨whole, isWhole, isForwards⟩ := bind_ok isForwards
  obtain ⟨others, isOthers, isForwards⟩ := bind_ok isForwards
  obtain rfl := literal_eq isLiteral
  obtain rfl := literalOf_eq isWhole
  obtain rfl := argumentsOf_eq isOthers
  obtain rfl := pure_ok isForwards
  obtain ⟨literal, isLiteral, isBackwards⟩ := bind_ok isBackwards
  obtain ⟨whole, isWhole, isBackwards⟩ := bind_ok isBackwards
  obtain ⟨others, isOthers, isBackwards⟩ := bind_ok isBackwards
  obtain rfl := literal_eq isLiteral
  obtain rfl := literalOf_eq isWhole
  obtain rfl := argumentsOf_eq isOthers
  obtain rfl := pure_ok isBackwards
  rw [forall_mem_cons, forall_mem_singleton]
  simp only [← forall₂_vars_iff]
  refine and_congr ?_ ?_
  · have front : ([what, replacement, result].map (·.name)).Nodup := by decide
    refine holds_types_iff ⟨rfl, rfl, rfl⟩ (nodup_append_vars _ front (by decide)) ?_
    intro assigned typeA typeB typeR fit
    refine holds_iff.trans (iff_congr (holds_issubst.trans ?_) ?_)
    · rw [eval_con, map_eval_term, eval_term, eval_term, eval_term]
    · rw [Replaces, ReplaceStep.con_left_iff, holds_either, holds_both,
        holds_parts_iff formed isClass true typeR fit, holds_eq, holds_eq, eval_con,
        map_eval_term]
      rfl
  · have front : ([what, replacement, source].map (·.name)).Nodup := by decide
    refine holds_types_iff ⟨rfl, rfl, rfl⟩ (nodup_append_vars _ front (by decide)) ?_
    intro assigned typeA typeB typeT fit
    refine holds_iff.trans (iff_congr (holds_issubst.trans ?_) ?_)
    · rw [eval_con, map_eval_term, eval_term, eval_term, eval_term]
    · rw [Replaces, ReplaceStep.con_right_iff, holds_either, holds_both,
        holds_parts_iff formed isClass false typeT fit, holds_eq, eval_con,
        map_eval_term]
      exact or_congr_right (and_congr_right fun _ => exists_congr fun _ =>
        and_congr_right fun _ => ⟨Forall₂.flip, Forall₂.flip⟩)

/-- The axioms for a type variable. -/
theorem ofTypeVar_subst_iff :
    (∀ formula ∈ ofTypeVar id, ∀ assigned, model.holds formula assigned) ↔
      (∀ {a b r}, theory.sort.IsType a → theory.sort.IsType b → theory.sort.IsType r →
        (model.issubst (.typeVar id) a b r ↔ model.Replaces a b (.typeVar id) r)) ∧
      ∀ {a b t}, theory.sort.IsType a → theory.sort.IsType b → theory.sort.IsType t →
        (model.issubst t a b (.typeVar id) ↔ model.Replaces a b t (.typeVar id)) := by
  rw [ofTypeVar, forall_mem_cons, forall_mem_singleton]
  refine and_congr ?_ ?_
  · refine holds_three_iff ⟨rfl, rfl, rfl⟩ (by decide) ?_
    intro assigned typeA typeB typeR
    refine holds_iff.trans (iff_congr (holds_issubst.trans ?_) ?_)
    · rw [eval_typeVar, eval_term, eval_term, eval_term]
    · rw [replaces_typeVar_left_iff, holds_either, holds_both, holds_both]
      simp only [holds_eq, holds_distinct, eval_term, eval_typeVar]
  · refine holds_three_iff ⟨rfl, rfl, rfl⟩ (by decide) ?_
    intro assigned typeA typeB typeT
    refine holds_iff.trans (iff_congr (holds_issubst.trans ?_) ?_)
    · rw [eval_typeVar, eval_term, eval_term, eval_term]
    · rw [replaces_typeVar_right_iff, holds_either, holds_both, holds_both]
      simp only [holds_eq, holds_distinct, eval_term, eval_typeVar]

/-- The function and the relation of substitution agree. -/
theorem definition_iff :
    (∀ assigned, model.holds definition assigned) ↔ ∀ {t a b}, theory.sort.IsType t →
      theory.sort.IsType a → theory.sort.IsType b → model.issubst t a b (model.subst t a b) := by
  refine holds_three_iff ⟨rfl, rfl, rfl⟩ (by decide) ?_
  intro assigned typeT typeA typeB
  refine holds_issubst.trans ?_
  rw [eval_subst, eval_term, eval_term, eval_term]

theorem isGenericTable_subst : IsGenericTable genericVariables := ⟨by decide, by decide⟩

/-- The axiom for a generic type. -/
theorem ofGeneric_subst_iff {func : Variable} (member : (vars, func) ∈ genericVariables) :
    (∀ assigned, model.holds (ofGeneric vars func) assigned) ↔
      ∀ {a b args}, theory.sort.IsType a → theory.sort.IsType b →
        Forall₂ theory.Fits (vars ++ [func]) args →
        model.subst (.con ("generic" ++ toString vars.length) args) a b =
          .con ("generic" ++ toString vars.length) args := by
  have distinct : ∀ entry ∈ genericVariables,
      ((what :: replacement :: entry.2 :: entry.1).map (·.name)).Nodup := by decide
  have sort : func.sort = .type := isGenericTable_subst.types _ member func (by simp)
  have split : (∀ assigned, model.holds (ofGeneric vars func) assigned) ↔
      ∀ {a b c args}, theory.sort.IsType a → theory.sort.IsType b → theory.sort.IsType c →
        Forall₂ theory.Fits vars args →
        model.subst (.con ("generic" ++ toString vars.length) (args ++ [c])) a b =
          .con ("generic" ++ toString vars.length) (args ++ [c]) := by
    refine holds_types_iff ⟨rfl, rfl, sort⟩ (distinct _ member) ?_
    intro assigned typeA typeB typeC fit
    refine holds_eq.trans ?_
    rw [eval_subst, eval_con, map_append, map_eval_term, map_singleton, eval_term,
      eval_term, eval_term]
  rw [split]
  constructor
  · intro always a b args typeA typeB fit
    obtain ⟨own, c, rfl, fitOwn, isC⟩ := forall₂_concat_left fit
    rw [Fits, sort] at isC
    exact always typeA typeB isC fitOwn
  · intro always a b c args typeA typeB typeC fit
    refine always typeA typeB (rel_append fit (.cons ?_ .nil))
    rw [Fits, sort]
    exact typeC

/-- The models are those that keep the laws. -/
theorem satisfies_iff_substLaws {axioms : List Formula} (stated : theory.substAxioms = .ok axioms)
    (formed : theory.WellFormed) : model.Satisfies axioms ↔ model.SubstLaws := by
  have genericTypes {t : Term} := isGeneric_iff (t := t) formed model.datatype isGenericTable_subst
  obtain ⟨ofClasses, done, rfl⟩ := map_ok stated
  rw [Satisfies, forall_mem_append, forall_mem_append, forall_mem_append, forall_mem_singleton,
    forall_mem_map, forall_mem_flatMap, forall_mem_flatMapM_iff done (ofClass_subst_iff formed),
    definition_iff]
  simp only [ofTypeVar_subst_iff]
  constructor
  · rintro ⟨⟨⟨ofClasses, related⟩, generic⟩, ofVariables⟩
    refine ⟨?_, ?_, fun typeA typeB typeT => related typeT typeA typeB, ?_⟩
    · rintro a b t r typeA typeB (⟨_, args, ⟨index, reachable, rfl⟩, fit, rfl⟩ | ⟨id, isVar, rfl⟩)
        typeR
      · exact (ofClasses index reachable).1 typeA typeB typeR fit
      · exact (ofVariables id isVar).1 typeA typeB typeR
    · rintro a b t r typeA typeB typeT
        (⟨_, args, ⟨index, reachable, rfl⟩, fit, rfl⟩ | ⟨id, isVar, rfl⟩)
      · exact (ofClasses index reachable).2 typeA typeB typeT fit
      · exact (ofVariables id isVar).2 typeA typeB typeT
    · intro a b t typeA typeB typeT isGeneric
      obtain ⟨vars, func, args, listed, fit, rfl⟩ := genericTypes.mp ⟨typeT, isGeneric⟩
      exact (ofGeneric_subst_iff listed).mp (generic _ listed) typeA typeB fit
  · intro laws
    refine ⟨⟨⟨fun index reachable => ⟨?_, ?_⟩, fun typeT typeA typeB =>
      laws.related typeA typeB typeT⟩, ?_⟩, fun id isVar => ⟨?_, ?_⟩⟩
    · intro a b r args typeA typeB typeR fit
      exact laws.forward typeA typeB (.inl ⟨_, args, ⟨index, reachable, rfl⟩, fit, rfl⟩) typeR
    · intro a b t args typeA typeB typeT fit
      exact laws.backward typeA typeB typeT (.inl ⟨_, args, ⟨index, reachable, rfl⟩, fit, rfl⟩)
    · rintro ⟨vars, func⟩ listed
      refine (ofGeneric_subst_iff listed).mpr ?_
      intro a b args typeA typeB fit
      obtain ⟨type, generic⟩ := genericTypes.mpr ⟨vars, func, args, listed, fit, rfl⟩
      exact laws.generic typeA typeB type generic
    · intro a b r typeA typeB typeR
      exact laws.forward typeA typeB (.inr ⟨id, isVar, rfl⟩) typeR
    · intro a b t typeA typeB typeT
      exact laws.backward typeA typeB typeT (.inr ⟨id, isVar, rfl⟩)

end Theory

end TypeInference
