/- What the terms and the bound variables of axioms stand for. -/

import Mathlib.Data.List.Range
import Std.Data.String.ToNat
import TypeInference.Proofs.StructuralSubtype
import TypeInference.Theory.SubtypeAxioms

namespace TypeInference

open List

variable {args : List Term} {whole : Term} {key : ClassKey} {name : String}

/-- The values of bound variables. -/
abbrev Assignment.values (assigned : Assignment) (vars : List Variable) : List Term :=
  vars.map fun v => assigned v.name

theorem TypeSort.apply_eq_ok {sort : TypeSort} (done : sort.apply name args = .ok whole) :
    whole = .con name args ∧ args ≠ [] := by
  unfold apply at done
  split at done
  · simp at done
  · simp at done
  · next some known =>
    split at done
    · next same =>
      refine ⟨(Except.ok.inj done).symm, ?_⟩
      rintro rfl
      exact some (length_eq_zero_iff.mp same)
    · simp at done

namespace ClassKey

variable {key : ClassKey} {sort : TypeSort}

theorem applied_eq (fit : args.length = key.accessors.length)
    (done : key.applied sort args = .ok whole) : whole = .con key.name args := by
  cases key with
  | plain name =>
    obtain rfl := length_eq_zero_iff.mp fit
    simp only [applied] at done
    split at done
    · simp at done
    · exact (Except.ok.inj done).symm
    · simp at done
  | generic name accessors => exact (TypeSort.apply_eq_ok done).1

theorem length_vars (key : ClassKey) : key.vars.length = key.accessors.length := by
  simp [vars]

theorem literal_eq (done : key.literal sort = .ok whole) :
    whole = .con key.name (key.vars.map (·.term)) := by
  unfold literal at done
  split at done
  · exact applied_eq (by simp [length_vars]) done
  · simp at done

/-- Only a class with type parameters can be applied to them. -/
theorem accessors_ne_nil {accessors : List String}
    (done : (generic name accessors).literal sort = .ok whole) : accessors ≠ [] := by
  rintro rfl
  unfold literal at done
  split at done
  · exact (TypeSort.apply_eq_ok done).2 rfl
  · simp at done

theorem argumentsOf_eq (done : key.argumentsOf sort whole = .ok args) :
    args = key.accessors.map fun accessor => .get accessor whole := by
  have each := mapM_eq_ok_iff.mp done
  rw [← forall₂_eq_eq_eq, forall₂_map_right_iff]
  refine (each.imp fun accessor arg is => ?_).flip
  unfold TypeSort.get at is
  split at is
  · exact (Except.ok.inj is).symm
  · simp at is

theorem literalOf_eq {result : Term} (done : key.literalOf sort whole = .ok result) :
    result = .con key.name (key.accessors.map fun accessor => .get accessor whole) := by
  unfold literalOf at done
  split at done
  · obtain ⟨args, found, done⟩ := bind_ok done
    obtain rfl := argumentsOf_eq found
    exact applied_eq (by simp) done
  · simp at done

theorem map_name_vars (key : ClassKey) : key.vars.map (·.name) =
    (List.range key.accessors.length).map fun index => "y" ++ toString index := by
  rw [vars, map_map, range_eq_range', ← zipIdx_map_snd 0 key.accessors, map_map]
  rfl

/-- Variables for arguments are told apart by their numbers, and by the first letter. -/
theorem nodup_append_vars (key : ClassKey) {front : List Variable}
    (distinct : (front.map (·.name)).Nodup)
    (letters : ∀ v ∈ front, v.name.toList.head? ≠ some 'y') :
    ((front ++ key.vars).map (·.name)).Nodup := by
  have injective : Function.Injective fun index : Nat => "y" ++ toString index := by
    intro first second same
    have digits : toString first = toString second := by simpa using same
    exact Nat.repr_injective digits
  rw [map_append, map_name_vars]
  refine distinct.append (nodup_range.map injective) ?_
  intro name inFront member
  obtain ⟨v, listed, rfl⟩ := mem_map.mp inFront
  obtain ⟨index, -, is⟩ := mem_map.mp member
  have letter := letters v listed
  simp [← is] at letter

theorem forall₂_vars_iff {theory : Theory} :
    Forall₂ theory.Fits key.vars args ↔
      theory.sort.AreArguments key.accessors args := by
  have shifted : ∀ (accessors : List String) (args : List Term) (start : Nat),
      Forall₂ theory.Fits
        ((accessors.zipIdx start).map fun entry => (⟨"y" ++ toString entry.2,
          if TypeSort.isCount entry.1 then .int else .type⟩ : Variable)) args ↔
      theory.sort.AreArguments accessors args := by
    intro accessors
    induction accessors with
    | nil =>
      intro args start
      cases args <;> simp [TypeSort.AreArguments]
    | cons accessor accessors ih =>
      intro args start
      cases args with
      | nil => simp [TypeSort.AreArguments]
      | cons arg args =>
        rw [zipIdx_cons, map_cons, forall₂_cons, ih, TypeSort.AreArguments]
        by_cases count : TypeSort.isCount accessor <;> simp [count, Theory.Fits, Theory.HasSort]
  exact shifted key.accessors args 0

end ClassKey

namespace Theory.SubtypeAxioms

/-- The bound variables of an axiom have names of their own. -/
theorem nodup_names (key : ClassKey) : ((x :: m :: key.vars).map (·.name)).Nodup := by
  have front : ([x, m].map (·.name)).Nodup := by decide
  exact key.nodup_append_vars front (by decide)

end Theory.SubtypeAxioms

namespace Interpretation

open Theory.SubtypeAxioms

variable {theory : Theory} {model : Interpretation theory} {first second : Formula}

theorem holds_either {assigned : Assignment} :
    model.holds (.or [first, second]) assigned ↔
      model.holds first assigned ∨ model.holds second assigned := by
  simp [holds_or]

theorem holds_both {assigned : Assignment} :
    model.holds (.and [first, second]) assigned ↔
      model.holds first assigned ∧ model.holds second assigned := by
  simp [holds_and]

theorem eval_term (assigned : Assignment) (v : Variable) :
    model.eval assigned v.term = assigned v.name := by
  rw [Variable.term, eval]

theorem map_eval_term (assigned : Assignment) (vars : List Variable) :
    (vars.map (·.term)).map (model.eval assigned) = assigned.values vars := by
  rw [map_map]
  exact map_congr_left fun v _ => eval_term assigned v

/-- An axiom says of all types, methods and arguments what its body says of their values. -/
theorem holds_axiom_iff {rest : List Variable} {body : Formula} {trigger : Option Trigger}
    {law : Term → Term → List Term → Prop} (distinct : ((x :: m :: rest).map (·.name)).Nodup)
    (means : ∀ {assigned : Assignment}, theory.sort.IsType (assigned x.name) →
      theory.IsMethod (assigned m.name) → Forall₂ theory.Fits rest (assigned.values rest) →
      (model.holds body assigned ↔
        law (assigned x.name) (assigned m.name) (assigned.values rest))) :
    (∀ assigned, model.holds (.all (x :: m :: rest) body trigger) assigned) ↔
      ∀ {t method args}, theory.sort.IsType t → theory.IsMethod method →
        Forall₂ theory.Fits rest args → law t method args := by
  have bound (assigned : Assignment) {t method : Term} {args : List Term}
      (type : theory.sort.IsType t) (isMethod : theory.IsMethod method)
      (fit : Forall₂ theory.Fits rest args) :
      model.holds body (assigned.bind (x :: m :: rest) (t :: method :: args)) ↔
        law t method args := by
    have values := assigned.map_bind distinct
      (show (x :: m :: rest).length = (t :: method :: args).length by simp [fit.length_eq])
    simp only [map_cons, List.cons.injEq] at values
    have here := @means (assigned.bind (x :: m :: rest) (t :: method :: args))
    simp only [Assignment.values, values] at here
    exact here type isMethod fit
  constructor
  · intro always t method args type isMethod fit
    have here := always fun _ => t
    exact (bound _ type isMethod fit).mp (here _ (.cons type (.cons isMethod fit)))
  · intro always assigned
    rintro _ (_ | ⟨type, _ | ⟨isMethod, fit⟩⟩)
    exact (bound assigned type isMethod fit).mpr (always type isMethod fit)

/-- An axiom about a type and a method only. -/
theorem holds_axiom_nil_iff {body : Formula} {trigger : Option Trigger} {law : Term → Term → Prop}
    (means : ∀ {assigned : Assignment}, theory.sort.IsType (assigned x.name) →
      theory.IsMethod (assigned m.name) →
      (model.holds body assigned ↔ law (assigned x.name) (assigned m.name))) :
    (∀ assigned, model.holds (.all [x, m] body trigger) assigned) ↔
      ∀ {t method}, theory.sort.IsType t → theory.IsMethod method → law t method := by
  rw [@holds_axiom_iff theory model [] body trigger (fun t method _ => law t method) (by decide)
    fun type isMethod _ => means type isMethod]
  exact ⟨fun always t method type isMethod => always type isMethod .nil,
    fun always t method args type isMethod _ => always type isMethod⟩

theorem eval_accessors (assigned : Assignment) (accessors : List String) (whole : Term) :
    (accessors.map fun accessor => Term.get accessor whole).map (model.eval assigned) =
      accessors.map fun accessor => model.select accessor (model.eval assigned whole) := by
  rw [map_map]
  refine map_congr_left fun accessor _ => ?_
  rw [Function.comp_apply, eval]

/-- A type is of a class when it is the class with what the accessors give. -/
theorem eq_con_select_iff (model : Interpretation theory) (formed : theory.WellFormed)
    (isClass : theory.IsClass key) {t : Term} (type : theory.sort.IsType t) :
    t = .con key.name (key.accessors.map fun accessor => model.select accessor t) ↔
      ∃ args, t = .con key.name args := by
  constructor
  · intro is
    exact ⟨_, is⟩
  · rintro ⟨args, rfl⟩
    have known := formed.declared_of_isClass isClass
    rw [model.select_con known ((model.datatype.arguments known).mp type)]

/-- A type of a class has the arguments that are selected. -/
theorem exists_con_iff (formed : theory.WellFormed) (isClass : theory.IsClass key) {t : Term}
    (type : theory.sort.IsType t) {related : List Term → Prop} :
    (∃ args, t = .con key.name args ∧ related args) ↔
      t = .con key.name (key.accessors.map fun accessor => model.select accessor t) ∧
        related (key.accessors.map fun accessor => model.select accessor t) := by
  constructor
  · rintro ⟨args, is, holds⟩
    have whole := (eq_con_select_iff model formed isClass type).mpr ⟨args, is⟩
    exact ⟨whole, (Term.con.inj (is.symm.trans whole)).2 ▸ holds⟩
  · rintro ⟨whole, holds⟩
    exact ⟨_, whole, holds⟩

theorem exists_ends {values : List Term} {count : Nat} (size : values.length = count + 2) :
    ∃ first middle last, values = first :: (middle ++ [last]) ∧ middle.length = count := by
  cases values with
  | nil => simp at size
  | cons first rest =>
    rcases eq_nil_or_concat' rest with rfl | ⟨middle, last, rfl⟩
    · simp at size
    · exact ⟨first, middle, last, rfl, by simpa using size⟩

/-- Components vary as the rules of structural subtyping say. -/
theorem holds_variance_iff {bases : List String} (kind : Survey.IsSortClass key bases)
    (varying : (key.isTuple || key.isFunction)) {below : Term → Term → Formula}
    {related : Term → Term → Prop} {assigned : Assignment}
    (means : ∀ a b, model.holds (below a b) assigned ↔
      related (model.eval assigned a) (model.eval assigned b)) {own others : List Term}
    (ofOwn : own.length = key.accessors.length) (ofOthers : others.length = key.accessors.length) :
    (∀ part ∈ variance key below own others, model.holds part assigned) ↔
      Varies related key.name (own.map (model.eval assigned))
        (others.map (model.eval assigned)) := by
  have componentwise {own others : List Term} (same : own.length = others.length) :
      (∀ part ∈ List.zipWith below own others, model.holds part assigned) ↔
        Forall₂ related (own.map (model.eval assigned))
          (others.map (model.eval assigned)) := by
    rw [forall_zipWith_iff same, forall₂_map_left_iff, forall₂_map_right_iff]
    simp only [means]
  by_cases tuple : key.isTuple = true
  · obtain ⟨length, rfl⟩ := kind.eq_of_isTuple tuple
    rw [variance, if_pos tuple, componentwise (ofOwn.trans ofOthers.symm), Survey.tupleClass_name,
      Varies.tuple_iff]
  · have function : key.isFunction = true := by simpa [tuple] using varying
    obtain ⟨count, rfl⟩ := kind.eq_of_isFunction function
    have size : (Survey.functionClass count).1.accessors.length = count + 2 := by
      simp [Survey.functionClass, ClassKey.accessors, Survey.argumentNames]
    obtain ⟨first, own, result, rfl, ownSize⟩ := exists_ends (ofOwn.trans size)
    obtain ⟨other, others, otherResult, rfl, othersSize⟩ := exists_ends (ofOthers.trans size)
    have parts : variance (Survey.functionClass count).1 below (first :: (own ++ [result]))
        (other :: (others ++ [otherResult])) =
        List.zipWith (fun own other => below other own) own others ++
          [below result otherResult] := by
      rw [variance, if_neg tuple]
      simp
    rw [parts, forall_mem_append, forall_mem_singleton,
      forall_zipWith_iff (ownSize.trans othersSize.symm)]
    simp only [means, map_cons, map_append, map_nil]
    rw [Survey.functionClass_name, Varies.function_iff, forall₂_map_left_iff, forall₂_map_right_iff]

end Interpretation

end TypeInference
