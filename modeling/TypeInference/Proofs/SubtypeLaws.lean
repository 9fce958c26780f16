/- The axioms of the subtype relation as laws about types. -/

import TypeInference.Proofs.AxiomTerms

namespace TypeInference

open List ClassGraph ClassKey TypeSort Term

namespace Theory

/-- Whether a type variable is in scope of a method. -/
def InScope (theory : Theory) (method : Term) (id : String) : Prop :=
  ∃ name ∈ theory.scope id, method = .method name

/-- The types of the classes in the tree. -/
def IsClassType (theory : Theory) (t : Term) : Prop :=
  ∃ key args, theory.IsClass key ∧ theory.sort.AreArguments key.accessors args ∧
    t = .con key.name args

end Theory

namespace Interpretation

variable {theory : Theory} (model : Interpretation theory)

/-- One step of structural subtyping, outside all methods inside. -/
def Step : Term → Term → Prop :=
  StructuralStep theory.survey.allClasses theory.settings.noneBelowAll (model.subtype noMethod)

/-- What is above and below the types of a class. -/
@[mk_iff]
structure ClassLaws (key : ClassKey) : Prop where
  /-- Above a class is what structural subtyping puts there. -/
  up : ¬ (theory.settings.noneBelowAll = true ∧ key = .plain "none") →
    ∀ {t method args}, theory.sort.IsType t → theory.IsMethod method →
      theory.sort.AreArguments key.accessors args →
      (model.subtype method (.con key.name args) t ↔ model.Step (.con key.name args) t)
  /-- Below a class are also variables with a bound below it. -/
  down : ∀ {s method args}, theory.sort.IsType s → theory.IsMethod method →
    theory.sort.AreArguments key.accessors args →
    (model.subtype method s (.con key.name args) ↔ model.Step s (.con key.name args) ∨
      ∃ id ∈ theory.typeVars, theory.InScope method id ∧ s = .typeVar id ∧
        model.subtype method (model.upper (.typeVar id)) (.con key.name args))

/-- What is above and below a type variable. -/
@[mk_iff]
structure VariableLaws (id : String) : Prop where
  /-- Below a type variable are itself, none and what it bounds. -/
  below : ∀ {s method}, theory.sort.IsType s → theory.IsMethod method →
    (model.subtype method s (.typeVar id) ↔
      (theory.InScope method id ∧ (s = .typeVar id ∨ s = .none)) ∨
      ∃ other ∈ theory.typeVars, other ≠ id ∧ theory.InScope method id ∧
        theory.InScope method other ∧ s = .typeVar other ∧
        model.upper (.typeVar other) = .typeVar id)
  /-- Above a type variable are itself and what is above its bound. -/
  above : ∀ {t method}, theory.sort.IsType t → theory.IsMethod method →
    (model.subtype method (.typeVar id) t ↔ theory.InScope method id ∧
      (t = .typeVar id ∨ model.subtype method (model.upper (.typeVar id)) t))

/-- What the axioms of the subtype relation say of a model. -/
@[mk_iff]
structure SubtypeLaws : Prop where
  ofClass : ∀ {key}, theory.IsClass key → model.ClassLaws key
  ofVariable : ∀ {id}, id ∈ theory.typeVars → model.VariableLaws id
  generic : ∀ {s t method}, theory.sort.IsType s → theory.sort.IsType t →
    theory.IsMethod method → s.IsGeneric ∨ t.IsGeneric → (model.subtype method s t ↔ s = t)

end Interpretation

namespace Theory

open SubtypeAxioms Interpretation

variable {theory : Theory} {t : Term} {id : String} {table : List (List Variable × Variable)}
  {index : Nat} {formula : Formula} {model : Interpretation theory} {assigned : Assignment}
  {method : Term} {args : List Term} {key : ClassKey}

/-- The options hold when an element gives one. -/
theorem holdsAny_mapM (model : Interpretation theory) (assigned : Assignment) (option : Nat → Prop)
    {indices : List Nat} {parts : List Formula} {make : Nat → Except Fault Formula}
    (done : indices.mapM make = .ok parts)
    (means : ∀ {index part}, make index = .ok part → (model.holds part assigned ↔ option index)) :
    (∃ part ∈ parts, model.holds part assigned) ↔ ∃ index ∈ indices, option index := by
  constructor
  · rintro ⟨part, member, truth⟩
    obtain ⟨index, listed, is⟩ := (mem_mapM_iff done part).mp member
    exact ⟨index, listed, (means is).mp truth⟩
  · rintro ⟨index, listed, holds⟩
    obtain ⟨part, is⟩ := exists_of_mapM done listed
    exact ⟨part, (mem_mapM_iff done part).mpr ⟨index, listed, is⟩, (means is).mpr holds⟩

/-- The types that a class is below. -/
theorem holds_bases (formed : theory.WellFormed) (inside : index < theory.graph.size)
    {bases : List Formula} (done : (theory.graph.above index).mapM (fun base => do
      pure (Formula.eq x.term (← (theory.graph.key base).literal theory.sort))) = .ok bases) :
    (∃ part ∈ bases, model.holds part assigned) ↔
      assigned x.name = .con (theory.graph.key index).name
        (assigned.values (theory.graph.key index).vars) ∨ ∃ name,
        theory.survey.allClasses.HasProperAncestor (theory.graph.key index) (.plain name) ∧
        assigned x.name = .con name [] := by
  have option {base : Nat} {part : Formula} (is : (do
      pure (Formula.eq x.term (← (theory.graph.key base).literal theory.sort))) = .ok part) :
      model.holds part assigned ↔ assigned x.name = .con (theory.graph.key base).name
        (assigned.values (theory.graph.key base).vars) := by
    obtain ⟨literal, isLiteral, rfl⟩ := map_ok is
    obtain rfl := literal_eq isLiteral
    rw [holds_eq, eval_term, eval_con, map_eval_term]
  rw [holdsAny_mapM model assigned _ done option]
  constructor
  · rintro ⟨base, above, is⟩
    obtain ⟨-, ancestor⟩ := (mem_above_iff formed.tree formed.distinct inside).mp above
    rcases ClassTable.hasAncestor_iff.mp ancestor with same | proper
    · exact .inl (same ▸ is)
    · obtain ⟨name, plain⟩ := proper.eq_plain
      rw [plain] at is proper
      exact .inr ⟨name, proper, is⟩
  · rintro (is | ⟨name, proper, is⟩)
    · exact ⟨index, (mem_above_iff formed.tree formed.distinct inside).mpr ⟨inside, .refl⟩, is⟩
    · obtain ⟨base, reachable, plain⟩ := (formed.isClass_of_properAncestor proper).2
      refine ⟨base, (mem_above_iff formed.tree formed.distinct inside).mpr
        ⟨formed.lt_size reachable, ?_⟩, ?_⟩
      · rw [plain]
        exact ClassTable.hasAncestor_iff.mpr (.inr proper)
      · rw [plain]
        exact is

/-- How an axiom relates components in a direction. -/
def componentsBelow (upwards : Bool) (first second : Term) : Formula :=
  if upwards then .subtype noMethod first second else .subtype noMethod second first

/-- How a model relates components in a direction. -/
def relatesComponents (model : Interpretation theory) (upwards : Bool) (first second : Term) :
    Prop :=
  if upwards then model.subtype noMethod first second
  else model.subtype noMethod second first

/-- The types of the same class with components that vary. -/
theorem holds_sameClass (formed : theory.WellFormed) (isClass : theory.IsClass key)
    {upwards : Bool} {same : List Formula} (done : sameClass theory key upwards = .ok same)
    (type : theory.sort.IsType (assigned x.name)) :
    (∃ part ∈ same, model.holds part assigned) ↔
      (key.isTuple || key.isFunction) ∧ ∃ others, assigned x.name = .con key.name others ∧
        Varies (relatesComponents model upwards) key.name (assigned.values key.vars) others := by
  unfold sameClass at done
  by_cases varying : (key.isTuple || key.isFunction) = true
  · rw [if_pos varying] at done
    obtain ⟨others, isOthers, done⟩ := bind_ok done
    obtain ⟨whole, isWhole, done⟩ := bind_ok done
    obtain rfl := argumentsOf_eq isOthers
    obtain rfl := applied_eq (by simp) isWhole
    obtain rfl := pure_ok done
    have notRoot : key ≠ .plain "object" := by
      rintro rfl
      simp [ClassKey.isTuple, ClassKey.isFunction] at varying
    obtain ⟨bases, kind⟩ := formed.isSortClass (formed.mem_sortClasses isClass) notRoot
    have means (a b : Term) : model.holds (componentsBelow upwards a b) assigned ↔
        relatesComponents model upwards (model.eval assigned a) (model.eval assigned b) := by
      cases upwards <;> rfl
    have components : (∀ part ∈ variance key (componentsBelow upwards) (key.vars.map (·.term))
        (key.accessors.map fun accessor => .get accessor x.term), model.holds part assigned) ↔ _ :=
      holds_variance_iff kind varying means (by simp [length_vars]) (by simp)
    rw [map_eval_term, eval_accessors] at components
    simp only [mem_singleton, exists_eq_left, holds_and, forall_mem_cons, holds_eq,
      eval_term, eval_con, eval_accessors, varying, true_and]
    rw [exists_con_iff formed isClass type]
    exact and_congr_right fun _ => components
  · rw [if_neg varying] at done
    obtain rfl := pure_ok done
    simp [varying]

/-- What varies is a tuple or a function, or bare. -/
theorem varying_of_varies (formed : theory.WellFormed) (isClass : theory.IsClass key)
    {related : Term → Term → Prop} {own others : List Term}
    (varies : Varies related key.name own others) :
    (key.isTuple || key.isFunction) ∨ key.accessors = [] := by
  have notRoot : key ≠ .plain "object" := by
    rintro rfl
    exact absurd varies.name_take (by decide)
  obtain ⟨bases, kind⟩ := formed.isSortClass (formed.mem_sortClasses isClass) notRoot
  rcases (varies_iff _ _ _ _).mp varies with ⟨_, -, named⟩ | ⟨_, _, _, _, _, _, _, -, -, named, -⟩
  · rcases kind.eq_tuple (by simp [named]) with rfl | ⟨length, rfl⟩
    · exact .inr rfl
    · exact (Survey.tupleClass_isTuple length).imp_left fun tuple => by simp [tuple]
  · obtain ⟨args, rfl⟩ := kind.eq_function (by simp [named])
    have function : (Survey.functionClass args).1.isFunction = true :=
      isFunction_generic.mpr (by simp)
    simp [function]

/-- The rules of subtyping, for what is above a class. -/
theorem step_up_iff (clear : theory.Unambiguous) (isClass : theory.IsClass key)
    (fit : theory.sort.AreArguments key.accessors args)
    (notNone : ¬ (theory.settings.noneBelowAll ∧ con key.name args = .none)) :
    model.Step (.con key.name args) t ↔
      ((key.isTuple || key.isFunction) ∧ ∃ others, t = .con key.name others ∧
        Varies (relatesComponents model true) key.name args others) ∨
      t = .con key.name args ∨
      ∃ name, theory.survey.allClasses.HasProperAncestor key (.plain name) ∧ t = .con name [] := by
  constructor
  · intro step
    rcases (structuralStep_iff _ _ _ _ _).mp step with
      same | ⟨on, -, isNone⟩ | ⟨other, name, _, above, is, isTop⟩ |
      ⟨_, _, others, varies, is, isOther⟩
    · exact .inr (.inl same)
    · exact absurd ⟨on, isNone⟩ notNone
    · have equal := clear.unique isClass (clear.isClass_of_properAncestor above).1
        (con.inj is).1
      exact .inr (.inr ⟨name, equal ▸ above, isTop⟩)
    · obtain ⟨rfl, rfl⟩ := con.inj is
      rcases varying_of_varies clear.toWellFormed isClass varies with varying | none
      · exact .inl ⟨varying, others, isOther, varies⟩
      · obtain rfl : args = [] := length_eq_zero_iff.mp (by simp [← fit.length_eq, none])
        rw [varies.eq_nil] at isOther
        exact .inr (.inl isOther)
  · rintro (⟨-, others, rfl, varies⟩ | rfl | ⟨name, above, rfl⟩)
    · exact .varies varies
    · exact .refl _
    · exact .ancestor args above

/-- The axiom for what is above a class. -/
theorem upward_iff (clear : theory.Unambiguous) (reachable : index ∈ theory.graph.reachable)
    (done : upward theory index = .ok formula)
    (notNone : ¬ (theory.settings.noneBelowAll ∧ theory.graph.key index = .plain "none")) :
    (∀ assigned, model.holds formula assigned) ↔
      ∀ {t method args}, theory.sort.IsType t → theory.IsMethod method →
        theory.sort.AreArguments (theory.graph.key index).accessors args →
        (model.subtype method (.con (theory.graph.key index).name args) t ↔
          model.Step (.con (theory.graph.key index).name args) t) := by
  obtain ⟨literal, isLiteral, done⟩ := bind_ok done
  obtain ⟨same, isSame, done⟩ := bind_ok done
  obtain ⟨bases, isBases, rfl⟩ := map_ok done
  obtain rfl := literal_eq isLiteral
  have isClass : theory.IsClass (theory.graph.key index) := ⟨index, reachable, rfl⟩
  have inside := clear.lt_size reachable
  simp only [← forall₂_vars_iff]
  refine holds_axiom_iff (nodup_names _) ?_
  intro assigned type isMethod fit
  have notNoneType {args : List Term} : ¬ (theory.settings.noneBelowAll = true ∧
      con (theory.graph.key index).name args = .none) := by
    rintro ⟨on, isNone⟩
    exact notNone ⟨on, clear.unique isClass clear.isClass_none (con.inj isNone).1⟩
  refine holds_iff.trans (iff_congr (holds_subtype.trans ?_) ?_)
  · rw [eval_term, eval_con, map_eval_term, eval_term]
  · simp only [holds_or, mem_append, or_and_right, exists_or]
    rw [holds_sameClass clear.toWellFormed isClass isSame type,
      holds_bases clear.toWellFormed inside isBases,
      step_up_iff clear isClass (forall₂_vars_iff.mp fit) notNoneType]

/-- The types that are below a class. -/
theorem holds_subclasses (formed : theory.WellFormed) (inside : index < theory.graph.size)
    {literal : Term} {subclasses : List Formula}
    (done : (theory.graph.below index).mapM (fun sub => do
      if sub == index then pure (Formula.eq x.term literal)
      else pure (.eq x.term (← (theory.graph.key sub).literalOf theory.sort x.term)))
      = .ok subclasses) (type : theory.sort.IsType (assigned x.name))
    (isLiteral : model.eval assigned literal = .con (theory.graph.key index).name args) :
    (∃ part ∈ subclasses, model.holds part assigned) ↔
      assigned x.name = .con (theory.graph.key index).name args ∨ ∃ sub own,
        theory.survey.allClasses.HasProperAncestor sub (theory.graph.key index) ∧
        assigned x.name = .con sub.name own := by
  have option {sub : Nat} {part : Formula} (is : (do
      if sub == index then pure (Formula.eq x.term literal)
      else pure (.eq x.term (← (theory.graph.key sub).literalOf theory.sort x.term))) = .ok part) :
      model.holds part assigned ↔ assigned x.name =
        if sub = index then .con (theory.graph.key index).name args
        else .con (theory.graph.key sub).name ((theory.graph.key sub).accessors.map
          fun accessor => model.select accessor (assigned x.name)) := by
    by_cases same : sub = index
    · rw [if_pos (beq_iff_eq.mpr same)] at is
      obtain rfl := pure_ok is
      rw [if_pos same, holds_eq, eval_term, isLiteral]
    · rw [if_neg (mt beq_iff_eq.mp same)] at is
      obtain ⟨literal, isLiteral, rfl⟩ := map_ok is
      obtain rfl := literalOf_eq isLiteral
      rw [if_neg same, holds_eq, eval_con, eval_accessors, eval_term]
  rw [holdsAny_mapM model assigned _ done option]
  constructor
  · rintro ⟨sub, below, is⟩
    by_cases same : sub = index
    · rw [if_pos same] at is
      exact .inl is
    · rw [if_neg same] at is
      have subInside := formed.sound.lt_size_of_below inside below
      have above := (formed.sound.mem_below_iff subInside).mp below
      have ancestor := ((mem_above_iff formed.tree formed.distinct subInside).mp above).2
      rcases ClassTable.hasAncestor_iff.mp ancestor with equal | proper
      · exact absurd (key_injective formed.tree formed.distinct subInside inside equal.symm) same
      · exact .inr ⟨_, _, proper, is⟩
  · rintro (is | ⟨sub, own, proper, is⟩)
    · refine ⟨index, (formed.sound.mem_below_iff inside).mpr ?_, by rwa [if_pos rfl]⟩
      exact (mem_above_iff formed.tree formed.distinct inside).mpr ⟨inside, .refl⟩
    · have isClass := (formed.isClass_of_properAncestor proper).1
      obtain ⟨subIndex, reachable, rfl⟩ := isClass
      have subInside := formed.lt_size reachable
      have different : subIndex ≠ index := by
        rintro rfl
        exact formed.not_properAncestor_self _ proper
      refine ⟨subIndex, (formed.sound.mem_below_iff subInside).mpr ?_, ?_⟩
      · exact (mem_above_iff formed.tree formed.distinct subInside).mpr
          ⟨inside, ClassTable.hasAncestor_iff.mpr (.inr proper)⟩
      · rw [if_neg different]
        exact (eq_con_select_iff model formed ⟨subIndex, reachable, rfl⟩ type).mpr ⟨own, is⟩

/-- The rules of subtyping, for what is below a class. -/
theorem step_down_iff (clear : theory.Unambiguous) (isClass : theory.IsClass key)
    (fit : theory.sort.AreArguments key.accessors args) {s : Term} :
    model.Step s (.con key.name args) ↔
      (theory.settings.noneBelowAll ∧ s = .none) ∨
      ((key.isTuple || key.isFunction) ∧ ∃ own, s = .con key.name own ∧
        Varies (relatesComponents model false) key.name args own) ∨
      s = .con key.name args ∨
      ∃ sub own, theory.survey.allClasses.HasProperAncestor sub key ∧ s = .con sub.name own := by
  constructor
  · intro step
    rcases (structuralStep_iff _ _ _ _ _).mp step with
      same | ⟨on, -, isNone⟩ | ⟨sub, name, own, above, is, isTop⟩ | ⟨_, own, _, varies, is, isOther⟩
    · exact .inr (.inr (.inl same.symm))
    · exact .inl ⟨on, isNone⟩
    · have equal := clear.unique isClass (clear.isClass_of_properAncestor above).2
        (con.inj isTop).1
      exact .inr (.inr (.inr ⟨sub, own, equal ▸ above, is⟩))
    · obtain ⟨rfl, rfl⟩ := con.inj isOther
      rcases varying_of_varies clear.toWellFormed isClass varies with varying | none
      · exact .inr (.inl ⟨varying, own, is, varies.flip⟩)
      · obtain rfl : args = [] := length_eq_zero_iff.mp (by simp [← fit.length_eq, none])
        rw [varies.flip.eq_nil] at is
        exact .inr (.inr (.inl is))
  · rintro (⟨on, rfl⟩ | ⟨-, own, rfl, varies⟩ | rfl | ⟨sub, own, above, rfl⟩)
    · exact .none on (clear.not_generic (clear.mem_sortClasses isClass) args)
    · exact .varies varies.flip
    · exact .refl _
    · obtain ⟨name, rfl⟩ := above.eq_plain
      obtain rfl : args = [] := length_eq_zero_iff.mp fit.length_eq.symm
      exact .ancestor own above

theorem holds_inScope : model.holds (.or (inScope theory id)) assigned ↔
    theory.InScope (assigned m.name) id := by
  simp only [holds_or, inScope, mem_map, exists_exists_and_eq_and, holds_eq, eval_term,
    eval_methodConstant]
  rfl

/-- The axiom for what is below a class. -/
theorem downward_iff (clear : theory.Unambiguous) (reachable : index ∈ theory.graph.reachable)
    (done : downward theory index = .ok formula) :
    (∀ assigned, model.holds formula assigned) ↔
      ∀ {s method args}, theory.sort.IsType s → theory.IsMethod method →
        theory.sort.AreArguments (theory.graph.key index).accessors args →
        (model.subtype method s (.con (theory.graph.key index).name args) ↔
          model.Step s (.con (theory.graph.key index).name args) ∨
          ∃ id ∈ theory.typeVars, theory.InScope method id ∧ s = .typeVar id ∧
            model.subtype method (model.upper (.typeVar id))
              (.con (theory.graph.key index).name args)) := by
  obtain ⟨literal, isLiteral, done⟩ := bind_ok done
  obtain ⟨same, isSame, done⟩ := bind_ok done
  obtain ⟨subclasses, isSubclasses, rfl⟩ := map_ok done
  have isClass : theory.IsClass (theory.graph.key index) := ⟨index, reachable, rfl⟩
  have inside := clear.lt_size reachable
  simp only [← forall₂_vars_iff]
  refine holds_axiom_iff (nodup_names _) ?_
  intro assigned type isMethod fit
  have eval : model.eval assigned literal = .con (theory.graph.key index).name
      (assigned.values (theory.graph.key index).vars) := by
    rw [literal_eq isLiteral, eval_con, map_eval_term]
  have none : (∃ part ∈ (if theory.settings.noneBelowAll then [Formula.eq x.term none] else []),
      model.holds part assigned) ↔
      theory.settings.noneBelowAll = true ∧ assigned x.name = .none := by
    by_cases on : theory.settings.noneBelowAll = true
    · simp [on, holds_eq, eval_term]
    · simp [on]
  have typeVars : (∃ part ∈ theory.typeVars.map (fun id => Formula.and
      [.or (inScope theory id), .eq x.term (.typeVar id),
        .subtype m.term (.upper (.typeVar id)) literal]), model.holds part assigned) ↔
      ∃ id ∈ theory.typeVars, theory.InScope (assigned m.name) id ∧
        assigned x.name = .typeVar id ∧ model.subtype (assigned m.name)
          (model.upper (.typeVar id)) (model.eval assigned literal) := by
    simp [holds_and, holds_inScope, holds_eq, holds_subtype, eval_term]
  refine holds_iff.trans (iff_congr (holds_subtype.trans ?_) ?_)
  · rw [eval_term, eval_term, eval]
  rw [step_down_iff clear isClass (forall₂_vars_iff.mp fit), holds_or]
  simp only [mem_append, or_and_right, exists_or]
  rw [none, typeVars, eval, holds_sameClass clear.toWellFormed isClass isSame type,
    holds_subclasses clear.toWellFormed inside isSubclasses type eval]
  simp only [or_assoc]

/-- The methods with both type variables in scope. -/
theorem exists_shared_iff {other : String} :
    (∃ name ∈ (theory.scope other).eraseDups.filter (theory.scope id).contains,
        method = .method name) ↔ theory.InScope method id ∧ theory.InScope method other := by
  simp only [mem_filter, mem_eraseDups, contains_iff_mem]
  constructor
  · rintro ⟨name, ⟨ofOther, ofId⟩, is⟩
    exact ⟨⟨name, ofId, is⟩, ⟨name, ofOther, is⟩⟩
  · rintro ⟨⟨name, ofId, is⟩, ⟨same, ofOther, alsoIs⟩⟩
    obtain rfl := Term.method.inj (is.symm.trans alsoIs)
    exact ⟨name, ⟨ofOther, ofId⟩, is⟩

/-- The type variables that another one bounds in a method. -/
theorem holds_bounded :
    (∃ part ∈ (theory.typeVars.filter (· != id)).filterMap (fun other =>
        let shared := (theory.scope other).eraseDups.filter (theory.scope id).contains
        if shared.isEmpty then none
        else some (Formula.and
          [.or (shared.map fun name => .eq m.term (.method name)), .eq x.term (.typeVar other),
           .eq (.upper (.typeVar other)) (.typeVar id)])), model.holds part assigned) ↔
      ∃ other ∈ theory.typeVars, other ≠ id ∧ theory.InScope (assigned m.name) id ∧
        theory.InScope (assigned m.name) other ∧ assigned x.name = .typeVar other ∧
        model.upper (.typeVar other) = .typeVar id := by
  have option (other : String) : model.holds (.and
      [.or (((theory.scope other).eraseDups.filter (theory.scope id).contains).map
        fun name => .eq m.term (.method name)), .eq x.term (.typeVar other),
       .eq (.upper (.typeVar other)) (.typeVar id)]) assigned ↔
      theory.InScope (assigned m.name) id ∧ theory.InScope (assigned m.name) other ∧
        assigned x.name = .typeVar other ∧
        model.upper (.typeVar other) = .typeVar id := by
    rw [← and_assoc, ← exists_shared_iff]
    simp [holds_and, holds_or, holds_eq, eval_term]
  constructor
  · rintro ⟨part, member, truth⟩
    obtain ⟨other, listed, is⟩ := mem_filterMap.mp member
    obtain ⟨isVar, different⟩ := mem_filter.mp listed
    obtain ⟨-, is⟩ := Option.ite_none_left_eq_some.mp is
    obtain rfl := Option.some.inj is
    exact ⟨other, isVar, bne_iff_ne.mp different, (option other).mp truth⟩
  · rintro ⟨other, isVar, different, related⟩
    obtain ⟨name, shared, -⟩ := exists_shared_iff.mpr ⟨related.1, related.2.1⟩
    refine ⟨_, mem_filterMap.mpr ⟨other, mem_filter.mpr
      ⟨isVar, bne_iff_ne.mpr different⟩, if_neg ?_⟩, (option other).mpr related⟩
    intro none
    rw [List.isEmpty_iff.mp none] at shared
    exact absurd shared not_mem_nil

/-- The axioms for a type variable. -/
theorem ofTypeVar_iff :
    (∀ formula ∈ ofTypeVar theory id, ∀ assigned, model.holds formula assigned) ↔
      model.VariableLaws id := by
  rw [ofTypeVar, forall_mem_cons, forall_mem_singleton, variableLaws_iff]
  refine and_congr ?_ ?_
  · refine holds_axiom_nil_iff fun {assigned} type isMethod => ?_
    refine holds_iff.trans (iff_congr (holds_subtype.trans ?_) ?_)
    · rw [eval_term, eval_term, eval_typeVar]
    · rw [holds_or, ← holds_bounded]
      simp only [mem_append, or_and_right, exists_or]
      refine or_congr_left ?_
      simp [holds_and, holds_inScope, holds_eq, eval_term, and_or_left]
  · refine holds_axiom_nil_iff fun {assigned} type isMethod => ?_
    refine holds_iff.trans (iff_congr (holds_subtype.trans ?_) ?_)
    · rw [eval_term, eval_term, eval_typeVar]
    · rw [holds_both, holds_inScope, holds_either, holds_eq, holds_subtype, eval_term, eval_term,
        eval_upper, eval_typeVar]

/-- The variables for the parts of generic types, for each constructor. -/
structure IsGenericTable (table : List (List Variable × Variable)) : Prop where
  types : ∀ entry ∈ table, ∀ v ∈ entry.1 ++ [entry.2], v.sort = .type
  shapes : table.map (fun entry => ("generic" ++ toString entry.1.length, entry.1.length + 1)) =
    genericConstructors.map fun entry => (entry.1, entry.2.length)

theorem isGenericTable_subtype : IsGenericTable genericVariables := ⟨by decide, by decide⟩

variable {vars : List Variable} {func : Variable}

/-- The variables of a generic type stand for types. -/
theorem IsGenericTable.forall₂_iff (isTable : IsGenericTable table)
    (member : (vars, func) ∈ table) :
    Forall₂ theory.Fits (vars ++ [func]) args ↔
      vars.length + 1 = args.length ∧ ∀ arg ∈ args, theory.sort.IsType arg := by
  rw [forall₂_iff_forall fun v listed value => by
    rw [Fits, isTable.types _ member v listed, HasSort]]
  simp

/-- The arguments of a generic type are types. -/
theorem isType_generic_iff (formed : theory.WellFormed) (datatype : theory.sort.IsDatatype)
    {name : String} {accessors : List String}
    (member : (name, accessors) ∈ genericConstructors) :
    theory.sort.IsType (.con name args) ↔
      accessors.length = args.length ∧ ∀ arg ∈ args, theory.sort.IsType arg := by
  have noCounts : ∀ entry ∈ genericConstructors, ∀ accessor ∈ entry.2,
      isCount accessor = false := by decide +kernel
  have known : (name, accessors) ∈ theory.sort.declared := formed.declared.mpr (.inr (.inr member))
  rw [datatype.arguments known, areArguments_iff]
  refine forall₂_iff_forall fun accessor listed arg => ?_
  simp [TypeSort.IsArgument, noCounts _ member accessor listed]

/-- The generic types are those that the axioms are about. -/
theorem isGeneric_iff (formed : theory.WellFormed) (datatype : theory.sort.IsDatatype)
    (isTable : IsGenericTable table) :
    theory.sort.IsType t ∧ t.IsGeneric ↔ ∃ vars func args, (vars, func) ∈ table ∧
      Forall₂ theory.Fits (vars ++ [func]) args ∧
      t = .con ("generic" ++ toString vars.length) args := by
  constructor
  · rintro ⟨type, generic⟩
    obtain ⟨name, args, rfl⟩ := type.exists_con
    obtain ⟨⟨name, accessors⟩, member, rfl⟩ := mem_map.mp generic
    have shape : (name, accessors.length) ∈ genericConstructors.map
        fun entry => (entry.1, entry.2.length) :=
      mem_map.mpr ⟨(name, accessors), member, rfl⟩
    rw [← isTable.shapes] at shape
    obtain ⟨⟨vars, func⟩, listed, is⟩ := mem_map.mp shape
    obtain ⟨named, size⟩ := Prod.ext_iff.mp is
    obtain ⟨length, types⟩ := (isType_generic_iff formed datatype member).mp type
    exact ⟨vars, func, args, listed, (isTable.forall₂_iff listed).mpr
      ⟨size.trans length, types⟩, congrArg (con · args) named.symm⟩
  · rintro ⟨vars, func, args, listed, fit, rfl⟩
    have shape : ("generic" ++ toString vars.length, vars.length + 1) ∈
        genericConstructors.map fun entry => (entry.1, entry.2.length) :=
      isTable.shapes ▸ mem_map.mpr ⟨(vars, func), listed, rfl⟩
    obtain ⟨⟨name, accessors⟩, member, is⟩ := mem_map.mp shape
    obtain ⟨rfl, size⟩ := Prod.ext_iff.mp is
    obtain ⟨length, types⟩ := (isTable.forall₂_iff listed).mp fit
    exact ⟨(isType_generic_iff formed datatype member).mpr ⟨size.trans length, types⟩,
      mem_map_of_mem member⟩

/-- The axioms for a generic type. -/
theorem ofGeneric_iff (member : (vars, func) ∈ genericVariables) :
    (∀ formula ∈ ofGeneric vars func, ∀ assigned, model.holds formula assigned) ↔
      (∀ {t method args}, theory.sort.IsType t → theory.IsMethod method →
        Forall₂ theory.Fits (vars ++ [func]) args →
        (model.subtype method (.con ("generic" ++ toString vars.length) args) t ↔
          t = .con ("generic" ++ toString vars.length) args)) ∧
      ∀ {s method args}, theory.sort.IsType s → theory.IsMethod method →
        Forall₂ theory.Fits (vars ++ [func]) args →
        (model.subtype method s (.con ("generic" ++ toString vars.length) args) ↔
          s = .con ("generic" ++ toString vars.length) args) := by
  have distinct : ∀ entry ∈ genericVariables,
      ((x :: m :: (entry.1 ++ [entry.2])).map (·.name)).Nodup := by decide
  have literal : genericLiteral vars func =
      .con ("generic" ++ toString vars.length) ((vars ++ [func]).map (·.term)) := by
    rw [map_append]
    rfl
  rw [ofGeneric, forall_mem_cons, forall_mem_singleton, literal]
  refine and_congr ?_ ?_
  all_goals
    refine holds_axiom_iff (distinct _ member) ?_
    intro assigned type isMethod fit
    refine holds_iff.trans (iff_congr (holds_subtype.trans ?_) (holds_eq.trans ?_))
    · rw [eval_term, eval_con, map_eval_term, eval_term]
    · rw [eval_con, map_eval_term, eval_term]

section Stated

variable {axioms part : List Formula} (stated : theory.subtypeAxioms = .ok axioms)
include stated

theorem exists_ofClass (reachable : index ∈ theory.graph.reachable) :
    ∃ part, ofClass theory index = .ok part := by
  obtain ⟨ofClasses, done, -⟩ := bind_ok stated
  exact exists_of_flatMapM done reachable

omit stated in
/-- A class has an axiom for what is below it, and one for what is above it unless it is none. -/
theorem ofClass_eq_ok (done : ofClass theory index = .ok part) :
    ∃ down, downward theory index = .ok down ∧
      if theory.settings.noneBelowAll ∧ theory.graph.key index = .plain "none" then
        part = [down]
      else ∃ up, upward theory index = .ok up ∧ part = [up, down] := by
  unfold ofClass at done
  by_cases none : theory.settings.noneBelowAll = true ∧ theory.graph.key index = .plain "none"
  · have isNone : (theory.graph.key index == .plain "none" &&
        theory.settings.noneBelowAll) = true := by
      simp [none]
    simp only [isNone, ↓reduceIte] at done
    obtain ⟨upwards, isUpwards, done⟩ := bind_ok done
    obtain ⟨down, isDown, done⟩ := bind_ok done
    obtain rfl := pure_ok isUpwards
    exact ⟨down, isDown, by rw [if_pos none, ← pure_ok done]; rfl⟩
  · have notNone : ¬ (theory.graph.key index == .plain "none" &&
        theory.settings.noneBelowAll) = true := by
      simpa [and_comm] using none
    simp only [notNone] at done
    obtain ⟨up, isUp, done⟩ := bind_ok done
    obtain ⟨upwards, isUpwards, done⟩ := bind_ok done
    obtain ⟨down, isDown, done⟩ := bind_ok done
    obtain rfl := pure_ok isUpwards
    exact ⟨down, isDown, by rw [if_neg none]; exact ⟨up, isUp, (pure_ok done).symm⟩⟩

/-- A name tells the class if the axioms can be stated. -/
theorem unambiguous (formed : theory.WellFormed) (datatype : theory.sort.IsDatatype) :
    theory.Unambiguous where
  toWellFormed := formed
  datatype := datatype
  unique {key other} isClass isOther named := by
    have literal {key : ClassKey} (isClass : theory.IsClass key) :
        ∃ literal, key.literal theory.sort = .ok literal := by
      obtain ⟨index, reachable, rfl⟩ := isClass
      obtain ⟨part, done⟩ := exists_ofClass stated reachable
      obtain ⟨down, isDown, -⟩ := ofClass_eq_ok done
      obtain ⟨literal, isLiteral, -⟩ := bind_ok isDown
      exact ⟨literal, isLiteral⟩
    have same : key.accessors = other.accessors := datatype.unique _
      (formed.declared_of_isClass isClass) _ (formed.declared_of_isClass isOther) named
    obtain ⟨_, isLiteral⟩ := literal isClass
    obtain ⟨_, isOtherLiteral⟩ := literal isOther
    cases key with
    | plain name =>
      cases other with
      | plain otherName => exact congrArg ClassKey.plain named
      | generic otherName accessors =>
        exact absurd same.symm (accessors_ne_nil isOtherLiteral)
    | generic name accessors =>
      cases other with
      | plain otherName => exact absurd same (accessors_ne_nil isLiteral)
      | generic otherName otherAccessors => exact congrArg₂ ClassKey.generic named same

omit stated in
/-- The axioms for a class. -/
theorem ofClass_iff (clear : theory.Unambiguous) (reachable : index ∈ theory.graph.reachable)
    (done : ofClass theory index = .ok part) :
    (∀ formula ∈ part, ∀ assigned, model.holds formula assigned) ↔
      model.ClassLaws (theory.graph.key index) := by
  obtain ⟨down, isDown, rest⟩ := ofClass_eq_ok done
  rw [classLaws_iff, ← downward_iff clear reachable isDown]
  by_cases none : theory.settings.noneBelowAll = true ∧ theory.graph.key index = .plain "none"
  · rw [if_pos none] at rest
    simp [rest, none]
  · rw [if_neg none] at rest
    obtain ⟨up, isUp, rfl⟩ := rest
    rw [forall_mem_cons, forall_mem_singleton, upward_iff clear reachable isUp none]
    simp only [none, not_false_iff, forall_true_left]

/-- The models are those that keep the laws of subtyping. -/
theorem satisfies_iff_subtypeLaws (formed : theory.WellFormed) :
    model.Satisfies axioms ↔ model.SubtypeLaws := by
  have clear := unambiguous stated formed model.datatype
  have genericTypes {t : Term} :=
    isGeneric_iff (t := t) formed model.datatype isGenericTable_subtype
  obtain ⟨ofClasses, done, rfl⟩ := map_ok stated
  rw [Satisfies, forall_mem_append, forall_mem_append, and_assoc, forall_mem_flatMap,
    forall_mem_flatMap, forall_mem_flatMapM_iff done fun reachable => ofClass_iff clear reachable,
    subtypeLaws_iff]
  refine and_congr ⟨?_, fun laws index reachable => laws ⟨index, reachable, rfl⟩⟩
    (and_congr (forall₂_congr fun _ _ => ofTypeVar_iff) ⟨?_, ?_⟩)
  · rintro laws key ⟨index, reachable, rfl⟩
    exact laws index reachable
  · rintro holds s t method typeS typeT isMethod (generic | generic)
    · obtain ⟨vars, func, args, listed, fit, rfl⟩ := genericTypes.mp ⟨typeS, generic⟩
      rw [((ofGeneric_iff listed).mp (holds _ listed)).1 typeT isMethod fit, eq_comm]
    · obtain ⟨vars, func, args, listed, fit, rfl⟩ := genericTypes.mp ⟨typeT, generic⟩
      exact ((ofGeneric_iff listed).mp (holds _ listed)).2 typeS isMethod fit
  · rintro laws ⟨vars, func⟩ listed
    refine (ofGeneric_iff listed).mpr ⟨?_, ?_⟩
    · intro t method args type isMethod fit
      obtain ⟨isType, generic⟩ := genericTypes.mpr ⟨vars, func, args, listed, fit, rfl⟩
      rw [laws isType type isMethod (.inl generic), eq_comm]
    · intro s method args type isMethod fit
      obtain ⟨isType, generic⟩ := genericTypes.mpr ⟨vars, func, args, listed, fit, rfl⟩
      exact laws type isType isMethod (.inr generic)

end Stated

end Theory

end TypeInference
