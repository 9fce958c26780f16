/- Subtyping between tuples and functions follows from that between their components. -/

import TypeInference.Proofs.TypeVariables

namespace TypeInference

open List Term

/-- A type variable, in scope or not. -/
def Term.IsVariable (t : Term) : Prop := ∃ id, t = .typeVar id

theorem Term.con_not_variable {name : String} {args : List Term}
    (letters : name.toList.take 2 ∈ [['t', 'u'], ['f', 'u']]) : ¬ (con name args).IsVariable := by
  rintro ⟨id, is⟩
  obtain ⟨rfl, -⟩ := con.inj is
  simp at letters

/-- A function without arguments. -/
def Term.thunk (result : Term) : Term := .con "func_0" [.num 0, result]

/-- A program has functions without arguments. -/
theorem Survey.IsComplete.functionClass_mem {survey : Survey} (complete : survey.IsComplete) :
    (functionClass 0).1 ∈ survey.sortClasses := by
  obtain ⟨before, -, rfl⟩ := complete
  exact mem_sortClasses_iff.mpr (.inr (.inr (.inl (mem_map.mpr ⟨0, by simp, rfl⟩))))

theorem Theory.WellFormed.isType_thunk {theory : Theory} (formed : theory.WellFormed)
    (isClass : theory.IsClass (Survey.functionClass 0).1) {result : Term}
    (type : theory.sort.IsType result) : theory.sort.IsType (.thunk result) := by
  refine formed.isType_con isClass (TypeSort.areArguments_iff.mpr (.cons ?_ (.cons ?_ .nil)))
  · rw [TypeSort.IsArgument, if_pos (by decide +kernel)]
    exact ⟨0, rfl⟩
  · rw [TypeSort.IsArgument, if_neg (by decide +kernel)]
    exact type

namespace Interpretation

variable {theory : Theory} {method : Term}

/-- Tuples and functions vary with a relation between their components. -/
structure VariesWith (model : Interpretation theory) (method : Term) (below : Term → Term → Prop)
    (kind : Term → Prop) : Prop where
  tuple : ∀ (length : Nat) {own others : List Term},
    theory.sort.IsType (.con ("tuple_" ++ toString length) own) →
    theory.sort.IsType (.con ("tuple_" ++ toString length) others) →
    (∀ arg ∈ own ++ others, kind arg) →
    (model.subtype method (.con ("tuple_" ++ toString length) own)
        (.con ("tuple_" ++ toString length) others) ↔
      own = others ∨ Forall₂ below own others)
  function : ∀ (count : Nat) (own others : List Term)
    {defaults otherDefaults result otherResult : Term},
    theory.sort.IsType (.con ("func_" ++ toString count) (defaults :: (own ++ [result]))) →
    theory.sort.IsType
      (.con ("func_" ++ toString count) (otherDefaults :: (others ++ [otherResult]))) →
    (∀ arg ∈ own ++ [result] ++ (others ++ [otherResult]), kind arg) →
    (model.subtype method (.con ("func_" ++ toString count) (defaults :: (own ++ [result])))
        (.con ("func_" ++ toString count) (otherDefaults :: (others ++ [otherResult]))) ↔
      (defaults = otherDefaults ∧ own = others ∧ result = otherResult) ∨
        Forall₂ (fun arg other => below other arg) own others ∧ below result otherResult)

variable {model : Interpretation theory}

/-- The rules of variance tell how they vary. -/
theorem VariesWith.of_varies (formed : theory.WellFormed) {below : Term → Term → Prop}
    {kind : Term → Prop}
    (varies : ∀ {name own others}, name.toList.take 2 ∈ [['t', 'u'], ['f', 'u']] →
      theory.sort.IsType (.con name own) → theory.sort.IsType (.con name others) →
      (∀ arg ∈ own ++ others, theory.sort.IsType arg → kind arg) →
      (model.subtype method (.con name own) (.con name others) ↔
        own = others ∨ Varies below name own others)) : model.VariesWith method below kind := by
  constructor
  · intro length own others typeOwn typeOthers ofKind
    rw [varies (by simp) typeOwn typeOthers fun arg member _ => ofKind arg member, Varies.tuple_iff]
  · intro count own others defaults otherDefaults result otherResult typeOwn typeOthers ofKind
    obtain ⟨-, number, _, _, isOwn, -⟩ := formed.isType_function typeOwn (by simp)
    obtain ⟨-, otherNumber, _, _, isOthers, -⟩ := formed.isType_function typeOthers (by simp)
    have ofTypes :
        ∀ arg ∈ defaults :: (own ++ [result]) ++ otherDefaults :: (others ++ [otherResult]),
        theory.sort.IsType arg → kind arg := by
      intro arg member type
      have notNumber (value : Int) : arg ≠ .num value := by
        rintro rfl
        simp [TypeSort.IsType] at type
      refine ofKind arg ?_
      have isDefaults := (List.cons.inj isOwn).1 ▸ notNumber number
      have isOtherDefaults := (List.cons.inj isOthers).1 ▸ notNumber otherNumber
      simpa [isDefaults, isOtherDefaults] using member
    rw [varies (by simp) typeOwn typeOthers ofTypes, Varies.function_iff]
    simp

namespace SubtypeLaws

variable (laws : model.SubtypeLaws) (clear : theory.Unambiguous)
  (rooted : ∀ key ∈ theory.survey.sortClasses, theory.IsClass key) {id : String}
include laws clear rooted

section

variable (isMethod : theory.IsMethod method)
include isMethod

/-- Tuples and functions of one class vary outside all methods. -/
theorem subtype_iff_varies {name : String} {own others : List Term}
    (letters : name.toList.take 2 ∈ [['t', 'u'], ['f', 'u']])
    (typeOwn : theory.sort.IsType (.con name own))
    (typeOthers : theory.sort.IsType (.con name others)) :
    model.subtype method (.con name own) (.con name others) ↔
      own = others ∨ Varies (model.subtype noMethod) name own others := by
  rcases clear.isType_cases typeOthers with ⟨key, member, rfl, fit⟩ | ⟨id, -, is⟩ | generic
  · have notVariable : ¬ ∃ id ∈ theory.typeVars, theory.InScope method id ∧
        con key.name own = .typeVar id ∧
        model.subtype method (model.upper (.typeVar id)) (.con key.name others) := by
      rintro ⟨id, -, -, is, -⟩
      exact con_not_variable letters ⟨id, is⟩
    rw [(laws.ofClass (rooted key member)).down typeOwn isMethod fit, or_iff_left notVariable]
    constructor
    · intro step
      rcases (structuralStep_iff _ _ _ _ _).mp step with
        same | ⟨-, -, isNone⟩ | ⟨sub, top, _, above, is, isTop⟩ | ⟨_, _, _, varies, is, isOther⟩
      · exact .inl (con.inj same).2.symm
      · rw [(con.inj isNone).1] at letters
        exact absurd letters (by decide)
      · obtain ⟨isSub, isBase⟩ := clear.isClass_of_properAncestor above
        have named : sub.name = top := (con.inj is).1.symm.trans (con.inj isTop).1
        rw [clear.unique isSub isBase named] at above
        exact absurd above (clear.not_properAncestor_self _)
      · obtain ⟨rfl, rfl⟩ := con.inj is
        obtain ⟨-, rfl⟩ := con.inj isOther
        exact .inr varies
    · rintro (rfl | varies)
      · exact .refl _
      · exact .varies varies
  · exact absurd ⟨id, is⟩ (con_not_variable letters)
  · obtain ⟨count, rfl⟩ := exists_of_generic generic
    simp at letters

/-- Types but type variables are related in all methods alike. -/
theorem subtype_iff_noMethod {s t : Term} (typeS : theory.sort.IsType s)
    (typeT : theory.sort.IsType t) (notS : ¬ s.IsVariable) (notT : ¬ t.IsVariable) :
    model.subtype method s t ↔ model.subtype noMethod s t := by
  obtain ⟨name, args, rfl⟩ := typeT.exists_con
  rcases clear.isType_cases typeT with ⟨key, member, rfl, fit⟩ | ⟨id, -, is⟩ | generic
  · have step {method : Term} (isMethod : theory.IsMethod method) :
        model.subtype method s (.con key.name args) ↔ model.Step s (.con key.name args) := by
      rw [(laws.ofClass (rooted key member)).down typeS isMethod fit, or_iff_left]
      rintro ⟨id, -, -, is, -⟩
      exact notS ⟨id, is⟩
    rw [step isMethod, step theory.isMethod_noMethod]
  · exact absurd ⟨id, is⟩ notT
  · rw [laws.generic typeS typeT isMethod (.inr generic),
      laws.generic typeS typeT theory.isMethod_noMethod (.inr generic)]

theorem variesWith_noMethod : model.VariesWith method (model.subtype noMethod) fun _ => True :=
  .of_varies clear.toWellFormed fun letters typeOwn typeOthers _ =>
    laws.subtype_iff_varies clear rooted isMethod letters typeOwn typeOthers

/-- Without type variables, the method's own relation counts. -/
theorem variesWith_of_not_variable :
    model.VariesWith method (model.subtype method) fun arg => ¬ arg.IsVariable := by
  refine .of_varies clear.toWellFormed fun {name own others} letters typeOwn typeOthers ofKind => ?_
  rw [laws.subtype_iff_varies clear rooted isMethod letters typeOwn typeOthers]
  have left (arg : Term) (member : arg ∈ own) (type : theory.sort.IsType arg) :
      theory.sort.IsType arg ∧ ¬ arg.IsVariable :=
    ⟨type, ofKind arg (mem_append_left _ member) type⟩
  have right (arg : Term) (member : arg ∈ others) (type : theory.sort.IsType arg) :
      theory.sort.IsType arg ∧ ¬ arg.IsVariable :=
    ⟨type, ofKind arg (mem_append_right _ member) type⟩
  have agree {a b : Term} (ofA : theory.sort.IsType a ∧ ¬ a.IsVariable)
      (ofB : theory.sort.IsType b ∧ ¬ b.IsVariable) :
      model.subtype method a b ↔ model.subtype noMethod a b :=
    laws.subtype_iff_noMethod clear rooted isMethod ofA.1 ofB.1 ofA.2 ofB.2
  refine or_congr_right ⟨fun varies => ?_, fun varies => ?_⟩
  · refine (clear.restrict varies typeOwn typeOthers left right).mono ?_
    rintro a b ⟨⟨ofA, ofB⟩, below⟩
    exact (agree ofA ofB).mpr below
  · refine (clear.restrict varies typeOwn typeOthers left right).mono ?_
    rintro a b ⟨⟨ofA, ofB⟩, below⟩
    exact (agree ofA ofB).mp below

end

omit clear rooted in
/-- None is below the type variables in scope. -/
theorem none_subtype_typeVar (formed : theory.WellFormed) (isMethod : theory.IsMethod method)
    (isVar : id ∈ theory.typeVars) :
    model.subtype method none (.typeVar id) ↔ theory.InScope method id := by
  rw [(laws.ofVariable isVar).below formed.isType_none isMethod]
  constructor
  · rintro (⟨inScope, -⟩ | ⟨_, -, -, inScope, -⟩)
    · exact inScope
    · exact inScope
  · intro inScope
    exact .inl ⟨inScope, .inr rfl⟩

/-- A function that gives none is below one that gives a type variable only if that is in scope
outside all methods. -/
theorem thunk_none_subtype_iff (isMethod : theory.IsMethod method) (isVar : id ∈ theory.typeVars)
    (isClass : theory.IsClass (Survey.functionClass 0).1) :
    model.subtype method (.thunk .none) (.thunk (.typeVar id)) ↔
      theory.InScope noMethod id := by
  have typeOwn := clear.isType_thunk isClass clear.isType_none
  have typeOthers := clear.isType_thunk isClass (clear.isType_typeVar isVar)
  have varies :=
    (laws.variesWith_noMethod clear rooted isMethod).function 0 [] [] typeOwn typeOthers
    fun _ _ => trivial
  refine varies.trans ?_
  rw [laws.none_subtype_typeVar clear.toWellFormed theory.isMethod_noMethod isVar]
  simp [clear.none_ne_typeVar id]

/-- If a type variable is in scope of the method only, it does not. -/
theorem not_variesWith (isMethod : theory.IsMethod method)
    (isClass : theory.IsClass (Survey.functionClass 0).1) (isVar : id ∈ theory.typeVars)
    (inScope : theory.InScope method id) (outside : ¬ theory.InScope noMethod id) :
    ¬ model.VariesWith method (model.subtype method) fun _ => True := by
  intro varies
  have typeOwn := clear.isType_thunk isClass clear.isType_none
  have typeOthers := clear.isType_thunk isClass (clear.isType_typeVar isVar)
  have below := (laws.none_subtype_typeVar clear.toWellFormed isMethod isVar).mpr inScope
  have thunks : model.subtype method (.thunk .none) (.thunk (.typeVar id)) :=
    (varies.function 0 [] [] typeOwn typeOthers fun _ _ => trivial).mpr (.inr ⟨.nil, below⟩)
  exact outside ((laws.thunk_none_subtype_iff clear rooted isMethod isVar isClass).mp thunks)

end SubtypeLaws

end Interpretation

namespace Theory

/-- Within a method, tuples and functions vary with the relation of their components outside all
methods. It is that of the method for components that are no type variables, and another one if a
type variable is in scope of the method only. -/
theorem subtype_variesWith_components {settings : Settings} {survey : Survey} {theory : Theory}
    {axioms : List Formula} (complete : survey.IsComplete)
    (built : ofSurvey settings survey = .ok theory) (stated : theory.subtypeAxioms = .ok axioms)
    {model : Interpretation theory} (satisfied : model.Satisfies axioms) {method : Term}
    (isMethod : theory.IsMethod method) :
    model.VariesWith method (model.subtype noMethod) (fun _ => True) ∧
    model.VariesWith method (model.subtype method) (fun arg => ¬ arg.IsVariable) ∧
    ∀ id ∈ theory.typeVars, theory.InScope method id → ¬ theory.InScope noMethod id →
      ¬ model.VariesWith method (model.subtype method) fun _ => True := by
  have formed := ofSurvey_wellFormed complete built
  have rooted := isClass_of_isComplete complete built
  have clear := unambiguous stated formed model.datatype
  have laws := (satisfies_iff_subtypeLaws stated formed).mp satisfied
  obtain ⟨-, rfl, -⟩ := ofSurvey_eq_ok built
  refine ⟨laws.variesWith_noMethod clear rooted isMethod,
    laws.variesWith_of_not_variable clear rooted isMethod, ?_⟩
  intro id isVar inScope outside
  exact laws.not_variesWith clear rooted isMethod (rooted _ complete.functionClass_mem) isVar
    inScope outside

/-- The type parameters of a function with a type variable. -/
def oneVariable : TypeParams := ⟨[("f", [.named "T"])]⟩

theorem exists_oneVariable : ∃ theory axioms, IsEmpty theory oneVariable axioms ∧
    "T" ∈ theory.typeVars ∧ theory.InScope (.method "f") "T" ∧
    ¬ theory.InScope noMethod "T" := by
  have evaluated : ∃ theory axioms, ofEmptyProgram {} oneVariable = .ok (theory, axioms) ∧
      theory.sort.IsDatatype ∧ "T" ∈ theory.typeVars ∧ theory.scope "T" = ["f"] := by
    decide +kernel
  obtain ⟨theory, axioms, done, datatype, isVar, isScope⟩ := evaluated
  have inScope (method : Term) : theory.InScope method "T" ↔ method = .method "f" := by
    simp [InScope, isScope]
  refine ⟨theory, axioms, ⟨done, datatype⟩, isVar, (inScope _).mpr rfl, ?_⟩
  rw [inScope]
  decide

/-- Functions vary with results that are no type variables. -/
theorem thunk_none_below_thunk_object : ∃ theory axioms,
    ofEmptyProgram {} oneVariable = .ok (theory, axioms) ∧
    ∃ model : Interpretation theory, model.Satisfies axioms ∧
      model.subtype (.method "f") (.thunk .none) (.thunk .object) ∧
      ¬ model.VariesWith (.method "f") (model.subtype (.method "f")) fun _ => True := by
  obtain ⟨theory, axioms, empty, isVar, inScope, outside⟩ := exists_oneVariable
  have formed := empty.formed
  obtain ⟨model, satisfied⟩ := empty.exists_model
  have isMethod := formed.isMethod_of_inScope inScope
  obtain ⟨-, varies, notVaries⟩ :=
    subtype_variesWith_components empty.complete empty.built empty.stated satisfied isMethod
  refine ⟨theory, axioms, empty.done, model, satisfied, ?_, notVaries "T" isVar inScope outside⟩
  have isClass :=
    isClass_of_isComplete empty.complete empty.built _ empty.complete.functionClass_mem
  have object : theory.sort.IsType .object := formed.isType_con formed.isClass_object trivial
  have notVariable (arg : Term) (member : arg ∈ [Term.none, .object]) : ¬ arg.IsVariable := by
    rintro ⟨id, rfl⟩
    rcases mem_pair.mp member with is | is
    · exact formed.none_ne_typeVar id is.symm
    · exact formed.con_ne_typeVar formed.isClass_object [] id is.symm
  have below : model.subtype (.method "f") .none .object := by
    have laws := (satisfies_iff_subtypeLaws empty.stated formed).mp satisfied
    have fit : theory.sort.AreArguments (ClassKey.plain "object").accessors [] := trivial
    refine ((laws.ofClass formed.isClass_object).down formed.isType_none isMethod fit).mpr ?_
    exact .inl (.none empty.noneBelowAll
      (formed.not_generic (formed.mem_sortClasses formed.isClass_object) []))
  exact (varies.function 0 [] [] (formed.isType_thunk isClass formed.isType_none)
    (formed.isType_thunk isClass object) notVariable).mpr (.inr ⟨.nil, below⟩)

/-- None is below the type variable, but not a function that gives none below one that gives it. -/
theorem thunk_none_not_below_thunk_typeVar : ∃ theory axioms,
    ofEmptyProgram {} oneVariable = .ok (theory, axioms) ∧
    (∃ model : Interpretation theory, model.Satisfies axioms) ∧
    ∀ model : Interpretation theory, model.Satisfies axioms →
      model.subtype (.method "f") .none (.typeVar "T") ∧
      ¬ model.subtype (.method "f") (.thunk .none) (.thunk (.typeVar "T")) := by
  obtain ⟨theory, axioms, empty, isVar, inScope, outside⟩ := exists_oneVariable
  have formed := empty.formed
  have rooted := isClass_of_isComplete empty.complete empty.built
  have isMethod := formed.isMethod_of_inScope inScope
  refine ⟨theory, axioms, empty.done, empty.exists_model, ?_⟩
  intro model satisfied
  have clear := unambiguous empty.stated formed model.datatype
  have laws := (satisfies_iff_subtypeLaws empty.stated formed).mp satisfied
  refine ⟨(laws.none_subtype_typeVar formed isMethod isVar).mpr inScope, ?_⟩
  rw [laws.thunk_none_subtype_iff clear rooted isMethod isVar
    (rooted _ empty.complete.functionClass_mem)]
  exact outside

end Theory

end TypeInference
