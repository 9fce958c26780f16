/- Substitution is structural in each model of its axioms. -/

import TypeInference.Proofs.Congruence
import TypeInference.Proofs.SubstLaws

namespace TypeInference

open List TypeSort

variable {t : Term} {sort : TypeSort}

namespace Term

mutual

/-- Puts a type in the place of another at outermost places. -/
def replace (t what replacement : Term) : Term :=
  match t with
  | con name args =>
    if con name args = what then replacement else con name (replaceList args what replacement)
  | t => t

def replaceList (args : List Term) (what replacement : Term) : List Term :=
  match args with
  | [] => []
  | arg :: args => arg.replace what replacement :: replaceList args what replacement

end

variable {what replacement : Term}

theorem replaceList_eq_map (args : List Term) :
    replaceList args what replacement = args.map fun arg => arg.replace what replacement := by
  induction args with
  | nil => rfl
  | cons arg args ih => rw [replaceList, ih, map_cons]

theorem replace_con (name : String) (args : List Term) :
    (con name args).replace what replacement =
      if con name args = what then replacement
      else con name (args.map fun arg => arg.replace what replacement) := by
  rw [replace, replaceList_eq_map]

@[simp] theorem replace_num (value : Int) : (num value).replace what replacement = num value := by
  simp [replace]

theorem replace_typeVar (id : String) :
    (typeVar id).replace what replacement =
      if typeVar id = what then replacement else typeVar id := by
  exact replace_con _ []

instance : DecidablePred IsGeneric
  | con name _ => inferInstanceAs (Decidable (name ∈ genericConstructors.map (·.1)))
  | const _ | num _ | method _ | get _ _ | subst _ _ _ | upper _ | toInt _ _ => isFalse id

end Term

namespace TypeSort

variable {sort : TypeSort}

theorem IsType.ne_num (type : sort.IsType t) (value : Int) : t ≠ .num value := by
  rintro rfl
  simp [IsType] at type

end TypeSort

/-- Structural substitution keeps types. -/
theorem TypeSort.IsType.replace {what replacement : Term}
    (typeReplacement : sort.IsType replacement) (type : sort.IsType t) :
    sort.IsType (t.replace what replacement) := by
  refine type.structural (motive := fun t => sort.IsType (t.replace what replacement)) ?_
  intro name accessors args known fit each
  rw [Term.replace_con]
  split
  · exact typeReplacement
  · refine ⟨accessors, known, areArguments_iff.mpr (forall₂_map_right_iff.mpr ?_)⟩
    refine (forall₂_restrict (areArguments_iff.mp fit) (fun _ _ => trivial) each).imp ?_
    rintro accessor arg ⟨⟨-, replaced⟩, is⟩
    unfold IsArgument at is ⊢
    by_cases count : isCount accessor = true
    · rw [if_pos count] at is ⊢
      obtain ⟨value, rfl⟩ := is
      exact ⟨value, Term.replace_num value⟩
    · rw [if_neg count] at is ⊢
      exact replaced is

/-- What replacing can give. A generic type can stay. -/
inductive Replaced (what replacement : Term) : Term → Term → Prop where
  | step {t r : Term} (step : ReplaceStep (Replaced what replacement) what replacement t r) :
      Replaced what replacement t r
  | generic {t : Term} (generic : t.IsGeneric) : Replaced what replacement t t

namespace Replaced

variable {what replacement : Term}

theorem iff_step {r : Term} (notBoth : ¬ (t.IsGeneric ∧ r = t)) :
    Replaced what replacement t r ↔
      ReplaceStep (Replaced what replacement) what replacement t r := by
  constructor
  · intro replaced
    cases replaced with
    | step step => exact step
    | generic generic => exact absurd ⟨generic, rfl⟩ notBoth
  · exact .step

/-- Structural substitution is one of the possible results. -/
theorem replace (type : sort.IsType t) :
    Replaced what replacement t (t.replace what replacement) := by
  refine type.structural
    (motive := fun t => Replaced what replacement t (t.replace what replacement)) ?_
  intro name accessors args known fit each
  rw [Term.replace_con]
  split
  · next same =>
    rw [same]
    exact .step .whole
  · next different =>
    refine .step (.parts different (forall₂_map_right_iff.mpr (forall₂_same.mpr ?_)))
    intro arg member
    rcases fit.num_or_isType member with ⟨value, rfl⟩ | isType
    · exact .count value
    · exact .type isType.ne_num (each arg member isType)

end Replaced

namespace Theory

/-- Types of classes of the tree and type variables only. -/
inductive IsPlain (theory : Theory) : Term → Prop where
  | typeVar {id : String} (isVar : id ∈ theory.typeVars) : IsPlain theory (.typeVar id)
  | ofClass {key : ClassKey} {args : List Term} (isClass : theory.IsClass key)
      (fit : theory.sort.AreArguments key.accessors args)
      (each : ∀ arg ∈ args, theory.sort.IsType arg → IsPlain theory arg) :
      IsPlain theory (.con key.name args)

end Theory

namespace Interpretation

variable {theory : Theory}

/-- Substitution is structural, and generic types stay as they are. -/
def withReplacing (model : Interpretation theory) : Interpretation theory :=
  { model with
    issubst := fun t what replacement r => Replaced what replacement t r
    subst := fun t what replacement => if t.IsGeneric then t else t.replace what replacement
    subst_isType := by
      intro t what replacement type _ typeReplacement
      split
      · exact type
      · exact typeReplacement.replace type }

variable {model : Interpretation theory}

theorem withReplacing_substLaws (formed : theory.WellFormed) : model.withReplacing.SubstLaws := by
  have notGeneric {t : Term} (named : theory.IsNamed t) : ¬ t.IsGeneric := by
    rcases named with isClass | ⟨id, -, rfl⟩
    · exact isClass.not_generic formed
    · exact Theory.Term.typeVar_not_generic id
  constructor
  · intro what replacement t r _ _ named _
    exact Replaced.iff_step fun both => notGeneric named both.1
  · intro what replacement t r _ _ _ named
    exact Replaced.iff_step fun both => notGeneric named (both.2 ▸ both.1)
  · intro what replacement t _ _ type
    change Replaced what replacement t (if t.IsGeneric then t else t.replace what replacement)
    split
    · next generic => exact .generic generic
    · exact .replace type
  · intro what replacement t _ _ _ generic
    exact if_pos generic

namespace SubstLaws

variable (laws : model.SubstLaws) {what replacement : Term}
  (typeWhat : theory.sort.IsType what) (typeReplacement : theory.sort.IsType replacement)

/-- Arguments turn into their substitutions if types do. -/
theorem forall₂_replacedArgument_iff {accessors : List String} {args others : List Term}
    (fit : theory.sort.AreArguments accessors args)
    (fitOthers : theory.sort.AreArguments accessors others)
    (each : ∀ arg ∈ args, theory.sort.IsType arg → ∀ {r}, theory.sort.IsType r →
      (model.issubst arg what replacement r ↔ arg.replace what replacement = r)) :
    Forall₂ (ReplacedArgument fun arg other => model.issubst arg what replacement other)
      args others ↔ (args.map fun arg => arg.replace what replacement) = others := by
  have ofArgs := forall₂_restrict (areArguments_iff.mp fit) (fun _ _ => trivial) each
  have sorted : Forall₂ (fun arg other =>
      (ReplacedArgument (fun arg other => model.issubst arg what replacement other) arg other ↔
        arg.replace what replacement = other)) args others := by
    -- Both lists fit the same accessors, which tell numbers from types.
    refine forall₂_trans ?_ ofArgs.flip (areArguments_iff.mp fitOthers)
    rintro arg accessor other ⟨⟨-, replaced⟩, is⟩ isOther
    unfold TypeSort.IsArgument at is isOther
    split at is
    · obtain ⟨value, rfl⟩ := is
      rw [ReplacedArgument.num_iff, Term.replace_num, eq_comm]
    · next type =>
      rw [if_neg type] at isOther
      rw [ReplacedArgument.iff_of_not_count is.ne_num]
      exact replaced is isOther
  rw [forall₂_congr_of sorted fun _ _ => id, ← forall₂_eq_eq_eq, forall₂_map_left_iff]

include laws typeWhat typeReplacement in
/-- A plain type turns into its structural substitution only. -/
theorem issubst_iff (formed : theory.WellFormed) (plain : theory.IsPlain t) :
    ∀ {r}, theory.sort.IsType r →
      (model.issubst t what replacement r ↔ t.replace what replacement = r) := by
  induction plain with
  | @typeVar id isVar =>
    intro r type
    rw [laws.forward typeWhat typeReplacement (.inr ⟨id, isVar, rfl⟩) type,
      replaces_typeVar_left_iff, Term.replace_typeVar]
    split
    · next same => simp [same]
    · next different => simp [different]
  | @ofClass key args isClass fit each ih =>
    intro r type
    have step := laws.forward typeWhat typeReplacement (.inl ⟨key, args, isClass, fit, rfl⟩) type
    rw [step, Replaces, ReplaceStep.con_left_iff, Term.replace_con]
    by_cases same : Term.con key.name args = what
    · simp [same, eq_comm]
    · have each (others : List Term) (is : r = .con key.name others) :=
        forall₂_replacedArgument_iff fit ((model.datatype.arguments
          (formed.declared_of_isClass isClass)).mp (is ▸ type)) ih
      simp only [same, and_false, false_or, Ne.symm same, ne_eq, not_false_eq_true, true_and,
        if_false]
      constructor
      · rintro ⟨others, is, replaced⟩
        rw [(each others is).mp replaced, is]
      · intro is
        exact ⟨_, is.symm, (each _ is.symm).mpr rfl⟩

end SubstLaws

end Interpretation

/-- The name of a class stands for one list of parameters. -/
def Survey.HasClearClasses (survey : Survey) : Prop :=
  ∀ key ∈ survey.sortClasses, key.accessors.Nodup ∧
    ∀ other ∈ survey.sortClasses, key.name = other.name → key.accessors = other.accessors

namespace Theory

variable {theory : Theory} {entry : String × List String}

/-- The constructors of type variables and of generic types. -/
def IsAside (theory : Theory) (entry : String × List String) : Prop :=
  entry ∈ theory.survey.typeVars.values.map (fun id => ("tv" ++ id, [])) ∨
    entry ∈ genericConstructors

theorem IsAside.nodup (aside : theory.IsAside entry) : entry.2.Nodup := by
  rcases aside with isVar | isGeneric
  · obtain ⟨id, -, rfl⟩ := mem_map.mp isVar
    exact nodup_nil
  · have each : ∀ entry ∈ genericConstructors, entry.2.Nodup := by decide +kernel
    exact each entry isGeneric

theorem IsAside.unique {first second : String × List String} (left : theory.IsAside first)
    (right : theory.IsAside second) (named : first.1 = second.1) : first.2 = second.2 := by
  have apart {id : String} {entry : String × List String}
      (isGeneric : entry ∈ genericConstructors) : "tv" ++ id ≠ entry.1 := by
    obtain ⟨index, -, rfl⟩ := mem_map.mp isGeneric
    intro same
    have letters := congrArg String.toList same
    simp at letters
  rcases left with isVar | isGeneric <;> rcases right with isOtherVar | isOtherGeneric
  · obtain ⟨id, -, rfl⟩ := mem_map.mp isVar
    obtain ⟨other, -, rfl⟩ := mem_map.mp isOtherVar
    rfl
  · obtain ⟨id, -, rfl⟩ := mem_map.mp isVar
    exact absurd named (apart isOtherGeneric)
  · obtain ⟨id, -, rfl⟩ := mem_map.mp isOtherVar
    exact absurd named.symm (apart isGeneric)
  · have each : ∀ first ∈ genericConstructors, ∀ second ∈ genericConstructors,
        first.1 = second.1 → first.2 = second.2 := by decide +kernel
    exact each first isGeneric second isOtherGeneric named

theorem WellFormed.name_ne_aside (formed : theory.WellFormed) {key : ClassKey}
    (member : key ∈ theory.survey.sortClasses) (aside : theory.IsAside entry) :
    key.name ≠ entry.1 := by
  rcases aside with isVar | isGeneric
  · obtain ⟨id, -, rfl⟩ := mem_map.mp isVar
    exact formed.name_ne_typeVar member id
  · obtain ⟨index, -, rfl⟩ := mem_map.mp isGeneric
    exact formed.name_ne_generic member _

/-- The constructors generate a datatype exactly if the table is clear. -/
theorem WellFormed.isDatatype_iff (formed : theory.WellFormed) :
    theory.sort.IsDatatype ↔ theory.survey.HasClearClasses := by
  constructor
  · intro datatype key member
    have declared {key : ClassKey} (member : key ∈ theory.survey.sortClasses) :
        (key.name, key.accessors) ∈ theory.sort.declared :=
      formed.declared.mpr (.inl (mem_map_of_mem member))
    exact ⟨datatype.nodup _ (declared member), fun other isOther named =>
      datatype.unique _ (declared member) _ (declared isOther) named⟩
  · intro clear
    have kinds {entry : String × List String} (declared : entry ∈ theory.sort.declared) :
        (∃ key ∈ theory.survey.sortClasses, Survey.constructorOf key = entry) ∨
          theory.IsAside entry :=
      (formed.declared.mp declared).imp_left mem_map.mp
    constructor
    · intro first isFirst second isSecond named
      rcases kinds isFirst with ⟨key, member, rfl⟩ | aside
      · rcases kinds isSecond with ⟨other, isOther, rfl⟩ | otherAside
        · exact (clear key member).2 other isOther named
        · exact absurd named (formed.name_ne_aside member otherAside)
      · rcases kinds isSecond with ⟨other, isOther, rfl⟩ | otherAside
        · exact absurd named.symm (formed.name_ne_aside isOther aside)
        · exact aside.unique otherAside named
    · intro entry declared
      rcases kinds declared with ⟨key, member, rfl⟩ | aside
      · exact (clear key member).1
      · exact aside.nodup

theorem IsPlain.isType (formed : theory.WellFormed) (plain : theory.IsPlain t) :
    theory.sort.IsType t := by
  cases plain with
  | typeVar isVar => exact formed.isType_typeVar isVar
  | ofClass isClass fit => exact formed.isType_con isClass fit

/-- If the class table is clear, the axioms of substitution have a model. In each model,
substitution in a plain type is structural. -/
theorem subst_eq_replace {settings : Settings} {survey : Survey} {axioms : List Formula}
    (complete : survey.IsComplete) (built : ofSurvey settings survey = .ok theory)
    (clear : survey.HasClearClasses) (stated : theory.substAxioms = .ok axioms) :
    (∃ model : Interpretation theory, model.Satisfies axioms) ∧
    ∀ model : Interpretation theory, model.Satisfies axioms →
      ∀ {t what replacement}, theory.IsPlain t → theory.sort.IsType what →
      theory.sort.IsType replacement →
      model.subst t what replacement = t.replace what replacement ∧
      ∀ {r}, theory.sort.IsType r →
        (model.issubst t what replacement r ↔ t.replace what replacement = r) := by
  have formed := ofSurvey_wellFormed complete built
  constructor
  · have datatype := formed.isDatatype_iff.mpr ((ofSurvey_eq_ok built).2.1 ▸ clear)
    let model := Interpretation.ofRelation formed datatype (fun _ _ _ => True) id id
    exact ⟨model.withReplacing,
      (satisfies_iff_substLaws stated formed).mpr (Interpretation.withReplacing_substLaws formed)⟩
  · intro model satisfied t what replacement plain typeWhat typeReplacement
    have laws := (satisfies_iff_substLaws stated formed).mp satisfied
    have unique {r : Term} (type : theory.sort.IsType r) :=
      laws.issubst_iff typeWhat typeReplacement formed plain type
    have type := plain.isType formed
    have related := laws.related typeWhat typeReplacement type
    have isType := model.subst_isType type typeWhat typeReplacement
    exact ⟨((unique isType).mp related).symm, unique⟩

section Plain

variable {theory : Theory}

theorem IsPlain.list (formed : theory.WellFormed)
    (isClass : theory.IsClass (.generic "list" ["list_arg_0"])) {element : Term}
    (plain : theory.IsPlain element) : theory.IsPlain (.list element) := by
  refine .ofClass isClass (areArguments_iff.mpr (.cons ?_ .nil)) ?_
  · exact plain.isType formed
  · intro arg member _
    rwa [mem_singleton.mp member]

/-- Functions with one argument, which has a default value. -/
theorem IsPlain.function (formed : theory.WellFormed)
    (isClass : theory.IsClass (Survey.functionClass 1).1) {arg result : Term}
    (plainArg : theory.IsPlain arg) (plainResult : theory.IsPlain result) :
    theory.IsPlain (.con "func_1" [.num 1, arg, result]) := by
  refine .ofClass isClass (areArguments_iff.mpr (.cons ?_ (.cons ?_ (.cons ?_ .nil)))) ?_
  · rw [TypeSort.IsArgument, if_pos (by decide +kernel)]
    exact ⟨1, rfl⟩
  · exact plainArg.isType formed
  · rw [TypeSort.IsArgument, if_neg (by decide +kernel)]
    exact plainResult.isType formed
  · intro part member type
    simp only [mem_cons, not_mem_nil, or_false] at member
    rcases member with rfl | rfl | rfl
    · exact absurd rfl (type.ne_num 1)
    · exact plainArg
    · exact plainResult

end Plain

/-- In a function type, the type variable is replaced by a list of itself. -/
theorem subst_typeVar_list : ∃ theory survey axioms, survey.IsComplete ∧
    ofSurvey {} survey = .ok theory ∧ theory.substAxioms = .ok axioms ∧
    ∃ model : Interpretation theory, model.Satisfies axioms ∧
      model.subst (.con "func_1" [.num 1, .typeVar "T", .list (.typeVar "T")])
          (.typeVar "T") (.list (.typeVar "T")) =
        .con "func_1" [.num 1, .list (.typeVar "T"), .list (.list (.typeVar "T"))] := by
  have evaluated : ∃ theory others, ofEmptyProgram {} oneVariable = .ok (theory, others) ∧
      theory.sort.IsDatatype ∧ "T" ∈ theory.typeVars ∧
      (∃ axioms, theory.substAxioms = .ok axioms) ∧
      (Survey.functionClass 1).1 ∈ theory.survey.sortClasses ∧
      .generic "list" ["list_arg_0"] ∈ theory.survey.sortClasses := by
    decide +kernel
  obtain ⟨theory, _, done, datatype, isVar, ⟨axioms, stated⟩, isFunction, isList⟩ := evaluated
  have empty : IsEmpty theory oneVariable _ := ⟨done, datatype⟩
  have complete := empty.complete
  have built := empty.built
  have formed := empty.formed
  obtain ⟨⟨model, satisfied⟩, structural⟩ :=
    subst_eq_replace complete built (formed.isDatatype_iff.mp datatype) stated
  refine ⟨theory, theory.survey, axioms, complete, built, stated, model, satisfied, ?_⟩
  have plain : theory.IsPlain (.typeVar "T") := .typeVar isVar
  have list := plain.list formed (isClass_of_isComplete complete built _ isList)
  have function := plain.function formed (isClass_of_isComplete complete built _ isFunction) list
  rw [(structural model satisfied function (plain.isType formed) (list.isType formed)).1]
  decide

/-- Two classes of one name that list different type parameters. -/
def repeatedBoxes : List Stmt :=
  let name (id : String) : Expr := .name (some 1) id .load
  let box (params : Expr) : Stmt :=
    .classDef ⟨{}, "Box", [.subscript (some 1) (name "Generic") params .load], [], [.pass {}], []⟩
  [box (name "T"), box (.tuple (some 1) [name "T", name "S"] .load)]

/-- Of two constructors of one name only one is found, so the axioms cannot be stated. -/
theorem repeatedBoxes_unstated : ∃ program theory,
    ofBody repeatedBoxes {} = .ok (program, theory) ∧ ¬ theory.survey.HasClearClasses ∧
    ∃ fault, theory.substAxioms = .error fault := by
  have evaluated : ∃ program theory, ofBody repeatedBoxes {} = .ok (program, theory) ∧
      (∃ key ∈ theory.survey.sortClasses, ∃ other ∈ theory.survey.sortClasses,
        key.name = other.name ∧ key.accessors ≠ other.accessors) ∧
      theory.substAxioms.toOption.isNone = true := by
    decide +kernel
  obtain ⟨program, theory, read, ⟨key, member, other, isOther, named, differ⟩, failed⟩ := evaluated
  refine ⟨program, theory, read, fun clear => differ ((clear key member).2 other isOther named), ?_⟩
  cases stated : theory.substAxioms with
  | ok axioms => simp [stated, Except.toOption] at failed
  | error fault => exact ⟨fault, rfl⟩

end Theory

end TypeInference
