/- The type variables that the type parameters of classes are. -/

import TypeInference.Proofs.Branches
import TypeInference.Proofs.ClassEntries
import TypeInference.Proofs.HintForms

namespace TypeInference

open List

open Survey

/-- The type parameters that a class lists first. -/
def ClassDef.typeParams? (c : ClassDef) : Option (List TypeParam) := do
  let split ← (splitBases c.bases).toOption
  let base ← split.2.head?
  (listedParams base).toOption

namespace Program

/-- A module of the program declares a type variable. -/
def declares (program : Program) (home : ModuleKey) (name : String) : Bool :=
  program.nodes.any fun
    | .stmt (.assign site (.name _ id _ :: _) value) =>
      value.isTypeVarCall && id == name && liveHome program.sources.libraries site.home == some home
    | _ => false

/-- A class lists type parameters, and none of its name others. -/
def Lists (program : Program) (className : String) (params : List TypeParam) : Prop :=
  ∃ classes, classesOf program = .ok classes ∧
    (∃ c ∈ classes, c.name = className ∧ c.typeParams? = some params) ∧
    ∀ d ∈ classes, d.name = className → d.typeParams? = none ∨ d.typeParams? = some params

end Program

namespace Survey

variable {settings : Settings} {survey next : Survey}

theorem addClass_classParams {c : ClassDef} {members : List Stmt}
    (done : addClass settings survey c members = .ok next) :
    c.typeParams? = none ∧ next.classParams = survey.classParams ∨
      ∃ params, c.typeParams? = some params ∧
        next.classParams = survey.classParams.insert c.name params := by
  obtain ⟨_, _, _, _, split, -, -, -, -, -, -, -, kept | ⟨base, rest, params, rfl, listed, is⟩⟩ :=
    addClass_eq_ok done
  · obtain ⟨same, rfl⟩ := kept
    exact .inl ⟨by rw [ClassDef.typeParams?, split]; rfl, same⟩
  · refine .inr ⟨params, ?_, is⟩
    rw [ClassDef.typeParams?, split]
    change (listedParams base).toOption = _
    rw [listed]
    rfl

/-- A class has the type parameters that it alone lists. -/
theorem addClasses_get?_classParams {classes : List ClassDef}
    (done : survey.addClasses settings classes = .ok next) {c : ClassDef} (member : c ∈ classes)
    {params : List TypeParam} (listed : c.typeParams? = some params)
    (only : ∀ d ∈ classes, d.name = c.name → d.typeParams? = none ∨ d.typeParams? = some params) :
    next.classParams.get? c.name = some params := by
  obtain ⟨inheritance, -, done⟩ := bind_ok done
  refine foldlM_reaches (fun survey => survey.classParams.get? c.name = some params) done member
    ?_ ?_
  · intro before after added
    rcases addClass_classParams added with ⟨none, -⟩ | ⟨others, same, is⟩
    · simp [none] at listed
    · obtain rfl := Option.some.inj (listed.symm.trans same)
      rw [is, Table.get?_insert_self]
  · intro d isClass before after kept added
    rcases addClass_classParams added with ⟨-, is⟩ | ⟨others, same, is⟩
    · rwa [is]
    · by_cases named : d.name = c.name
      · rcases only d isClass named with none | some
        · simp [none] at same
        · obtain rfl := Option.some.inj (some.symm.trans same)
          rw [is, named, Table.get?_insert_self]
      · rw [is, Table.get?_insert_of_ne _ _ (Ne.symm named)]
        exact kept

theorem typeVarId_eq_self_iff {name : String} :
    survey.typeVarId name = name ↔ ∀ mark, name.toList = [mark] → mark ∉ survey.takenMarks := by
  unfold typeVarId
  split
  · next mark is =>
    by_cases taken : survey.takenMarks.contains mark = true
    · have longer : name ++ "0" ≠ name := by
        intro same
        have lengths := congrArg String.length same
        simp at lengths
      simp [is, contains_iff_mem.mp taken, longer]
    · have free := mt contains_iff_mem.mpr taken
      simp [is, free]
  · next longer =>
    simp only [true_iff]
    intro mark is
    exact absurd is (longer mark)

/-- A declaration puts its type variable into the table. -/
theorem addTypeVars_get? {libraries : List String} {nodes : List Node}
    (done : survey.addTypeVars libraries nodes = .ok next) {site : Site} {line : Option Nat}
    {name : String} {usage : Usage} {targets : List Expr} {value : Expr}
    (declared : .stmt (.assign site (.name line name usage :: targets) value) ∈ nodes)
    (isTypeVar : value.isTypeVarCall) {home : ModuleKey}
    (lives : liveHome libraries site.home = some home) :
    next.typeVars.get? ⟨some home, .named name⟩ = some (survey.typeVarId name) := by
  obtain ⟨typeVars, gathered, rfl⟩ := map_ok done
  refine foldlM_reaches (fun table : Table TypeVarKey String =>
    table.get? ⟨some home, .named name⟩ = some (survey.typeVarId name)) gathered declared ?_ ?_
  · intro before after added
    simp only [isTypeVar, lives, if_true] at added
    rw [← Except.ok.inj added, Table.get?_insert_self]
  · intro node _ before after kept added
    split at added
    · split at added
      · split at added
        · exact Except.ok.inj added ▸ kept
        · next otherHome _ id _ _ _ _ =>
          rw [← Except.ok.inj added]
          by_cases same : (⟨some home, .named name⟩ : TypeVarKey) = ⟨some otherHome, .named id⟩
          · obtain ⟨-, sameName⟩ := TypeVarKey.mk.inj same
            obtain rfl := TypeParam.named.inj sameName
            rw [← same, Table.get?_insert_self]
          · rw [Table.get?_insert_of_ne _ _ same]
            exact kept
        · simp at added
      · exact Except.ok.inj added ▸ kept
    · exact Except.ok.inj added ▸ kept

/-- Type parameters that were given belong to no module. -/
theorem get?_typeVars_addParams (survey : Survey) (home : ModuleKey) (name : TypeParam) :
    survey.addParams.typeVars.get? ⟨some home, name⟩ = survey.typeVars.get? ⟨some home, name⟩ := by
  refine List.foldlRecOn (motive := fun table : Table TypeVarKey String =>
    table.get? ⟨some home, name⟩ = survey.typeVars.get? ⟨some home, name⟩) _ _ rfl ?_
  intro table kept param _
  rw [Table.get?_insert_of_ne]
  · exact kept
  · simp

section Program

variable {base : Option String} {program : Program} {funcParams classParams : TypeParams}
  (done : ofProgram settings base program funcParams classParams = .ok survey)
include done

/-- A class has the type parameters that it lists. -/
theorem ofProgram_get?_classParams {className : String} {params : List TypeParam}
    (lists : program.Lists className params) :
    survey.classParams.get? className = some params := by
  obtain ⟨selection, _, _, _, selected, isClasses, -, rfl⟩ := ofProgram_eq_ok done
  obtain ⟨classes, all, ⟨c, member, rfl, listed⟩, only⟩ := lists
  obtain ⟨other, otherSelected, isAll⟩ := bind_ok all
  obtain rfl := Except.ok.inj (selected.symm.trans otherSelected)
  obtain rfl := pure_ok isAll
  exact addClasses_get?_classParams isClasses member listed only

/-- A type variable has the name of its declaration, unless that is a taken mark. -/
theorem ofProgram_get?_typeVars {home : ModuleKey} {name : String}
    (declares : program.declares home name) :
    survey.typeVars.get? ⟨some home, .named name⟩ =
      some ({ survey with funcParams := funcParams }.typeVarId name) := by
  obtain ⟨_, withClasses, typeVars, params, -, isClasses, isTypeVars, rfl⟩ := ofProgram_eq_ok done
  obtain ⟨_, -, kept⟩ := addClasses_keeps isClasses
  have given : withClasses.funcParams = funcParams := kept.funcParams
  refine (get?_typeVars_addParams _ home (.named name)).trans ?_
  obtain ⟨node, declared, isDeclaration⟩ := any_eq_true.mp declares
  split at isDeclaration
  · simp only [Bool.and_eq_true, beq_iff_eq] at isDeclaration
    obtain ⟨⟨isTypeVar, rfl⟩, lives⟩ := isDeclaration
    rw [← given]
    exact addTypeVars_get? isTypeVars (mem_append_left _ declared) isTypeVar lives
  · cases isDeclaration

end Program

end Survey

namespace Hint

variable {setting : Setting} {mode : VarMode} {name : String} {line : Nat} {progress : Progress}

theorem Setting.typeVar?_home {theory : Theory} {home : ModuleKey} {name id : String}
    (found : theory.survey.typeVars.get? ⟨some home, .named name⟩ = some id) (vars : DeclaredVars) :
    (⟨theory, vars, .home home⟩ : Setting).typeVar? name = .ok (some (.typeVar id)) := by
  change Except.ok ((theory.survey.typeVars.get? ⟨some home, .named name⟩).map Term.typeVar) = _
  rw [found]
  rfl

theorem resolve_name (setting : Setting) (mode : VarMode) (text : String) (line : Nat) :
    ∃ readOptions, resolve setting mode (.name text line) =
      resolveName setting readOptions mode text line := by
  unfold resolve
  cases setting.vars.options.size with
  | zero => exact ⟨_, rfl⟩
  | succ depth => exact ⟨_, rfl⟩

/-- No built-in type is a type variable of its own name. -/
theorem primitives_ne_typeVar : ∀ entry ∈ primitives, entry.2 ≠ .typeVar entry.1 := by decide

theorem Setting.classType_ne_typeVar (setting : Setting) (name : String) :
    setting.classType name ≠ .ok (.term (.typeVar name)) := by
  unfold Setting.classType
  split
  · simp
  · have differs : "class_" ++ name ≠ "tv" ++ name := by
      intro same
      have letters := congrArg String.toList same
      simp at letters
    simp [Term.typeVar, Term.atom, differs]
  · simp

/-- A name that is no type or class is read as its type variable. -/
theorem resolve_declared (noDot : '.' ∉ name.toList) (notPrimitive : name ∉ primitives.map (·.1))
    (notClass : name ∉ setting.theory.classNames) (kept : mode ≠ .instantiated) {t : Term}
    (declared : setting.typeVar? name = .ok (some t)) (line : Nat) :
    resolve setting mode (.name name line) = pure (.term t) := by
  obtain ⟨readOptions, is⟩ := resolve_name setting mode name line
  have stays : setting.instantiates mode name = .ok false := by
    cases mode with
    | fixed => rfl
    | mixed =>
      rw [Setting.instantiates, declared]
      rfl
    | instantiated => exact absurd rfl kept
  rw [is, resolveName, baseName_of_not_mem noDot, ReadsAs.primitives_find?_eq_none notPrimitive]
  rw [if_neg (mt contains_iff_mem.mp notClass)]
  simp only [stays, declared, lift_ok, pure_bind, Bool.false_eq_true, if_false]

/-- A name that is neither, and was not renamed, is read as the type variable. -/
theorem resolve_declared_iff (noDot : '.' ∉ name.toList) {id : String}
    (declared : setting.typeVar? name = .ok (some (.typeVar id))) (kept : mode ≠ .instantiated)
    (line : Nat) (progress : Progress) :
    (resolve setting mode (.name name line)).run progress =
        (.ok (.term (.typeVar name)), progress) ↔
      name ∉ primitives.map (·.1) ∧ name ∉ setting.theory.classNames ∧ id = name := by
  constructor
  · intro same
    obtain ⟨readOptions, is⟩ := resolve_name setting mode name line
    have read := same
    rw [is, resolveName, baseName_of_not_mem noDot] at read
    have notPrimitive : name ∉ primitives.map (·.1) := by
      intro inside
      cases found : primitives.find? fun entry => entry.1 == name with
      | none =>
        obtain ⟨entry, member, named⟩ := mem_map.mp inside
        exact find?_eq_none.mp found entry member (beq_iff_eq.mpr named)
      | some entry =>
        have named : entry.1 = name := by simpa using find?_some found
        rw [found] at read
        have isType := Meaning.term.inj (run_pure_ok read).1
        exact primitives_ne_typeVar entry (mem_of_find?_eq_some found) (named ▸ isType)
    have notClass : name ∉ setting.theory.classNames := by
      intro isClass
      rw [ReadsAs.primitives_find?_eq_none notPrimitive] at read
      rw [if_pos (contains_iff_mem.mpr isClass)] at read
      exact setting.classType_ne_typeVar name (Prod.mk.inj read).1
    rw [resolve_declared noDot notPrimitive notClass kept declared] at same
    have sameVar := Meaning.term.inj (run_pure_ok same).1
    exact ⟨notPrimitive, notClass, by simpa [Term.typeVar, Term.atom] using sameVar⟩
  · rintro ⟨notPrimitive, notClass, rfl⟩
    rw [resolve_declared noDot notPrimitive notClass kept declared]
    rfl

end Hint

/-- A class has a type variable for each type parameter that it lists. A hint of its name is read as
the same type variable exactly if the name is not that of a built-in type or of a class, and not a
taken mark. -/
theorem hint_names_class_parameter_iff {settings : Settings} {base : Option String}
    {program : Program} {funcParams classParams : TypeParams} {survey : Survey} {theory : Theory}
    (surveyed : Survey.ofProgram settings base program funcParams classParams = .ok survey)
    (built : Theory.ofSurvey settings survey = .ok theory) {home : ModuleKey} {name : String}
    (declares : program.declares home name = true) (noDot : '.' ∉ name.toList)
    {className : String} {params : List TypeParam} (lists : program.Lists className params)
    (parameter : .named name ∈ params) (vars : DeclaredVars) (mode : Hint.VarMode)
    (kept : mode ≠ .instantiated) (line : Nat) (progress : Hint.Progress) :
    Infer.typeParamTerms survey.classParams className =
        params.map (fun param => .typeVar param.text) ∧
      .typeVar name ∈ Infer.typeParamTerms survey.classParams className ∧
      ((Hint.resolve ⟨theory, vars, .home home⟩ mode (.name name line)).run progress =
          (.ok (.term (.typeVar name)), progress) ↔
        name ∉ Hint.primitives.map (·.1) ∧ name ∉ theory.classNames ∧
          ∀ mark, name.toList = [mark] →
            ∀ other ∈ funcParams.keys ++ survey.classParams.keys, mark ∉ other.toList) := by
  obtain ⟨-, rfl, -⟩ := Theory.ofSurvey_eq_ok built
  have listed : Infer.typeParamTerms theory.survey.classParams className =
      params.map (fun param => .typeVar param.text) := by
    rw [Infer.typeParamTerms, ofProgram_get?_classParams surveyed lists, Option.getD_some]
  have declared := Hint.Setting.typeVar?_home (ofProgram_get?_typeVars surveyed declares) vars
  refine ⟨listed, ?_, ?_⟩
  · rw [listed]
    exact mem_map.mpr ⟨.named name, parameter, rfl⟩
  · rw [Hint.resolve_declared_iff noDot declared kept, typeVarId_eq_self_iff]
    simp only [takenMarks, mem_flatMap, not_exists, not_and]

/-- A class generic in two variables, one its own first letter. -/
def genericTree : List Stmt :=
  let declaration (name : String) : Stmt := .assign {} [.name (some 1) name .store]
    (.call (some 1) (.name (some 1) "TypeVar" .load) [.literal (some 1) (.str name none)] [])
  [declaration "T", declaration "U", .classDef ⟨{}, "Tree", [.subscript (some 3)
    (.name (some 3) "Generic" .load) (.tuple (some 3) [.name (some 3) "T" .load,
      .name (some 3) "U" .load] .load) .load], [], [.pass {}], []⟩]

/-- What can be computed of the sample. -/
@[mk_iff]
structure IsTree (program : Program) (theory : Theory) : Prop where
  declares : ∀ name ∈ ["T", "U"], program.declares .program name = true
  lists : program.Lists "Tree" [.named "T", .named "U"]
  notClass : ∀ name ∈ ["T", "U"], name ∉ theory.classNames
  generic : theory.survey.classParams.keys = ["Tree", "Iterator"]

instance (program : Program) (className : String) (params : List TypeParam) :
    Decidable (program.Lists className params) := by
  unfold Program.Lists
  infer_instance

instance (program : Program) (theory : Theory) : Decidable (IsTree program theory) :=
  decidable_of_iff _ (isTree_iff program theory).symm

theorem exists_genericTree : ∃ program theory,
    Program.read {} genericTree none = .ok program ∧
    ofProgram {} none program {} {} = .ok theory.survey ∧
    Theory.ofSurvey {} theory.survey = .ok theory ∧ IsTree program theory := by
  have evaluated : ∃ program theory, Theory.ofBody genericTree {} = .ok (program, theory) ∧
      IsTree program theory := by
    decide +kernel
  obtain ⟨program, theory, done, tree⟩ := evaluated
  obtain ⟨read, surveyed, built⟩ := Theory.ofBody_eq_ok done
  exact ⟨program, theory, read, surveyed, built, tree⟩

/-- The second type variable is no such letter. -/
theorem genericTree_reads_parameter : ∃ program theory,
    Survey.ofProgram {} none program {} {} = .ok theory.survey ∧
    Theory.ofSurvey {} theory.survey = .ok theory ∧ program.declares .program "U" = true ∧
    '.' ∉ "U".toList ∧ program.Lists "Tree" [.named "T", .named "U"] ∧
    Infer.typeParamTerms theory.survey.classParams "Tree" = [.typeVar "T", .typeVar "U"] ∧
    (Hint.resolve ⟨theory, {}, .home .program⟩ .fixed (.name "U" 1)).run ⟨{}, {}⟩ =
      (.ok (.term (.typeVar "U")), ⟨{}, {}⟩) := by
  obtain ⟨program, theory, -, surveyed, built, tree⟩ := exists_genericTree
  have declares := tree.declares "U" (by decide)
  obtain ⟨listed, -, read⟩ := hint_names_class_parameter_iff surveyed built declares (by decide)
    tree.lists (by decide) {} .fixed (by decide) 1 ⟨{}, {}⟩
  refine ⟨program, theory, surveyed, built, declares, by decide, tree.lists, listed,
    read.mpr ⟨by decide, tree.notClass "U" (by decide), ?_⟩⟩
  intro mark is
  rw [tree.generic]
  obtain rfl := singleton_inj.mp is
  decide

/-- A letter of the class is read as another type variable. -/
theorem genericTree_reads_other : ∃ program theory,
    Program.read {} genericTree none = .ok program ∧
    Survey.ofProgram {} none program {} {} = .ok theory.survey ∧
    Theory.ofSurvey {} theory.survey = .ok theory ∧ program.declares .program "T" = true ∧
    program.Lists "Tree" [.named "T", .named "U"] ∧
    Infer.typeParamTerms theory.survey.classParams "Tree" = [.typeVar "T", .typeVar "U"] ∧
    (Hint.resolve ⟨theory, {}, .home .program⟩ .fixed (.name "T" 1)).run ⟨{}, {}⟩ =
      (.ok (.term (.typeVar "T0")), ⟨{}, {}⟩) := by
  obtain ⟨program, theory, read, surveyed, built, tree⟩ := exists_genericTree
  have declares := tree.declares "T" (by decide)
  have listed : Infer.typeParamTerms theory.survey.classParams "Tree" =
      [.typeVar "T", .typeVar "U"] := by
    rw [Infer.typeParamTerms, ofProgram_get?_classParams surveyed tree.lists]
    rfl
  have renamed : theory.survey.typeVars.get? ⟨some .program, .named "T"⟩ = some "T0" := by
    rw [ofProgram_get?_typeVars surveyed declares, typeVarId, takenMarks, tree.generic]
    rfl
  refine ⟨program, theory, read, surveyed, built, declares, tree.lists, listed, ?_⟩
  rw [Hint.resolve_declared (by decide) (by decide) (tree.notClass "T" (by decide)) (by decide)
    (Hint.Setting.typeVar?_home renamed {})]
  rfl

end TypeInference
