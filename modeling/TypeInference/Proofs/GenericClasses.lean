/- Methods that share a constant, and so the type variables in scope. -/

import TypeInference.Proofs.NodeChanges
import TypeInference.Proofs.WellFormed

namespace TypeInference

open List Table ClassDef Survey

section

variable {body : List Stmt} {f : FunctionDef} {c : ClassDef}
  {names : List String} {selection : Selection}

theorem Node.mem_walk (node : Node) : node ∈ node.walk := by
  rw [walk, walkFrom]
  exact mem_append_left _ mem_cons_self

namespace Selection

theorem addImport_keeps {mentioned : List String} {before after : Selection} {stmt : Stmt}
    (done : addImport mentioned before stmt = .ok after) {declared : Declared}
    (member : declared ∈ before.nodes) : declared ∈ after.nodes := by
  unfold addImport at done
  split at done
  · split at done
    · exact Except.ok.inj done ▸ member
    · split at done
      · exact Except.ok.inj done ▸ member
      · split at done
        · split at done
          · obtain rfl := Except.ok.inj done
            exact mem_append_left _ member
          · simp at done
        · simp at done
  · exact Except.ok.inj done ▸ member

/-- A class is selected if all classes are. -/
theorem classDef_mem_ofBody (done : ofBody body names true = .ok selection)
    (member : .classDef c ∈ body) : .stmt (.classDef c) ∈ selection.nodes := by
  obtain ⟨imported, isImported, rfl⟩ := map_ok done
  refine mem_append_left _ ?_
  refine foldlM_invariant (fun selection => .stmt (.classDef c) ∈ selection.nodes) isImported ?_ ?_
  · refine mem_map_of_mem (mem_append_left _ (mem_append_left _ ?_))
    exact mem_filter.mpr ⟨member, rfl⟩
  · intro stmt _ before after kept added
    exact addImport_keeps added kept

end Selection

theorem Library.classDef_mem_selectAll {library : Library}
    (done : library.selectAll names = .ok selection)
    (member : .classDef c ∈ library.functions.body) : .stmt (.classDef c) ∈ selection.nodes := by
  obtain ⟨functions, isFunctions, done⟩ := bind_ok done
  have start := Selection.classDef_mem_ofBody isFunctions member
  refine foldlM_invariant (fun selection => .stmt (.classDef c) ∈ selection.nodes) done start ?_
  intro module _ before after kept added
  obtain ⟨methods, -, rfl⟩ := map_ok added
  exact mem_append_left _ kept

namespace Survey

variable {settings : Settings} {survey : Survey} {classes : List ClassDef} {next : Survey}
  {members : List Stmt}

/-- A class that lists type parameters among its bases. -/
def isGenericClass : Stmt → Bool
  | .classDef c => (splitBases c.bases).toOption.any fun split => !split.2.isEmpty
  | _ => false

theorem standard_isGenericClass : Library.standard.functions.body.any (fun stmt =>
    isGenericClass stmt && stmt.classDef?.any fun c => c.name == "Iterator") := by
  decide +kernel

/-- Every program has a generic class. -/
theorem exists_genericClass (done : Library.standard.selectAll names = .ok selection)
    (nodes : List Node) :
    ∃ c ∈ classDefs (nodes ++ declaredNodes Library.standard selection),
      isGenericClass (.classDef c) ∧ c.name = "Iterator" := by
  obtain ⟨stmt, member, generic⟩ := any_eq_true.mp standard_isGenericClass
  rw [Bool.and_eq_true] at generic
  cases stmt with
  | classDef c =>
    have selected := Library.classDef_mem_selectAll done member
    have walked : .stmt (.classDef c) ∈ declaredNodes Library.standard selection :=
      mem_flatMap.mpr ⟨_, selected, Node.mem_walk _⟩
    exact ⟨c, mem_filterMap.mpr ⟨_, mem_append_right _ walked, rfl⟩, generic.1,
      beq_iff_eq.mp generic.2⟩
  | _ => exact absurd generic.1 Bool.false_ne_true

theorem hasInitialiser_append {added : List Stmt} :
    hasInitialiser (body ++ added) = (hasInitialiser body || hasInitialiser added) :=
  any_append

/-- Additions give an initialiser to a class without one. -/
theorem addMembers_hasInitialiser (inheritance : Inheritance) (member : c ∈ classes) :
    hasInitialiser
      (c.body ++ ((addMembers inheritance classes).get? c.site.label).getD []) := by
  refine foldl_reaches (fun table : Table Nat (List Stmt) => hasInitialiser
    (c.body ++ (table.get? c.site.label).getD []) = true) member ?_ ?_
  · intro before
    rw [get?_insert_self, Option.getD_some, ← append_assoc, hasInitialiser_append,
      Bool.or_eq_true, missingInitialiser]
    by_cases has : hasInitialiser (c.body ++ (before.get? c.site.label).getD []) = true
    · exact .inl has
    · rw [if_neg has]
      exact .inr rfl
  · intro other before kept
    by_cases same : c.site.label = other.site.label
    · rw [same] at kept ⊢
      rw [get?_insert_self, Option.getD_some, ← append_assoc, hasInitialiser_append,
        kept, Bool.true_or]
    · rwa [get?_insert_of_ne _ _ same]

theorem addMethod_keys {before after : Members} (added : before.addMethod settings f = .ok after)
    {name : String} : name ∈ after.methods.keys ↔ name = f.name ∨ name ∈ before.methods.keys := by
  obtain ⟨decorators, -, added⟩ := bind_ok added
  split at added
  · exact pure_ok added ▸ mem_keys_insert
  · split at added
    · exact pure_ok added ▸ mem_keys_insert
    · exact pure_ok added ▸ mem_keys_insert

/-- The methods of a class are the functions in it. -/
theorem mem_keys_of_functionDef {start found : Members}
    (done : members.foldlM (Members.add settings) start = .ok found)
    (member : .functionDef f ∈ members) : f.name ∈ found.methods.keys := by
  refine foldlM_reaches (fun found => f.name ∈ found.methods.keys) done member
    (fun before after added => (addMethod_keys added).mpr (.inl rfl)) ?_
  intro stmt _ before after kept added
  unfold Members.add at added
  split at added
  · exact (addMethod_keys added).mpr (.inr kept)
  · exact Except.ok.inj added ▸ kept
  · exact Except.ok.inj added ▸ kept

/-- Each class that was surveyed has an initialiser. -/
def HasInitialisers (survey : Survey) : Prop :=
  ∀ methods ∈ survey.methods.values, "__init__" ∈ methods.keys

theorem addClass_hasInitialisers (before : survey.HasInitialisers)
    (member : .functionDef f ∈ members) (named : f.name = "__init__")
    (done : addClass settings survey c members = .ok next) : next.HasInitialisers := by
  obtain ⟨-, -, -, found, -, -, isFound, -, is, -⟩ := addClass_eq_ok done
  intro methods listed
  rw [is] at listed
  obtain ⟨⟨name, methods⟩, entry, rfl⟩ := mem_map.mp listed
  rcases mem_entries_insert entry with new | old
  · rw [(Prod.ext_iff.mp new).2, ← named]
    exact mem_keys_of_functionDef isFound member
  · exact before methods (mem_map_of_mem old)

theorem addClasses_hasInitialisers (before : survey.HasInitialisers)
    (done : survey.addClasses settings classes = .ok next) : next.HasInitialisers := by
  obtain ⟨inheritance, -, done⟩ := bind_ok done
  refine (foldlM_invariant (fun survey => survey.additions = addMembers inheritance classes ∧
    survey.HasInitialisers) done ⟨rfl, before⟩ ?_).2
  rintro c member survey after ⟨additions, kept⟩ added
  obtain ⟨stmt, listed, isInitialiser⟩ :=
    any_eq_true.mp (addMembers_hasInitialiser inheritance member)
  rw [← additions] at listed
  obtain ⟨-, -, -, -, -, -, -, -, -, -, same, -⟩ := addClass_eq_ok added
  refine ⟨same.additions.trans additions, ?_⟩
  cases stmt with
  | functionDef f =>
    obtain ⟨_, expanded, same⟩ := exists_mem_expandTo _ listed
    obtain ⟨g, rfl, sameName⟩ := Stmt.exists_function_of_head same
    exact addClass_hasInitialisers kept expanded (sameName.trans (beq_iff_eq.mp isInitialiser))
      added
  | _ => exact absurd isInitialiser Bool.false_ne_true

/-- A generic class has type parameters from then on. -/
theorem addClasses_mem_classParams (done : survey.addClasses settings classes = .ok next)
    (member : c ∈ classes) (generic : isGenericClass (.classDef c)) :
    c.name ∈ next.classParams.keys := by
  obtain ⟨inheritance, -, done⟩ := bind_ok done
  refine foldlM_reaches (fun survey => c.name ∈ survey.classParams.keys) done member ?_ ?_
  · intro before after added
    obtain ⟨_, _, _, _, split, -, -, -, -, -, -, -, ⟨-, rfl⟩ | ⟨_, _, params, -, -, is⟩⟩ :=
      addClass_eq_ok added
    · simp [isGenericClass, split, Except.toOption] at generic
    · rw [is]
      exact mem_keys_insert.mpr (.inl rfl)
  · intro other _ before after kept added
    obtain ⟨-, -, -, -, -, -, -, -, -, -, -, -, ⟨is, -⟩ | ⟨_, _, params, -, -, is⟩⟩ :=
      addClass_eq_ok added
    · rwa [is]
    · rw [is]
      exact mem_keys_insert.mpr (.inr kept)

/-- Every program has a generic class, and classes have initialisers. -/
theorem ofProgram_hasInitialisers {base : Option String} {program : Program}
    {funcParams classParams : TypeParams}
    (done : ofProgram settings base program funcParams classParams = .ok survey) :
    survey.HasInitialisers ∧ "Iterator" ∈ survey.classParams.keys := by
  obtain ⟨selection, withClasses, _, _, selected, isClasses, -, rfl⟩ := ofProgram_eq_ok done
  obtain ⟨c, member, generic, isName⟩ := exists_genericClass selected program.nodes
  constructor
  · change withClasses.HasInitialisers
    refine addClasses_hasInitialisers ?_ isClasses
    intro methods member
    simp [measured, Table.values] at member
  · have known := addClasses_mem_classParams isClasses member generic
    exact isName ▸ known

end Survey

namespace Theory

variable {settings : Settings} {survey : Survey} {theory : Theory}

/-- A class with type parameters has one at least. -/
theorem classParams_ne_nil (built : ofSurvey settings survey = .ok theory) {name : String}
    {params : List TypeParam} (member : (name, params) ∈ survey.classParams.entries) :
    params ≠ [] := by
  obtain ⟨_, checked, -⟩ := bind_ok built
  rintro rfl
  have empty : survey.classParams.values.any List.isEmpty = true :=
    any_eq_true.mpr ⟨[], mem_map_of_mem member, rfl⟩
  rw [checkParams, if_pos empty] at checked
  exact absurd checked (by simp)

theorem initialiser_mem_methodsIn {className : String} (initialised : survey.HasInitialisers)
    (built : ofSurvey settings survey = .ok theory)
    (member : className ∈ survey.classParams.keys) : "__init__" ∈ survey.methodsIn className := by
  obtain ⟨ofClasses, isClasses, -⟩ := bind_ok (ofSurvey_methods built)
  obtain ⟨part, done⟩ := exists_of_flatMapM isClasses member
  obtain ⟨names, named, -⟩ := bind_ok done
  unfold methodNames at named
  split at named
  · next methods found =>
    rw [methodsIn, found]
    exact initialised methods (mem_map_of_mem (mem_of_get? found))
  · simp at named

/-- Every program has a type variable in scope of a method. -/
theorem exists_scope_ne_nil {base : Option String} {program : Program}
    {funcParams classParams : TypeParams}
    (surveyed : ofProgram settings base program funcParams classParams = .ok survey)
    (built : ofSurvey settings survey = .ok theory) :
    ∃ id ∈ theory.typeVars, theory.scope id ≠ [] := by
  obtain ⟨initialised, isKey⟩ := ofProgram_hasInitialisers surveyed
  have isMethod := initialiser_mem_methodsIn initialised built isKey
  obtain ⟨⟨name, params⟩, member, rfl⟩ := mem_map.mp isKey
  obtain ⟨param, listed⟩ := exists_mem_of_ne_nil _ (classParams_ne_nil built member)
  obtain ⟨-, -, -, -, isTypeVars, -⟩ := ofSurvey_eq_ok built
  refine ⟨param.text, ?_, ne_nil_of_mem ((mem_scope_iff built).mpr
    (.inr ⟨_, member, isMethod, mem_map_of_mem listed⟩))⟩
  rw [isTypeVars, mem_eraseDups]
  refine mem_map_of_mem (mem_flatten.mpr ⟨params, ?_, listed⟩)
  exact mem_append_right _ (mem_map_of_mem member)

end Theory

end

namespace Survey

/-- A generic function or method, with its constant and type variables. -/
inductive IsGenericMethod (survey : Survey) : String → String → List TypeParam → Prop where
  | function {name : String} {params : List TypeParam}
      (entry : (name, params) ∈ survey.funcParams.entries) :
      IsGenericMethod survey name name params
  | method {className name : String} {params : List TypeParam}
      (entry : (className, params) ∈ survey.classParams.entries)
      (member : name ∈ survey.methodsIn className) :
      IsGenericMethod survey (className ++ "." ++ name) name params

/-- Functions and methods have names without a dot. -/
def NamesArePlain (survey : Survey) : Prop :=
  ∀ name ∈ survey.funcParams.keys ++ survey.classParams.keys.flatMap survey.methodsIn,
    '.' ∉ name.toList

instance (survey : Survey) : Decidable survey.NamesArePlain := List.decidableBAll _ _

namespace IsGenericMethod

variable {survey : Survey} {key constant : String} {params : List TypeParam}

section

variable (generic : survey.IsGenericMethod key constant params)
include generic

theorem dot_not_mem (plain : survey.NamesArePlain) : '.' ∉ constant.toList := by
  cases generic with
  | function entry => exact plain _ (mem_append_left _ (mem_map_of_mem entry))
  | method entry member =>
    exact plain _ (mem_append_right _ (mem_flatMap.mpr ⟨_, mem_map_of_mem entry, member⟩))

/-- The constant is what follows the last dot of the key. -/
theorem key_eq : key = constant ∨ ∃ className, key = className ++ "." ++ constant := by
  cases generic with
  | function entry => exact .inl rfl
  | method entry member => exact .inr ⟨_, rfl⟩

theorem constant_unique {other : String} {others : List TypeParam}
    (second : survey.IsGenericMethod key other others) (plain : survey.NamesArePlain) :
    constant = other := by
  have noDot := generic.dot_not_mem plain
  have noOther := second.dot_not_mem plain
  rcases generic.key_eq with rfl | ⟨className, rfl⟩
  · rcases second.key_eq with same | ⟨otherClass, same⟩
    · exact same
    · simp [same] at noDot
  · rcases second.key_eq with same | ⟨otherClass, same⟩
    · simp [← same] at noOther
    · have letters := congrArg String.toList same
      simp only [String.toList_append, append_assoc] at letters
      exact String.toList_inj.mp (append_cons_injective noDot noOther letters).2

end

end IsGenericMethod

end Survey

namespace Theory

variable {settings : Settings} {survey : Survey} {theory : Theory} {base : Option String}
  {program : Program}

/-- The table has generic functions and methods of generic classes. -/
theorem get?_methods_iff (built : ofSurvey settings survey = .ok theory)
    (plain : survey.NamesArePlain) {key constant : String} :
    theory.methods.get? key = some constant ↔
      ∃ params, survey.IsGenericMethod key constant params := by
  obtain ⟨ofClasses, isClasses, is⟩ := bind_ok (ofSurvey_methods built)
  have listed {key constant : String} : (key, constant) ∈ survey.funcParams.keys.map
      (fun name => (name, name)) ++ ofClasses ↔
      ∃ params, survey.IsGenericMethod key constant params := by
    rw [mem_append, mem_flatMapM_iff isClasses]
    constructor
    · rintro (isFunction | ⟨className, isKey, part, done, inside⟩)
      · obtain ⟨name, isKey, same⟩ := mem_map.mp isFunction
        obtain ⟨rfl, rfl⟩ := Prod.mk.inj same
        obtain ⟨⟨name, params⟩, entry, rfl⟩ := mem_map.mp isKey
        exact ⟨params, .function entry⟩
      · obtain ⟨names, named, rfl⟩ := map_ok done
        obtain ⟨name, isMethod, same⟩ := mem_map.mp inside
        obtain ⟨rfl, rfl⟩ := Prod.mk.inj same
        obtain ⟨⟨className, params⟩, entry, rfl⟩ := mem_map.mp isKey
        exact ⟨params, .method entry (methodNames_eq_ok named ▸ isMethod)⟩
    · rintro ⟨params, generic⟩
      cases generic with
      | function entry => exact .inl (mem_map_of_mem (mem_map_of_mem entry))
      | @method className name params entry member =>
        have isKey : className ∈ survey.classParams.keys := mem_map_of_mem entry
        obtain ⟨part, done⟩ := exists_of_flatMapM isClasses isKey
        refine .inr ⟨className, isKey, part, done, ?_⟩
        obtain ⟨names, named, done⟩ := bind_ok done
        rw [methodNames_eq_ok named] at member
        exact pure_ok done ▸ mem_map_of_mem member
  rw [← pure_ok is, Table.get?_eq_some_iff (Table.nodup_keys_ofList _)]
  constructor
  · intro member
    exact listed.mp (Table.mem_of_mem_ofList member)
  · rintro ⟨params, generic⟩
    have isKey := Table.mem_keys_ofList.mpr (mem_map_of_mem (listed.mpr ⟨params, generic⟩))
    obtain ⟨⟨key, other⟩, entry, rfl⟩ := mem_map.mp isKey
    obtain ⟨others, second⟩ := listed.mp (Table.mem_of_mem_ofList entry)
    exact generic.constant_unique second plain ▸ entry

/-- Different keys have different constants. -/
def KeepsMethodsApart (theory : Theory) : Prop :=
  ∀ first second constant, theory.methods.get? first = some constant →
    theory.methods.get? second = some constant → first = second

/-- Constants are kept apart only with one generic class. -/
theorem keepsMethodsApart_iff {funcParams classParams : TypeParams}
    (surveyed : ofProgram settings base program funcParams classParams = .ok survey)
    (built : ofSurvey settings survey = .ok theory) (plain : survey.NamesArePlain) :
    theory.KeepsMethodsApart ↔ (∀ className ∈ survey.classParams.keys, className = "Iterator") ∧
      ∀ name ∈ survey.funcParams.keys, name ∉ survey.methodsIn "Iterator" := by
  obtain ⟨initialised, isIterator⟩ := ofProgram_hasInitialisers surveyed
  have known {key constant : String} {params : List TypeParam}
      (generic : survey.IsGenericMethod key constant params) :
      theory.methods.get? key = some constant :=
    (get?_methods_iff built plain).mpr ⟨params, generic⟩
  constructor
  · intro apart
    obtain ⟨⟨iterator, listed⟩, entry, rfl⟩ := mem_map.mp isIterator
    constructor
    · intro className isKey
      have shared := initialiser_mem_methodsIn initialised built isKey
      have standard := initialiser_mem_methodsIn initialised built isIterator
      obtain ⟨⟨className, params⟩, other, rfl⟩ := mem_map.mp isKey
      have same := apart _ _ _ (known (.method other shared)) (known (.method entry standard))
      exact (String.append_left_inj _).mp ((String.append_left_inj _).mp same)
    · intro name isKey isMethod
      obtain ⟨⟨name, params⟩, function, rfl⟩ := mem_map.mp isKey
      have same := apart _ _ _ (known (.function function)) (known (.method entry isMethod))
      have long := congrArg String.length same
      simp at long
  · rintro ⟨only, others⟩ first second constant isFirst isSecond
    obtain ⟨params, one⟩ := (get?_methods_iff built plain).mp isFirst
    obtain ⟨otherParams, two⟩ := (get?_methods_iff built plain).mp isSecond
    have iterator {className : String} {params : List TypeParam}
        (entry : (className, params) ∈ survey.classParams.entries) : className = "Iterator" :=
      only className (mem_map_of_mem entry)
    cases one with
    | function entry =>
      cases two with
      | function other => rfl
      | method other member =>
        exact absurd (iterator other ▸ member) (others _ (mem_map_of_mem entry))
    | method entry member =>
      cases two with
      | function other =>
        exact absurd (iterator entry ▸ member) (others _ (mem_map_of_mem other))
      | method other second => rw [iterator entry, iterator other]

/-- The constant of a function or a method is named like it, whatever its class. So constants are
kept apart exactly if there is no second generic class and no generic function is named like a
method of the first. Then a type variable is in scope only where it is declared. -/
theorem method_scopes_by_name {funcParams classParams : TypeParams}
    (surveyed : ofProgram settings base program funcParams classParams = .ok survey)
    (built : ofSurvey settings survey = .ok theory) (plain : survey.NamesArePlain) :
    (∀ key constant, theory.methods.get? key = some constant ↔
      ∃ params, survey.IsGenericMethod key constant params) ∧
    (theory.KeepsMethodsApart ↔ (∀ className ∈ survey.classParams.keys, className = "Iterator") ∧
      ∀ name ∈ survey.funcParams.keys, name ∉ survey.methodsIn "Iterator") ∧
    (∀ id constant, constant ∈ theory.scope id ↔ survey.lastFunction? id = some constant ∨
      ∃ entry ∈ survey.classParams.entries,
        constant ∈ survey.methodsIn entry.1 ∧ id ∈ entry.2.map TypeParam.text) ∧
    (theory.KeepsMethodsApart → ∀ key constant id, theory.methods.get? key = some constant →
      constant ∈ theory.scope id → ∃ params, survey.IsGenericMethod key constant params ∧
        id ∈ params.map TypeParam.text) := by
  refine ⟨fun _ _ => get?_methods_iff built plain, keepsMethodsApart_iff surveyed built plain,
    fun _ _ => mem_scope_iff built, ?_⟩
  intro apart key constant id isKey inScope
  obtain ⟨declared, params, generic, listed⟩ : ∃ declared params,
      survey.IsGenericMethod declared constant params ∧ id ∈ params.map TypeParam.text := by
    rcases (mem_scope_iff built).mp inScope with last | ⟨⟨className, params⟩, entry, member, listed⟩
    · obtain ⟨params, entry, listed⟩ := exists_of_lastFunction? last
      exact ⟨_, params, .function entry, listed⟩
    · exact ⟨_, params, .method entry member, listed⟩
  have same := apart key declared constant isKey
    ((get?_methods_iff built plain).mpr ⟨params, generic⟩)
  exact ⟨params, same ▸ generic, listed⟩

/-- A generic function beside the class of every program. -/
theorem lone_function_kept_apart : ∃ program theory params,
    ofProgram {} none program ⟨[("f", [.named "T"])]⟩ {} = .ok theory.survey ∧
    ofSurvey {} theory.survey = .ok theory ∧ theory.survey.NamesArePlain ∧
    theory.KeepsMethodsApart ∧ theory.methods.get? "f" = some "f" ∧ "f" ∈ theory.scope "T" ∧
    theory.survey.IsGenericMethod "f" "f" params ∧ "T" ∈ params.map TypeParam.text := by
  have evaluated : ∃ program theory, ofBody [] ⟨[("f", [.named "T"])]⟩ = .ok (program, theory) ∧
      theory.survey.NamesArePlain ∧ theory.survey.classParams.keys = ["Iterator"] ∧
      theory.survey.funcParams.entries = [("f", [.named "T"])] ∧
      "f" ∉ theory.survey.methodsIn "Iterator" := by
    decide +kernel
  obtain ⟨program, theory, done, plain, classes, functions, apart⟩ := evaluated
  obtain ⟨-, surveyed, built⟩ := ofBody_eq_ok done
  obtain ⟨constants, keeps, scopes, only⟩ := method_scopes_by_name surveyed built plain
  have isGeneric : theory.survey.IsGenericMethod "f" "f" [.named "T"] :=
    .function (functions ▸ mem_singleton_self _)
  have names : theory.survey.funcParams.keys = ["f"] := by
    rw [Table.keys, functions]
    rfl
  have isApart : theory.KeepsMethodsApart := keeps.mpr ⟨by simp [classes], by simp [names, apart]⟩
  have isKey := (constants "f" "f").mpr ⟨_, isGeneric⟩
  have inScope : "f" ∈ theory.scope "T" :=
    (scopes "T" "f").mpr (.inl (by rw [lastFunction?, functions]; rfl))
  obtain ⟨params, generic, listed⟩ := only isApart "f" "f" "T" isKey inScope
  exact ⟨program, theory, params, surveyed, built, plain, isApart, isKey, inScope, generic, listed⟩

/-- A generic class. -/
def genericBox : List Stmt :=
  [.classDef ⟨{}, "Box", [.subscript (some 1) (.name (some 1) "Generic" .load)
    (.name (some 1) "T" .load) .load], [], [.pass {}], []⟩]

/-- Initialisers share a constant, so the type variable of a class is in scope of another one. -/
theorem genericBox_shares_scope : ∃ program theory,
    Program.read {} genericBox none = .ok program ∧
    ofProgram {} none program {} {} = .ok theory.survey ∧
    ofSurvey {} theory.survey = .ok theory ∧
    theory.survey.classParams.get? "Box" = some [.named "T"] ∧
    theory.survey.classParams.get? "Iterator" = some [.named "Titer"] ∧
    theory.methods.get? "Box.__init__" = some "__init__" ∧
    theory.methods.get? "Iterator.__init__" = some "__init__" ∧
    "__init__" ∈ theory.scope "T" := by
  have evaluated : ∃ program theory, ofBody genericBox {} = .ok (program, theory) ∧
      theory.survey.classParams.get? "Box" = some [.named "T"] ∧
      theory.survey.classParams.get? "Iterator" = some [.named "Titer"] ∧
      theory.methods.get? "Box.__init__" = some "__init__" ∧
      theory.methods.get? "Iterator.__init__" = some "__init__" ∧
        "__init__" ∈ theory.scope "T" := by
    decide +kernel
  obtain ⟨program, theory, done, facts⟩ := evaluated
  obtain ⟨read, surveyed, built⟩ := ofBody_eq_ok done
  exact ⟨program, theory, read, surveyed, built, facts⟩

end Theory

end TypeInference
