/- Inference finds a type for each tuple, lambda and function definition. -/

import TypeInference.Proofs.Coverage

namespace TypeInference

open List Library Survey Inheritance Library

variable {survey : Survey} {nodes : List Node} {node : Node}

namespace Survey

/-- What a survey of nodes measures. -/
structure IsMeasured (survey : Survey) (nodes : List Node) : Prop where
  tuples : survey.maxTupleLength = longest nodes tupleLength
  functions : survey.maxFunctionArgs = max 1 (longest nodes argCount)
  additions : ∃ inheritance, ofClasses (classDefs nodes) = .ok inheritance ∧
    survey.additions = addMembers inheritance (classDefs nodes)

theorem isMeasured_of_ofProgram {settings : Settings} {base : Option String} {program : Program}
    {funcParams classParams : TypeParams}
    (done : ofProgram settings base program funcParams classParams = .ok survey) :
    ∃ selection, standard.selectAll survey.usedNames = .ok selection ∧
      survey.usedNames = namesUsed program.nodes ∧
      survey.IsMeasured (program.nodes ++ declaredNodes standard selection) := by
  obtain ⟨selection, _, _, _, selected, isClasses, -, rfl⟩ := ofProgram_eq_ok done
  obtain ⟨inheritance, inherited, kept⟩ := addClasses_keeps isClasses
  exact ⟨selection, kept.names ▸ selected, kept.names, kept.tuples, kept.functions, inheritance,
    inherited, kept.additions⟩

theorem le_longest {length : Node → Option Nat} {value : Nat} (member : node ∈ nodes)
    (is : length node = some value) : value ≤ longest nodes length := by
  refine foldl_reaches (value ≤ ·) (mem_filterMap.mpr ⟨node, member, is⟩) ?_ ?_
  · exact fun before => Nat.le_max_right before value
  · exact fun other before kept => Nat.le_trans kept (Nat.le_max_left before other)

end Survey

/-- A program named like a library does not import it. -/
def Program.KeepsApart (program : Program) (name : Option (String × String)) : Prop :=
  ∀ node ∈ program.nodes, ∀ library ∈ node.imports, isLibrary library = true →
    ∀ path, name ≠ some (library, path)

/-- Inference takes the module that was found before. -/
theorem Program.IsClosed.inferred {program : Program} {name : Option (String × String)}
    (isClosed : program.IsClosed name) (apart : program.KeepsApart name)
    (member : node ∈ program.nodes) {imported : String} (isImported : imported ∈ node.imports)
    {module : Module} (found : program.sources.inferred? imported = some module) :
    (Node.module module).walk ⊆ program.nodes := by
  obtain ⟨other, read, subset⟩ := isClosed.imports node member imported isImported
  suffices same : other = module from same ▸ subset
  rw [Sources.find?, Sources.keyOf] at read
  rw [Sources.inferred?] at found
  cases isLibrary : Library.standard.libraries.get? imported with
  | some library =>
    have is : Library.isLibrary imported = true := by
      rw [isLibrary_eq_isSome, isLibrary, Option.isSome_some]
    have unread := isClosed.libraries is (apart node member imported isImported is)
    rw [if_pos is, unread, isLibrary] at read
    rw [isLibrary] at found
    exact Option.some.inj (read.symm.trans found)
  | none =>
    have isNot : ¬ Library.isLibrary imported = true := by
      simp [isLibrary_eq_isSome, isLibrary]
    rw [if_neg isNot, isLibrary, Option.or_none] at read
    rw [isLibrary] at found
    exact Option.some.inj (read.symm.trans found)

namespace Survey

variable {program : Program} {name : Option (String × String)} {selection : Selection}
  {names : List String} {stmt : Stmt}

theorem mem_classDefs_iff {c : ClassDef} : c ∈ classDefs nodes ↔ .stmt (.classDef c) ∈ nodes := by
  rw [classDefs, mem_filterMap]
  constructor
  · rintro ⟨node, member, is⟩
    split at is
    · exact Option.some.inj is ▸ member
    · cases is
  · exact fun member => ⟨_, member, rfl⟩

theorem walk_subset_declaredNodes {library : Library}
    (member : node ∈ declaredNodes library selection) :
    node.walk ⊆ declaredNodes library selection := by
  intro inner below
  refine mem_declaredNodes_iff.mpr ?_
  rcases mem_declaredNodes_iff.mp member with
    ⟨stmt, isDeclared, inside⟩ | ⟨name, module, isDeclared, found, inside⟩
  · exact .inl ⟨stmt, isDeclared, Node.walk_subset inside below⟩
  · exact .inr ⟨name, module, isDeclared, found, Node.walk_subset inside below⟩

theorem isRooted_of_declared (selected : standard.selectAll names = .ok selection)
    (member : node ∈ declaredNodes standard selection) : isRooted node := by
  rcases mem_declaredNodes_iff.mp member with
    ⟨stmt, isDeclared, inside⟩ | ⟨library, module, -, found, inside⟩
  · exact isRooted_of_mem (mem_declarations selected isDeclared) inside
  · exact (isRooted_of_library (mem_map_of_mem (Table.mem_of_get? found)) inside).1

/-- Classes with a label of every program have such a name. -/
theorem isRootName_of_label (isClosed : program.IsClosed name)
    (selected : standard.selectAll names = .ok selection) {c : ClassDef}
    (member : c ∈ classDefs (program.nodes ++ declaredNodes standard selection))
    (isRoot : isRootLabel c.site.label) : isRootName c.name := by
  rcases mem_append.mp (mem_classDefs_iff.mp member) with own | declared
  · rcases isClosed.placed _ own with ⟨module, library, inside⟩ | inside
    · exact (isRooted_iff.mp (isRooted_of_library library inside).1).1 isRoot
    · exact absurd (isClosed.labelled.range inside).1 (Nat.not_le.mpr (lt_nextLabel isRoot))
  · exact (isRooted_iff.mp (isRooted_of_declared selected declared)).1 isRoot

/-- A class with a name of every program has no parents. -/
theorem bases_of_rootName (selected : standard.selectAll names = .ok selection)
    (nodes : List Node) {className : String} (isRoot : isRootName className) :
    (bases (classDefs (nodes ++ declaredNodes standard selection))).get?
      className = some [] := by
  rw [bases, classDefs, filterMap_append, map_append]
  refine Table.get?_ofList_append _ ?_ ?_
  · obtain ⟨root, taken, isName⟩ := exists_root_mem selected isRoot
    have inside : .stmt (.classDef root) ∈ declaredNodes standard selection :=
      mem_declaredNodes_iff.mpr (.inl ⟨_, taken, Node.mem_walk_iff.mpr .refl⟩)
    rw [map_map, ← isName]
    exact mem_map.mpr ⟨root, mem_classDefs_iff.mpr inside, rfl⟩
  · intro entry member same
    obtain ⟨c, inside, rfl⟩ := mem_map.mp member
    have rooted := isRooted_of_declared selected (mem_classDefs_iff.mp inside)
    have isName : c.name = className := same
    exact (isRooted_iff.mp rooted).2 (isName ▸ isRoot)

/-- Additions are methods, attributes or initialisers. -/
theorem IsMeasured.exists_of_additions (isMeasured : survey.IsMeasured nodes) {label : Nat}
    (member : stmt ∈ (survey.additions.get? label).getD []) :
    (∃ c, .stmt (.classDef c) ∈ nodes ∧ stmt ∈ c.body ∧ stmt.isInheritable) ∨
      ∃ c : ClassDef, stmt = .functionDef c.defaultInitialiser := by
  obtain ⟨inheritance, inherited, additions⟩ := isMeasured.additions
  rw [additions] at member
  obtain ⟨c, -, -, isMember | rfl⟩ := areJustified_addMembers inheritance _ label stmt member
  · obtain ⟨isInheritable, d, isClass, inside⟩ := exists_of_mem_membersOf inherited isMember
    exact .inl ⟨d, mem_classDefs_iff.mp isClass, inside, isInheritable⟩
  · exact .inr ⟨c, rfl⟩

/-- The classes of every program get only an initialiser. -/
theorem IsMeasured.eq_of_rootAdditions
    (isMeasured : survey.IsMeasured (program.nodes ++ declaredNodes standard selection))
    (isClosed : program.IsClosed name) (selected : standard.selectAll names = .ok selection)
    {root : ClassDef} (isRoot : root ∈ rootClasses)
    (member : stmt ∈ (survey.additions.get? root.site.label).getD []) :
    ∃ c : ClassDef, stmt = .functionDef c.defaultInitialiser := by
  obtain ⟨inheritance, inherited, additions⟩ := isMeasured.additions
  rw [additions] at member
  obtain ⟨c, isClass, same, inside⟩ := areJustified_addMembers inheritance _ _ stmt member
  have isName := isRootName_of_label isClosed selected isClass
    (any_eq_true.mpr ⟨root, isRoot, beq_iff_eq.mpr same.symm⟩)
  rw [membersOf_eq_nil inherited (bases_of_rootName selected _ isName)] at inside
  exact inside.elim (fun none => nomatch none) fun is => ⟨c, is⟩

end Survey

section

variable {files : Files} {body : List Stmt} {name : Option (String × String)} {program : Program}
  {settings : Settings} {base : Option String} {funcParams classParams : TypeParams}
  {survey : Survey} {theory : Theory}

/-- What is known after a program was read and surveyed. -/
theorem exists_surveyed (read : Program.read files body name = .ok program)
    (surveyed : ofProgram settings base program funcParams classParams = .ok survey)
    (built : Theory.ofSurvey settings survey = .ok theory) (apart : program.KeepsApart name) :
    ∃ selection, Surveyed theory program.sources selection
      (program.nodes ++ declaredNodes standard selection) := by
  have isClosed := Program.isClosed_of_read read
  obtain ⟨selection, selected, -, isMeasured⟩ := isMeasured_of_ofProgram surveyed
  obtain ⟨-, rfl, isSort, -⟩ := Theory.ofSurvey_eq_ok built
  have tuples : theory.sort.maxTuple = _ := (congrArg (·.maxTuple) isSort).trans isMeasured.tuples
  have functions : theory.sort.maxFunc = _ :=
    (congrArg (·.maxFunc) isSort).trans isMeasured.functions
  have closed : ∀ node ∈ program.nodes ++ declaredNodes standard selection,
      node.walk ⊆ program.nodes ++ declaredNodes standard selection := by
    intro node member
    rcases mem_append.mp member with own | declared
    · exact List.Subset.trans (isClosed.closed node own) (subset_append_left _ _)
    · exact List.Subset.trans (walk_subset_declaredNodes declared) (subset_append_right _ _)
  refine ⟨selection, closed,
    fun node member => ⟨fun is exceeds => ?_, fun is exceeds => ?_, ?_⟩, ?_, selected,
    subset_append_right _ _, fun label stmt => isMeasured.exists_of_additions, ?_⟩
  · have measured := le_longest member is
    exact absurd (tuples ▸ measured) (Nat.not_le.mpr exceeds)
  · have measured := Nat.le_trans (le_longest member is) (Nat.le_max_right 1 _)
    exact absurd (functions ▸ measured) (Nat.not_le.mpr exceeds)
  · intro imported isImported module found
    rcases mem_append.mp member with own | declared
    · exact List.Subset.trans (isClosed.inferred apart own isImported found)
        (subset_append_left _ _)
    · refine List.Subset.trans ?_ (subset_append_right _ _)
      rcases mem_declaredNodes_iff.mp declared with
        ⟨stmt, isDeclared, inside⟩ | ⟨_, library, -, isLibrary, inside⟩
      · obtain ⟨rfl, isSelected⟩ := sys_mem_of_imports selected isDeclared inside isImported
        exact Sources.walk_subset_of_sys isSelected found
      · have none := (isRooted_of_library (mem_map_of_mem (Table.mem_of_get? isLibrary)) inside).2
        rw [none] at isImported
        cases isImported
  · exact functions ▸ Nat.le_max_left 1 _
  · intro root isRoot stmt member
    exact isMeasured.eq_of_rootAdditions isClosed selected isRoot member

/-- Tuples, lambdas and function definitions are never blamed for their lengths, whatever is
imported, unless a program is known under the name of a library and imports it. -/
theorem measured_arities_never_blamed (read : Program.read files body name = .ok program)
    (surveyed : Survey.ofProgram settings base program funcParams classParams = .ok survey)
    (built : Theory.ofSurvey settings survey = .ok theory) (apart : program.KeepsApart name)
    (axioms : Axioms) :
    (Session.ofProgram theory axioms program).infer.1 ≠ .error (.arityOutOfRange .tuple) ∧
    (Session.ofProgram theory axioms program).infer.1 ≠ .error (.arityOutOfRange .function) := by
  obtain ⟨selection, known⟩ := exists_surveyed read surveyed built apart
  let limits := Limits.ofNodes theory program.sources
    (program.nodes ++ declaredNodes standard selection)
  have start : limits.Holds (Session.ofProgram theory axioms program) :=
    Session.ofProgram_holds rfl rfl fun _ => .inl
  have own := List.Subset.trans (Node.ofStmts_subset_walk program.main)
    (Program.isClosed_of_read read).main
  have covers : ∀ stmt ∈ theory.survey.expand program.main.body, limits.Covers (.stmt stmt) :=
    known.covers_expand fun stmt member =>
      known.covers_of_mem (mem_append_left _ (own (mem_map_of_mem member)))
  have accepted {fault : Fault} :=
    @Session.accepts_of_infer limits _ theory axioms program fault known.isComplete start
      (Limits.admits_of_covers covers)
  constructor
  · intro failed
    cases accepted failed rfl
  · intro failed
    cases accepted failed rfl

end

/-- A program that reads a tuple of the library `time`. -/
def timeUser : List Stmt :=
  [.importModules {} [⟨some 1, "time", none⟩],
    .assign {} [.name (some 2) "x" .store]
      (.access (some 2) (.name (some 2) "time" .load) "tzname" .load)]

/-- With its own name a program is kept apart from libraries. -/
theorem Program.keepsApart_of_not_isLibrary {name path : String}
    (isNot : isLibrary name = false) (program : Program) :
    program.KeepsApart (some (name, path)) := by
  rintro node - library - isLibrary other same
  obtain ⟨rfl, -⟩ := Prod.mk.inj (Option.some.inj same)
  exact Bool.false_ne_true (isNot.symm.trans isLibrary)

/-- The tuple in a library module is measured. -/
theorem timeUser_measured : ∃ prepared,
    Prepared.ofBody timeUser (some ("main", "main.py")) {} = .ok prepared ∧
    prepared.program.KeepsApart (some ("main", "main.py")) ∧
    prepared.infer ≠ .error (.arityOutOfRange .tuple) ∧
    prepared.infer ≠ .error (.arityOutOfRange .function) := by
  have evaluated : ∃ prepared, Prepared.ofBody timeUser (some ("main", "main.py")) {} =
      .ok prepared := by
    decide +kernel
  obtain ⟨prepared, done⟩ := evaluated
  obtain ⟨read, surveyed, built⟩ := Prepared.ofBody_eq_ok done
  have apart : prepared.program.KeepsApart (some ("main", "main.py")) :=
    Program.keepsApart_of_not_isLibrary (by decide) _
  exact ⟨prepared, done, apart,
    measured_arities_never_blamed read surveyed built apart prepared.axioms⟩

/-- Named like the library, the program takes its place. -/
theorem timeUser_as_time_blamed : ∃ prepared,
    Prepared.ofBody timeUser (some ("time", "time.py")) {} = .ok prepared ∧
    prepared.infer = .error (.arityOutOfRange .tuple) := by
  decide +kernel

end TypeInference
