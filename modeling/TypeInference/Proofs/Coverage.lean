/- An inference comes to infer nothing but what was surveyed before. -/

import TypeInference.Proofs.Declarations
import TypeInference.Proofs.InferenceFaults
import TypeInference.Proofs.Inheritance

namespace TypeInference

open List

/-- The last entries of a list decide what a table has. -/
theorem Table.get?_ofList_append {κ α : Type} [BEq κ] [LawfulBEq κ] {key : κ} {value : α}
    (front : List (κ × α)) {back : List (κ × α)} (known : key ∈ back.map (·.1))
    (same : ∀ entry ∈ back, entry.1 = key → entry.2 = value) :
    (ofList (front ++ back)).get? key = some value := by
  rw [ofList, union, foldl_append]
  induction back using List.reverseRecOn with
  | nil => simp at known
  | append_singleton rest last ih =>
    rw [foldl_append, foldl_cons, foldl_nil]
    by_cases here : last.1 = key
    · rw [here, get?_insert_self, same last (by simp) here]
    · rw [get?_insert_of_ne _ _ (Ne.symm here)]
      refine ih ?_ fun entry member => same entry (mem_append_left _ member)
      simpa [Ne.symm here] using known

/-- A method, or an attribute of a class. -/
def Stmt.isInheritable (stmt : Stmt) : Bool :=
  stmt.methodName?.isSome || stmt.assignedName?.isSome

namespace Inheritance

theorem isSome_of_mem_added {nameOf : Stmt → Option String} {known body : List Stmt} {stmt : Stmt}
    (member : stmt ∈ added nameOf known body) : (nameOf stmt).isSome := by
  have taken := (mem_filter.mp member).2
  cases name : nameOf stmt with
  | none => simp [name] at taken
  | some _ => rfl

variable {classes : List ClassDef} {inheritance : Inheritance} {name : String}

theorem addClass_eq_give {c : ClassDef} {next : Inheritance}
    (done : addClass classes inheritance c = .ok next) :
    ∃ order start gathered, (bases classes).linearize c.name = .ok order ∧
      start.methods = [] ∧ start.attributes = [] ∧
      inheritAll (named classes) c start order = .ok gathered ∧
      next = inheritance.give c gathered := by
  obtain ⟨order, isOrder, done⟩ := bind_ok done
  obtain ⟨gathered, isGathered, done⟩ := bind_ok done
  exact ⟨order, _, gathered, isOrder, rfl, rfl, isGathered, (pure_ok done).symm⟩

/-- What a class inherits stands in the text of some class. -/
theorem exists_of_mem_membersOf (done : ofClasses classes = .ok inheritance) {stmt : Stmt}
    (member : stmt ∈ inheritance.membersOf name) :
    stmt.isInheritable ∧ ∃ c ∈ classes, stmt ∈ c.body := by
  refine foldlM_invariant (fun inheritance : Inheritance => ∀ name,
    ∀ stmt ∈ inheritance.membersOf name,
      stmt.isInheritable = true ∧ ∃ c ∈ classes, stmt ∈ c.body) done
    (fun _ _ none => nomatch none) ?_ name stmt member
  intro c _ before after kept added name stmt member
  obtain ⟨order, start, gathered, -, noMethods, noAttributes, isGathered, rfl⟩ :=
    addClass_eq_give added
  by_cases same : name = c.name
  · rw [same, membersOf_give_self] at member
    refine inheritAll_invariant (fun gathered => ∀ stmt ∈ gathered.methods ++ gathered.attributes,
      stmt.isInheritable = true ∧ ∃ c ∈ classes, stmt ∈ c.body) isGathered ?_ ?_ stmt member
    · simp [noMethods, noAttributes]
    · intro before name ancestor found kept stmt member
      have isClass := (name_of_get?_named found).1
      simp only [Gathered.extend, mem_append] at member
      rcases member with (old | new) | (old | new)
      · exact kept stmt (mem_append_left _ old)
      · exact ⟨Bool.or_eq_true_iff.mpr (.inl (isSome_of_mem_added new)), ancestor, isClass,
          (mem_filter.mp new).1⟩
      · exact kept stmt (mem_append_right _ old)
      · exact ⟨Bool.or_eq_true_iff.mpr (.inr (isSome_of_mem_added new)), ancestor, isClass,
          (mem_filter.mp new).1⟩
  · rw [membersOf_give_of_ne before gathered same] at member
    exact kept name stmt member

theorem linearize_root {bases : Bases} (root : bases.get? name = some []) :
    bases.linearize name = .ok [name] := by
  refine Bases.linearizeWithin_eq_ok.mpr ⟨[], [], [], root, rfl, ?_, rfl⟩
  rw [Merge.run_of_none rfl]
  rfl

/-- A class without parents inherits nothing. -/
theorem membersOf_eq_nil (done : ofClasses classes = .ok inheritance)
    (root : (bases classes).get? name = some []) : inheritance.membersOf name = [] := by
  refine foldlM_invariant (fun inheritance : Inheritance => inheritance.membersOf name = [])
    done rfl ?_
  intro c _ before after kept added
  obtain ⟨order, start, gathered, isOrder, noMethods, noAttributes, isGathered, rfl⟩ :=
    addClass_eq_give added
  by_cases same : name = c.name
  · subst same
    obtain rfl := Except.ok.inj ((linearize_root root).symm.trans isOrder)
    rw [inheritAll_cons_eq_ok, if_pos rfl] at isGathered
    obtain rfl := Except.ok.inj isGathered
    rw [membersOf_give_self, noMethods, noAttributes, nil_append]
  · rw [membersOf_give_of_ne before gathered same, kept]

end Inheritance

namespace Survey

/-- Additions are inherited by a class with the label, or its initialiser. -/
def AreJustified (inheritance : Inheritance) (classes : List ClassDef)
    (additions : Table Nat (List Stmt)) : Prop :=
  ∀ label, ∀ stmt ∈ (additions.get? label).getD [], ∃ c ∈ classes, c.site.label = label ∧
    (stmt ∈ inheritance.membersOf c.name ∨ stmt = .functionDef c.defaultInitialiser)

theorem AreJustified.insert {inheritance : Inheritance} {classes : List ClassDef}
    {additions : Table Nat (List Stmt)} (before : AreJustified inheritance classes additions)
    {c : ClassDef} (member : c ∈ classes) {more : List Stmt}
    (new : ∀ stmt ∈ more, stmt ∈ inheritance.membersOf c.name ∨
      stmt = .functionDef c.defaultInitialiser) :
    AreJustified inheritance classes
      (additions.insert c.site.label ((additions.get? c.site.label).getD [] ++ more)) := by
  intro label stmt inside
  by_cases same : label = c.site.label
  · rw [same, Table.get?_insert_self] at inside
    rcases mem_append.mp inside with old | added
    · exact same ▸ before _ stmt old
    · exact ⟨c, member, same.symm, new stmt added⟩
  · rw [Table.get?_insert_of_ne _ _ same] at inside
    exact before label stmt inside

theorem areJustified_addMembers (inheritance : Inheritance) (classes : List ClassDef) :
    AreJustified inheritance classes (addMembers inheritance classes) := by
  refine List.foldlRecOn (motive := AreJustified inheritance classes) classes _
    (List.foldlRecOn (motive := AreJustified inheritance classes) classes _ ?_ ?_) ?_
  · intro label stmt none
    cases none
  · intro before kept c member
    exact kept.insert member fun stmt => .inl
  · intro before kept c member
    refine kept.insert member fun stmt inside => .inr ?_
    unfold ClassDef.missingInitialiser at inside
    split at inside
    · cases inside
    · exact mem_singleton.mp inside

end Survey

open Library Node Selection Survey Limits

variable {result : Stmt} {node : Node} {stmt : Stmt} {module : Module}

open Node (Each each_nil each_cons ofStmts)

/-- The module that inference takes for an import, a library first. -/
def Sources.inferred? (sources : Sources) (name : String) : Option Module :=
  (standard.libraries.get? name).or (sources.modules.get? (Files.moduleName name))

/-- The library with the class `IO` is among the declarations if selected. -/
theorem Sources.walk_subset_of_sys {sources : Sources} {selection : Selection}
    (selected : .library "sys" ∈ selection.nodes) (found : sources.inferred? "sys" = some module) :
    (Node.module module).walk ⊆ declaredNodes standard selection := by
  have isLibrary : (standard.libraries.get? "sys").isSome = true := by
    rw [← isLibrary_eq_isSome]
    decide
  obtain ⟨library, isSys⟩ := Option.isSome_iff_exists.mp isLibrary
  rw [inferred?, isSys] at found
  obtain rfl := Option.some.inj found
  exact fun node inside =>
    mem_declaredNodes_iff.mpr (.inr ⟨"sys", library, selected, isSys, inside⟩)

/-- An inference that comes to infer only given nodes. The class `IO` may count as used once `open`
does. -/
def Limits.ofNodes (theory : Theory) (sources : Sources) (nodes : List Node) : Limits where
  theory := theory
  sources := sources
  named name := name ∈ theory.survey.usedNames ∨ name = "IO" ∧ "open" ∈ theory.survey.usedNames
  imported name := ∀ module, sources.inferred? name = some module →
    (Node.module module).walk ⊆ nodes
  blamed arity := arity = .typeArguments
  typeArguments _ := rfl

instance (theory : Theory) (sources : Sources) (nodes : List Node) :
    (ofNodes theory sources nodes).IsLenient := ⟨fun _ => trivial⟩

theorem Node.imports_head (stmt : Stmt) :
    (Node.stmt stmt.head).imports = (Node.stmt stmt).imports := by
  cases stmt <;> rfl

theorem Survey.argCount_head (stmt : Stmt) :
    argCount (.stmt stmt.head) = argCount (.stmt stmt) := by
  cases stmt <;> rfl

variable {limits : Limits} {property : Node → Prop}

/-- A node without a length or an arity fits if its imports do. -/
theorem Limits.Fits.of_imports (noTuple : tupleLength node = none)
    (noArgs : argCount node = none) (imports : ∀ name ∈ node.imports, limits.imported name) :
    limits.Fits node where
  tuple isTuple := by
    rw [noTuple] at isTuple
    cases isTuple
  function counted := by
    rw [noArgs] at counted
    cases counted
  imports := imports

/-- A node without a length, an arity or an import fits. -/
theorem Limits.Fits.of_none (noTuple : tupleLength node = none)
    (noArgs : argCount node = none) (noImports : node.imports = []) : limits.Fits node := by
  refine .of_imports noTuple noArgs ?_
  rw [noImports]
  exact forall_mem_nil _

theorem Limits.isLocal_fits (limits : Limits) : Node.IsLocal limits.Fits where
  handler _ := .of_none rfl rfl rfl
  part _ := .of_none rfl rfl rfl
  head {first second} same fits := by
    refine ⟨nofun, fun counted => fits.function ?_, ?_⟩
    · rwa [← argCount_head, ← same, argCount_head]
    · rw [← imports_head, same, imports_head]
      exact fits.imports

theorem Node.stmt_mem_walk_class {c : ClassDef} (member : stmt ∈ c.body) :
    .stmt stmt ∈ (Node.stmt (.classDef c)).walk := by
  obtain ⟨site, name, bases, keywords, body, decorators⟩ := c
  have inBody : Node.stmt stmt ∈ ofStmts body := mem_map_of_mem member
  exact mem_walk_iff.mpr (.single (mem_append_left _ (mem_append_right _ inBody)))

/-- An initialiser has a receiver and an empty body. -/
theorem ClassDef.all_defaultInitialiser (c : ClassDef)
    (own : property (.stmt (.functionDef c.defaultInitialiser)))
    (inputs : ∀ params, property (.params params)) (input : ∀ param, property (.param param))
    (pass : ∀ site, property (.stmt (.pass site))) :
    (Node.stmt (.functionDef c.defaultInitialiser)).All property := by
  have receiver : (Node.params c.defaultInitialiser.params).All property :=
    all_iff.mpr ⟨inputs _, each_cons.mpr ⟨all_iff.mpr ⟨input _, each_nil⟩, each_nil⟩⟩
  refine all_iff.mpr ⟨own, each_cons.mpr ⟨receiver, each_cons.mpr ⟨?_, each_nil⟩⟩⟩
  exact all_iff.mpr ⟨pass _, each_nil⟩

section Heads

variable {stmt : Stmt}

theorem Stmt.eq_importFrom_of_head {site : Site} {moduleName : Option String} {names : List Alias}
    {level : Int} (same : .importFrom site moduleName names level = stmt.head) :
    stmt = .importFrom site moduleName names level := by
  cases stmt with
  | importFrom => exact same.symm
  | _ => cases same

theorem Selection.isClass_head : isClass stmt.head = isClass stmt := by cases stmt <;> rfl

theorem Selection.definesUsed_head (names : List String) :
    definesUsed names stmt.head = definesUsed names stmt := by
  cases stmt <;> rfl

theorem Stmt.isTypeVarDeclaration_head :
    stmt.head.isTypeVarDeclaration = stmt.isTypeVarDeclaration := by
  cases stmt <;> rfl

theorem Library.isQuiet_head : isQuiet (.stmt stmt.head) = isQuiet (.stmt stmt) := by
  cases stmt <;> rfl

end Heads

/-- The classes of every program get only an initialiser. -/
def Survey.SparesRoots (survey : Survey) : Prop :=
  ∀ root ∈ rootClasses, ∀ stmt ∈ (survey.additions.get? root.site.label).getD [],
    ∃ c : ClassDef, stmt = .functionDef c.defaultInitialiser

/-- Additions to the classes of every program are initialisers. -/
theorem Survey.SparesRoots.all_expandTo {survey : Survey} (spares : survey.SparesRoots)
    (isLocal : Node.IsLocal property)
    (rooted : ∀ c, property (.stmt (.classDef c)) → isRootLabel c.site.label)
    (given : ∀ c : ClassDef, (Node.stmt (.functionDef c.defaultInitialiser)).All property)
    (all : (Node.stmt stmt).All property) {depth : Nat}
    (member : result ∈ expandTo survey.additions depth [stmt]) :
    (Node.stmt result).All property := by
  have start : Each property (ofStmts [stmt]) := each_cons.mpr ⟨all, each_nil⟩
  refine forall_mem_map.mp (each_expandTo isLocal (fun c own => ?_) depth start) result member
  obtain ⟨root, isClass, same⟩ := any_eq_true.mp (rooted c own)
  refine forall_mem_map.mpr fun stmt inside => ?_
  rw [← beq_iff_eq.mp same] at inside
  obtain ⟨d, rfl⟩ := spares root isClass stmt inside
  exact given d

/-- What is known of nodes after a survey. -/
structure Surveyed (theory : Theory) (sources : Sources) (selection : Selection)
    (nodes : List Node) : Prop where
  closed : ∀ node ∈ nodes, node.walk ⊆ nodes
  fits : ∀ node ∈ nodes, (ofNodes theory sources nodes).Fits node
  /-- The type sort has functions of one argument. -/
  functions : 1 ≤ theory.sort.maxFunc
  selected : standard.selectAll theory.survey.usedNames = .ok selection
  declared : declaredNodes standard selection ⊆ nodes
  additions : ∀ label, ∀ stmt ∈ (theory.survey.additions.get? label).getD [],
    (∃ c, .stmt (.classDef c) ∈ nodes ∧ stmt ∈ c.body ∧ stmt.isInheritable = true) ∨
      ∃ c : ClassDef, stmt = .functionDef c.defaultInitialiser
  roots : theory.survey.SparesRoots

namespace Surveyed

variable {theory : Theory} {sources : Sources} {selection : Selection} {nodes : List Node}
  (surveyed : Surveyed theory sources selection nodes)

include surveyed

theorem covers_of_mem (member : node ∈ nodes) : (ofNodes theory sources nodes).Covers node :=
  fun inner inside => surveyed.fits inner (surveyed.closed node member inside)

theorem covers_initialiser (c : ClassDef) :
    (ofNodes theory sources nodes).Covers (.stmt (.functionDef c.defaultInitialiser)) := by
  refine c.all_defaultInitialiser ⟨nofun, fun counted exceeds => ?_, nofun⟩
    (fun _ => .of_none rfl rfl rfl) (fun _ => .of_none rfl rfl rfl)
    fun _ => .of_none rfl rfl rfl
  obtain rfl := Option.some.inj counted
  exact absurd surveyed.functions (Nat.not_le.mpr exceeds)

/-- What fits still fits with the additions of its classes. -/
theorem covers_expand {body : List Stmt}
    (covers : ∀ stmt ∈ body, (ofNodes theory sources nodes).Covers (.stmt stmt)) :
    ∀ stmt ∈ theory.survey.expand body,
      (ofNodes theory sources nodes).Covers (.stmt stmt) := by
  have isLocal := (ofNodes theory sources nodes).isLocal_fits
  have added (c : ClassDef) : Each (ofNodes theory sources nodes).Fits
      (ofStmts ((theory.survey.additions.get? c.site.label).getD [])) := by
    refine forall_mem_map.mpr fun stmt member => ?_
    rcases surveyed.additions _ stmt member with ⟨d, isClass, inside, -⟩ | ⟨d, rfl⟩
    · exact surveyed.covers_of_mem (surveyed.closed _ isClass (stmt_mem_walk_class inside))
    · exact surveyed.covers_initialiser d
  exact forall_mem_map.mp (each_expandTo isLocal (fun c _ => added c) _ (forall_mem_map.mpr covers))

/-- No addition mentions the class `IO`. -/
theorem isQuiet_expandTo (quiet : (Node.stmt stmt).All (isQuiet · = true)) {depth : Nat}
    (member : result ∈ expandTo theory.survey.additions depth [stmt]) :
    (Node.stmt result).All (isQuiet · = true) := by
  have isLocal : Node.IsLocal (isQuiet · = true) := by
    refine ⟨fun _ => rfl, fun _ => rfl, fun {first second} same isQuiet => ?_⟩
    rwa [← isQuiet_head, same, isQuiet_head]
  exact surveyed.roots.all_expandTo isLocal (fun _ => id)
    (fun c => c.all_defaultInitialiser rfl (fun _ => rfl) (fun _ => rfl) fun _ => rfl) quiet member

section Selects

variable {body : List Stmt} {names : List String} (known : body ⊆ declarations)
  (named : ∀ name ∈ names, (ofNodes theory sources nodes).named name)

include known named

/-- What is chosen is the expansion of a selected declaration. -/
theorem exists_of_mem_chosen
    (member : result ∈ chosen (theory.survey.expand body) names false) :
    ∃ stmt ∈ declarations, .stmt stmt ∈ selection.nodes ∧
      result ∈ theory.survey.expand [stmt] ∧
      (definesUsed ["open"] stmt → "open" ∈ theory.survey.usedNames) := by
  obtain ⟨inside, used⟩ := mem_chosen_iff.mp member
  obtain ⟨stmt, isStmt, expanded⟩ := mem_expandTo_iff.mp inside
  have declared := known isStmt
  have same := head_of_mem_expandTo expanded
  have usedName (defines : definesUsed names result = true) :
      definesUsed theory.survey.usedNames stmt = true := by
    rw [← definesUsed_head, same] at defines
    cases stmt with
    | functionDef f =>
      have noClass : f.name ≠ "IO" := by
        simpa [isDeclaration] using isDeclaration_of_mem declared
      have member := contains_iff_mem.mp defines
      exact contains_iff_mem.mpr ((named f.name member).resolve_right fun is => noClass is.1)
    | _ => cases defines
  rw [← isClass_head, ← Stmt.isTypeVarDeclaration_head, same, isClass_head,
    Stmt.isTypeVarDeclaration_head] at used
  have taken := used.imp (·.1) (Or.imp_right usedName)
  refine ⟨stmt, declared, stmt_mem surveyed.selected declared taken, expanded, fun isOpen => ?_⟩
  cases stmt with
  | functionDef f =>
    have isName : f.name = "open" := mem_singleton.mp (contains_iff_mem.mp isOpen)
    rcases taken with isClass | isVar | defines
    · cases isClass
    · cases isVar
    · exact isName ▸ contains_iff_mem.mp defines
  | _ => cases isOpen

theorem open_mem_usedNames
    (mentions : "IO" ∈ mentioned (chosen (theory.survey.expand body) names false)) :
    "open" ∈ theory.survey.usedNames := by
  obtain ⟨result, member, line, usage, inside⟩ := mem_mentioned_iff.mp mentions
  obtain ⟨stmt, declared, -, expanded, isOpen⟩ := surveyed.exists_of_mem_chosen known named member
  by_cases other : definesUsed ["open"] stmt = true
  · exact isOpen other
  have quiet : (Node.stmt stmt).All (isQuiet · = true) := by
    intro node below
    have tame := isTame_of_mem declared below
    simp only [isTame, Bool.and_eq_true, Bool.or_eq_true] at tame
    exact tame.2.resolve_right other
  exact absurd (surveyed.isQuiet_expandTo quiet expanded _ inside) Bool.false_ne_true

/-- An import among declarations is that of the class `IO`. -/
theorem eq_of_imported (member : result ∈ theory.survey.expand body) {library name : String}
    (imported : imported? (mentioned
      (chosen (theory.survey.expand body) names false)) result = some (library, name)) :
    (∃ site items level, result = .importFrom site (some "sys") items level) ∧ name = "IO" ∧
      "open" ∈ theory.survey.usedNames := by
  obtain ⟨site, items, level, item, rfl, notTyping, found, rfl⟩ := imported?_eq_some_iff.mp imported
  obtain ⟨stmt, isStmt, expanded⟩ := mem_expandTo_iff.mp member
  obtain rfl := Stmt.eq_importFrom_of_head (head_of_mem_expandTo expanded)
  obtain ⟨rfl, all⟩ := eq_sys (isDeclaration_of_mem (known isStmt)) notTyping
  have isName := all item (mem_of_find?_eq_some found)
  refine ⟨⟨site, items, level, rfl⟩, isName, surveyed.open_mem_usedNames known named ?_⟩
  have mentions := find?_some found
  rwa [isName, contains_iff_mem] at mentions

end Selects

theorem sys_imported (used : "open" ∈ theory.survey.usedNames) :
    (ofNodes theory sources nodes).imported "sys" :=
  fun _ found => List.Subset.trans (Sources.walk_subset_of_sys
    (sys_mem_of_open surveyed.selected used) found) surveyed.declared

theorem covers_declared (isDeclared : .stmt stmt ∈ selection.nodes)
    (expanded : result ∈ theory.survey.expand [stmt]) :
    (ofNodes theory sources nodes).Covers (.stmt result) := by
  have member : .stmt stmt ∈ nodes := surveyed.declared
    (mem_declaredNodes_iff.mpr (.inl ⟨stmt, isDeclared, mem_walk_iff.mpr .refl⟩))
  refine surveyed.covers_expand (fun other here => ?_) result expanded
  obtain rfl := mem_singleton.mp here
  exact surveyed.covers_of_mem member

/-- What is selected from declarations at inference fits. -/
theorem selects_declarations {body : List Stmt} (known : body ⊆ declarations) :
    (ofNodes theory sources nodes).Selects body
      fun stmt => (ofNodes theory sources nodes).Covers (.stmt stmt) := by
  intro names part named done
  have isOf := isOf_of_ofBody done
  refine ⟨fun result member => ?_, fun name member => ?_⟩
  · rcases (isOf.stmts result).mp member with isChosen | ⟨inside, isImport⟩ | ⟨inside, assigns⟩
    · obtain ⟨stmt, -, isDeclared, expanded, -⟩ :=
        surveyed.exists_of_mem_chosen known named isChosen
      exact surveyed.covers_declared isDeclared expanded
    · obtain ⟨⟨library, name⟩, imported⟩ := Option.isSome_iff_exists.mp isImport
      obtain ⟨⟨site, items, level, rfl⟩, -, used⟩ :=
        surveyed.eq_of_imported known named inside imported
      refine all_iff.mpr ⟨.of_imports rfl rfl ?_, ?_⟩
      · simpa [Node.imports] using surveyed.sys_imported used
      · refine forall_mem_map.mpr fun item _ => ?_
        exact all_iff.mpr ⟨.of_none rfl rfl rfl, each_nil⟩
    · obtain ⟨stmt, isStmt, expanded⟩ := mem_expandTo_iff.mp inside
      cases result with
      | assign site targets value =>
        obtain rfl : stmt = .assign site targets value := by
          have same := head_of_mem_expandTo expanded
          cases stmt <;> cases same
          rfl
        have isVar := isDeclaration_of_mem (known isStmt)
        refine surveyed.covers_declared ?_ expanded
        exact stmt_mem surveyed.selected (known isStmt) (.inr (.inl isVar))
      | _ => cases assigns
  · rcases (isOf.names name).mp member with old | ⟨stmt, inside, library, imported⟩
    · exact named name old
    · obtain ⟨-, rfl, used⟩ := surveyed.eq_of_imported known named inside imported
      exact .inr ⟨rfl, used⟩

/-- What is selected from a library fits, and imports nothing. -/
theorem selects_library {name : String} (imported : (ofNodes theory sources nodes).imported name)
    (isLibrary : standard.libraries.get? name = some module) :
    (ofNodes theory sources nodes).Selects module.body
      fun stmt => (ofNodes theory sources nodes).Covers (.stmt stmt) := by
  have found : sources.inferred? name = some module := by
    rw [Sources.inferred?, isLibrary, Option.some_or]
  have own := ofStmts_subset_walk module
  intro names part named done
  have isOf := isOf_of_ofBody done
  have covers := surveyed.covers_expand fun stmt member =>
    surveyed.covers_of_mem (imported module found (own (mem_map_of_mem member)))
  refine ⟨fun result member => covers result (isOf.mem_body member), fun name member => ?_⟩
  rcases (isOf.names name).mp member with old | ⟨result, inside, library, imported⟩
  · exact named name old
  · obtain ⟨site, items, level, item, rfl, notTyping, -⟩ := imported?_eq_some_iff.mp imported
    obtain ⟨stmt, isStmt, expanded⟩ := mem_expandTo_iff.mp inside
    obtain rfl := Stmt.eq_importFrom_of_head (head_of_mem_expandTo expanded)
    have none := (isRooted_of_library (mem_map_of_mem (Table.mem_of_get? isLibrary))
      (own (mem_map_of_mem isStmt))).2
    simp [Node.imports, notTyping] at none

/-- All that an inference can come to infer was surveyed. -/
theorem isComplete : (ofNodes theory sources nodes).IsComplete where
  functions := .of_covers (surveyed.selects_declarations (subset_append_left _ _))
  methods entry member := .of_covers (surveyed.selects_declarations fun stmt inside =>
    mem_append_right _ (mem_flatMap.mpr ⟨_, mem_map_of_mem member, inside⟩))
  libraries imported isLibrary := .of_covers (surveyed.selects_library imported isLibrary)
  files {name module} imported notLibrary isFile := by
    have found : sources.inferred? name = some module := by
      rw [Sources.inferred?, notLibrary]
      exact isFile
    have own := ofStmts_subset_walk module
    exact ⟨_, admits_of_covers (surveyed.covers_expand fun stmt member =>
      surveyed.covers_of_mem (imported module found (own (mem_map_of_mem member))))⟩

end Surveyed

end TypeInference
