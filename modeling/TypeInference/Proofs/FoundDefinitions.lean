/- Inference never comes to a definition of an unknown name. -/

import TypeInference.Proofs.DeclaredNames

namespace TypeInference

open List Library Node Program Stmt Survey

variable {node : Node} {body : List Stmt}
  {value : Module} {names : List String} {selection : Selection}

open Node (Each each_nil each_cons ofStmts)

namespace Node

theorem module_notMem_ofLeaf (value : Module) (leaf : Part) : .module value ∉ ofLeaf leaf := by
  cases leaf <;> simp [ofLeaf]

theorem module_notMem_ofFields (value : Module) (fields : List Field) :
    .module value ∉ ofFields fields := by
  simp only [ofFields, mem_flatMap, not_exists, not_and]
  intro field _
  unfold ofPart
  split
  · simp [module_notMem_ofLeaf]
  · exact module_notMem_ofLeaf value _

/-- Modules are not below other nodes. -/
theorem module_notMem_children (value : Module) (node : Node) : .module value ∉ node.children := by
  have exprs (es : List Expr) : .module value ∉ ofExprs es := by simp [ofExprs]
  have stmts (ss : List Stmt) : .module value ∉ ofStmts ss := by simp [ofStmts]
  have option (e : Option Expr) : .module value ∉ ofOption e := exprs _
  have options (es : List (Option Expr)) : .module value ∉ ofOptions es := by
    simp [ofOptions, option]
  have fields := module_notMem_ofFields value
  unfold children
  split
  · exact stmts _
  · unfold ofStmt
    split <;> simp [exprs, stmts, option, fields]
  · unfold ofExpr
    split <;> simp [exprs, option, options]
  · unfold ofParams
    split
    simp [exprs, options]
  all_goals simp [exprs, stmts, option, fields]

theorem eq_of_module_mem_walk {root : Node} (inside : .module value ∈ root.walk) :
    root = .module value := by
  rcases (mem_walk_iff.mp inside).cases_tail with rfl | ⟨parent, -, isChild⟩
  · rfl
  · exact absurd isChild (module_notMem_children value parent)

/-- Whether definitions in a node stand where their names are known. -/
def announces : Node → Bool
  | .module ⟨_, body⟩ | .stmt (.functionDef ⟨_, _, _, body, _, _, _⟩) =>
    areAnnounced (definedNames body) body
  | _ => true

end Node

namespace Library

/-- The library `sys`, which comes with the function `open`. -/
def sysNodes : List Node :=
  (standard.libraries.get? "sys").toList.flatMap fun library => (Node.module library).walk

/-- A class with members that others may inherit. -/
def isAncestor : Node → Bool
  | .stmt (.classDef c) => c.body.any isInheritable
  | _ => false

theorem declarations_areAnnounced : declarations.all (fun stmt =>
    stmt.isAnnounced stmt.ownNames && (Node.stmt stmt).walk.all (!isAncestor ·)) = true := by
  decide +kernel

theorem libraries_areAnnounced : standard.libraries.values.all (fun library =>
    library.body.all fun stmt => stmt.isAnnounced stmt.ownNames) := by
  decide +kernel

theorem sysNodes_areAnnounced :
    sysNodes.all (fun node => node.announces && node.deleted.isEmpty) := by
  decide +kernel

variable {stmt : Stmt} {node : Node}

/-- What is declared is in the declarations or in `sys`. -/
theorem mem_sysNodes_or (selected : standard.selectAll names = .ok selection)
    (member : node ∈ Survey.declaredNodes standard selection) :
    (∃ stmt ∈ declarations, node ∈ (Node.stmt stmt).walk) ∨ node ∈ sysNodes := by
  rcases mem_declaredNodes_iff.mp member with
    ⟨stmt, isDeclared, inside⟩ | ⟨name, library, isDeclared, found, inside⟩
  · exact .inl ⟨stmt, mem_declarations selected isDeclared, inside⟩
  · obtain ⟨body, used, allClasses, part, isOf, -, here, known⟩ := exists_isOf selected isDeclared
    obtain ⟨stmt, member, item, imported⟩ := (isOf.libraries name).mp here
    obtain ⟨site, items, level, item, rfl, notTyping, -⟩ :=
      Selection.imported?_eq_some_iff.mp imported
    obtain rfl := (eq_sys (isDeclaration_of_mem (known member)) notTyping).1
    rw [sysNodes, found]
    exact .inr (mem_flatMap.mpr ⟨library, mem_singleton_self _, inside⟩)

theorem walk_subset_sysNodes (member : node ∈ sysNodes) : node.walk ⊆ sysNodes := by
  obtain ⟨library, found, inside⟩ := mem_flatMap.mp member
  exact fun inner below => mem_flatMap.mpr ⟨library, found, walk_subset inside below⟩

end Library

namespace Program

variable (program : Program) {name : String}

/-- The names that are deleted somewhere in a program. -/
def deleted : List String := program.nodes.flatMap Node.deleted

/-- The nodes that a survey looks at. -/
abbrev surveyed (selection : Selection) : List Node :=
  program.nodes ++ Survey.declaredNodes standard selection

/-- The nodes that an inference may come to, but for declarations. -/
def inferred : List Node := program.nodes ++ sysNodes

/-- Whether all definitions stand where their names are known and kept. -/
def announces : Bool :=
  program.nodes.all Node.announces &&
    program.deleted.all fun name => name != "__init__" &&
      !(program.inferred.flatMap Node.defined).contains name

variable {program} (announces : program.announces = true)

include announces

theorem announces_of_mem (member : node ∈ program.inferred) : node.announces := by
  rcases mem_append.mp member with own | isSys
  · exact all_eq_true.mp (Bool.and_eq_true_iff.mp announces).1 node own
  · have both := all_eq_true.mp sysNodes_areAnnounced node isSys
    exact (Bool.and_eq_true_iff.mp both).1

theorem init_notMem_deleted : "__init__" ∉ program.deleted := by
  intro member
  have spared := all_eq_true.mp (Bool.and_eq_true_iff.mp announces).2 _ member
  simp at spared

theorem notMem_deleted_of_defined (member : node ∈ program.inferred)
    (defined : name ∈ node.defined) : name ∉ program.deleted := by
  intro isDeleted
  have spared := all_eq_true.mp (Bool.and_eq_true_iff.mp announces).2 name isDeleted
  have inside := contains_iff_mem.mpr (mem_flatMap.mpr ⟨node, member, defined⟩)
  rw [inside] at spared
  simp at spared

omit announces in
theorem mem_deleted (member : node ∈ program.inferred) (isDeleted : name ∈ node.deleted) :
    name ∈ program.deleted := by
  rcases mem_append.mp member with own | isSys
  · exact mem_flatMap.mpr ⟨node, own, isDeleted⟩
  · have both := all_eq_true.mp sysNodes_areAnnounced node isSys
    rw [List.isEmpty_iff.mp (Bool.and_eq_true_iff.mp both).2] at isDeleted
    cases isDeleted

end Program

/-- Every class that is surveyed is known by its name. -/
theorem Survey.mem_keys_of_ofProgram {settings : Settings} {base : Option String}
    {program : Program} {funcParams classParams : TypeParams} {survey : Survey}
    (done : ofProgram settings base program funcParams classParams = .ok survey)
    (selected : standard.selectAll survey.usedNames = .ok selection) {c : ClassDef}
    (member : .stmt (.classDef c) ∈ program.surveyed selection) :
    c.name ∈ survey.instanceAttrs.keys := by
  obtain ⟨-, -, names, -⟩ := isMeasured_of_ofProgram done
  obtain ⟨other, withClasses, _, _, isOther, isClasses, -, rfl⟩ := ofProgram_eq_ok done
  rw [names] at selected
  obtain rfl := Except.ok.inj (selected.symm.trans isOther)
  obtain ⟨inheritance, -, isClasses⟩ := bind_ok isClasses
  refine foldlM_reaches (fun survey => c.name ∈ survey.instanceAttrs.keys) isClasses
    (mem_classDefs_iff.mpr member) ?_ ?_
  · intro before after added
    obtain ⟨_, _, _, _, -, -, -, -, -, attrs, -⟩ := addClass_eq_ok added
    rw [attrs, Table.mem_keys_insert]
    exact .inl rfl
  · intro other _ before after known added
    obtain ⟨_, _, _, _, -, -, -, -, -, attrs, -⟩ := addClass_eq_ok added
    rw [attrs, Table.mem_keys_insert]
    exact .inr known

/-- A node that may be inferred where its names are known. -/
structure Limits.Suits (limits : Limits) (deletes : String → Prop) (node : Node) : Prop where
  fits : limits.Fits node
  deleted : ∀ name ∈ node.deleted, deletes name
  defines : limits.Defines deletes node

/-- All nodes within some statements suit. -/
abbrev Limits.SuitsAll (limits : Limits) (deletes : String → Prop) (body : List Stmt) : Prop :=
  ∀ stmt ∈ body, (Node.stmt stmt).All (limits.Suits deletes)

namespace Limits

variable {limits : Limits} {deletes known : String → Prop}

theorem isLocal_suits (limits : Limits) (deletes : String → Prop) :
    Node.IsLocal (limits.Suits deletes) where
  handler handler := ⟨limits.isLocal_fits.handler handler, nofun, nofun, nofun⟩
  part part := ⟨limits.isLocal_fits.part part, nofun, nofun, nofun⟩
  head {first second} same suits := by
    refine ⟨limits.isLocal_fits.head same suits.fits, ?_, ?_, fun c isClass => ?_⟩
    · rw [← deleted_head, same, deleted_head]
      exact suits.deleted
    · have own : (Node.stmt second).defined = (Node.stmt first).defined := ownNames_eq_of_head same
      rw [own]
      exact suits.defines.spared
    · obtain rfl := Node.stmt.inj isClass
      obtain ⟨d, rfl, isName, -⟩ := exists_class_of_head same.symm
      exact isName ▸ suits.defines.isClass d rfl

theorem SuitsAll.admits {stmts : List Stmt} (suits : limits.SuitsAll deletes stmts)
    (announced : areAnnounced names stmts)
    (isKnown : ∀ name ∈ names, known name ∧ ¬ deletes name) :
    limits.Admits deletes known stmts where
  covers stmt member inner inside := (suits stmt member inner inside).fits
  deleted stmt member inner inside := (suits stmt member inner inside).deleted
  announces :=
    .inr ⟨fun stmt member inner inside => (suits stmt member inner inside).defines, names,
    announced, isKnown⟩

/-- A statement of a scope needs only its own names. -/
theorem admits_of_suits {result : Stmt} (suits : (Node.stmt result).All (limits.Suits deletes))
    (announced : result.isAnnounced result.ownNames)
    (expanded : result ∈ limits.theory.survey.expand body) :
    limits.Admits deletes (· ∈ limits.theory.announced body) [result] := by
  have own := (all_iff.mp suits).1.defines
  obtain ⟨origin, inBody, expanded⟩ := mem_expandTo_iff.mp expanded
  have head := head_of_mem_expandTo expanded
  refine SuitsAll.admits (forall_mem_singleton.mpr suits)
    (areAnnounced_iff.mpr (forall_mem_singleton.mpr announced)) fun name isOwn =>
      ⟨?_, own.spared name isOwn⟩
  rw [ownNames_eq_of_head head] at isOwn
  refine mem_announced inBody (fun c isClass => ?_) isOwn
  obtain ⟨d, rfl, same, -⟩ := exists_class_of_head (isClass ▸ head)
  exact same ▸ own.isClass d rfl

end Limits

/-- An inference that comes to no definition of an unknown name. -/
def Limits.ofAnnounced (theory : Theory) (sources : Sources) (nodes : List Node) : Limits :=
  { Limits.ofNodes theory sources nodes with unknown := fun _ => False }

/-- What is known of a program with known definitions. -/
structure Announced (theory : Theory) (program : Program) (selection : Selection) : Prop where
  surveyed : Surveyed theory program.sources selection
    (program.nodes ++ Survey.declaredNodes standard selection)
  closed : ∀ node ∈ program.nodes, node.walk ⊆ program.nodes
  announces : program.announces = true
  classes : ∀ c, .stmt (.classDef c) ∈
    program.nodes ++ Survey.declaredNodes standard selection → c.name ∈ theory.classNames

namespace Announced

variable {theory : Theory} {program : Program} {selection : Selection}
  (announced : Announced theory program selection) {stmt : Stmt}

/-- The limits that a surveyed program has. -/
abbrev limits (theory : Theory) (program : Program) (selection : Selection) : Limits :=
  .ofAnnounced theory program.sources (program.nodes ++ Survey.declaredNodes standard selection)

include announced

theorem walk_subset_inferred (member : node ∈ program.inferred) : node.walk ⊆ program.inferred := by
  rcases mem_append.mp member with own | isSys
  · exact List.Subset.trans (announced.closed node own) (subset_append_left _ _)
  · exact List.Subset.trans (walk_subset_sysNodes isSys) (subset_append_right _ _)

/-- A surveyed module is one of the program, or `sys`. -/
theorem mem_inferred_of_module
    (member : .module value ∈ program.surveyed selection) :
    .module value ∈ program.inferred := by
  refine mem_append.mpr ((mem_append.mp member).imp_right fun declared => ?_)
  refine (mem_sysNodes_or announced.surveyed.selected declared).resolve_left ?_
  rintro ⟨stmt, -, inside⟩
  cases eq_of_module_mem_walk inside

/-- What may be inherited is in the program, or in `sys`. -/
theorem mem_inferred_of_class {c : ClassDef} (isClass : .stmt (.classDef c) ∈
    program.surveyed selection) (inside : stmt ∈ c.body)
    (isInheritable : stmt.isInheritable) : .stmt stmt ∈ program.inferred := by
  have known : .stmt (.classDef c) ∈ program.inferred := by
    refine mem_append.mpr ((mem_append.mp isClass).imp_right fun declared => ?_)
    refine (mem_sysNodes_or announced.surveyed.selected declared).resolve_left ?_
    rintro ⟨origin, isDeclared, below⟩
    have none := all_eq_true.mp (Bool.and_eq_true_iff.mp
      (all_eq_true.mp declarations_areAnnounced origin isDeclared)).2 _ below
    rw [isAncestor, any_eq_true.mpr ⟨stmt, inside, isInheritable⟩] at none
    cases none
  exact announced.walk_subset_inferred known (stmt_mem_walk_class inside)

theorem suits_of_mem (member : node ∈ program.inferred)
    (surveyed : node ∈ program.surveyed selection) :
    (limits theory program selection).Suits (· ∈ program.deleted) node := by
  have fits := announced.surveyed.fits node surveyed
  exact ⟨⟨fits.tuple, fits.function, fits.imports⟩, fun _ => mem_deleted member,
    fun _ => notMem_deleted_of_defined announced.announces member,
    fun c is => announced.classes c (is ▸ surveyed)⟩

theorem all_suits (member : node ∈ program.inferred)
    (surveyed : node ∈ program.surveyed selection) :
    node.All ((limits theory program selection).Suits (· ∈ program.deleted)) :=
  fun _ inside => announced.suits_of_mem (announced.walk_subset_inferred member inside)
    (announced.surveyed.closed node surveyed inside)

/-- An initialiser suits wherever its name is not deleted. -/
theorem suits_initialiser {deletes : String → Prop} (spared : ¬ deletes "__init__") (c : ClassDef) :
    (Node.stmt (.functionDef c.defaultInitialiser)).All
      ((limits theory program selection).Suits deletes) := by
  have covers := announced.surveyed.covers_initialiser c
  have fits := (all_iff.mp covers).1
  refine c.all_defaultInitialiser ⟨⟨fits.tuple, fits.function, fits.imports⟩, nofun, ?_, nofun⟩
    (fun _ => ⟨.of_none rfl rfl rfl, nofun, nofun, nofun⟩)
    (fun _ => ⟨.of_none rfl rfl rfl, nofun, nofun, nofun⟩)
    fun _ => ⟨.of_none rfl rfl rfl, nofun, nofun, nofun⟩
  intro name isOwn
  obtain rfl := mem_singleton.mp isOwn
  exact spared

/-- What suits still does with all additions. -/
theorem suits_expand
    (suits : (limits theory program selection).SuitsAll (· ∈ program.deleted) body) :
    (limits theory program selection).SuitsAll (· ∈ program.deleted)
      (theory.survey.expand body) := by
  have isLocal := (limits theory program selection).isLocal_suits (· ∈ program.deleted)
  have added (c : ClassDef) :
      Each ((limits theory program selection).Suits (· ∈ program.deleted))
        (ofStmts ((theory.survey.additions.get? c.site.label).getD [])) := by
    refine forall_mem_map.mpr fun stmt member => ?_
    rcases announced.surveyed.additions _ stmt member with
      ⟨d, isClass, inside, isInheritable⟩ | ⟨d, rfl⟩
    · exact announced.all_suits (announced.mem_inferred_of_class isClass inside isInheritable)
        (announced.surveyed.closed _ isClass (stmt_mem_walk_class inside))
    · exact announced.suits_initialiser (init_notMem_deleted announced.announces) d
  exact forall_mem_map.mp (each_expandTo isLocal (fun c _ => added c) _ (forall_mem_map.mpr suits))

/-- Additions to a class need only its own name. -/
theorem isAnnounced_addition {label : Nat}
    (member : stmt ∈ (theory.survey.additions.get? label).getD []) :
    stmt.isAnnounced stmt.ownNames := by
  rcases announced.surveyed.additions _ stmt member with
    ⟨d, isClass, inside, isInheritable⟩ | ⟨d, rfl⟩
  · have known := announced.mem_inferred_of_class isClass inside isInheritable
    have announces := announces_of_mem announced.announces known
    cases stmt with
    | functionDef f =>
      obtain ⟨site, name, params, body, decorators, returns, synthetic⟩ := f
      refine Bool.and_eq_true_iff.mpr ⟨?_, announces⟩
      exact contains_iff_mem.mpr (mem_singleton_self name)
    | assign site targets value => rfl
    | _ => cases isInheritable
  · exact Bool.and_eq_true_iff.mpr ⟨contains_iff_mem.mpr (mem_singleton_self "__init__"), rfl⟩

theorem areAnnounced_expand {known : List String} (own : areAnnounced known body) :
    areAnnounced known (theory.survey.expand body) :=
  areAnnounced_expandTo (fun _ _ => announced.isAnnounced_addition) _ own

theorem isAnnounced_expand {result : Stmt} (own : stmt.isAnnounced stmt.ownNames)
    (expanded : result ∈ theory.survey.expand [stmt]) :
    result.isAnnounced result.ownNames := by
  rw [ownNames_eq_of_head (head_of_mem_expandTo expanded)]
  refine areAnnounced_iff.mp (announced.areAnnounced_expand ?_) result expanded
  exact areAnnounced_iff.mpr fun other same => mem_singleton.mp same ▸ own

theorem declares_of_declarations (known : body ⊆ declarations) :
    (limits theory program selection).Declares body := by
  refine ⟨fun _ => False, fun named done => ?_⟩
  refine (announced.surveyed.selects_declarations known named done).imp_left
    fun covers result member => ?_
  have inside := (Selection.isOf_of_ofBody done).mem_body member
  obtain ⟨stmt, isStmt, expanded⟩ := mem_expandTo_iff.mp inside
  have fixed := announced.surveyed.roots.isFixed_expand (known isStmt) expanded
  refine Limits.admits_of_suits (fun node below => ?_)
    (announced.isAnnounced_expand (Bool.and_eq_true_iff.mp
      (all_eq_true.mp declarations_areAnnounced stmt (known isStmt))).1 expanded) inside
  have fits := covers result member node below
  obtain ⟨none, isRoot⟩ := isFixed_iff.mp (fixed node below)
  refine ⟨⟨fits.tuple, fits.function, fits.imports⟩, ?_, fun _ _ => not_false, fun c isClass => ?_⟩
  · rw [none]
    exact forall_mem_nil _
  · -- The classes that every program has are known.
    obtain ⟨root, taken, same⟩ := exists_root_mem announced.surveyed.selected (isRoot c isClass).2
    exact same ▸ announced.classes root (mem_append_right _ (mem_declaredNodes_iff.mpr
      (.inl ⟨_, taken, mem_walk_iff.mpr .refl⟩)))

theorem suits_module
    (member : .module value ∈ program.surveyed selection) :
    (limits theory program selection).SuitsAll (· ∈ program.deleted)
      (theory.survey.expand value.body) :=
  announced.suits_expand fun _ inside node below =>
    announced.all_suits (announced.mem_inferred_of_module member) member node
      (walk_subset (ofStmts_subset_walk value (mem_map_of_mem inside)) below)

/-- The statements of a module that is surveyed. -/
theorem admits_module
    (member : .module value ∈ program.surveyed selection) :
    (limits theory program selection).Admits (· ∈ program.deleted)
      (· ∈ theory.announced (theory.survey.expand value.body))
      (theory.survey.expand value.body) := by
  have suits := announced.suits_module member
  have announces := announces_of_mem announced.announces (announced.mem_inferred_of_module member)
  obtain ⟨site, body⟩ := value
  have own : areAnnounced (definedNames (theory.survey.expand body))
      (theory.survey.expand body) = true :=
    areAnnounced_mono _ (fun name => (mem_definedNames_expandTo _).mpr)
      (announced.areAnnounced_expand announces)
  exact suits.admits own fun _ => Limits.Defines.announced fun stmt inside node below =>
    (suits stmt inside node below).defines

/-- All may be inferred that inference can come to infer. -/
theorem isComplete : (limits theory program selection).IsComplete where
  functions := announced.declares_of_declarations (subset_append_left _ _)
  methods entry member := announced.declares_of_declarations fun stmt inside =>
    mem_append_right _ (mem_flatMap.mpr ⟨_, mem_map_of_mem member, inside⟩)
  libraries {name library} imported isLibrary := by
    have found : program.sources.inferred? name = some library := by
      rw [Sources.inferred?, isLibrary, Option.some_or]
    have suits := announced.suits_module (imported library found (mem_walk_iff.mpr .refl))
    refine ⟨(· ∈ program.deleted), fun named done => ?_⟩
    refine (announced.surveyed.selects_library imported isLibrary named done).imp_left
      fun _ result member => ?_
    have inside := (Selection.isOf_of_ofBody done).mem_body member
    obtain ⟨stmt, isStmt, expanded⟩ := mem_expandTo_iff.mp inside
    have each := all_eq_true.mp libraries_areAnnounced library
      (mem_map_of_mem (Table.mem_of_get? isLibrary))
    exact Limits.admits_of_suits (suits result inside)
      (announced.isAnnounced_expand (all_eq_true.mp each stmt isStmt) expanded) inside
  files {name value} imported notLibrary isFile := by
    have found : program.sources.inferred? name = some value := by
      rw [Sources.inferred?, notLibrary]
      exact isFile
    exact ⟨_, announced.admits_module (imported value found (mem_walk_iff.mpr .refl))⟩

end Announced

section

variable {files : Files} {body : List Stmt} {name : Option (String × String)} {program : Program}
  {settings : Settings} {base : Option String} {funcParams classParams : TypeParams}
  {survey : Survey} {theory : Theory}

theorem exists_announced (read : Program.read files body name = .ok program)
    (surveyed : Survey.ofProgram settings base program funcParams classParams = .ok survey)
    (built : Theory.ofSurvey settings survey = .ok theory) (apart : program.KeepsApart name)
    (announces : program.announces) : ∃ selection, Announced theory program selection := by
  obtain ⟨selection, known⟩ := exists_surveyed read surveyed built apart
  obtain ⟨-, rfl, -⟩ := Theory.ofSurvey_eq_ok built
  exact ⟨selection, known, (isClosed_of_read read).closed, announces,
    fun c => mem_keys_of_ofProgram surveyed known.selected⟩

/-- Inference finds the name of every definition that it comes to, if all definitions of a program
and its imports stand where a block around them makes their names known and does not delete them. -/
theorem definitions_found (read : Program.read files body name = .ok program)
    (surveyed : Survey.ofProgram settings base program funcParams classParams = .ok survey)
    (built : Theory.ofSurvey settings survey = .ok theory) (apart : program.KeepsApart name)
    (announces : program.announces = true) (axioms : Axioms) (defined : String) :
    (Session.ofProgram theory axioms program).infer.1 ≠ .error (.unknownDefinition defined) := by
  obtain ⟨selection, announced⟩ := exists_announced read surveyed built apart announces
  have main : .module program.main ∈
      program.surveyed selection :=
    mem_append_left _ ((isClosed_of_read read).main (mem_walk_iff.mpr .refl))
  intro failed
  exact Session.accepts_of_infer announced.isComplete
    (Session.ofProgram_holds rfl rfl fun _ => .inl)
    (announced.admits_module main) failed

end

/-- Two functions that are defined again within a choice. -/
def redefinitions : List Stmt :=
  [constantFunction "g",
    choice
      [constantFunction "f", .tryBlock {} [constantFunction "f"] [] [] [constantFunction "g"]]
      [constantFunction "f"]]

/-- Definitions that are repeated in branches are found. -/
theorem redefinitions_found : ∃ prepared,
    Prepared.ofBody redefinitions (some ("main", "main.py")) {} = .ok prepared ∧
    prepared.program.KeepsApart (some ("main", "main.py")) ∧
    prepared.program.announces = true ∧
    ∀ defined, prepared.infer ≠ .error (.unknownDefinition defined) := by
  have evaluated : ∃ prepared, Prepared.ofBody redefinitions (some ("main", "main.py")) {} =
      .ok prepared ∧ prepared.program.announces = true := by
    decide +kernel
  obtain ⟨prepared, done, announces⟩ := evaluated
  obtain ⟨read, surveyed, built⟩ := Prepared.ofBody_eq_ok done
  have apart : prepared.program.KeepsApart (some ("main", "main.py")) :=
    keepsApart_of_not_isLibrary (by decide) _
  exact ⟨prepared, done, apart, announces, fun defined =>
    definitions_found read surveyed built apart announces prepared.axioms defined⟩

/-- A function of the second block alone is not found there. -/
theorem second_block_definition_lost : ∃ prepared,
    Prepared.ofBody [Stmt.choice [.pass {}] [Stmt.constantFunction "f"]]
      (some ("main", "main.py")) {} = .ok prepared ∧
    prepared.infer = .error (.unknownDefinition "f") := by
  decide +kernel

end TypeInference
