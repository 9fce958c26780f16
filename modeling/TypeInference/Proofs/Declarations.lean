/- Which declarations of functions and methods a selection takes. -/

import TypeInference.Proofs.Imports

namespace TypeInference

open List

section

variable {names : List String} {selection : Selection}

namespace Selection

variable {stmt : Stmt} {body : List Stmt} {allClasses : Bool}

/-- The library and the name of an import that is mentioned. -/
def imported? (mentioned : List String) : Stmt → Option (String × String)
  | .importFrom _ moduleName names _ =>
    if moduleName == some "typing" then none
    else do
      let item ← names.find? fun item => mentioned.contains item.name
      pure (← moduleName, item.name)
  | _ => none

theorem imported?_eq_some_iff {mentioned : List String} {library name : String} :
    imported? mentioned stmt = some (library, name) ↔ ∃ site names level item,
      stmt = .importFrom site (some library) names level ∧ library ≠ "typing" ∧
      names.find? (fun item => mentioned.contains item.name) = some item ∧ item.name = name := by
  cases stmt with
  | importFrom site moduleName names level =>
    constructor
    · intro is
      unfold imported? at is
      dsimp only at is
      split at is
      · cases is
      · next notTyping =>
        obtain ⟨item, found, is⟩ := Option.bind_eq_some_iff.mp is
        obtain ⟨_, rfl, is⟩ := Option.bind_eq_some_iff.mp is
        obtain ⟨rfl, rfl⟩ := Prod.mk.inj (Option.some.inj is)
        exact ⟨site, names, level, item, rfl, by simpa using notTyping, found, rfl⟩
    · rintro ⟨_, _, _, item, is, notTyping, found, rfl⟩
      obtain ⟨rfl, rfl, rfl, rfl⟩ := Stmt.importFrom.inj is
      unfold imported?
      dsimp only
      rw [if_neg (by simpa using notTyping), found]
      rfl
  | _ => simp [imported?]

theorem mem_mentioned_iff {stmts : List Stmt} {name : String} : name ∈ mentioned stmts ↔
    ∃ stmt ∈ stmts, ∃ line usage, .expr (.name line name usage) ∈ (Node.stmt stmt).walk := by
  refine mem_flatMap.trans (exists_congr fun stmt => and_congr_right fun _ => ?_)
  rw [mem_filterMap]
  constructor
  · rintro ⟨node, inside, is⟩
    split at is
    · exact Option.some.inj is ▸ ⟨_, _, inside⟩
    · cases is
  · rintro ⟨line, usage, inside⟩
    exact ⟨_, inside, rfl⟩

/-- The classes, type variables and functions that are taken. -/
def chosen (body : List Stmt) (names : List String) (allClasses : Bool) : List Stmt :=
  (body.filter fun stmt => isClass stmt && (allClasses || usesClass names stmt)) ++
    body.filter Stmt.isTypeVarDeclaration ++ body.filter (definesUsed names)

theorem mem_chosen_iff :
    stmt ∈ chosen body names allClasses ↔ stmt ∈ body ∧
      (isClass stmt ∧ (allClasses ∨ usesClass names stmt) ∨
        stmt.isTypeVarDeclaration ∨ definesUsed names stmt) := by
  simp only [chosen, mem_append, mem_filter, Bool.and_eq_true, Bool.or_eq_true]
  tauto

/-- What is selected from a list of declarations. -/
structure IsOf (body : List Stmt) (names : List String) (allClasses : Bool)
    (selection : Selection) : Prop where
  stmts : ∀ stmt, .stmt stmt ∈ selection.nodes ↔
    stmt ∈ chosen body names allClasses ∨
      stmt ∈ body ∧ (imported? (mentioned (chosen body names allClasses)) stmt).isSome = true ∨
      stmt ∈ body ∧ assignsUsed selection.names stmt = true
  libraries : ∀ name, .library name ∈ selection.nodes ↔ ∃ stmt ∈ body, ∃ item,
    imported? (mentioned (chosen body names allClasses)) stmt = some (name, item)
  names : ∀ name, name ∈ selection.names ↔ name ∈ names ∨ ∃ stmt ∈ body, ∃ library,
    imported? (mentioned (chosen body names allClasses)) stmt = some (library, name)

theorem addImport_eq_ok {mentioned : List String} {before after : Selection}
    (done : addImport mentioned before stmt = .ok after) :
    imported? mentioned stmt = none ∧ after = before ∨
      ∃ library name, imported? mentioned stmt = some (library, name) ∧
        after = ⟨before.nodes ++ [.library library, .stmt stmt], before.names ++ [name]⟩ := by
  cases stmt with
  | importFrom site moduleName names level =>
    unfold addImport at done
    unfold imported?
    dsimp only at done ⊢
    split at done
    · next typing => exact .inl ⟨if_pos typing, (Except.ok.inj done).symm⟩
    · next notTyping =>
      rw [if_neg notTyping]
      split at done
      · next none => exact .inl ⟨by rw [none]; rfl, (Except.ok.inj done).symm⟩
      · next item found =>
        cases moduleName with
        | none => cases done
        | some library =>
          dsimp only at done
          split at done
          · exact .inr ⟨library, item.name, by rw [found]; rfl, (Except.ok.inj done).symm⟩
          · cases done
  | _ => exact .inl ⟨rfl, (Except.ok.inj done).symm⟩

/-- Imports add what they bring in, and nothing else. -/
theorem foldlM_addImport {mentioned : List String} {before after : Selection}
    (done : body.foldlM (addImport mentioned) before = .ok after) :
    (∀ stmt, .stmt stmt ∈ after.nodes ↔ .stmt stmt ∈ before.nodes ∨
      stmt ∈ body ∧ (imported? mentioned stmt).isSome) ∧
    (∀ name, .library name ∈ after.nodes ↔ .library name ∈ before.nodes ∨
      ∃ stmt ∈ body, ∃ item, imported? mentioned stmt = some (name, item)) ∧
    ∀ name, name ∈ after.names ↔ name ∈ before.names ∨
      ∃ stmt ∈ body, ∃ library, imported? mentioned stmt = some (library, name) := by
  induction body generalizing before with
  | nil =>
    obtain rfl := pure_ok done
    simp
  | cons first body ih =>
    obtain ⟨middle, added, rest⟩ := bind_ok done
    obtain ⟨stmts, libraries, names⟩ := ih rest
    rcases addImport_eq_ok added with ⟨none, rfl⟩ | ⟨library, name, is, rfl⟩
    · refine ⟨fun stmt => ?_, fun name => ?_, fun name => ?_⟩
      · rw [stmts, mem_cons]
        refine or_congr_right ⟨fun later => ⟨.inr later.1, later.2⟩, ?_⟩
        rintro ⟨rfl | later, some⟩
        · rw [none] at some
          cases some
        · exact ⟨later, some⟩
      · simp [libraries, none]
      · simp [names, none]
    · refine ⟨fun stmt => ?_, fun name => ?_, fun name => ?_⟩
      · rw [stmts]
        simp only [mem_append, mem_cons, not_mem_nil, or_false, reduceCtorEq,
          false_or, Declared.stmt.injEq]
        constructor
        · rintro ((old | rfl) | ⟨later, some⟩)
          · exact .inl old
          · exact .inr ⟨.inl rfl, by rw [is]; rfl⟩
          · exact .inr ⟨.inr later, some⟩
        · rintro (old | ⟨rfl | later, some⟩)
          · exact .inl (.inl old)
          · exact .inl (.inr rfl)
          · exact .inr ⟨later, some⟩
      · rw [libraries]
        simp [is, or_assoc, eq_comm]
      · rw [names]
        simp [is, or_assoc, eq_comm]

theorem isOf_of_ofBody (done : ofBody body names allClasses = .ok selection) :
    selection.IsOf body names allClasses := by
  obtain ⟨imports, added, rfl⟩ := map_ok done
  obtain ⟨stmts, libraries, named⟩ := foldlM_addImport added
  refine ⟨fun stmt => ?_, fun name => ?_, named⟩
  · rw [mem_append, stmts]
    simp [chosen, or_assoc]
  · rw [mem_append, libraries]
    simp [chosen]

end Selection

namespace Library

/-- A selection of methods is part of another selection. -/
def TakesMethods (names : List String) (selection : Selection) (module : Module) : Prop :=
  ∃ used methods, names ⊆ used ∧ Selection.IsOf module.body used false methods ∧
    methods.nodes ⊆ selection.nodes

/-- A declaration is selected with the methods of a module. -/
def IsMethod (modules : List Module) (selection : Selection) (declared : Declared) : Prop :=
  ∃ module ∈ modules, ∃ used methods, Selection.IsOf module.body used false methods ∧
    methods.nodes ⊆ selection.nodes ∧ declared ∈ methods.nodes

theorem selectMethods_eq_ok {modules : List Module} {start : Selection}
    (known : names ⊆ start.names) (done : modules.foldlM (fun selection module => do
      let methods ← Selection.ofBody module.body selection.names false
      pure ⟨selection.nodes ++ methods.nodes, methods.names⟩) start = .ok selection) :
    start.nodes ⊆ selection.nodes ∧ (∀ module ∈ modules, TakesMethods names selection module) ∧
      ∀ declared ∈ selection.nodes,
        declared ∈ start.nodes ∨ IsMethod modules selection declared := by
  induction modules generalizing start with
  | nil =>
    obtain rfl := pure_ok done
    refine ⟨List.Subset.refl _, ?_, fun _ => .inl⟩
    intro module none
    cases none
  | cons module modules ih =>
    obtain ⟨middle, added, rest⟩ := bind_ok done
    obtain ⟨methods, selected, rfl⟩ := map_ok added
    have isOf := Selection.isOf_of_ofBody selected
    have still : names ⊆ methods.names := fun name member =>
      (isOf.names name).mpr (.inl (known member))
    obtain ⟨kept, taken, from_⟩ := @ih ⟨start.nodes ++ methods.nodes, methods.names⟩ still rest
    refine ⟨List.Subset.trans (subset_append_left _ _) kept, fun other member => ?_,
      fun declared member => ?_⟩
    · rcases mem_cons.mp member with rfl | later
      · exact ⟨_, methods, known, isOf, List.Subset.trans (subset_append_right _ _) kept⟩
      · exact taken other later
    · rcases from_ declared member with here | ⟨other, later, there⟩
      · refine (mem_append.mp here).imp_right fun inside => ?_
        exact ⟨module, mem_cons_self, _, methods, isOf,
          List.Subset.trans (subset_append_right _ _) kept, inside⟩
      · exact .inr ⟨other, mem_cons_of_mem _ later, there⟩

/-- Functions and methods are selected one after the other. -/
theorem selectAll_eq_ok {library : Library} (done : library.selectAll names = .ok selection) :
    ∃ functions, Selection.IsOf library.functions.body names true functions ∧
      functions.nodes ⊆ selection.nodes ∧
      (∀ module ∈ library.methods.values, TakesMethods names selection module) ∧
      ∀ declared ∈ selection.nodes,
        declared ∈ functions.nodes ∨ IsMethod library.methods.values selection declared := by
  obtain ⟨functions, selected, rest⟩ := bind_ok done
  have isOf := Selection.isOf_of_ofBody selected
  have known : names ⊆ functions.names := fun name member => (isOf.names name).mpr (.inl member)
  exact ⟨functions, isOf, selectMethods_eq_ok known rest⟩

end Library

end

open Selection

variable {stmt : Stmt} {name : String} {node : Node}

namespace Selection

variable {body : List Stmt} {names : List String} {allClasses : Bool} {selection : Selection}

theorem IsOf.mem_body (isOf : selection.IsOf body names allClasses)
    (member : .stmt stmt ∈ selection.nodes) : stmt ∈ body := by
  rcases (isOf.stmts stmt).mp member with isChosen | ⟨inside, -⟩ | ⟨inside, -⟩
  · exact (mem_chosen_iff.mp isChosen).1
  · exact inside
  · exact inside

theorem definesUsed_mono {more : List String} (known : names ⊆ more)
    (defines : definesUsed names stmt) : definesUsed more stmt := by
  cases stmt with
  | functionDef f => exact contains_iff_mem.mpr (known (contains_iff_mem.mp defines))
  | _ => cases defines

/-- The library that an import is from is selected with it. -/
theorem IsOf.library_mem (isOf : selection.IsOf body names allClasses) {site : Site}
    {items : List Alias} {level : Int}
    (member : .stmt (.importFrom site (some name) items level) ∈ selection.nodes) :
    .library name ∈ selection.nodes := by
  rcases (isOf.stmts _).mp member with isChosen | ⟨inside, isImported⟩ | ⟨-, assigns⟩
  · rcases (mem_chosen_iff.mp isChosen).2 with ⟨isClass, -⟩ | isVar | defines
    · cases isClass
    · cases isVar
    · cases defines
  · obtain ⟨⟨library, item⟩, is⟩ := Option.isSome_iff_exists.mp isImported
    obtain ⟨_, _, _, _, same, -⟩ := imported?_eq_some_iff.mp is
    obtain rfl := Option.some.inj (Stmt.importFrom.inj same).2.1
    exact (isOf.libraries name).mpr ⟨_, inside, item, is⟩
  · cases assigns

end Selection

def Stmt.isImport : Stmt → Bool
  | .importModules .. | .importFrom .. => true
  | _ => false

theorem Node.imports_of_plain (plain : node.mayHoldStmts = false) : node.imports = [] := by
  cases node with
  | stmt value => cases plain
  | _ => rfl

theorem Survey.mem_declaredNodes_iff {library : Library} {selection : Selection} :
    node ∈ declaredNodes library selection ↔
      (∃ stmt, .stmt stmt ∈ selection.nodes ∧ node ∈ (Node.stmt stmt).walk) ∨
      ∃ name module, .library name ∈ selection.nodes ∧
        library.libraries.get? name = some module ∧ node ∈ (Node.module module).walk := by
  rw [declaredNodes, mem_flatMap]
  constructor
  · rintro ⟨declared, member, inside⟩
    cases declared with
    | stmt stmt => exact .inl ⟨stmt, member, inside⟩
    | library name =>
      cases found : library.libraries.get? name with
      | none => simp [found] at inside
      | some module => exact .inr ⟨name, module, member, found, by simpa [found] using inside⟩
  · rintro (⟨stmt, member, inside⟩ | ⟨name, module, member, found, inside⟩)
    · exact ⟨.stmt stmt, member, inside⟩
    · exact ⟨.library name, member, by simpa [found] using inside⟩

namespace Library

/-- The classes that every program has. -/
def rootClasses : List ClassDef := standard.functions.body.filterMap Stmt.classDef?

def isRootLabel (label : Nat) : Bool := rootClasses.any (·.site.label == label)

def isRootName (name : String) : Bool := rootClasses.any (·.name == name)

/-- The declared functions and methods. -/
def declarations : List Stmt := standard.functions.body ++ standard.methods.values.flatMap (·.body)

/-- Next to functions and methods there are only type variables and an import of the class `IO`. -/
def isDeclaration : Stmt → Bool
  | .assign _ _ value => value.isTypeVarCall
  | .functionDef f => f.name != "IO"
  | .importFrom _ moduleName names _ =>
    moduleName == some "typing" || moduleName == some "sys" && names.all (·.name == "IO")
  | .importModules .. => false
  | _ => true

/-- A node that neither mentions `IO` nor defines a class of its own. -/
def isQuiet : Node → Bool
  | .expr (.name _ id _) => id != "IO"
  | .stmt (.classDef c) => isRootLabel c.site.label
  | _ => true

/-- Classes with the label or name of one of every program have no parents. -/
def isRooted : Node → Bool
  | .stmt (.classDef c) =>
    (!isRootLabel c.site.label || isRootName c.name) &&
      (!isRootName c.name || (Inheritance.parents c).isEmpty)
  | _ => true

theorem isRooted_iff {c : ClassDef} : isRooted (.stmt (.classDef c)) ↔
    (isRootLabel c.site.label → isRootName c.name) ∧
      (isRootName c.name → Inheritance.parents c = []) := by
  simp only [isRooted, Bool.and_eq_true, Bool.or_eq_true, Bool.not_eq_true', List.isEmpty_iff,
    ← Bool.not_eq_true, ← imp_iff_not_or]

/-- Only imports import, and only `open` mentions `IO`. -/
def isTame (stmt : Stmt) (node : Node) : Bool :=
  isRooted node && (node.imports.isEmpty || stmt.isImport) &&
    (isQuiet node || definesUsed ["open"] stmt)

theorem declarations_isTame : declarations.all (fun stmt => isDeclaration stmt &&
    (Node.walk (.stmt stmt)).all (isTame stmt)) := by
  decide +kernel

theorem libraries_isRooted : standard.libraries.values.all (fun module =>
    (Node.walk (.module module)).all fun node => isRooted node && node.imports.isEmpty) := by
  decide +kernel

theorem mem_walkFrom_modules {module : Module} (member : module ∈ modules)
    (inside : node ∈ (Node.module module).walk) : node ∈ Node.walkFrom (modules.map .module) :=
  Node.mem_walkFrom_iff.mpr ⟨_, mem_map_of_mem member, Node.mem_walk_iff.mp inside⟩

theorem lt_nextLabel {label : Nat} (isRoot : isRootLabel label) : label < nextLabel := by
  obtain ⟨root, member, same⟩ := any_eq_true.mp isRoot
  obtain ⟨stmt, inside, is⟩ := mem_filterMap.mp member
  obtain rfl : stmt = .classDef root := by
    cases stmt with
    | classDef c => exact congrArg _ (Option.some.inj is)
    | _ => cases is
  have below : .stmt (.classDef root) ∈ (Node.module standard.functions).walk :=
    Node.ofStmts_subset_walk _ (mem_map_of_mem inside)
  rw [← beq_iff_eq.mp same]
  exact (labelled_modules.range (mem_walkFrom_modules mem_cons_self below)).2

theorem methods_not_isClass : standard.methods.values.all (fun module =>
    module.body.all fun stmt => !isClass stmt) = true := by
  decide +kernel

/-- The function `open` and its import. -/
theorem exists_open :
    standard.functions.body.any (fun stmt => definesUsed ["open"] stmt &&
      (mentioned [stmt]).contains "IO") ∧
    standard.functions.body.any (fun stmt =>
      imported? ["IO"] stmt == some ("sys", "IO")) := by
  decide +kernel

section Facts

variable {stmt : Stmt} {node : Node}

theorem isDeclaration_of_mem (member : stmt ∈ declarations) : isDeclaration stmt :=
  (Bool.and_eq_true_iff.mp (all_eq_true.mp declarations_isTame stmt member)).1

theorem isTame_of_mem (member : stmt ∈ declarations) (inside : node ∈ (Node.stmt stmt).walk) :
    isTame stmt node :=
  all_eq_true.mp
    (Bool.and_eq_true_iff.mp (all_eq_true.mp declarations_isTame stmt member)).2 node inside

theorem isRooted_of_mem (member : stmt ∈ declarations) (inside : node ∈ (Node.stmt stmt).walk) :
    isRooted node := by
  have tame := isTame_of_mem member inside
  simp only [isTame, Bool.and_eq_true] at tame
  exact tame.1.1

theorem isRooted_of_library {module : Module} (member : module ∈ standard.libraries.values)
    (inside : node ∈ (Node.module module).walk) : isRooted node ∧ node.imports = [] := by
  have each := all_eq_true.mp libraries_isRooted module member
  have both := all_eq_true.mp each node inside
  rwa [Bool.and_eq_true, List.isEmpty_iff] at both

theorem eq_sys {site : Site} {items : List Alias} {level : Int}
    (declared : isDeclaration (.importFrom site (some name) items level))
    (notTyping : name ≠ "typing") : name = "sys" ∧ ∀ item ∈ items, item.name = "IO" := by
  simpa [isDeclaration, notTyping] using declared

/-- An import of a declaration is the declaration itself. -/
theorem eq_of_imports (member : stmt ∈ declarations) (inside : node ∈ (Node.stmt stmt).walk)
    (imported : name ∈ node.imports) : name = "sys" ∧
      ∃ site items level, stmt = .importFrom site (some "sys") items level := by
  have tame := isTame_of_mem member inside
  simp only [isTame, Bool.and_eq_true, Bool.or_eq_true, List.isEmpty_iff] at tame
  have isImport : stmt.isImport = true := by
    refine tame.1.2.resolve_left fun none => ?_
    rw [none] at imported
    cases imported
  cases stmt with
  | importModules site names => exact absurd (isDeclaration_of_mem member) Bool.false_ne_true
  | importFrom site moduleName names level =>
    rcases (Node.mem_walk_iff.mp inside).cases_head with rfl | ⟨child, isChild, below⟩
    · cases moduleName with
      | none => cases imported
      | some moduleName =>
        unfold Node.imports at imported
        dsimp only at imported
        split at imported
        · cases imported
        · next notTyping =>
          obtain rfl := mem_singleton.mp imported
          obtain ⟨rfl, -⟩ := eq_sys (isDeclaration_of_mem member) (by simpa using notTyping)
          exact ⟨rfl, site, names, level, rfl⟩
    · obtain ⟨item, -, rfl⟩ := mem_map.mp isChild
      have plain := Node.mayHoldStmts_of_mem_walk rfl (Node.mem_walk_iff.mpr below)
      rw [Node.imports_of_plain plain] at imported
      cases imported
  | _ => cases isImport

end Facts

/-- An import from `sys` brings in `IO` where it is mentioned. -/
theorem imported?_sys {mentioned : List String} (declared : isDeclaration stmt)
    (mentions : "IO" ∈ mentioned) (is : imported? ["IO"] stmt = some ("sys", "IO")) :
    imported? mentioned stmt = some ("sys", "IO") := by
  obtain ⟨site, names, level, item, rfl, notTyping, found, isName⟩ := imported?_eq_some_iff.mp is
  have all := (eq_sys declared notTyping).2
  have some : (names.find? fun other => mentioned.contains other.name).isSome = true := by
    refine find?_isSome.mpr ⟨item, mem_of_find?_eq_some found, ?_⟩
    rw [isName, contains_iff_mem]
    exact mentions
  obtain ⟨other, isOther⟩ := Option.isSome_iff_exists.mp some
  exact imported?_eq_some_iff.mpr ⟨site, names, level, other, rfl, notTyping, isOther,
    all other (mem_of_find?_eq_some isOther)⟩

section Selected

variable {names : List String} {selection : Selection}
  (selected : standard.selectAll names = .ok selection)

include selected

/-- Each selected declaration comes from some declarations. -/
theorem exists_isOf {declared : Declared} (member : declared ∈ selection.nodes) :
    ∃ body used allClasses part, Selection.IsOf body used allClasses part ∧
      part.nodes ⊆ selection.nodes ∧ declared ∈ part.nodes ∧ body ⊆ declarations := by
  obtain ⟨functions, isOf, subset, -, from_⟩ := selectAll_eq_ok selected
  rcases from_ declared member with here | ⟨module, isModule, used, methods, isOf, subset, there⟩
  · exact ⟨_, names, true, functions, isOf, subset, here, subset_append_left _ _⟩
  · refine ⟨_, used, false, methods, isOf, subset, there, fun stmt inside => ?_⟩
    exact mem_append_right _ (mem_flatMap.mpr ⟨module, isModule, inside⟩)

theorem mem_declarations (member : .stmt stmt ∈ selection.nodes) : stmt ∈ declarations := by
  obtain ⟨body, used, allClasses, part, isOf, -, here, declared⟩ := exists_isOf selected member
  exact declared (isOf.mem_body here)

/-- A library is selected with a declaration that imports from it. -/
theorem sys_mem_of_imports (member : .stmt stmt ∈ selection.nodes)
    (inside : node ∈ (Node.stmt stmt).walk) (imported : name ∈ node.imports) :
    name = "sys" ∧ .library "sys" ∈ selection.nodes := by
  obtain ⟨is, site, items, level, rfl⟩ :=
    eq_of_imports (mem_declarations selected member) inside imported
  obtain ⟨_, _, _, part, isOf, subset, here, -⟩ := exists_isOf selected member
  exact ⟨is, subset (isOf.library_mem here)⟩

/-- Classes, type variables and used functions are selected. -/
theorem stmt_mem (member : stmt ∈ declarations)
    (used : isClass stmt ∨ stmt.isTypeVarDeclaration ∨
      definesUsed names stmt) : .stmt stmt ∈ selection.nodes := by
  obtain ⟨functions, isOf, subset, methods, -⟩ := selectAll_eq_ok selected
  rcases mem_append.mp member with isFunction | isMethod
  · refine subset ((isOf.stmts stmt).mpr (.inl (mem_chosen_iff.mpr ⟨isFunction, ?_⟩)))
    exact used.imp_left fun isClass => ⟨isClass, .inl rfl⟩
  · obtain ⟨module, isModule, inside⟩ := mem_flatMap.mp isMethod
    obtain ⟨more, part, known, isOf, subset⟩ := methods module isModule
    refine subset ((isOf.stmts stmt).mpr (.inl (mem_chosen_iff.mpr ⟨inside, .inr ?_⟩)))
    rcases used with isClass | isVar | defines
    · have none := all_eq_true.mp (all_eq_true.mp methods_not_isClass module isModule) stmt inside
      simp [isClass] at none
    · exact .inl isVar
    · exact .inr (definesUsed_mono known defines)

/-- The classes that every program has are selected. -/
theorem exists_root_mem {className : String} (isRoot : isRootName className) :
    ∃ root, .stmt (.classDef root) ∈ selection.nodes ∧ root.name = className := by
  obtain ⟨root, isClass, same⟩ := any_eq_true.mp isRoot
  obtain ⟨stmt, member, is⟩ := mem_filterMap.mp isClass
  obtain rfl : stmt = .classDef root := by
    cases stmt with
    | classDef c => exact congrArg _ (Option.some.inj is)
    | _ => cases is
  exact ⟨root, stmt_mem selected (mem_append_left _ member) (.inl rfl), beq_iff_eq.mp same⟩

theorem sys_mem_of_open (used : "open" ∈ names) : .library "sys" ∈ selection.nodes := by
  obtain ⟨functions, isOf, subset, -⟩ := selectAll_eq_ok selected
  obtain ⟨isOpen, isImport⟩ := exists_open
  obtain ⟨function, isFunction, both⟩ := any_eq_true.mp isOpen
  rw [Bool.and_eq_true] at both
  obtain ⟨stmt, inside, is⟩ := any_eq_true.mp isImport
  refine subset ((isOf.libraries "sys").mpr ⟨stmt, inside, "IO", ?_⟩)
  have opened : function ∈ chosen standard.functions.body names true := by
    refine mem_chosen_iff.mpr ⟨isFunction, .inr (.inr ?_)⟩
    exact definesUsed_mono (by simpa using used) both.1
  have mentions : "IO" ∈ mentioned (chosen standard.functions.body names true) := by
    obtain ⟨_, same, mention⟩ := mem_mentioned_iff.mp (contains_iff_mem.mp both.2)
    exact mem_mentioned_iff.mpr ⟨_, mem_singleton.mp same ▸ opened, mention⟩
  exact imported?_sys (isDeclaration_of_mem (mem_append_left _ inside)) mentions (beq_iff_eq.mp is)

end Selected

end Library

end TypeInference
