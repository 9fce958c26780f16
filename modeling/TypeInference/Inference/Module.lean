/- Modules are inferred: declared functions and methods, libraries and files. -/

import TypeInference.Inference.Statement

namespace TypeInference

namespace Infer

/-- Infers a declaration. Methods are kept by their type. -/
def declaration (importer : Importer) (owner : Option String) (stmt : Stmt) : Infer Unit := do
  match owner, stmt with
  | some owner, .functionDef f => do
    if f.isDeclared (← get).vars then
      modify fun session =>
        { session with here := session.here.addMethod owner f.name f.signature }
    else let _ ← stmt.infer importer
  | _, _ => do let _ ← stmt.infer importer

/-- The declarations of a module that the program uses. More names may come to count as used. -/
def selectDeclarations (body : List Stmt) : Infer (List Stmt) := do
  let session ← get
  let selection ← Selection.ofBody (session.theory.survey.expand body) session.names false
  set { session with names := selection.names }
  pure (selection.nodes.filterMap fun
    | .stmt stmt => some stmt
    | .library _ => none)

/-- The scope of declared functions, or of methods of a type. -/
def declaredScope (importer : Importer) (name : String) (owner : Option String) (body : List Stmt) :
    Infer Scope := do
  match (← get).declared.get? name with
  | some scope => pure scope
  | none => do
    let stmts ← selectDeclarations body
    let start ← newScope "" false false {} body
    modify fun session => { session with declared := session.declared.insert name start }
    let scope ← withRoot none start (stmts.forM (declaration importer owner))
    modify fun session => { session with declared := session.declared.insert name scope }
    pure scope

def declarations (importer : Importer) : Infer Unit := do
  let library := Library.standard
  let functions ← declaredScope importer "" none library.functions.body
  modify fun session =>
    { session with here := { session.here with
      types := session.here.types.union functions.types } }
  library.methods.entries.forM fun (owner, module) => do
    let scope ← declaredScope importer owner (some owner) module.body
    modify fun session =>
      { session with here := { session.here with
        methods := session.here.methods.union scope.methods } }

def library (importer : Importer) (key : ModuleKey) (body : List Stmt) : Infer Unit := do
  let stmts ← selectDeclarations body
  let start ← newScope "" false false {} body
  let _ ← withRoot (some key) start (stmts.forM (declaration importer none))

/-- Infers a file, in which declared functions are known. -/
def file (importer : Importer) (name : String) (key : ModuleKey) (body : List Stmt) :
    Infer Unit := do
  let classNames := (body.filterMap Stmt.classDef?).map (·.name)
  modify fun session =>
    { session with classHomes := classNames.foldl (fun table className =>
      table.insert className name) session.classHomes }
  let body := (← theory).survey.expand body
  let start ← newScope "" false false {} body
  let _ ← withRoot (some key) start do
    declarations importer
    body.forM fun stmt => do let _ ← stmt.infer importer

/-- Infers a module unless that has been done. Modules on the way count as done. -/
def moduleTo : Nat → Importer
  | 0, _ => throw .circular
  | depth + 1, name => do
    let session ← get
    let path := Files.moduleName name
    let key : ModuleKey := if Library.isLibrary name then .library name else .file path
    if session.modules.contains key then return key
    match Library.standard.libraries.get? name, session.sources.modules.get? path with
    | some module, _ => library (moduleTo depth) key module.body
    | none, some module => file (moduleTo depth) name key module.body
    | none, none => throw (.noModule name)
    pure key

def importer : Importer := fun name => do
  let session ← get
  moduleTo (session.sources.modules.size + Library.libraryDeclarations.length + 1) name

end Infer

namespace Session

/-- A program before it has a scope. -/
def blank (theory : Theory) (axioms : Axioms) (program : Program) : Session where
  theory := theory
  sources := program.sources
  log := axioms.log
  names := theory.survey.usedNames
  home := some .program

/-- The start of an inference: the scope of the program. -/
def ofProgram (theory : Theory) (axioms : Axioms) (program : Program) : Session :=
  let (scope, started) := (Infer.newScope "" false false {}
    (theory.survey.expand program.main.body)).run (blank theory axioms program)
  match scope with
  | .ok scope => { started with here := scope }
  | .error _ => started

def declare (session : Session) : Except Fault Unit × Session :=
  (Infer.declarations Infer.importer).run session

def step (session : Session) (stmt : Stmt) : Except Fault Unit × Session :=
  (do let _ ← stmt.infer Infer.importer : Infer Unit).run session

def infer (session : Session) : Except Fault Unit × Session :=
  (do
    Infer.declarations Infer.importer
    (← get).here.body.forM fun stmt => do
      let _ ← stmt.infer Infer.importer : Infer Unit).run session

end Session

end TypeInference
