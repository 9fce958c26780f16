/- The modules that a program imports, and the nodes of all of them. -/

import TypeInference.Fault
import TypeInference.Library.Basic
import TypeInference.Path
import TypeInference.Syntax.Node

namespace TypeInference

structure Files where
  bodies : Table String (List Stmt) := {}
  /-- The folder that module names start from, if any. -/
  base : Option String := none

namespace Files

def get? (files : Files) (path : String) : Option (List Stmt) :=
  (files.bodies.entries.find? fun entry => Path.normal entry.1 == Path.normal path).map (·.2)

def isDirectory (files : Files) (path : String) : Bool :=
  files.bodies.keys.any (Path.isAbove path)

/-- A module name without the dots between its parts. -/
def moduleName (name : String) : String :=
  String.ofList (name.toList.map fun char => if char == '.' then '/' else char)

/-- Where the file of a module is: a package has its own file. -/
def pathOf (files : Files) (name : String) : String :=
  let stem := match files.base with
    | none => name
    | some base => base ++ "/" ++ name
  if files.isDirectory stem then stem ++ "/__init__.py" else stem ++ ".py"

end Files

structure Sources where
  /-- By name, with slashes for dots. -/
  modules : Table String Module := {}
  paths : Table String String := {}
  nextLabel : Nat := Library.nextLabel
  /-- The followed imports, by statement, position and name. -/
  followed : List ((Nat × Nat) × String) := []
  /-- The libraries that are part of the program. -/
  libraries : List String := []

namespace Sources

/-- Reading that stops at the first fault. -/
abbrev Reading := StateT Sources (Except Fault)

def readFile (files : Files) (name : String) : Reading Module := do
  let path := files.pathOf name
  match files.get? path with
  | none => throw (.noModule name)
  | some body =>
    let sources ← get
    let (module, nextLabel) := (Module.number (some (.file name)) body).run sources.nextLabel
    set { sources with
      modules := sources.modules.insert name module
      paths := sources.paths.insert name path
      nextLabel := nextLabel }
    pure module

/-- The module of an import. None is read twice. -/
def load (files : Files) (name : String) : Reading Module := do
  let key := if Library.isLibrary name then name else Files.moduleName name
  match (← get).modules.get? key with
  | some module => pure module
  | none =>
    match Library.standard.libraries.get? name with
    | some module => do
      modify fun sources => { sources with libraries := sources.libraries ++ [name] }
      pure module
    | none => readFile files key

/-- The imports of whole modules, with the place of each name. -/
def plainImports (nodes : List Node) : List ((Nat × Nat) × String) :=
  nodes.flatMap fun
    | .stmt (.importModules site names) =>
      names.zipIdx.map fun (item, index) => ((site.label, index), item.name)
    | _ => []

/-- The modules that names are imported from, but `typing`. -/
def fromImports (nodes : List Node) : List (Option String) :=
  nodes.filterMap fun
    | .stmt (.importFrom _ moduleName _ _) =>
      if moduleName == some "typing" then none else some moduleName
    | _ => none

/-- All nodes of a module and of the modules it imports. Each import of a whole module is followed
once; imports of names are always followed. Coming back without a new import goes on for ever. -/
def walk (files : Files) : Nat → List (Nat × Nat) → Module → Reading (List Node)
  | 0, _, _ => throw .circular
  | fuel + 1, active, module => do
    let here := (module.site.label, (← get).followed.length)
    if active.contains here then throw .circular
    let active := here :: active
    let nodes := Node.walk (.module module)
    let plain ← (plainImports nodes).flatMapM fun entry => do
      if (← get).followed.contains entry then pure []
      else
        let imported ← load files entry.2
        modify fun sources => { sources with followed := entry :: sources.followed }
        walk files fuel active imported
    let others ← (fromImports nodes).flatMapM fun moduleName =>
      match moduleName with
      | none => throw .missingPart
      | some name => do walk files fuel active (← load files name)
    pure (nodes ++ plain ++ others)

def importCount (body : List Stmt) : Nat :=
  let nodes := body.flatMap fun stmt => Node.walk (.stmt stmt)
  (plainImports nodes).length + (fromImports nodes).length

/-- How deep imports can lead without coming back. -/
def depthBound (files : Files) (body : List Stmt) : Nat :=
  let count := importCount body + (files.bodies.values.map importCount).foldr Nat.add 0
  (count * count + 1) * (count + 2)

end Sources

structure Program where
  main : Module
  sources : Sources
  nodes : List Node

namespace Program

/-- Reads the program and its imports. A file keeps its name. -/
def read (files : Files) (body : List Stmt) (name : Option (String × String)) :
    Except Fault Program := do
  let (main, nextLabel) := (Module.number (some .program) body).run Library.nextLabel
  let known := match name with
    | none => ({} : Sources)
    | some (name, path) => { modules := .ofList [(name, main)], paths := .ofList [(name, path)] }
  let (nodes, sources) ←
    (Sources.walk files (Sources.depthBound files body) [] main).run
      { known with nextLabel := nextLabel }
  pure ⟨main, sources, nodes⟩

end Program

end TypeInference
