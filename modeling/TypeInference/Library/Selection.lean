/- The declarations that a program uses are selected. -/

import TypeInference.Library.Basic
import TypeInference.Syntax.Query

namespace TypeInference

/-- A selected declaration: a statement, or a library as a whole. -/
inductive Declared where
  | stmt (value : Stmt)
  | library (name : String)

/-- The selected declarations, and the names that count as used then. -/
structure Selection where
  nodes : List Declared
  names : List String

namespace Selection

def assignsUsed (names : List String) : Stmt → Bool
  | .assign _ targets _ =>
    targets.any fun
      | .name _ id _ => names.contains id
      | _ => false
  | _ => false

def definesUsed (names : List String) : Stmt → Bool
  | .functionDef definition => names.contains definition.name
  | _ => false

mutual

def usesClass (names : List String) : Stmt → Bool
  | .classDef ⟨_, name, _, _, body, _⟩ => names.contains name || usesMember names body
  | _ => false

def usesMember (names : List String) : List Stmt → Bool
  | [] => false
  | stmt :: stmts =>
    usesClass names stmt || stmt.isTypeVarDeclaration || definesUsed names stmt
      || assignsUsed names stmt || usesMember names stmts

end

def isClass : Stmt → Bool
  | .classDef _ => true
  | _ => false

def mentioned (stmts : List Stmt) : List String :=
  stmts.flatMap fun stmt =>
    (Node.walk (.stmt stmt)).filterMap fun
      | .expr (.name _ id _) => some id
      | _ => none

/-- Imports bring in a library and themselves, if an imported name is mentioned. It counts as used
then. -/
def addImport (mentioned : List String) (selection : Selection) (stmt : Stmt) :
    Except Fault Selection :=
  match stmt with
  | .importFrom _ moduleName names _ =>
    if moduleName == some "typing" then .ok selection
    else
      match names.find? fun item => mentioned.contains item.name with
      | none => .ok selection
      | some item =>
        match moduleName with
        | some name =>
          if Library.isLibrary name then
            .ok ⟨selection.nodes ++ [.library name, .stmt stmt],
              selection.names ++ [item.name]⟩
          else .error .missingKey
        | none => .error .missingKey
  | _ => .ok selection

/-- Selects declarations: classes, type variables, functions, imports and variables. -/
def ofBody (body : List Stmt) (names : List String) (allClasses : Bool) :
    Except Fault Selection := do
  let classes := body.filter fun stmt => isClass stmt && (allClasses || usesClass names stmt)
  let typeVars := body.filter Stmt.isTypeVarDeclaration
  let functions := body.filter (definesUsed names)
  let stmts := classes ++ typeVars ++ functions
  let selection ← body.foldlM (addImport (mentioned stmts)) ⟨stmts.map .stmt, names⟩
  let assignments := body.filter (assignsUsed selection.names)
  pure ⟨selection.nodes ++ assignments.map .stmt, selection.names⟩

end Selection

namespace Library

/-- Selects from functions and methods alike. -/
def selectAll (library : Library) (names : List String) : Except Fault Selection := do
  let functions ← Selection.ofBody library.functions.body names true
  library.methods.values.foldlM (fun selection module => do
    let methods ← Selection.ofBody module.body selection.names false
    pure ⟨selection.nodes ++ methods.nodes, methods.names⟩) functions

end Library

end TypeInference
