/- The changes that turn a program into one with type hints and the imports for them. -/

import TypeInference.Survey.Basic

namespace TypeInference

namespace Output

def typingNames : List String :=
  ["List", "Tuple", "Callable", "Set", "Dict", "Union", "TypeVar", "Type", "IO", "Pattern", "Match",
   "Sequence", "Iterator"]

variable (classHomes : Table String String)

/-- The module of a name in a hint. Classes hide names of `typing`. -/
def moduleOf? (name : String) : Option String :=
  (classHomes.get? name).or (if typingNames.contains name then some "typing" else none)

/-- The names by their modules, both in the order of the names. -/
def groupByModule (names : List String) : Table String (List String) :=
  names.foldl (fun table name =>
    match moduleOf? classHomes name with
    | none => table
    | some moduleName =>
      table.insert moduleName ((table.get? moduleName).getD [] ++ [name])) {}

def importStmt (moduleName : String) (names : List String) : Stmt :=
  .importFrom {} (some moduleName) (names.map fun name => ⟨none, name, none⟩) 0

/-- The imports that a module needs for its hints, the last one first, but not from itself. -/
def requiredImports (moduleName : String) (names : List String) (body : List Stmt) : List Stmt :=
  let names := if declaresTypeVar body then names ++ ["TypeVar"] else names
  let groups := (groupByModule classHomes (sortedNames names)).entries
  ((groups.filter fun entry => entry.1 != moduleName).map fun entry =>
    importStmt entry.1 entry.2).reverse

end Output

/-- Changes to statements, by their labels. -/
structure Edits where
  params : Table Nat (Table Nat Expr) := {}
  results : Table Nat Expr := {}
  assignments : Table Nat Expr := {}
  unfolded : Table Nat (List Stmt) := {}
  removed : Table Nat (List Nat) := {}
  bases : Table Nat (List Expr) := {}

namespace Edits

variable (edits : Edits)

def hintParams (f : FunctionDef) : List Param :=
  let hints := (edits.params.get? f.site.label).getD {}
  f.params.args.zipIdx.map fun (param, index) =>
    { param with hint := (hints.get? index).or param.hint }

def editFunction (f : FunctionDef) : FunctionDef :=
  { f with
    params := { f.params with args := edits.hintParams f }
    returns := (edits.results.get? f.site.label).or f.returns }

def editClass (c : ClassDef) : ClassDef :=
  let removed := (edits.removed.get? c.site.label).getD []
  { c with
    bases := c.bases ++ (edits.bases.get? c.site.label).getD []
    body := c.body.filter fun stmt => !removed.contains stmt.label }

/-- An assignment with a hint has one target. -/
def editStmt (stmt : Stmt) : List Stmt :=
  match stmt with
  | .functionDef f => [.functionDef (edits.editFunction f)]
  | .classDef c => [.classDef (edits.editClass c)]
  | .assign site [target] value =>
    match edits.unfolded.get? site.label, edits.assignments.get? site.label with
    | some stmts, _ => stmts
    | none, some hint => [.annAssign site target hint (some value) 1]
    | none, none => [stmt]
  | .annAssign site target _ value _ =>
    match edits.assignments.get? site.label with
    | some hint => [.annAssign site target hint value 1]
    | none => [stmt]
  | _ => [stmt]

def apply (body : List Stmt) : List Stmt := Stmt.mapList edits.editStmt body

end Edits

end TypeInference
