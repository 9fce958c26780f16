/- The members that a class inherits from its ancestors. -/

import TypeInference.Hierarchy.Linearization
import TypeInference.Syntax.Query

namespace TypeInference

structure Inheritance where
  /-- For each class its inherited methods and where they come from. -/
  supers : Table String (Table String String) := {}
  /-- For each class the members it gets: methods, then attributes. -/
  members : Table String (List Stmt) := {}
  /-- For each inherited statement the last class it came from. -/
  origins : Table Nat String := {}

namespace Inheritance

def parents (c : ClassDef) : List String :=
  (c.bases.filterMap Expr.id?).filter (· != "object")

variable (classes : List ClassDef)

def bases : Bases :=
  .ofList (classes.map fun c => (c.name, parents c))

def named : Table String ClassDef :=
  .ofList (classes.map fun c => (c.name, c))

def methodNames (body : List Stmt) : List String :=
  body.filterMap fun
    | .functionDef definition => some definition.name
    | _ => none

/-- The names that assignments bind first. Other targets are refused. -/
def assignedNames (body : List Stmt) : Except Fault (List String) :=
  body.foldlM (fun names stmt =>
    match stmt with
    | .assign _ (.name _ id _ :: _) _ => .ok (names ++ [id])
    | .assign .. => .error .missingPart
    | _ => .ok names) []

def inheritedMethods (ancestor : ClassDef) (own : List String) : List Stmt :=
  ancestor.body.filter fun
    | .functionDef definition => !own.contains definition.name
    | _ => false

def inheritedAttributes (ancestor : ClassDef) (own : List String) : List Stmt :=
  ancestor.body.filter fun
    | .assign _ (.name _ id _ :: _) _ => !own.contains id
    | _ => false

structure Gathered where
  methods : List Stmt := []
  attributes : List Stmt := []
  supers : Table String String := {}
  origins : Table Nat String

def inherit (c : ClassDef) (gathered : Gathered) (ancestor : ClassDef) (name : String) :
    Except Fault Gathered := do
  let ownAttributes ← assignedNames (c.body ++ gathered.attributes)
  let methods := inheritedMethods ancestor (methodNames (c.body ++ gathered.methods))
  let attributes := inheritedAttributes ancestor ownAttributes
  pure
    { methods := gathered.methods ++ methods
      attributes := gathered.attributes ++ attributes
      supers := (methodNames methods).foldl (fun table method => table.insert method name)
        gathered.supers
      origins := (methods ++ attributes).foldl (fun table stmt => table.insert stmt.label name)
        gathered.origins }

def inheritAll (table : Table String ClassDef) (c : ClassDef) :
    Gathered → List String → Except Fault Gathered
  | gathered, [] => .ok gathered
  | gathered, name :: names =>
    if name == c.name then inheritAll table c gathered names
    else
      match table.get? name with
      | none => .error .missingKey
      | some ancestor => do
        inheritAll table c (← inherit c gathered ancestor name) names

def addClass (inheritance : Inheritance) (c : ClassDef) : Except Fault Inheritance := do
  let order ← (bases classes).linearize c.name
  let start : Gathered :=
    { supers := (inheritance.supers.get? c.name).getD {}, origins := inheritance.origins }
  let gathered ← inheritAll (named classes) c start order
  pure
    { supers := inheritance.supers.insert c.name gathered.supers
      members := inheritance.members.insert c.name (gathered.methods ++ gathered.attributes)
      origins := gathered.origins }

def ofClasses : Except Fault Inheritance :=
  classes.foldlM (addClass classes)
    { supers := .ofList (classes.map fun c => (c.name, {})) }

def membersOf (inheritance : Inheritance) (name : String) : List Stmt :=
  (inheritance.members.get? name).getD []

end Inheritance

end TypeInference
