/- Scopes: what the names of a module, class, function or branch stand for. -/

import TypeInference.Syntax.Writer
import TypeInference.Theory.Meaning

namespace TypeInference

structure Scope where
  name : String := ""
  isClass : Bool := false
  isFunction : Bool := false
  types : Table String Meaning := {}
  /-- The types of expressions that a test has narrowed. -/
  narrowed : Table String Meaning := {}
  /-- The lines on which types are defined. -/
  lines : Table String Nat := {}
  body : List Stmt := []
  /-- The class that the scope belongs to, by label. -/
  owner : Option Nat := none
  methods : Table String (Table String Signature) := {}
  functions : Table String FunctionDef := {}
  assignments : List (Stmt × Meaning) := []
  imports : List String := []
  children : List Scope := []
deriving Inhabited

namespace Scope

/-- The lines of imported or defined types. -/
def definitionLines (body : List Stmt) : List (String × Nat) :=
  body.flatMap fun
    | .importModules site names =>
      names.map fun item => (item.asName.getD item.name, site.lineNumber)
    | .classDef definition => [(definition.name, definition.lineNumber)]
    | _ => []

/-- The lines that are known in a new scope. -/
def linesOf (outer : Table String Nat) (body : List Stmt) : Table String Nat :=
  outer.union ⟨definitionLines body⟩

variable (scope : Scope) (name : String)

def bind (type : Meaning) : Scope :=
  { scope with types := scope.types.insert name type }

def addChild (child : Scope) : Scope :=
  { scope with children := scope.children ++ [child] }

def narrowing? (e : Expr) : Option Meaning :=
  (scope.narrowed.entries.find? fun entry => entry.1 == e.key).map (·.2)

def methodsNamed : List Signature :=
  scope.methods.values.filterMap fun methods => methods.get? name

def addMethod (owner name : String) (signature : Signature) : Scope :=
  let known := (scope.methods.get? owner).getD {}
  { scope with methods := scope.methods.insert owner (known.insert name signature) }

mutual

/-- The scope and all below it, each before its children. -/
def preorder (scope : Scope) : List Scope :=
  match scope with
  | ⟨_, _, _, _, _, _, _, _, _, _, _, _, children⟩ => scope :: preorderAll children

def preorderAll : List Scope → List Scope
  | [] => []
  | scope :: scopes => preorder scope ++ preorderAll scopes

end

mutual

def bindsBelow (scope : Scope) (name : String) : Bool :=
  match scope with
  | ⟨_, _, _, types, _, _, _, _, _, _, _, _, children⟩ =>
    types.contains name || anyBindsBelow children name

def anyBindsBelow : List Scope → String → Bool
  | [], _ => false
  | scope :: scopes, name => bindsBelow scope name || anyBindsBelow scopes name

end

mutual

/-- The type of a name in the scope or the first below with it. -/
def findBelow? (scope : Scope) (name : String) : Option Meaning :=
  match scope with
  | ⟨_, _, _, types, _, _, _, _, _, _, _, _, children⟩ =>
    match types.get? name with
    | some type => some type
    | none => findInBelow? children name

def findInBelow? : List Scope → String → Option Meaning
  | [], _ => none
  | scope :: scopes, name =>
    match findBelow? scope name with
    | some type => some type
    | none => findInBelow? scopes name

end

def findBelow (scope : Scope) (name : String) : Except Fault Meaning :=
  match scope.findBelow? name with
  | some type => .ok type
  | none => .error (.unboundBelow name)

def isNamedHere : Bool :=
  scope.name == name || scope.children.any fun child => child.name == name

/-- The place of the scope with a name, here or below. -/
def indexNamed? : Except Fault (Option Nat) :=
  if scope.name == name then .ok none
  else
    match scope.children.findIdx? fun child => child.name == name with
    | some index => .ok (some index)
    | none => .error (.noScopeNamed name)

def allImports : List String := scope.preorder.flatMap (·.imports)

end Scope

end TypeInference
