/- The classes of a program: bases, members, attributes and decorators. -/

import TypeInference.Survey.Basic

namespace TypeInference

namespace Survey

/-- The statements with the additions of their classes. -/
def expandWith (additions : ClassDef → List Stmt) (body : List Stmt) : List Stmt :=
  Stmt.mapList (fun
    | .classDef definition =>
      [.classDef { definition with body := definition.body ++ additions definition }]
    | stmt => [stmt]) body

/-- The statements with all additions, to a depth. -/
def expandTo (additions : Table Nat (List Stmt)) : Nat → List Stmt → List Stmt
  | 0, body => body
  | depth + 1, body =>
    expandWith (fun c => expandTo additions depth ((additions.get? c.site.label).getD [])) body

/-- The statements with all additions. -/
def expand (survey : Survey) (body : List Stmt) : List Stmt :=
  expandTo survey.additions (survey.additions.size + 1) body

/-- What a class has beyond its text: what it inherits, and an initialiser. -/
def addMembers (inheritance : Inheritance) (classes : List ClassDef) : Table Nat (List Stmt) :=
  let inherited := classes.foldl (fun (table : Table Nat (List Stmt)) c =>
    table.insert c.site.label
      ((table.get? c.site.label).getD [] ++ inheritance.membersOf c.name)) {}
  classes.foldl (fun table c =>
    let members := (table.get? c.site.label).getD []
    table.insert c.site.label (members ++ c.missingInitialiser (c.body ++ members))) inherited

/-- Whether a base only lists type parameters. -/
def isGenericBase : Expr → Except Fault Bool
  | .subscript _ (.name _ id _) _ _ => .ok (id == "Generic")
  | .subscript .. => .error .missingPart
  | _ => .ok false

/-- The bases that are classes, and those with type parameters. -/
def splitBases (bases : List Expr) : Except Fault (List Expr × List Expr) := do
  let marked ← bases.mapM fun base => do pure (base, ← isGenericBase base)
  pure ((marked.filter fun entry => !entry.2).map (·.1),
    (marked.filter fun entry => entry.2).map (·.1))

def nameOf (e : Expr) : Except Fault String :=
  match e.id? with
  | some id => .ok id
  | none => .error .missingPart

/-- Expressions are looked through to their value. -/
def parameterList : Expr → Except Fault Expr
  | .access _ value _ _ | .subscript _ value _ _ | .starred _ value _ | .await _ value
  | .yieldFrom _ value | .named _ _ value | .dictComprehension _ _ value _
  | .formatted _ value _ _ | .yield _ (some value) => .ok value
  | .literal .. | .yield _ none => .error .missingPart
  | e => .ok e

def listedParams : Expr → Except Fault (List TypeParam)
  | .subscript _ _ index _ => do
    let names ← match ← parameterList index with
      | .tuple _ elements _ => elements.mapM nameOf
      | e => do pure [← nameOf e]
    pure (names.map .named)
  | _ => .ok []

def accessorName (className : String) (param : TypeParam) : String :=
  className ++ "_arg_" ++ param.text

def isAbstractMeta (keywords : List Keyword) : Bool :=
  match keywords with
  | ⟨_, some "metaclass", .name _ "ABCMeta" _⟩ :: _ => true
  | ⟨_, some "metaclass", .access _ _ "ABCMeta" _⟩ :: _ => true
  | _ => false

variable (settings : Settings)

def decoratorName (decorator : Expr) : Except Fault String := do
  let name ← match decorator.lastName? with
    | some name => .ok name
    | none => .error .missingPart
  if ← settings.allowsDecorator name then pure name else .error (.unsupportedDecorator name)

def receiverAttributes (receiver : String) (method : Stmt) : List String :=
  (Node.walk (.stmt method)).flatMap fun
    | .stmt (.assign _ targets _) =>
      targets.filterMap fun
        | .access _ (.name _ id _) attr _ => if id == receiver then some attr else none
        | _ => none
    | _ => []

/-- What the members of one class tell. -/
structure Members where
  instanceAttrs : List String := []
  classAttrs : List String := []
  methods : Table String MethodShape := {}
  hasAbstractMethod : Bool := false
  labels : List Nat := []

namespace Members

def addMethod (members : Members) (f : FunctionDef) : Except Fault Members := do
  let decorators ← f.decorators.mapM (decoratorName settings)
  let members := { members with
    methods := members.methods.insert f.name
      ⟨f.params.args.length, decorators, f.params.defaults.length⟩
    instanceAttrs := members.instanceAttrs ++ [f.name]
    classAttrs := members.classAttrs ++ [f.name]
    hasAbstractMethod := members.hasAbstractMethod || decorators.contains "abstractmethod"
    labels := members.labels ++ [f.site.label] }
  match f.params.args with
  | [] => pure members
  | receiver :: _ =>
    if settings.attributesOutsideInit || f.name == "__init__" then
      pure { members with instanceAttrs :=
        members.instanceAttrs ++ receiverAttributes receiver.name (.functionDef f) }
    else pure members

def add (members : Members) : Stmt → Except Fault Members
  | .functionDef f => members.addMethod settings f
  | .assign _ targets _ =>
    let names := targets.filterMap Expr.id?
    .ok { members with
      instanceAttrs := members.instanceAttrs ++ names
      classAttrs := members.classAttrs ++ names }
  | _ => .ok members

end Members

/-- Adds one class with all its members. -/
def addClass (survey : Survey) (c : ClassDef) (members : List Stmt) : Except Fault Survey := do
  let (realBases, genericBases) ← splitBases c.bases
  let classParams ← match genericBases with
    | [] => pure survey.classParams
    | base :: _ => do pure (survey.classParams.insert c.name (← listedParams base))
  let key := match classParams.get? c.name with
    | some params => .generic c.name (params.map (accessorName c.name))
    | none => .plain c.name
  let bases ← if realBases.isEmpty then pure ["object"] else c.bases.mapM nameOf
  let found ← members.foldlM (Members.add settings) {}
  pure { survey with
    classParams := classParams
    classBases := survey.classBases.insert key bases
    instanceAttrs := survey.instanceAttrs.insert c.name (sortedNames found.instanceAttrs)
    classAttrs := survey.classAttrs.insert c.name (sortedNames found.classAttrs)
    methods := survey.methods.insert c.name found.methods
    owners := found.labels.foldl (fun table label =>
      table.insert label ⟨c.site.home, c.bases⟩) survey.owners
    abstractClasses :=
      if isAbstractMeta c.keywords || found.hasAbstractMethod then
        survey.abstractClasses ++ [c.name]
      else survey.abstractClasses }

def addClasses (survey : Survey) (classes : List ClassDef) : Except Fault Survey := do
  let inheritance ← Inheritance.ofClasses classes
  let survey := { survey with
    inheritance := inheritance
    additions := addMembers inheritance classes }
  classes.foldlM (fun survey c =>
    let members := c.body ++ (survey.additions.get? c.site.label).getD []
    addClass settings survey c (survey.expand members)) survey

end Survey

end TypeInference
