/- A model gives hints to the functions, assignments and classes of a module. -/

import TypeInference.Hint.Print
import TypeInference.Inference.Session
import TypeInference.Logic.Render
import TypeInference.Output.Edits
import TypeInference.Output.Model

namespace TypeInference

/-- What has been found for a module: changes, the names in the hints, and type variables. -/
structure Typed where
  edits : Edits := {}
  names : List String := []
  typeVars : Table String String := {}

namespace Typed

/-- Where the types come from. -/
structure Source where
  theory : Theory
  model : Model
  /-- The members that have been taken out of classes before. -/
  removed : Table Nat (List Nat) := {}

abbrev Writing := StateT Typed (Except Fault)

/-- Whether a statement is only inherited or added. -/
def isExtra (theory : Theory) (scope : Scope) (stmt : Stmt) : Bool :=
  let synthetic := match stmt with
    | .functionDef f => f.synthetic
    | _ => false
  match theory.survey.inheritance.origins.get? stmt.label with
  | some origin => origin != scope.name || synthetic
  | none => synthetic

variable (source : Source) (scope : Scope)

/-- The labels of the members that a class has lost. -/
def lost : List Nat :=
  (scope.owner.bind source.removed.get?).getD []

def extras : List Stmt :=
  scope.body.filter fun stmt =>
    isExtra source.theory scope stmt && !(lost source scope).contains stmt.label

/-- The functions of a scope, but for those taken out. -/
def ownFunctions : List (String × FunctionDef) :=
  let names := ((extras source scope).filterMap Stmt.functionDef?).map (·.name)
  scope.functions.entries.filter fun entry => !names.contains entry.1

def placeIn (line : Nat) : Hint.Place := ⟨some scope.name, line, scope.lines⟩

/-- A hint, unless it says nothing. -/
def hintFor (place : Hint.Place) (type : Term) : Except Fault Expr :=
  Hint.ofTerm source.theory place type

def saysNothing (hint : Expr) : Bool := Hint.text hint == "object"

def addNames (hint : Expr) : Writing Unit :=
  modify fun typed => { typed with names := typed.names ++ hint.names }

def edit (change : Edits → Edits) : Writing Unit :=
  modify fun typed => { typed with edits := change typed.edits }

def genericCount? : Term → Option Nat
  | .con name _ =>
    (List.range TypeSort.maxGeneric).findSome? fun index =>
      if name == "generic" ++ toString (index + 1) then some (index + 1) else none
  | _ => none

/-- Adds a type variable with its bound, unless it is known. -/
def useTypeVar (used : Table String String) (var : Term) : Except Fault (Table String String) := do
  if used.contains var.display then pure used
  else
    let bound ← Hint.print source.theory {} (source.model.upper var)
    pure (used.insert var.display bound)

def boundVars (sort : TypeSort) (type : Term) : List Term :=
  match genericCount? type with
  | none => []
  | some count => (List.range count).map fun index =>
    sort.simplify (.get (TypeSort.genericVar count (index + 1)) type)

def innerFunction (type : Term) : Term :=
  match genericCount? type with
  | none => type
  | some count => .get (TypeSort.genericFunc count) type

def paramHint (f : FunctionDef) (type : Term) (index : Nat) : Writing Unit := do
  let accessor := TypeSort.funcArg f.params.args.length (index + 1)
  let hint ← hintFor source (placeIn scope f.lineNumber)
    (source.theory.sort.simplify (.get accessor type))
  if !saysNothing hint then
    edit fun edits =>
      let known := (edits.params.get? f.site.label).getD {}
      { edits with params := edits.params.insert f.site.label (known.insert index hint) }
    addNames hint

def resultHint (f : FunctionDef) (type : Term) : Writing Unit := do
  let accessor := TypeSort.funcResult f.params.args.length
  let hint ← hintFor source (placeIn scope f.lineNumber)
    (source.theory.sort.simplify (.get accessor type))
  edit fun edits => { edits with results := edits.results.insert f.site.label hint }
  addNames hint

/-- The hints of one function. The model must have its type. -/
def functionHints (used : Table String String) (name : String) (f : FunctionDef) :
    Writing (Table String String) := do
  match scope.types.get? name with
  | none => throw .missingKey
  | some object => do
    match ← source.model.value? object with
    | none => throw .notATerm
    | some type => do
      let vars := boundVars source.theory.sort type
      let used ← vars.foldlM (fun used var => useTypeVar source used var) used
      let func := innerFunction type
      (List.range f.params.args.length).forM (paramHint source scope f func)
      resultHint source scope f func
      pure used

def scopeFunctions : Writing (Table String String) :=
  (ownFunctions source scope).foldlM (fun used (name, f) =>
    functionHints source scope used name f) {}

/-- The hints of all functions. The type variables of the first count. -/
def allFunctions (scopes : List Scope) : Writing (Table String String) := do
  let used ← scopes.mapM (scopeFunctions source)
  pure (used.headD {})

/-- The assignment of one part of a tuple, with a hint if it can have one. -/
def partAssignment (target value : Expr) (type : Term) : Except Fault Stmt := do
  match target with
  | .name .. | .access .. => do
    let type := source.theory.sort.simplify type
    let found ← source.model.value? (.term type)
    let hint ← hintFor source (placeIn scope target.lineNumber) (found.getD type)
    pure (.annAssign {} target hint (some value) 1)
  | _ => pure (.assign {} [target] value)

mutual

/-- Assignments of the parts of a tuple, one by one, if the value is a tuple. -/
def unfold (source : Source) (scope : Scope) (type : Term) (value : Expr) (target : Expr) :
    Except Fault (List Stmt) :=
  match target with
  | .tuple line elements usage =>
    match value with
    | .tuple _ values _ =>
      unfoldAll source scope type elements.length 1 values elements
    | _ => .ok [.assign {} [.tuple line elements usage] value]
  | target => do pure [← partAssignment source scope target value type]
termination_by structural target

def unfoldAll (source : Source) (scope : Scope) (type : Term) (length position : Nat)
    (values : List Expr) : List Expr → Except Fault (List Stmt)
  | [] => .ok []
  | target :: targets =>
    match values with
    | [] => .error (.arityOutOfRange .values)
    | value :: values => do
      let part ← source.theory.sort.get (TypeSort.tupleArg length position) type
      let first ← unfold source scope part value target
      pure (first ++
        (← unfoldAll source scope type length (position + 1) values targets))

end

/-- A tuple is unfolded if it stands directly in the scope. -/
def tupleAssignment (label : Nat) (target value : Expr) (type : Term) : Writing Unit :=
  match unfold source scope type value target with
  | .error _ | .ok [] => pure ()
  | .ok stmts => do
    if scope.body.any fun stmt => stmt.label == label && !isExtra source.theory scope stmt then
      edit fun edits => { edits with unfolded := edits.unfolded.insert label stmts }

/-- The hint of an assignment. Subscripts cannot have one. -/
def plainAssignment (site : Site) (target : Expr) (type : Term) : Writing Unit := do
  match source.model.value? (.term type), target with
  | .error _, _ | _, .subscript .. => pure ()
  | .ok found, _ => do
    let hint ← hintFor source (placeIn scope site.lineNumber) (found.getD type)
    if !saysNothing hint then
      edit fun edits => { edits with assignments := edits.assignments.insert site.label hint }
      addNames hint

def assignmentHint : Stmt × Meaning → Writing Unit
  | (.assign site [target] value, type) => do
    let type := source.theory.sort.simplify (← type.toTerm)
    match target with
    | .tuple .. => tupleAssignment source scope site.label target value type
    | _ => plainAssignment source scope site target type
  | _ => pure ()

def removal (edits : Edits) (scope : Scope) : Edits :=
  match scope.owner with
  | some label =>
    let labels := (extras source scope).map Stmt.label
    { edits with removed := edits.removed.insert label labels }
  | none => edits

/-- The base that lists the type parameters of a class. -/
def genericBase (params : List TypeParam) : Expr :=
  let names := params.map fun param => Expr.name none (Hint.typeVarName param.text) .load
  let index := match names with
    | [name] => name
    | names => .tuple none names .load
  .subscript none (.name none "Generic" .load) index .load

/-- Classes with type parameters get a base that lists them. -/
def classBases (used : Table String String) (body : List Stmt) : Writing (Table String String) :=
  (body.filterMap Stmt.classDef?).foldlM (fun used c => do
    match source.theory.survey.classParams.get? c.name with
    | none => pure used
    | some params => do
      let used ← params.foldlM (fun used param =>
        useTypeVar source used (.typeVar param.text)) used
      edit fun edits =>
        let known := (edits.bases.get? c.site.label).getD []
        { edits with bases := edits.bases.insert c.site.label (known ++ [genericBase params]) }
      pure used) used

/-- Finds the hints for a module, given its final scope. -/
def ofScope (root : Scope) : Except Fault Typed := do
  let scopes := root.preorder
  let start : Typed := { edits := scopes.foldl (removal source) {} }
  let (_, typed) ← (do
    let used ← allFunctions source scopes
    let used ← classBases source used root.body
    scopes.forM fun scope => scope.assignments.forM (assignmentHint source scope)
    modify fun typed => { typed with typeVars := used } : Writing Unit).run start
  pure typed

def declaration (var bound : String) : Stmt :=
  let name := Hint.typeVarName (var.drop 2).toString
  .assign {} [.name none name .load]
    (.call none (.name none "TypeVar" .load) [.literal none (.str name none)]
      [⟨none, some "bound", .name none bound .load⟩])

def isImport : Stmt → Bool
  | .importModules .. | .importFrom .. => true
  | _ => false

/-- Declares the type variables after the imports at the top. -/
def declareTypeVars (typed : Typed) (body : List Stmt) : List Stmt :=
  body.takeWhile isImport ++ typed.typeVars.entries.map (fun entry => declaration entry.1 entry.2)
    ++ body.dropWhile isImport

def finish (typed : Typed) (body : List Stmt) : List Stmt :=
  typed.declareTypeVars (typed.edits.apply body)

end Typed

end TypeInference
