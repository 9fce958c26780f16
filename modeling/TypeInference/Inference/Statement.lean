/- The types of statements. -/

import TypeInference.Inference.Class
import TypeInference.Inference.Function

namespace TypeInference

/-- Infers a module by its name and gives its key. -/
abbrev Importer := String → Infer ModuleKey

namespace Infer

def importModules (importer : Importer) (names : List Alias) : Infer Unit :=
  names.forM fun item => do
    let key ← importer item.name
    bind (item.asName.getD item.name) (.module key)

def importAll (scope : Scope) : Infer Unit :=
  scope.types.keys.forM fun name => do bind name (← Chain.find [scope] name)

def importName (scope : Scope) (item : Alias) : Infer Unit := do
  if !scope.types.contains item.name then throw (.notExported item.name)
  bind (item.asName.getD item.name) (← Chain.find [scope] item.name)

/-- Imports names from a module. Hints need no import of `typing`. -/
def importFrom (importer : Importer) (moduleName : Option String) (names : List Alias) :
    Infer Unit := do
  match moduleName with
  | none => throw .missingPart
  | some "typing" => pure ()
  | some moduleName => do
    let key ← importer moduleName
    let scope := (← get).moduleScope key
    match names with
    | [⟨_, "*", _⟩] => importAll scope
    | names => names.forM (importName scope)

/-- An assignment. A type variable is declared, not assigned. -/
def assignment (stmt : Stmt) (home : Option ModuleKey) (targets : List Expr) (value : Expr) :
    Infer Unit := do
  match targets, value with
  | target :: _, .call line (.name _ "TypeVar" _) args keywords =>
    declareTypeVar (.ofHome home) target (line.getD 0) args keywords
  | targets, value => do
    let type ← value.infer home
    targets.forM fun target => do
      let targetType ← target.assign home type
      if targets.length = 1 then
        modify fun session =>
          { session with here := { session.here with
            assignments := session.here.assignments ++ [(stmt, targetType)] } }

variable (home : Option ModuleKey)

def augmentedAssignment (target : Expr) (op : BinaryOperator) (value : Expr) (line : Nat) :
    Infer Unit := do
  let left ← target.infer home
  let right ← value.infer home
  let result ← binary op left right line
  let _ ← target.assign home (.term result)

/-- A constant of a fixed-width integer type has to fit. -/
def fixedWidthConstant (type : Meaning) (value : ConstantValue) (line : Nat) : Infer Unit := do
  match type.term?.bind Constraint.fixedWidth?, value with
  | some (mark, width), .int value => do
    let width := mark ++ toString width
    let constant ← fresh "fixed"
    assert ("fixed width int out of range on line: " ++ toString line)
      [.and [.isCon width constant, .eq (.toInt width constant) (.num value)]]
  | _, _ => pure ()

/-- What remains once the target is bound and the value inferred. Integer constants are not
assigned. -/
def finishAssignment (target value : Expr) (type valueType : Meaning) (line : Nat) :
    Infer Unit := do
  let (isInt, constant) ← value.constantInt
  if isInt then
    let _ ← target.inferTarget home
    fixedWidthConstant type constant line
  else
    let _ ← target.assign home valueType

/-- An assignment with a hint, which binds the name. -/
def hintedAssignment (target hint : Expr) (value : Option Expr) (line : Nat) : Infer Unit := do
  let type ← readHint (.ofHome home) (Hint.ofExpr hint)
  match target.id? with
  | none => throw .missingPart
  | some name => bind name type
  match value with
  | none => do let _ ← target.inferTarget home
  | some value => do
    let valueType ← value.infer home
    finishAssignment home target value type valueType line

/-- Of an exception that is raised only the arguments are inferred. -/
def raise : Option Expr → Infer Unit
  | some (.call _ _ args _) => args.forM fun arg => do let _ ← arg.infer home
  | _ => pure ()

def noType (act : Infer Unit) : Infer Meaning := do
  act
  pure (.term Term.none)

end Infer

namespace Stmt

mutual

def infer (importer : Importer) (stmt : Stmt) : Infer Meaning :=
  match stmt with
  | .assign site targets value => Infer.noType (Infer.assignment stmt site.home targets value)
  | .augAssign site target op value =>
    Infer.noType (Infer.augmentedAssignment site.home target op value site.lineNumber)
  | .annAssign site target hint value _ =>
    Infer.noType (Infer.hintedAssignment site.home target hint value site.lineNumber)
  | .returnValue _ none => pure (.term Term.none)
  | .returnValue site (some value) => value.infer site.home
  | .delete site targets => Infer.noType (Expr.deleteAll site.home site.lineNumber targets)
  | .ifElse site test body orelse | .whileLoop site test body orelse => do
    pure (.term (← Infer.branch site.lineNumber body (Infer.branchTest site.home test)
      (inferEach importer body) (inferEach importer orelse)))
  | .forLoop site _ target source body orelse => do
    Infer.loopTarget site.home site.lineNumber target source
    pure (.term (← Infer.branch site.lineNumber body (pure none)
      (inferEach importer body) (inferEach importer orelse)))
  | .withBlock site _ items body => do
    Infer.withItems site.home items
    pure (.term (← Infer.block site.lineNumber (inferEach importer body)))
  | .tryBlock site body handlers orelse final => do
    pure (.term (← Infer.tryBlock site.home site.lineNumber body (inferEach importer body)
      (inferEach importer orelse) (inferEach importer final)
      (inferHandlers importer handlers)))
  | .functionDef ⟨site, name, params, body, decorators, returns, synthetic⟩ =>
    Infer.functionDef ⟨site, name, params, body, decorators, returns, synthetic⟩
      (inferEach importer body)
  | .classDef ⟨site, name, bases, keywords, body, decorators⟩ =>
    Infer.classDef ⟨site, name, bases, keywords, body, decorators⟩
      (body.zip (inferEach importer body))
  | .expr site value => Infer.noType do let _ ← value.infer site.home
  | .importModules _ names => Infer.noType (Infer.importModules importer names)
  | .importFrom _ moduleName names _ =>
    Infer.noType (Infer.importFrom importer moduleName names)
  | .raise site exception _ => Infer.noType (Infer.raise site.home exception)
  | .pass _ | .other .. => pure (.term Term.none)
termination_by structural stmt

def inferEach (importer : Importer) : List Stmt → List (Infer Meaning)
  | [] => []
  | stmt :: stmts => infer importer stmt :: inferEach importer stmts

def inferHandlers (importer : Importer) : List Handler → List Infer.HandlerStep
  | [] => []
  | ⟨line, exception, name, body⟩ :: handlers =>
    ⟨line.getD 0, exception, name, inferEach importer body⟩ :: inferHandlers importer handlers

end

end Stmt

end TypeInference
