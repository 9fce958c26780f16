/- Hints are read as types. Within a call of a function that is known by its hints, a type
variable stands for a fresh constant, the same one wherever it occurs. -/

import TypeInference.Constraint.Log
import TypeInference.Hint.Basic
import TypeInference.Theory.Meaning

namespace TypeInference

/-- The declared type variables: options and bounds. -/
structure DeclaredVars where
  options : Table String (List Expr) := {}
  bounds : Table String Expr := {}

namespace Hint

structure Setting where
  theory : Theory
  vars : DeclaredVars
  scope : HintScope

/-- How the type variables of a hint are read. -/
inductive VarMode where
  /-- Each is itself. -/
  | fixed
  /-- Those of the theory are themselves, the others constants. -/
  | mixed
  /-- All stand for constants. -/
  | instantiated
deriving DecidableEq, Repr

/-- The constraints so far, and the constants of type variables. -/
structure Progress where
  log : Log
  instances : Table String Term := {}

/-- Reading keeps its progress when it fails. -/
abbrev Reading := ExceptT Fault (StateM Progress)

def fresh (stem : String) (allowed : Log.isStem stem = true := by decide) : Reading Term :=
  modifyGet fun progress =>
    let (constant, log) := progress.log.fresh stem allowed
    (constant, { progress with log := log })

def assert (message : String) (parts : List Formula) : Reading Unit :=
  modify fun progress => { progress with log := progress.log.assert message parts }

def terms (meanings : List Meaning) : Reading (List Term) :=
  meanings.mapM fun d => d.toTerm

/-- The constant is one of the given types. -/
def oneOf (constant : Term) (types : List Meaning) : Reading Formula := do
  pure (.or (← types.mapM fun type => (Meaning.term constant).eq type))

def primitives : List (String × Term) :=
  [("object", .object), ("int", .int), ("bool", .bool), ("float", .float),
   ("complex", .complex), ("str", .str), ("bytes", .bytes), ("sequence", .sequence),
   ("Tuple", .tuple)]
    ++ TypeSort.widths.flatMap fun width =>
      [("i" ++ toString width, .fixed "i" width), ("u" ++ toString width, .fixed "u" width)]

/-- The part of a name after its last dot. -/
def baseName (text : String) : String :=
  String.ofList (text.toList.reverse.takeWhile (· != '.')).reverse

namespace Setting

variable (setting : Setting)

def classType (name : String) : Except Fault Meaning :=
  match setting.theory.sort.accessors? ("class_" ++ name) with
  | none => .error .missingPart
  | some [] => .ok (.term (.atom ("class_" ++ name)))
  | some (_ :: _) => .ok (.constructor ("class_" ++ name))

def typeVar? (name : String) : Except Fault (Option Term) :=
  let find (home : Option ModuleKey) :=
    (setting.theory.survey.typeVars.get? ⟨home, .named name⟩).map Term.typeVar
  match setting.scope with
  | .nowhere => .ok (find none)
  | .home key => .ok (find (some key))
  | .unusable => .error .badOperand

def instantiates (mode : VarMode) (name : String) : Except Fault Bool :=
  match mode with
  | .fixed => .ok false
  | .mixed => do pure (← setting.typeVar? name).isNone
  | .instantiated => .ok true

end Setting

variable (setting : Setting)

/-- The constant that a type variable stands for. A new one is one of the options. -/
def instanceOf (readOptions : List Hint → Reading (List Meaning)) (name : String) (line : Nat) :
    Reading Meaning := do
  match (← get).instances.get? name with
  | some constant => pure (.term constant)
  | none =>
    match setting.vars.options.get? name with
    | none => throw (.invalidHintName name line)
    | some options => do
      let constant ← fresh "generic"
      modify fun progress =>
        { progress with instances := progress.instances.insert name constant }
      let types ← readOptions (ofExprs options)
      if !types.isEmpty then
        assert ("Generic type in line " ++ toString line) [← oneOf constant types]
      pure (.term constant)

def resolveName (readOptions : List Hint → Reading (List Meaning)) (mode : VarMode) (text : String)
    (line : Nat) : Reading Meaning := do
  let name := baseName text
  match primitives.find? fun entry => entry.1 == name with
  | some (_, type) => pure (.term type)
  | none =>
    if setting.theory.classNames.contains name then setting.classType name
    else if ← setting.instantiates mode name then instanceOf setting readOptions name line
    else
      match ← setting.typeVar? name with
      | some type => pure (.term type)
      | none => throw (.invalidHintName name line)

def tupleOf (components : List Meaning) : Reading Meaning := do
  if components.length > setting.theory.sort.maxTuple then throw (.arityOutOfRange .tupleHint)
  pure (.term (← setting.theory.sort.tuple (← terms components)))

def functionOf (params : List Meaning) (result : Meaning) : Reading Meaning := do
  if params.length > setting.theory.sort.maxFunc then throw (.arityOutOfRange .functionHint)
  pure (.term (← setting.theory.sort.func (.num 0) (← terms params) (← result.toTerm)))

def unionOf (line : Nat) (options : List Meaning) : Reading Meaning := do
  let constant ← fresh "union"
  assert ("Union in type annotation in line " ++ toString line) [← oneOf constant options]
  pure (.term constant)

/-- A class applied to types, if it takes any. -/
def classOf (name : String) (args : List Meaning) : Reading Meaning := do
  match setting.theory.sort.accessors? ("class_" ++ name) with
  | some [] => throw .badOperand
  | _ => pure (.term (← setting.theory.sort.apply ("class_" ++ name) (← terms args)))

mutual

/-- The type of a hint. Options of type variables are read by `readOptions`. -/
def resolveWith (setting : Setting) (readOptions : List Hint → Reading (List Meaning))
    (mode : VarMode) : Hint → Reading Meaning
  | .noneType => pure (.term Term.none)
  | .name text line => resolveName setting readOptions mode text line
  | .list element => do
    let element ← resolveWith setting readOptions mode element
    pure (.term (.list (← element.toTerm)))
  | .set element => do
    let element ← resolveWith setting readOptions mode element
    pure (.term (.set (← element.toTerm)))
  | .dict key value => do
    let key ← resolveWith setting readOptions mode key
    let value ← resolveWith setting readOptions mode value
    pure (.term (.dict (← key.toTerm) (← value.toTerm)))
  | .typeOf object => do
    let object ← resolveWith setting readOptions mode object
    pure (.term (.type (← object.toTerm)))
  | .optional inner => resolveWith setting readOptions mode inner
  | .tuple components => do tupleOf setting (← resolveAllWith setting readOptions mode components)
  | .callable params result => do
    let params ← resolveAllWith setting readOptions mode params
    functionOf setting params (← resolveWith setting readOptions mode result)
  | .union options line => do unionOf line (← resolveAllWith setting readOptions mode options)
  | .applied className args line => do
    if !setting.theory.classNames.contains className then throw (.invalidHint line)
    if !setting.theory.sort.hasConstructor ("class_" ++ className) then throw .missingPart
    match args with
    | none => throw .missingPart
    | some args => classOf setting className (← resolveAllWith setting readOptions mode args)
  | .invalid fault => throw fault

def resolveAllWith (setting : Setting) (readOptions : List Hint → Reading (List Meaning))
    (mode : VarMode) : List Hint → Reading (List Meaning)
  | [] => pure []
  | hint :: hints => do
    let type ← resolveWith setting readOptions mode hint
    pure (type :: (← resolveAllWith setting readOptions mode hints))

end

/-- How options are read, given how the type variable was read. -/
def VarMode.ofOptions : VarMode → VarMode
  | .fixed => .fixed
  | .mixed | .instantiated => .mixed

/-- Reads a hint, following options to a depth. -/
def resolveTo (setting : Setting) : Nat → VarMode → Hint → Reading Meaning
  | 0, mode, hint => resolveWith setting (fun _ => throw .circular) mode hint
  | depth + 1, mode, hint =>
    resolveWith setting (fun options => options.mapM (resolveTo setting depth mode.ofOptions))
      mode hint

/-- Reads a hint. Each type variable is followed once. -/
def resolve (mode : VarMode) (hint : Hint) : Reading Meaning :=
  resolveTo setting setting.vars.options.size mode hint

end Hint

namespace Signature

/-- Whether a call with so many arguments fits. -/
def accepts (signature : Signature) (argCount : Nat) : Bool :=
  decide (signature.args.length ≤ argCount + signature.defaults)
    && decide (argCount ≤ signature.args.length)

/-- A call equates arguments and result with the hints, whose type variables stand for constants of
this call. It has no constraint if the number of arguments does not fit. -/
def callConstraint (signature : Signature) (theory : Theory) (vars : DeclaredVars)
    (args : List Meaning) (result : Meaning) : Hint.Reading (Option Formula) := do
  if !signature.accepts args.length then return none
  modify fun progress => { progress with instances := {} }
  let setting : Hint.Setting := ⟨theory, vars, signature.scope⟩
  let fits ← (args.zip signature.args).mapM fun (arg, hint) => do
    arg.eq (← Hint.resolve setting .instantiated (Hint.ofExpr? hint))
  let returned ← result.eq
    (← Hint.resolve setting .instantiated (Hint.ofExpr? signature.returns))
  pure (some (.and (fits ++ [returned])))

end Signature

end TypeInference
