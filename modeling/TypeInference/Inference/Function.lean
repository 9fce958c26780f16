/- The rule for function definitions. -/

import TypeInference.Inference.Block

namespace TypeInference

namespace FunctionDef

variable (f : FunctionDef)

def hints : List Expr := f.returns.toList ++ f.params.args.filterMap (·.hint)

/-- Whether a hint mentions a type variable with options. -/
def mentionsOptions (vars : DeclaredVars) : Bool :=
  (f.hints.flatMap Expr.names).any fun name =>
    ((vars.options.get? name).map fun options => !options.isEmpty).getD false

/-- Whether the function is known by its hints only. -/
def isDeclared (vars : DeclaredVars) : Bool :=
  f.isHinted false && (f.mentionsOptions vars || f.hasEmptyBody)

def signature : Signature :=
  { label := f.site.label
    args := f.params.args.map (·.hint)
    returns := f.returns
    defaults := f.params.defaults.length
    scope := .ofHome f.site.home }

end FunctionDef

namespace Infer

/-- The name of a function as a method: that of its scope stands before it. -/
def methodKey (scope : Scope) (name : String) : String :=
  if scope.name.isEmpty then name else scope.name ++ "." ++ name

def typeParamTerms (table : TypeParams) (name : String) : List Term :=
  ((table.get? name).getD []).map fun param => .typeVar param.text

/-- The type variables of a method: those of its class, then its own. -/
def methodVars (survey : Survey) (scope : Scope) (name : String) : List Term :=
  (if scope.name.isEmpty then [] else typeParamTerms survey.classParams scope.name)
    ++ typeParamTerms survey.funcParams name

def paramType (scope : HintScope) (param : Param) : Infer Meaning :=
  match param.hint with
  | some hint => readHint scope (Hint.ofExpr hint)
  | none => do pure (.term (← fresh "func_arg" isStem_param))

/-- The type of the parameter that a default value belongs to. They belong to the last parameters;
if there are too many, counting goes on from the last one. -/
def defaultParam (params : List Meaning) (defaults index : Nat) : Except Fault Meaning :=
  let position : Int := (index : Int) + params.length - defaults
  let position := if position < 0 then position + params.length else position
  if position < 0 then .error (.arityOutOfRange .defaults)
  else
    match params[position.toNat]? with
    | some param => .ok param
    | none => .error (.arityOutOfRange .defaults)

/-- Default values are below the types of their parameters. -/
def defaultValues (home : Option ModuleKey) (params : List Meaning) (defaults : List Expr) :
    Infer Unit :=
  defaults.zipIdx.forM fun (value, index) => do
    let type ← value.infer home
    let param ← (← defaultParam params defaults.length index).toTerm
    let type ← type.toTerm
    assert (inLine "Function default argument" value.lineNumber) [← subtype type param]
    prefer (.eq type param)

variable (f : FunctionDef)

def hintedResult (hint : Expr) (body : Infer Term) : Infer Meaning := do
  let result ← readHint (.ofHome f.site.home) (Hint.ofExpr hint)
  let bodyType ←
    if (← theory).settings.trustDeclaredResults || f.isStub false then pure result
    else do pure (.term (← body))
  assert (inLine "Return type annotation" f.lineNumber) [← bodyType.eq result]
  pure result

/-- The result of a function without a hint. That of an abstract method is above the body. -/
def plainResult (inherited : Bool) (body : Infer Term) : Infer Meaning := do
  let bodyType ← if inherited && f.name == "__init__" then pure Term.none else body
  let result ← fresh "return"
  let message := inLine "Return type" f.lineNumber
  if f.isAbstract then
    assert message [← subtype bodyType result]
  else
    assert message
      [.or [.and [.eq bodyType Term.none, .eq result bodyType],
        .and [.distinct bodyType Term.none, .eq result bodyType]]]
  prefer (.eq bodyType result) 2
  pure (.term result)

def genericFunction (vars : List Term) (func : Term) : Except Fault Term :=
  if vars.length > TypeSort.maxGeneric then .error (.arityOutOfRange .methodVariables)
  else if vars.isEmpty then .error .notATerm
  else .ok (.con ("generic" ++ toString vars.length) (vars ++ [func]))

def define (object : Meaning) (isMethod : Bool) (vars : List Term) (params : List Meaning)
    (result : Meaning) : Infer Unit := do
  let func ← function f.params.defaults.length params result
  let place := f.name ++ " in line " ++ toString f.lineNumber
  if isMethod then
    let generic ← genericFunction vars func
    assert ("Generic function definition " ++ place) [← object.eq (.term generic)]
  else
    assert ("Function definition " ++ place) [← object.eq (.term func)]

/-- Whether a statement stands in the scope only by inheritance. -/
def isInherited (label : Nat) : Infer Bool := do
  let session ← get
  pure (match session.theory.survey.inheritance.origins.get? label with
    | some origin => origin != session.here.name
    | none => false)

/-- A function definition whose body is inferred by given steps. Each way out turns back to the
saved method. A fault does not. -/
def functionBody (isMethod : Bool) (saved : Option Term) (steps : List (Infer Meaning)) :
    Infer Meaning := do
  let home := f.site.home
  let vars := methodVars (← theory).survey (← get).here f.name
  let scope ← openScope f.body f.name false true
  let params ← f.params.args.mapM fun param => do
    let type ← paramType (.ofHome home) param
    inChild scope (bind param.name type)
    pure type
  let object ← findDefinition f.name
  bind f.name object
  let inherited ← isInherited f.site.label
  if inherited && f.name != "__init__" then
    restoreMethod saved
    return .nothing
  modify fun session =>
    { session with here := { session.here with
      functions := session.here.functions.insert f.name f } }
  defaultValues home params f.params.defaults
  let body := inChild scope (block f.lineNumber steps)
  let result ← match f.returns with
    | some hint => hintedResult f hint body
    | none => plainResult f inherited body
  define f object isMethod vars params result
  restoreMethod saved
  pure (.term Term.none)

/-- A function definition, not inferred if known by its hints only. -/
def functionDef (steps : List (Infer Meaning)) : Infer Meaning := do
  let session ← get
  if f.isDeclared session.vars then
    bind f.name (.signature f.signature)
    pure (.term Term.none)
  else
    let method := session.theory.methods.get? (methodKey session.here f.name)
    functionBody f method.isSome (← enterMethod (method.map Term.method)) steps

end Infer

end TypeInference
