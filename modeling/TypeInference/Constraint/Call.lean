/- The constraints of calls. A part that is no term is refused only where it is used. -/

import TypeInference.Theory.Meaning

namespace TypeInference

namespace Constraint

variable (frame : Frame) (called : Meaning) (args : List Meaning) (result : Term)
  (typeArgs : List Term)

/-- The arities that a call can fit: the rest of the parameters must have default values. -/
def fittingArities (argCount : Nat) : List Nat :=
  ((List.range (frame.sort.maxFunc + 1)).filter fun arity =>
    decide (argCount ≤ arity) && decide (arity - argCount ≤ frame.survey.maxDefaultArgs))

/-- The parameters that a call leaves to their default values. -/
def remainingParams (arity argCount : Nat) (func : Term) : List Term :=
  (List.range (arity - argCount)).map fun index =>
    .get (TypeSort.funcArg arity (argCount + index + 1)) func

def defaultsOf (arity : Nat) (func : Term) : Term := .get (TypeSort.funcDefaults arity) func

/-- The called type is a function with the arguments as parameters. -/
def functionCall : Except Fault (List Formula) :=
  (fittingArities frame args.length).mapM fun arity => do
    let called ← called.toTerm
    let args ← args.mapM Meaning.toTerm
    let defaults := defaultsOf arity called
    let params := args ++ remainingParams arity args.length called
    pure (.and
      [.eq called (.con ("func_" ++ toString arity) (defaults :: (params ++ [result]))),
       .atLeast defaults (.num (arity - args.length : Nat))])

/-- A type in which type variables are replaced one after the other. -/
def substAll (whole : Term) (pairs : List (Term × Term)) : Term :=
  pairs.foldl (fun whole (what, replacement) => .subst whole what replacement) whole

/-- Each type argument is below its bound, in which the earlier ones have been replaced. -/
def belowBounds (vars typeArgs : List Term) : List Formula :=
  (vars.zip typeArgs).zipIdx.map fun ((var, typeArg), index) =>
    frame.subtype typeArg (substAll (.upper var) ((vars.zip typeArgs).take index))

/-- A call of the function inside a generic type, for one arity. -/
def genericArity (isGeneric : Formula) (bounds : List Formula) (instantiate : Term → Term)
    (func : Term) (args : List Term) (result : Term) (arity : Nat) : Formula :=
  if arity = 0 then
    .and [isGeneric, .eq (instantiate func) (.con "func_0" [.num 0, result])]
  else
    let defaults := defaultsOf arity func
    let params := (List.range arity).map fun index =>
      instantiate (.get (TypeSort.funcArg arity (index + 1)) func)
    let fits := List.zipWith (fun arg param => frame.subtype arg param) args params
    .and (isGeneric :: (bounds ++
      [.and (fits ++
        [.eq (instantiate func)
          (.con ("func_" ++ toString arity) (defaults :: (params ++ [result]))),
         .atLeast defaults (.num (arity - args.length : Nat))])]))

/-- The called type is generic in a number of type variables. -/
def genericWith (count : Nat) : Except Fault (List Formula) := do
  if count > TypeSort.maxGeneric then .error (.arityOutOfRange .typeArguments)
  let called ← called.toTerm
  let vars := (List.range count).map fun index =>
    Term.get (TypeSort.genericVar count (index + 1)) called
  let func := Term.get (TypeSort.genericFunc count) called
  let isGeneric := Formula.eq called (.con ("generic" ++ toString count) (vars ++ [func]))
  let bounds := belowBounds frame vars typeArgs
  (fittingArities frame args.length).mapM fun arity => do
    let args ← args.mapM Meaning.toTerm
    pure (genericArity frame isGeneric bounds (substAll · (vars.zip typeArgs)) func args result
      arity)

def genericCall : Except Fault (List Formula) :=
  (List.range frame.survey.maxTypeArgs).flatMapM fun index =>
    genericWith frame called args result typeArgs (index + 1)

/-- A class with enough type arguments. -/
def genericInstance (className constructor : String) (typeArgs : List Term) : Except Fault Term :=
  let count := ((frame.survey.classParams.get? className).getD []).length
  frame.sort.apply constructor (typeArgs.take count)

/-- The class is instantiated through its initialiser. -/
def plainInstantiation (className : String) (init : Term) (initArgs : Nat) (args : List Meaning)
    (result : Term) : Except Fault Formula := do
  let receiver ← frame.instanceOf className
  let defaults ← frame.sort.get (TypeSort.funcDefaults initArgs) init
  let missing : Int := (initArgs : Int) - args.length - 1
  let rest := (List.range missing.toNat).map fun index =>
    Term.get (TypeSort.funcArg initArgs (args.length + index + 2)) init
  if 1 + args.length + rest.length > frame.sort.maxFunc then
    .error (.arityOutOfRange .initialiser)
  let args ← args.mapM Meaning.toTerm
  let func ← frame.sort.func defaults (receiver :: (args ++ rest)) Term.none
  pure (.and [.eq result receiver, .eq init func, .atLeast defaults (.num missing)])

/-- The result is an instance of the class. Abstract classes have none. -/
def instantiation (className : String) (args : List Meaning) (result : Term)
    (typeArgs : List Term) : Except Fault Formula := do
  if frame.survey.abstractClasses.contains className then return .or []
  match ← frame.theory.methodIn className "__init__" with
  | none => .error .missingKey
  | some shape =>
    let init ← frame.theory.attrType className "__init__"
    if frame.theory.isGenericClass className then
      let receiver ←
        genericInstance frame className (Theory.constructorOf className) typeArgs
      let calls ← genericCall frame (.term init) (.term receiver :: args) Term.none typeArgs
      pure (.and [.eq result receiver, .or calls])
    else plainInstantiation frame className init shape.args args result

/-- The called object is one of the classes that are not generic. -/
def instantiations : Except Fault (List Formula) :=
  if args.length + 1 > frame.sort.maxFunc then .ok []
  else
    (frame.theory.classNames.filter fun name => !frame.theory.isGenericClass name).mapM
      fun name => do
        let instantiated ← instantiation frame name args result typeArgs
        pure (.and [instantiated, ← called.eq (frame.theory.classObject name)])

/-- The called object is an instance of a class that can be called. -/
def instanceCall : Except Fault (List Formula) :=
  frame.theory.forMethods "__call__" (fun _ => true) fun name => do
    let callType ← frame.theory.attrType name "__call__"
    let receiver ← frame.instanceOf name
    let same ← called.eq (.term receiver)
    let calls ← functionCall frame (.term callType) (.term receiver :: args) result
    pure (.and [same, .or calls])

/-- A call is one of a function, a class, an instance or a generic function. -/
def call : Except Fault (List Formula) := do
  let functions ← functionCall frame called args result
  let classes ← instantiations frame called args result typeArgs
  let instances ← instanceCall frame called args result
  let generics ← genericCall frame called args result typeArgs
  pure [.or (functions ++ classes ++ instances ++ generics)]

def staticCall (owner : Meaning) (args : List Meaning) (result : Term) (method : String) :
    Except Fault (List Formula) :=
  frame.theory.forMethods method (·.decorators.contains "staticmethod") fun name => do
    let methodType ← frame.theory.attrType name method
    let same ← owner.eq (frame.theory.classObject name)
    let calls ← functionCall frame (.term methodType) args result
    pure (.and [same, .or calls])

/-- A call of a method, with the receiver as the first argument. -/
def methodCallOn (receiver : Meaning) (args : List Meaning) (result : Term) (method : String)
    (typeArgs : List Term) (className : String) : Except Fault Formula := do
  let methodType ← frame.theory.attrType className method
  if frame.theory.isGenericClass className then
    let type ← genericInstance frame className (Theory.constructorOf className) typeArgs
    let below := frame.subtype (← receiver.toTerm) type
    pure (.and [below, .or (← genericCall frame (.term methodType) args result typeArgs)])
  else
    let same ← receiver.eq (.term (← frame.instanceOf className))
    pure (.and [same, .or (← functionCall frame (.term methodType) args result)])

/-- A call of an attribute that is no method, without the receiver. -/
def attributeCallOn (receiver : Meaning) (args : List Meaning) (result : Term)
    (attr className : String) : Except Fault Formula := do
  let attrType ← frame.theory.attrType className attr
  let same ← receiver.eq (.term (← frame.instanceOf className))
  let functions ← functionCall frame (.term attrType) (args.drop 1) result
  let instances ← instanceCall frame (.term attrType) (args.drop 1) result
  pure (.and [same, .or (functions ++ instances)])

/-- A call on an instance, of a method or of another attribute. -/
def methodCall (receiver : Meaning) (args : List Meaning) (result : Term) (attr : String)
    (typeArgs : List Term) : Except Fault (List Formula) :=
  frame.theory.classNames.flatMapM fun name => do
    match ← frame.theory.methodIn name attr with
    | some shape =>
      if shape.decorators.contains "staticmethod" || shape.decorators.contains "property" then
        pure []
      else do pure [← methodCallOn frame receiver args result attr typeArgs name]
    | none =>
      if (← Theory.lookup frame.survey.instanceAttrs name).contains attr then
        do pure [← attributeCallOn frame receiver args result attr name]
      else pure []

end Constraint

end TypeInference
