/- The type sort of a program: the constructors of types and their accessors. -/

import TypeInference.Logic.Term
import TypeInference.Survey.Program

namespace TypeInference

/-- The constructors of the type sort, each with its accessors. -/
structure TypeSort where
  declared : List (String × List String)
  maxTuple : Nat
  maxFunc : Nat
deriving Repr

namespace TypeSort

/-- The widths of integer types, the widest first. -/
def widths : List Nat := [64, 32, 16, 8]

def maxGeneric : Nat := 3

variable (count : Nat)

/-- A generic type binds type variables in a type. -/
def genericAccessors : List String :=
  let name := "generic" ++ toString count
  (List.range count).map (fun index => name ++ "_tv" ++ toString (index + 1)) ++ [name ++ "_func"]

def baseConstructors : List (String × List String) :=
  [("object", []), ("type", ["type_arg_0"]), ("none", []), ("complex", []), ("float", []),
   ("int", [])]
    ++ widths.flatMap (fun width => [("u" ++ toString width, []), ("i" ++ toString width, [])])
    ++ [("bool", [])]

def genericConstructors : List (String × List String) :=
  (List.range maxGeneric).map fun index =>
    ("generic" ++ toString (index + 1), genericAccessors (index + 1))

def containerConstructors (maxTuple maxFunc : Nat) : List (String × List String) :=
  let ofClass (entry : ClassKey × List String) := (entry.1.name, entry.1.accessors)
  [("sequence", []), ("str", []), ("bytes", []), ("tuple", [])]
    ++ (List.range (maxTuple + 1)).map (fun length => ofClass (Survey.tupleClass length))
    ++ [("list", ["list_arg_0"]), ("set", ["set_arg_0"]), ("dict", ["dict_arg_0", "dict_arg_1"])]
    ++ (List.range (maxFunc + 1)).map fun args => ofClass (Survey.functionClass args)

/-- The constructors of classes but those of built-in types. -/
def classConstructors (classes : ClassTable) : List (String × List String) :=
  (classes.keys.filter fun key => !isAliasedType key.name).map fun key =>
    ("class_" ++ key.name, key.accessors)

def ofSurvey (survey : Survey) : TypeSort where
  declared := baseConstructors ++ survey.typeVars.values.map (fun id => ("tv" ++ id, []))
    ++ genericConstructors
    ++ containerConstructors survey.maxTupleLength survey.maxFunctionArgs
    ++ classConstructors survey.classBases
  maxTuple := survey.maxTupleLength
  maxFunc := survey.maxFunctionArgs

variable (sort : TypeSort) (name : String)

/-- The accessors of a constructor, of which the last counts. -/
def accessors? : Option (List String) :=
  (sort.declared.reverse.find? fun entry => entry.1 == name).map (·.2)

def hasConstructor : Bool := (sort.accessors? name).isSome

def hasAccessor (accessor : String) : Bool :=
  sort.declared.any fun entry => entry.2.contains accessor

/-- Whether a name is that of a number among arguments. -/
def isCount (accessor : String) : Bool := accessor.endsWith "defaults_args"

/-- An argument of a type, if the sort has the accessor. -/
def get (sort : TypeSort) (accessor : String) (whole : Term) : Except Fault Term :=
  if sort.hasAccessor accessor then .ok (.get accessor whole) else .error .missingPart

/-- A constructor with arguments, if it has accessors. -/
def apply (args : List Term) : Except Fault Term :=
  match sort.accessors? name with
  | none => .error .missingPart
  | some [] => .error .badOperand
  | some accessors =>
    if accessors.length = args.length then .ok (.con name args) else .error .notATerm

/-- A tuple type, if tuples can be that long. -/
def tuple (sort : TypeSort) (args : List Term) : Except Fault Term :=
  if args.length ≤ sort.maxTuple then .ok (.con ("tuple_" ++ toString args.length) args)
  else .error (.arityOutOfRange .tuple)

/-- A function type, if functions can be that long. -/
def func (defaults : Term) (args : List Term) (result : Term) : Except Fault Term :=
  if args.length ≤ sort.maxFunc then
    .ok (.con ("func_" ++ toString args.length) (defaults :: (args ++ [result])))
  else .error (.arityOutOfRange .function)

def funcDefaults : String := "func_" ++ toString count ++ "_defaults_args"

def funcArg (index : Nat) : String :=
  "func_" ++ toString count ++ "_arg_" ++ toString index

def funcResult : String := "func_" ++ toString count ++ "_return"

def tupleArg (length index : Nat) : String :=
  "tuple_" ++ toString length ++ "_arg_" ++ toString index

def genericVar (index : Nat) : String :=
  "generic" ++ toString count ++ "_tv" ++ toString index

def genericFunc : String := "generic" ++ toString count ++ "_func"

end TypeSort

end TypeInference
