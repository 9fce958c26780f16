/- A whole program is surveyed together with the declarations that it uses. -/

import TypeInference.Library.Selection
import TypeInference.Survey.Classes
import TypeInference.Survey.TypeVars

namespace TypeInference

/-- The classes that every program has, with their bases. -/
def builtinClasses : List (ClassKey × List String) :=
  [(.plain "none", ["object"]), (.plain "complex", ["object"]), (.plain "float", ["complex"]),
   (.plain "int", ["float"]), (.plain "i64", ["int"]), (.plain "i32", ["i64"]),
   (.plain "i16", ["i32"]), (.plain "i8", ["i16"]), (.plain "u64", ["int"]),
   (.plain "u32", ["u64"]), (.plain "u16", ["u32"]), (.plain "u8", ["u16"]),
   (.plain "bool", ["int"]), (.plain "sequence", ["object"]), (.plain "str", ["sequence"]),
   (.plain "bytes", ["sequence"]), (.plain "tuple", ["sequence"]),
   (.generic "list" ["list_arg_0"], ["sequence"]), (.generic "set" ["set_arg_0"], ["object"]),
   (.generic "dict" ["dict_arg_0", "dict_arg_1"], ["object"]),
   (.generic "type" ["type_arg_0"], ["object"])]

/-- The names of built-in types, which are no classes. -/
def aliasedTypes : List (String × String) :=
  [("Dict", "dict"), ("Set", "set"), ("List", "list"), ("str", "str")]

def isAliasedType (name : String) : Bool := aliasedTypes.any fun entry => entry.1 == name

namespace Survey

def argumentNames (name : String) (count : Nat) : List String :=
  (List.range count).map fun index => name ++ "_arg_" ++ toString (index + 1)

def tupleClass (length : Nat) : ClassKey × List String :=
  let name := "tuple_" ++ toString length
  (.ofAccessors name (argumentNames name length), ["tuple"])

def functionClass (args : Nat) : ClassKey × List String :=
  let name := "func_" ++ toString args
  (.generic name ((name ++ "_defaults_args") :: (argumentNames name args ++ [name ++ "_return"])),
    ["object"])

/-- A class of the program as a class of the type sort. -/
def sortClass (key : ClassKey) (bases : List String) : ClassKey × List String :=
  let mark (name : String) := "class_" ++ name
  (match key with
    | .plain name => .plain (mark name)
    | .generic name accessors => .generic (mark name) accessors,
   bases.map fun base => if base == "object" then base else mark base)

/-- All classes of the type sort. -/
def completeClasses (survey : Survey) : Survey :=
  let tuples := (List.range (survey.maxTupleLength + 1)).map tupleClass
  let functions := (List.range (survey.maxFunctionArgs + 1)).map functionClass
  let own := survey.classBases.entries.filter fun entry => !isAliasedType entry.1.name
  let classes := builtinClasses ++ tuples ++ functions
    ++ own.map fun entry => sortClass entry.1 entry.2
  { survey with allClasses := .ofList classes }

variable (nodes : List Node)

/-- Names, classes, attributes and imports, in this order. -/
def namesUsed : List String :=
  nodes.filterMap (fun
      | .expr (.name _ id _) => some id
      | _ => none)
    ++ nodes.filterMap (fun
      | .stmt (.classDef c) => some c.name
      | _ => none)
    ++ nodes.filterMap (fun
      | .expr (.access _ _ attr _) => some attr
      | _ => none)
    ++ nodes.filterMap fun
      | .importAlias value => some value.name
      | _ => none

def longest (length : Node → Option Nat) : Nat :=
  (nodes.filterMap length).foldl max 0

def tupleLength : Node → Option Nat
  | .expr (.tuple _ elements _) => some elements.length
  | _ => none

def argCount : Node → Option Nat
  | .stmt (.functionDef f) => some f.params.args.length
  | .expr (.lambda _ params _) => some params.args.length
  | _ => none

def defaultCount : Node → Option Nat
  | .stmt (.functionDef f) => some f.params.defaults.length
  | _ => none

def classDefs : List ClassDef :=
  nodes.filterMap fun
    | .stmt (.classDef c) => some c
    | _ => none

def declaredNodes (library : Library) (selection : Selection) : List Node :=
  selection.nodes.flatMap fun
    | .stmt stmt => Node.walk (.stmt stmt)
    | .library name =>
      ((library.libraries.get? name).map fun module => Node.walk (.module module)).getD []

/-- The survey before anything is added to it. -/
def measured (base : Option String) (names : List String) (nodes : List Node)
    (funcParams classParams : TypeParams) : Survey where
  maxTupleLength := longest nodes tupleLength
  maxFunctionArgs := max 1 (longest nodes argCount)
  maxDefaultArgs := longest nodes defaultCount
  usedNames := names
  funcParams := funcParams
  classParams := classParams
  base := base

/-- Surveys a program, given type parameters. -/
def ofProgram (settings : Settings) (base : Option String) (program : Program)
    (funcParams classParams : TypeParams) : Except Fault Survey := do
  let names := namesUsed program.nodes
  let selection ← Library.standard.selectAll names
  let nodes := program.nodes ++ declaredNodes Library.standard selection
  let libraries := program.sources.libraries
  let survey := measured base names nodes funcParams classParams
  let survey ← survey.addClasses settings (classDefs nodes)
  let survey ← survey.addTypeVars libraries nodes
  let survey ← survey.addFunctions libraries nodes
  pure survey.addParams.completeClasses

end Survey

end TypeInference
