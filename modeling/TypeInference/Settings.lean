/- The switches of the analysis, and how they are read from flags given as texts. -/

import TypeInference.Fault
import TypeInference.Table

namespace TypeInference

/-- Which decorators a method may carry. -/
inductive DecoratorRule where
  | only (names : List String)
  | switch (on : Bool)
deriving DecidableEq, Repr

structure Settings where
  /-- The body of a function with a declared result is skipped. -/
  trustDeclaredResults : Bool := true
  /-- Both branches must give a variable the same type. -/
  sameTypeInBranches : Bool := false
  decorators : DecoratorRule := .only ["staticmethod", "property", "abstractmethod"]
  /-- Instance attributes may be introduced by any method. -/
  attributesOutsideInit : Bool := true
  noneBelowAll : Bool := true
  softConstraints : Bool := true
  /-- A core of unsatisfiable assertions is written to a file. -/
  reportCore : Bool := false
deriving DecidableEq, Repr

namespace Settings

variable (settings : Settings)

/-- The boolean switches with their names in flags. -/
def switches : List (String × Bool) :=
  [("ignore_fully_annotated_function", settings.trustDeclaredResults),
   ("enforce_same_type_in_branches", settings.sameTypeInBranches),
   ("allow_attributes_outside_init", settings.attributesOutsideInit),
   ("none_subtype_of_all", settings.noneBelowAll),
   ("enable_soft_constraints", settings.softConstraints),
   ("print_unsat_core", settings.reportCore)]

/-- Unknown names change nothing. -/
def set (name : String) (on : Bool) : Settings :=
  match name with
  | "ignore_fully_annotated_function" => { settings with trustDeclaredResults := on }
  | "enforce_same_type_in_branches" => { settings with sameTypeInBranches := on }
  | "decorators" => { settings with decorators := .switch on }
  | "allow_attributes_outside_init" => { settings with attributesOutsideInit := on }
  | "none_subtype_of_all" => { settings with noneBelowAll := on }
  | "enable_soft_constraints" => { settings with softConstraints := on }
  | "print_unsat_core" => { settings with reportCore := on }
  | _ => settings

def allowsDecorator (name : String) : Except Fault Bool :=
  match settings.decorators with
  | .only names => .ok (names.contains name)
  | .switch _ => .error .badOperand

end Settings

/-- A type parameter. Those of a caller may be numbers. -/
inductive TypeParam where
  | named (name : String)
  | numbered (number : Int)
deriving DecidableEq, Repr, Inhabited

def TypeParam.text : TypeParam → String
  | .named name => name
  | .numbered number => toString number

abbrev TypeParams := Table String (List TypeParam)

namespace Flag

/-- Blanks that may surround a whole number. -/
def isBlank (c : Char) : Bool :=
  c == ' ' || (9 ≤ c.toNat && c.toNat ≤ 13) || (28 ≤ c.toNat && c.toNat ≤ 31)
    || c.toNat == 0x85 || c.toNat == 0xA0

def digits? : List Char → Nat → Option Nat
  | [], value => some value
  | '_' :: c :: rest, value =>
    if c.isDigit then digits? rest (10 * value + (c.toNat - '0'.toNat)) else none
  | c :: rest, value =>
    if c.isDigit then digits? rest (10 * value + (c.toNat - '0'.toNat)) else none

def unsigned? : List Char → Option Nat
  | [] => none
  | c :: rest => if c.isDigit then digits? (c :: rest) 0 else none

/-- A whole number, perhaps signed, with blanks and underscores. -/
def wholeNumber? (text : String) : Option Int :=
  let trimmed := ((text.toList.dropWhile isBlank).reverse.dropWhile isBlank).reverse
  match trimmed with
  | '-' :: rest => (unsigned? rest).map fun n => -(n : Int)
  | '+' :: rest => (unsigned? rest).map fun n => (n : Int)
  | cs => (unsigned? cs).map fun n => (n : Int)

/-- The type parameters `name0`, `name1`, … up to a count. -/
def typeParams (name : String) (count : Int) : List TypeParam :=
  (List.range count.toNat).map fun index => .named (name ++ toString index)

/-- Reads `name,count,name,count,…` into a table. -/
def readCounts : List String → TypeParams → Except Fault TypeParams
  | [], table => .ok table
  | [_], _ => .error (.arityOutOfRange .counts)
  | name :: count :: rest, table =>
    match wholeNumber? count with
    | none => .error .badNumber
    | some n => readCounts rest (table.insert name (typeParams name n))

/-- One flag for type parameters. The first opens an empty table. -/
def extend (table : Option TypeParams) (value : Option String) : Except Fault TypeParams :=
  match table, value with
  | none, _ => .ok .empty
  | some _, some "" => .ok .empty
  | some table, some text => readCounts ((text.toList.splitOn ',').map String.ofList) table
  | some _, none => .error .missingPart

structure Outcome where
  settings : Settings
  classParams : Option TypeParams := none
  funcParams : Option TypeParams := none

/-- Reads the flags in order, up to a fault. -/
def configure : List (String × Option String) → Outcome → Option Fault × Outcome
  | [], outcome => (none, outcome)
  | (name, value) :: rest, outcome =>
    if name = "func_type_params" then
      match extend outcome.funcParams value with
      | .ok table => configure rest { outcome with funcParams := some table }
      | .error fault => (some fault, outcome)
    else if name = "class_type_params" then
      match extend outcome.classParams value with
      | .ok table => configure rest { outcome with classParams := some table }
      | .error fault => (some fault, outcome)
    else
      configure rest
        { outcome with settings := outcome.settings.set name (value == some "True") }

end Flag

end TypeInference
