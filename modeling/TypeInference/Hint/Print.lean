/- Types are written as hints. -/

import TypeInference.Theory.Basic
import TypeInference.Theory.Reader

namespace TypeInference

namespace Hint

/-- Where a hint stands: in which definition, on which line, and the lines of the definitions. -/
structure Place where
  scope : Option String := none
  line : Nat := 0
  lines : Table String Nat := {}

def nameExpr (id : String) : Expr := .name (some 1) id .load

def subscriptExpr (head : String) (index : Expr) : Expr :=
  .subscript (some 1) (nameExpr head) index .load

def tupleExpr (elements : List Expr) : Expr := .tuple (some 1) elements .load

/-- One type argument stands alone, several form a tuple. -/
def appliedExpr (head : String) (args : List Expr) : Expr :=
  match args with
  | [arg] => subscriptExpr head arg
  | _ => subscriptExpr head (tupleExpr args)

def numberExpr (value : Int) : Expr :=
  let digits := Expr.literal (some 1) (.int value.natAbs)
  if value < 0 then .unary (some 1) .minus digits else digits

def callExpr (head : String) (args : List Expr) : Expr := .call (some 1) (nameExpr head) args []

mutual

def termExpr : Term → Expr
  | .const id => nameExpr id
  | .num value => numberExpr value
  | .method id => nameExpr ("m__" ++ id)
  | .con head [] => nameExpr head
  | .con head args => callExpr head (termExprs args)
  | .get accessor whole => callExpr accessor [termExpr whole]
  | .subst whole what replacement =>
    callExpr "subst" [termExpr whole, termExpr what, termExpr replacement]
  | .upper var => callExpr "upper" [termExpr var]
  | .toInt width whole => callExpr (width ++ "_to_int") [termExpr whole]

def termExprs : List Term → List Expr
  | [] => []
  | t :: ts => termExpr t :: termExprs ts

end

/-- A type that is not yet defined is quoted. -/
def Place.classExpr (place : Place) (name : String) : Expr :=
  match place.lines.get? name with
  | some line =>
    if place.line ≤ line || place.scope == some name then
      .literal (some 1) (.str name none)
    else nameExpr name
  | none => nameExpr name

/-- Numbered type variables get a letter in front. -/
def typeVarName (id : String) : String :=
  if (id.toList.head?.map Char.isDigit).getD false then "T" ++ id else id

/-- Types whose names in hints differ in spelling. -/
def plainName? (name : String) : Option Expr :=
  match name with
  | "none" => some (.literal (some 1) .none)
  | "sequence" => some (nameExpr "Sequence")
  | "tuple" => some (nameExpr "Tuple")
  | "tuple_0" => some (subscriptExpr "Tuple" (tupleExpr []))
  | _ => none

/-- The rest of a name after a given start. -/
def restAfter? (start name : String) : Option String :=
  if name.startsWith start && name.length > start.length then
    some (String.ofList (name.toList.drop start.length))
  else none

def symbolExpr (place : Place) (name : String) : Expr :=
  match plainName? name with
  | some hint => hint
  | none =>
    match restAfter? "class_" name, restAfter? "tv" name with
    | some className, _ => place.classExpr className
    | none, some id => nameExpr (typeVarName id)
    | none, none => nameExpr name

/-- The hint for a symbol with arguments that has no form. -/
def headExpr (place : Place) (whole : Term) : Expr :=
  match termExpr whole with
  | .call line (.name l head u) args keywords =>
    let shown := match restAfter? "class_" head, restAfter? "tv" head with
      | some className, _ => className
      | none, some id => typeVarName id
      | none, none => head
    .call line (.name l shown u) args keywords
  | .name _ id _ => symbolExpr place id
  | e => e

def isNumbered (start name : String) : Bool :=
  ((restAfter? start name).map fun rest => rest.toList.all Char.isDigit).getD false

/-- The name of a generic class before its type arguments. -/
def genericName? (name : String) : Option String :=
  (restAfter? "class_" name).filter fun rest => rest.toList.all Char.isAlpha

/-- Whether a constructor with arguments has a hint of its own. -/
def hasForm (name : String) : Bool :=
  ["list", "set", "dict", "type"].contains name || isNumbered "tuple_" name
    || isNumbered "func_" name || (genericName? name).isSome

/-- The hint for a constructor, given those for its arguments. -/
def formExpr (classes : List ClassKey) (name : String) (args : List Expr) :
    Except Fault Expr :=
  match name with
  | "list" => .ok (appliedExpr "List" args)
  | "set" => .ok (appliedExpr "Set" args)
  | "dict" => .ok (appliedExpr "Dict" args)
  | "type" => .ok (appliedExpr "Type" args)
  | _ =>
    if isNumbered "tuple_" name then .ok (appliedExpr "Tuple" args)
    else if isNumbered "func_" name then
      let params := (args.drop 1).dropLast
      .ok (appliedExpr "Callable" (.list (some 1) params .load :: args.getLast?.toList))
    else
      match genericName? name with
      | some className =>
        if classes.any fun key => !key.accessors.isEmpty && key.name == name then
          .ok (appliedExpr className args)
        else .error .badOperand
      | none => .ok (callExpr name args)

mutual

/-- The hint for a type in which no accessor is left to apply. In the type arguments of a generic
class no name is quoted. -/
def simpleExpr (classes : List ClassKey) (place : Place) : Term → Except Fault Expr
  | .con head (arg :: args) =>
    if hasForm head then do
      let place := if (genericName? head).isSome then {} else place
      formExpr classes head (← simpleExprs classes place (arg :: args))
    else .ok (headExpr place (.con head (arg :: args)))
  | t => .ok (headExpr place t)

def simpleExprs (classes : List ClassKey) (place : Place) : List Term → Except Fault (List Expr)
  | [] => .ok []
  | t :: ts => do pure ((← simpleExpr classes place t) :: (← simpleExprs classes place ts))

end

/-- The hint for a type. Only arguments are simplified. -/
def ofTerm (theory : Theory) (place : Place) (t : Term) : Except Fault Expr :=
  match t with
  | .con head (_ :: _) =>
    if hasForm head then
      simpleExpr theory.survey.allClasses.keys place (theory.sort.simplify t)
    else .ok (headExpr place t)
  | _ => .ok (headExpr place t)

mutual

def text : Expr → String
  | .name _ id _ => id
  | .literal _ .none => "None"
  | .literal _ (.str content _) => "'" ++ content ++ "'"
  | .literal _ (.int value) => toString value
  | .unary _ .minus operand => "-" ++ text operand
  | .call _ func args _ => text func ++ "(" ++ ", ".intercalate (texts args) ++ ")"
  | .subscript _ value (.tuple _ [] _) _ => text value ++ "[()]"
  | .subscript _ value (.tuple _ elements _) _ =>
    text value ++ "[" ++ ", ".intercalate (texts elements) ++ "]"
  | .subscript _ value index _ => text value ++ "[" ++ text index ++ "]"
  | .list _ elements _ => "[" ++ ", ".intercalate (texts elements) ++ "]"
  | _ => ""

def texts : List Expr → List String
  | [] => []
  | e :: es => text e :: texts es

end

def print (theory : Theory) (place : Place) (t : Term) : Except Fault String := do
  pure (text (← ofTerm theory place t))

/-- The columns of a line of text. -/
def lineWidth : Nat := 60

/-- How many levels of a term are written out. -/
def shownLevels : Nat := 21

/-- Whether the text of a term from a column on is broken. An application that does not fit into the
line is broken after each argument but the last. -/
def breaks (column : Nat) : Nat → Expr → Bool
  | levels + 1, .call line func (arg :: args) keywords =>
    lineWidth < column + (text (.call line func (arg :: args) keywords)).length &&
      (!args.isEmpty || breaks (column + (text func).length + 1) levels arg)
  | _, _ => false

/-- Whether a bracket is closed on the first line of the text. -/
def closes (column : Nat) : Nat → Expr → Bool
  | levels + 1, .call line func (arg :: args) keywords =>
    let inner := column + (text func).length + 1
    column + (text (.call line func (arg :: args) keywords)).length ≤ lineWidth
      || closes inner levels arg || args.isEmpty && !breaks inner levels arg
  | _, _ => false

mutual

/-- Whether the classes in a type are recognized on the first lines of their texts. -/
def isWhole : Term → Bool
  | .con head (arg :: args) =>
    let shown := termExpr (.con head (arg :: args))
    if hasForm head then
      ((genericName? head).isNone || closes 0 shownLevels shown) && areWhole (arg :: args)
    else (restAfter? "class_" head).isNone || !breaks 0 shownLevels shown
  | _ => true

def areWhole : List Term → Bool
  | [] => true
  | t :: ts => isWhole t && areWhole ts

end

/-- The hint that is read from the text for a type. If texts are broken into lines, a class is cut
at the end of its first line, and what is left of it cannot be read. -/
def parsed (inLines : Bool) (theory : Theory) (place : Place) (t : Term) :
    Except Fault (Option Expr) := do
  if inLines && !isWhole (theory.sort.simplify t) then pure none
  else pure (some (← ofTerm theory place t))

end Hint

end TypeInference
