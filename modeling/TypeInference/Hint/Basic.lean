/- Type hints: what the expressions that stand for types can say. -/

import TypeInference.Fault
import TypeInference.Syntax.Basic

namespace TypeInference

inductive Hint where
  | noneType
  /-- A built-in type, a class or a type variable. -/
  | name (text : String) (line : Nat)
  | list (element : Hint)
  | set (element : Hint)
  | dict (key value : Hint)
  | typeOf (object : Hint)
  /-- Means the same as the hint in it. -/
  | optional (inner : Hint)
  | tuple (components : List Hint)
  | callable (params : List Hint) (result : Hint)
  | union (options : List Hint) (line : Nat)
  /-- A class with type arguments, absent if they form no list. -/
  | applied (className : String) (args : Option (List Hint)) (line : Nat)
  | invalid (fault : Fault)
deriving Inhabited

namespace Hint

mutual

/-- Reads an expression as a hint, or keeps the reason why not. -/
def ofExpr : Expr → Hint
  | .literal _ .none => .noneType
  | .literal line (.str text _) => .name text (line.getD 0)
  | .name line id _ => .name id (line.getD 0)
  | .subscript line value index _ =>
    match value, index with
    | .name .., .slice .. => .invalid (.invalidHintSubscript (line.getD 0))
    | .name _ "List" _, index => .list (ofExpr index)
    | .name _ "Set" _, index => .set (ofExpr index)
    | .name _ "Optional" _, index => .optional (ofExpr index)
    | .name _ "Type" _, index => .typeOf (ofExpr index)
    | .name _ "Dict" _, .tuple _ [key, value] _ => .dict (ofExpr key) (ofExpr value)
    | .name _ "Dict" _, _ => .invalid (.dictHintShape (line.getD 0))
    | .name _ "Tuple" _, .name l id u => .tuple [ofExpr (.name l id u)]
    | .name _ "Tuple" _, .tuple _ elements _ => .tuple (ofExprs elements)
    | .name _ "Tuple" _, _ => .invalid (.tupleHintShape (line.getD 0))
    | .name _ "Callable" _, .tuple _ [.list _ params _, result] _ =>
      .callable (ofExprs params) (ofExpr result)
    | .name _ "Callable" _, _ => .invalid (.callableHintShape (line.getD 0))
    | .name _ "Union" _, .name l id u => .union [ofExpr (.name l id u)] (line.getD 0)
    | .name _ "Union" _, .tuple _ elements _ => .union (ofExprs elements) (line.getD 0)
    | .name _ "Union" _, _ => .invalid (.unionHintShape (line.getD 0))
    | .name _ head _, .name l id u =>
      .applied head (some [ofExpr (.name l id u)]) (line.getD 0)
    | .name _ head _, .tuple _ elements _ | .name _ head _, .list _ elements _
    | .name _ head _, .set _ elements =>
      .applied head (some (ofExprs elements)) (line.getD 0)
    | .name _ head _, _ => .applied head none (line.getD 0)
    | _, _ => .invalid (.invalidHintSubscript (line.getD 0))
  | e => .invalid (.invalidHint e.lineNumber)

def ofExprs : List Expr → List Hint
  | [] => []
  | e :: es => ofExpr e :: ofExprs es

end

/-- A missing hint cannot be read. -/
def ofExpr? : Option Expr → Hint
  | some e => ofExpr e
  | none => .invalid .missingPart

end Hint

end TypeInference
