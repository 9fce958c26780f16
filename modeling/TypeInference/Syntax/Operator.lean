/- The operators of the analysed language and their names in syntax trees. -/

namespace TypeInference

inductive BinaryOperator where
  | add | sub | mult | matMult | div | mod | pow | lShift | rShift | bitOr | bitXor | bitAnd
  | floorDiv
deriving DecidableEq, Repr, Inhabited

namespace BinaryOperator

def all : List BinaryOperator :=
  [add, sub, mult, matMult, div, mod, pow, lShift, rShift, bitOr, bitXor, bitAnd, floorDiv]

def name : BinaryOperator → String
  | add => "Add" | sub => "Sub" | mult => "Mult" | matMult => "MatMult" | div => "Div"
  | mod => "Mod" | pow => "Pow" | lShift => "LShift" | rShift => "RShift" | bitOr => "BitOr"
  | bitXor => "BitXor" | bitAnd => "BitAnd" | floorDiv => "FloorDiv"

def ofName? (name : String) : Option BinaryOperator := all.find? fun op => op.name == name

end BinaryOperator

inductive UnaryOperator where
  | invert | not | plus | minus
deriving DecidableEq, Repr, Inhabited

namespace UnaryOperator

def all : List UnaryOperator := [invert, not, plus, minus]

def name : UnaryOperator → String
  | invert => "Invert" | not => "Not" | plus => "UAdd" | minus => "USub"

def ofName? (name : String) : Option UnaryOperator := all.find? fun op => op.name == name

end UnaryOperator

inductive CompareOperator where
  | eq | notEq | lt | ltE | gt | gtE | is | isNot | isIn | notIn
deriving DecidableEq, Repr, Inhabited

namespace CompareOperator

def all : List CompareOperator := [eq, notEq, lt, ltE, gt, gtE, is, isNot, isIn, notIn]

def name : CompareOperator → String
  | eq => "Eq" | notEq => "NotEq" | lt => "Lt" | ltE => "LtE" | gt => "Gt" | gtE => "GtE"
  | is => "Is" | isNot => "IsNot" | isIn => "In" | notIn => "NotIn"

def ofName? (name : String) : Option CompareOperator := all.find? fun op => op.name == name

def orderMethod? : CompareOperator → Option String
  | lt => some "__lt__"
  | gt => some "__gt__"
  | ltE => some "__le__"
  | gtE => some "__ge__"
  | _ => none

end CompareOperator

inductive BoolOperator where
  | and | or
deriving DecidableEq, Repr, Inhabited

namespace BoolOperator

def name : BoolOperator → String
  | and => "And"
  | or => "Or"

def ofName? : String → Option BoolOperator
  | "And" => some and
  | "Or" => some or
  | _ => none

end BoolOperator

inductive Usage where
  | load | store | del
deriving DecidableEq, Repr, Inhabited

namespace Usage

def name : Usage → String
  | load => "Load"
  | store => "Store"
  | del => "Del"

def ofName? : String → Option Usage
  | "Load" => some load
  | "Store" => some store
  | "Del" => some del
  | _ => none

end Usage

end TypeInference
