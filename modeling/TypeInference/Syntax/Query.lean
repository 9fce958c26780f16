/- Small questions about syntax: constants, type variables, hints and stubs. -/

import TypeInference.Fault
import TypeInference.Syntax.Node
import TypeInference.Syntax.Traversal

namespace TypeInference

/-- What is known of the value of a constant under signs. -/
inductive ConstantValue where
  | int (value : Int)
  | bool (value : Bool)
  /-- A number that is not whole. -/
  | inexact
  /-- No number, so that it has no negative. -/
  | other
deriving DecidableEq, Repr

namespace ConstantValue

def ofLiteral : Literal → ConstantValue
  | .int value => int value
  | .bool value => bool value
  | .float _ | .complex _ => inexact
  | .str .. | .bytes _ | .none | .ellipsis => other

/-- The negative of a truth value is a whole number. -/
def negate : ConstantValue → Except Fault ConstantValue
  | int value => .ok (int (-value))
  | bool true => .ok (int (-1))
  | bool false => .ok (int 0)
  | inexact => .ok inexact
  | other => .error .badOperand

def int? : ConstantValue → Option Int
  | int value => some value
  | _ => none

end ConstantValue

namespace Expr

/-- Whether the expression is an integer constant, and its value or zero. -/
def constantInt : Expr → Except Fault (Bool × ConstantValue)
  | .literal _ (.int value) => .ok (true, .int value)
  | .literal _ value => .ok (false, .ofLiteral value)
  | .unary _ .minus operand => do
    let (isInt, value) ← operand.constantInt
    pure (isInt, ← value.negate)
  | _ => .ok (false, .int 0)

/-- A call that declares a type variable. -/
def isTypeVarCall : Expr → Bool
  | .call _ (.name _ "TypeVar" _) _ _ => true
  | _ => false

def names (e : Expr) : List String :=
  (Node.walk (.expr e)).filterMap fun
    | .expr (.name _ id _) => some id
    | _ => none

def text? : Expr → Option String
  | .literal _ (.str text _) => some text
  | _ => none

/-- A name or the attribute at the end of a path. -/
def lastName? : Expr → Option String
  | .name _ id _ => some id
  | .access _ _ attr _ => some attr
  | _ => none

end Expr

namespace Stmt

def isTypeVarDeclaration : Stmt → Bool
  | .assign _ _ value => value.isTypeVarCall
  | _ => false

def functionDef? : Stmt → Option FunctionDef
  | .functionDef definition => some definition
  | _ => none

def classDef? : Stmt → Option ClassDef
  | .classDef definition => some definition
  | _ => none

end Stmt

def declaresTypeVar (body : List Stmt) : Bool := body.any Stmt.isTypeVarDeclaration

namespace FunctionDef

variable (f : FunctionDef)

/-- Whether result and arguments have hints, but the receiver. -/
def isHinted (isMethod : Bool) : Bool :=
  f.returns.isSome &&
    (if isMethod then f.params.args.drop 1 else f.params.args).all fun param => param.hint.isSome

/-- A body of dots or `pass` after at most an expression. -/
def hasEmptyBody : Bool :=
  match f.body with
  | [.expr _ (.literal _ .ellipsis)] | [.pass _] | [.expr .., .pass _] => true
  | _ => false

def isStub (isMethod : Bool) : Bool := f.isHinted isMethod && f.hasEmptyBody

def isAbstract : Bool :=
  f.decorators.any fun
    | .name _ "abstractmethod" _ | .access _ (.name _ "abc" _) "abstractmethod" _ => true
    | _ => false

end FunctionDef

namespace ClassDef

def hasInitialiser (body : List Stmt) : Bool :=
  body.any fun
    | .functionDef definition => definition.name == "__init__"
    | _ => false

/-- The initialiser that a class without one gets. -/
def defaultInitialiser (c : ClassDef) : FunctionDef :=
  { site := ⟨c.initialiserLabel, c.site.line, c.site.home⟩
    name := "__init__"
    params := ⟨[], [⟨c.site.line, "self", none⟩], none, [], [], none, []⟩
    body := [.pass ⟨c.initialiserLabel, none, c.site.home⟩]
    decorators := []
    returns := none
    synthetic := true }

/-- What a class gets to have an initialiser. -/
def missingInitialiser (c : ClassDef) (body : List Stmt) : List Stmt :=
  if hasInitialiser body then [] else [.functionDef c.defaultInitialiser]

def withInitialiser (c : ClassDef) : ClassDef :=
  { c with body := c.body ++ c.missingInitialiser c.body }

end ClassDef

end TypeInference
