/- The rules for operators, collections, subscripts and comprehensions. Parts that are
inferred in between are given as steps. -/

import TypeInference.Constraint.Container
import TypeInference.Constraint.Flow
import TypeInference.Inference.Session

namespace TypeInference

namespace Infer

def elements (line : Nat) (steps : List (Infer Meaning)) : Infer Term := do
  let type ← fresh "elts"
  if steps.isEmpty then return type
  let types ← steps.mapM fun step => do
    let element ← (← step).toTerm
    assert (inLine "List literal" line) [← subtype element type]
    pure element
  prefer (.or (types.map fun element => .eq type element))
  pure type

/-- A tuple type of given components. The empty tuple is a constant. -/
def tuple (components : List Meaning) : Infer Term := do
  let sort := (← theory).sort
  if components.length > sort.maxTuple then throw (.arityOutOfRange .tuple)
  sort.tuple (← components.mapM fun component => component.toTerm)

def function (defaults : Nat) (params : List Meaning) (result : Meaning) : Infer Term := do
  let sort := (← theory).sort
  if params.length > sort.maxFunc then throw (.arityOutOfRange .function)
  let params ← params.mapM fun param => param.toTerm
  sort.func (.num defaults) params (← result.toTerm)

def bitwiseMethod? : BinaryOperator → Option String
  | .bitOr => some "__or__"
  | .bitXor => some "__xor__"
  | .bitAnd => some "__and__"
  | _ => none

def arithmeticMethod : BinaryOperator → String
  | .sub => "__sub__"
  | .floorDiv => "__floordiv__"
  | .mod => "__mod__"
  | .lShift => "__lshift__"
  | .rShift => "__rshift__"
  | _ => ""

def addition (left right : Meaning) (line : Nat) : Infer Term := do
  let result ← fresh "addition_result"
  let left ← left.toTerm
  let right ← right.toTerm
  assert (inLine "Addition" line) (← Constraint.addition (← frame) left right result)
  prefer (.or [.eq result left, .eq result right])
  pure result

def binary (op : BinaryOperator) (left right : Meaning) (line : Nat) : Infer Term := do
  match op with
  | .add => addition left right line
  | .mult => do
    let result ← fresh "multiplication_result"
    assert (inLine "Multiplication" line)
      (← Constraint.multiplication (← frame) (← left.toTerm) (← right.toTerm) result)
    pure result
  | .div => do
    let result ← fresh "division_result"
    assert (inLine "Division" line)
      (Constraint.division (← frame) (← left.toTerm) (← right.toTerm) result)
    pure result
  | op =>
    match bitwiseMethod? op with
    | some method => do
      let result ← fresh "bitwise_result"
      assert (inLine "Bitwise operation" line)
        (← Constraint.bitwise (← frame) (← left.toTerm) (← right.toTerm) result method)
      pure result
    | none => do
      let result ← fresh "arithmetic_result"
      assert (inLine "Arithmetic operation" line)
        (← Constraint.arithmetic (← frame) (← left.toTerm) (← right.toTerm) result
          (arithmeticMethod op) (op == .mod))
      pure result

def boolean (operands : List Meaning) (line : Nat) : Infer Term := do
  let result ← fresh "boolOp"
  let operands ← operands.mapM fun operand => operand.toTerm
  assert (inLine "Boolean operation" line) (Constraint.boolean (← frame) operands result)
  operands.forM fun operand => prefer (.eq operand result)
  pure result

def unary (op : UnaryOperator) (operand : Meaning) (line : Nat) : Infer Term := do
  match op with
  | .not => pure .bool
  | .invert => do
    assert (inLine "Invert operation" line) (Constraint.inversion (← frame) (← operand.toTerm))
    pure .int
  | .plus | .minus => do
    let result ← fresh "unary_result"
    assert (inLine "Unary operation" line)
      (Constraint.sign (← frame) (← operand.toTerm) result)
    pure result

def conditional (first second : Meaning) (line : Nat) : Infer Term := do
  let result ← fresh "if_expr"
  let first ← first.toTerm
  let second ← second.toTerm
  assert (inLine "If expression" line) (Constraint.conditional (← frame) first second result)
  prefer (.or [.eq result first, .eq result second])
  pure result

def indexed (whole index : Meaning) (line : Nat) : Infer Term := do
  let result ← fresh "index"
  let whole ← whole.toTerm
  let index ← index.toTerm
  assert (inLine "Indexing" line) (← Constraint.indexing (← frame) whole index result)
  prefer (Constraint.preferredIndexing whole index result)
  pure result

def sliced (whole lower upper step : Meaning) (line : Nat) : Infer Term := do
  let result ← fresh "slice"
  assert (inLine "Slicing" line)
    (Constraint.slicing (← frame) (← lower.toTerm) (← upper.toTerm) (← step.toTerm)
      (← whole.toTerm) result)
  pure result

/-- A chain of comparisons. Only those that compare by order pass operands on. -/
def comparisons (line : Nat) (left : Meaning) : List (CompareOperator × Infer Meaning) → Infer Unit
  | [] => pure ()
  | (op, step) :: rest => do
    let right ← step
    match op.orderMethod? with
    | none => comparisons line left rest
    | some method => do
      assert (inLine (method ++ " comparison") line)
        (← Constraint.ordering (← frame) (← left.toTerm) (← right.toTerm) method)
      comparisons line right rest

/-- Binds the target of a generator, which has to be a name. -/
def generator (line : Nat) (target : Expr) (source : Infer Meaning) : Infer Unit := do
  let source ← source
  let type ← fresh "generator_target"
  assert (inLine "Generator" line) (Constraint.generator (← source.toTerm) type)
  match target with
  | .name _ id _ => bind id (.term type)
  | .tuple .. | .list .. => throw .structuredIterationTarget
  | _ => throw .iterationTarget

def literal : Literal → Infer Term
  | .int _ => pure .int
  | .float _ => pure .float
  | .complex _ => pure .complex
  | .str .. => pure .str
  | .bytes _ => pure .bytes
  | .bool _ => pure .bool
  | .none => pure Term.none
  | .ellipsis => throw (.unsupportedExpression "Constant")

end Infer

end TypeInference
