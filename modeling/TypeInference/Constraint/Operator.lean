/- The constraints of operators. -/

import TypeInference.Theory.Meaning

namespace TypeInference

namespace Constraint

open Formula

/-- Neither operand is none. -/
def notNone (left right : Term) : Formula :=
  .and [.distinct left Term.none, .distinct right Term.none]

variable (frame : Frame)

/-- The method of a class takes the operands. -/
def overloadedBy (left right result : Term) (method className : String) : Except Fault Formula := do
  let methodType ← frame.theory.attrType className method
  let receiver ← frame.instanceOf className
  let other ← frame.sort.get (TypeSort.funcArg 2 2) methodType
  let returned ← frame.sort.get (TypeSort.funcResult 2) methodType
  pure (.and [.eq left receiver, frame.subtype right other, .eq result returned])

def overloading (left right result : Term) (method : String) : Except Fault (List Formula) :=
  frame.theory.forMethods method (fun _ => true) (overloadedBy frame left right result method)

/-- Comparisons of numbers, equal lists, sets, tuples, texts and bytes. -/
def ordering (left right : Term) (method : String) : Except Fault (List Formula) := do
  let overloaded ← overloading frame left right .bool method
  pure
    [notNone left right,
     .or
      ([.and [frame.subtype left .float, frame.subtype right .float],
        .and [.eq left (.list (.listArg left)), .eq right left],
        .and [.eq left (.set (.setArg left)), .eq right (.set (.setArg right))],
        .and [frame.subtype left .tuple, frame.subtype right .tuple],
        .and [.eq left .str, .eq right .str],
        .and [.eq left .bytes, .eq right .bytes]]
        ++ overloaded)]

def fixedWidth? (t : Term) : Option (String × Nat) :=
  (["u", "i"].flatMap fun mark => TypeSort.widths.map fun width => (mark, width)).find?
    fun (mark, width) => t == .fixed mark width

/-- An unsigned type next to a signed one is read as signed. -/
def alignSigns (left right : Term) : Term × Term :=
  match fixedWidth? left, fixedWidth? right with
  | some (leftMark, leftWidth), some (rightMark, rightWidth) =>
    if leftMark == rightMark then (left, right)
    else if leftMark == "u" then (.fixed "i" leftWidth, right)
    else (left, .fixed "i" rightWidth)
  | _, _ => (left, right)

/-- The rules for sums of fixed width, once signs agree. -/
def widenings (left right result : Term) : List Formula :=
  ["u", "i"].flatMap fun mark => [8, 16, 32].flatMap fun width =>
    let narrow := Term.fixed mark width
    let wide := Term.fixed mark (width * 2)
    [.and [.eq left narrow, .eq right narrow, .eq result wide],
     .and [.eq left narrow, frame.subtype right left, .eq result wide],
     .and [.eq right narrow, frame.subtype left right, .eq result wide]]

/-- The sum of fixed-width integers is one step wider. -/
def fixedWidthAddition (left right result : Term) : List Formula :=
  let (left, right) := alignSigns left right
  widenings frame left right result

def addition (left right result : Term) : Except Fault (List Formula) := do
  let overloaded ← overloading frame left right result "__add__"
  let stronger (first second : Term) : Formula :=
    .and [frame.subtype first .complex, .not (frame.subtype first (.fixed "u" 32)),
      .not (frame.subtype first (.fixed "i" 32)), frame.subtype second first, .eq result first]
  pure
    [notNone left right,
     .or
      (fixedWidthAddition frame left right result
        ++ [stronger left right, stronger right left,
          .and [frame.subtype left .sequence, .eq left right, .eq left result],
          .and [.eq left (.list (.listArg left)), .eq right left, .eq result left],
          .and [.eq left .str, .eq right .str, .eq result .str]]
        ++ overloaded)]

def strongerNumber (left right result : Term) : List Formula :=
  [.and [frame.subtype left .complex, frame.subtype right left, .eq result left],
   .and [frame.subtype right .complex, frame.subtype left right, .eq result right]]

def multiplication (left right result : Term) : Except Fault (List Formula) := do
  let overloaded ← overloading frame left right result "__mul__"
  pure
    [notNone left right,
     .or
      ([.and [.eq left .bool, .eq right .bool, .eq result .int],
        .and
          [.or [.distinct left .bool, .distinct right .bool],
           .or
            ([.and [frame.subtype left .sequence, frame.subtype right .int, .eq result left],
              .and [frame.subtype left .int, frame.subtype right .sequence, .eq result right]]
              ++ strongerNumber frame left right result)]]
        ++ overloaded)]

/-- A quotient is a floating point or complex number. -/
def division (left right result : Term) : List Formula :=
  let isComplex := Formula.or [.eq left .complex, .eq right .complex]
  [notNone left right,
   .and [frame.subtype left .complex, frame.subtype right .complex],
   .implies isComplex (.eq result .complex),
   .implies (.not isComplex) (.eq result .float)]

/-- Other arithmetic, and formatting of texts. -/
def arithmetic (left right result : Term) (method : String) (isMod : Bool) :
    Except Fault (List Formula) := do
  let overloaded ← overloading frame left right result method
  let formatting :=
    if isMod then [Formula.and [.or [.eq left .str, .eq left .bytes], .eq result left]] else []
  pure [notNone left right,
    .or (strongerNumber frame left right result ++ overloaded ++ formatting)]

def bitwise (left right result : Term) (method : String) : Except Fault (List Formula) := do
  let base ← arithmetic frame left right result method false
  pure (base ++
    [.implies (.and [frame.subtype left .complex, frame.subtype right .complex])
      (frame.subtype left .int)])

/-- The result of a boolean operator is above all operands. -/
def boolean (operands : List Term) (result : Term) : List Formula :=
  operands.map fun operand => frame.subtype operand result

def inversion (operand : Term) : List Formula :=
  [frame.subtype operand .int, .distinct operand Term.none]

/-- A sign turns a truth value into a whole number. -/
def sign (operand result : Term) : List Formula :=
  [.distinct operand Term.none, frame.subtype operand .complex,
   .implies (.eq operand .bool) (.eq result .int),
   .implies (.distinct operand .bool) (.eq result operand)]

end Constraint

end TypeInference
