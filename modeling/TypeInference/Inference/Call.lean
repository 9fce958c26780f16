/- The rules for calls, attributes and names. -/

import TypeInference.Constraint.Attribute
import TypeInference.Inference.Operation

namespace TypeInference

namespace Infer

def readName (id : String) (line : Nat) : Infer Meaning := do
  if id == "__name__" then return .term .str
  match (← get).chain.find? id with
  | some type => pure type
  | none => throw (.unboundNameAt id line)

/-- An argument: below a fresh constant, unless known by its hints only. -/
def argument (line : Nat) (step : Infer Meaning) : Infer Term := do
  let param ← fresh "call_arg"
  match ← step with
  | .signature _ => pure param
  | value => do
    let value ← value.toTerm
    assert (inLine "Call argument subtyping" line) [← subtype value param]
    prefer (.eq value param)
    pure param

/-- The receiver of a method call is its first argument. -/
def receiverArgument (receiver : Meaning) : Infer Term := do
  let param ← fresh "call_arg"
  let receiver ← receiver.toTerm
  assert "Method receiver subtyping in line \x7b\x7d" [← subtype receiver param]
  prefer (.eq receiver param)
  pure param

def arguments (steps : List (Nat × Infer Meaning)) : Infer (List Term) :=
  steps.mapM fun (line, step) => argument line step

/-- The constraints of calls of the functions that fit the arguments. -/
def signatureCalls (signatures : List Signature) (args : List Term) (result : Term) :
    Infer (List Formula) := do
  let calls ← signatures.mapM fun signature => callSignature signature args result
  pure (calls.filterMap id)

variable (line : Nat)

def plainCall (known : List Formula) (called : Infer Meaning) (args : List Term) (result : Term) :
    Infer Unit := do
  let calls ← match ← called with
    | .signature signature => signatureCalls [signature] args result
    | called => do
      let typeArgs ← typeArgs
      Constraint.call (← frame) called (args.map .term) result typeArgs
  assert (inLine "Call" line) [.or (known ++ calls)]

def instantiate (className : String) (steps : List (Nat × Infer Meaning)) (result : Term) :
    Infer Unit := do
  let typeArgs ← typeArgs
  let args ← arguments steps
  assert ("Class instantiation " ++ className ++ " in line " ++ toString line ++ ".")
    [← Constraint.instantiation (← frame) className (args.map .term) result typeArgs]

def nameCall (id : String) (called : Infer Meaning) (steps : List (Nat × Infer Meaning))
    (result : Term) : Infer Unit := do
  let object ← find id
  if (← get).classes.any fun entry => object.same entry.2 then instantiate line id steps result
  else
    let args ← arguments steps
    plainCall line [] called args result

/-- A call of an attribute, or of a function in a module. -/
def attributeCall (receiver : Infer Meaning) (attr : String) (called : Infer Meaning)
    (steps : List (Nat × Infer Meaning)) (result : Term) : Infer Unit := do
  match ← receiver with
  | .module key => do
    let args ← arguments steps
    let scope := (← get).moduleScope key
    let known ← signatureCalls (scope.methodsNamed attr) args result
    plainCall line known called args result
  | receiver => do
    let first ← receiverArgument receiver
    let rest ← arguments steps
    let known ← signatureCalls ((← get).chain.methodsNamed attr) (first :: rest) result
    let static ← Constraint.staticCall (← frame) receiver (rest.map .term) result attr
    let typeArgs ← typeArgs
    let methods ← Constraint.methodCall (← frame) receiver ((first :: rest).map .term) result
      attr typeArgs
    assert (inLine ("Call to " ++ attr) line) [.or (known ++ static ++ methods)]

/-- A method of a built-in type. As a value it is none. -/
def builtinAttribute (receiver : Meaning) (result : Term) (signature : Signature) :
    Infer Formula := do
  match signature.args with
  | [] => throw (.arityOutOfRange .receiver)
  | first :: _ => do
    let type ← readHint .unusable (Hint.ofExpr? first)
    pure (.and [← type.eq receiver, .eq result Term.none])

def attributeOf (receiver : Infer Meaning) (attr : String) : Infer Meaning := do
  match ← receiver with
  | .module key => do Chain.find [(← get).moduleScope key] attr
  | receiver =>
    match attr with
    | "__dict__" => pure (.term (.dict .str .object))
    | "__class__" => pure (.term (.type (← receiver.toTerm)))
    | "__name__" => pure (.term .str)
    | _ => do
      let result ← fresh "attribute"
      let builtin ← ((← get).chain.methodsNamed attr).mapM (builtinAttribute receiver result)
      let own ← Constraint.attributeAccess (← frame) receiver attr (.term result)
      assert (inLine ("Attribute access " ++ attr) line) [.or (own :: builtin)]
      pure (.term result)

end Infer

end TypeInference
