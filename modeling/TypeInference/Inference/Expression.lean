/- The types of expressions. -/

import TypeInference.Inference.Call

namespace TypeInference

namespace Expr

def narrowedOr (e : Expr) (act : Infer Meaning) : Infer Meaning := do
  match (← get).chain.narrowing? e with
  | some type => pure type
  | none => act

/-- The module in which a cast reads its type. -/
def castScope : Option ModuleKey → Except Fault HintScope
  | none => .error .homeless
  | some key => .ok (.home key)

mutual

def infer (home : Option ModuleKey) (e : Expr) : Infer Meaning := narrowedOr e <|
  match e with
  | .literal _ value => do pure (.term (← Infer.literal value))
  | .joined .. | .formatted .. => pure (.term .str)
  | .name line id _ => Infer.readName id (line.getD 0)
  | .list line elements _ => do
    pure (.term (.list (← Infer.elements (line.getD 0) (inferEach home elements))))
  | .set line elements => do
    pure (.term (.set (← Infer.elements (line.getD 0) (inferEach home elements))))
  | .dict line keys values => do
    let key ← Infer.elements (line.getD 0) (inferEachKey home keys)
    let value ← Infer.elements (line.getD 0) (inferEach home values)
    pure (.term (.dict key value))
  | .tuple _ elements _ => do
    let components ← (inferEach home elements).mapM id
    pure (.term (← Infer.tuple components))
  | .binary line left op right => do
    let left ← infer home left
    let right ← infer home right
    pure (.term (← Infer.binary op left right (line.getD 0)))
  | .boolean line _ operands => do
    let operands ← (inferEach home operands).mapM id
    pure (.term (← Infer.boolean operands (line.getD 0)))
  | .unary line op operand => do
    pure (.term (← Infer.unary op (← infer home operand) (line.getD 0)))
  | .conditional line _ body orelse => do
    let first ← infer home body
    let second ← infer home orelse
    pure (.term (← Infer.conditional first second (line.getD 0)))
  | .subscript line value (.slice _ lower upper step) _ => do
    let whole ← infer home value
    let lower ← inferBound home lower
    let upper ← inferBound home upper
    let step ← inferBound home step
    pure (.term (← Infer.sliced whole lower upper step (line.getD 0)))
  | .subscript line value index _ => do
    let whole ← infer home value
    let index ← infer home index
    pure (.term (← Infer.indexed whole index (line.getD 0)))
  | .await _ value => infer home value
  | .yield _ (some value) => infer home value
  | .yield _ none => throw .badOperand
  | .compare line left ops rest => do
    let left ← infer home left
    Infer.comparisons (line.getD 0) left (ops.zip (inferEach home rest))
    pure (.term .bool)
  | .comprehension line collected element generators =>
    match collected with
    | .generator => throw (.unsupportedExpression collected.form)
    | .list | .set => do
      let scope ← Infer.openScope []
      Infer.inChild scope do
        inferGenerators home (line.getD 0) generators
        let element ← (← infer home element).toTerm
        pure (.term (if collected == .list then .list element else .set element))
  | .dictComprehension line key value generators => do
    let scope ← Infer.openScope []
    Infer.inChild scope do
      inferGenerators home (line.getD 0) generators
      let key ← infer home key
      let value ← infer home value
      pure (.term (.dict (← key.toTerm) (← value.toTerm)))
  | .call line func args _ => do
    let result ← Infer.fresh "call"
    let called := infer home func
    let steps := (args.map lineNumber).zip (inferEach home args)
    match func, args with
    | .name _ "cast" _, [hint, value] => do
      let _ ← infer home value
      Infer.readHint (← castScope home) (Hint.ofExpr hint)
    | .name _ "cast" _, _ => throw .castArguments
    | .name _ id _, _ => do
      Infer.nameCall (line.getD 0) id called steps result
      pure (.term result)
    | .access _ value attr _, _ => do
      Infer.attributeCall (line.getD 0) (infer home value) attr called steps result
      pure (.term result)
    | _, _ => do
      Infer.plainCall (line.getD 0) [] called (← Infer.arguments steps) result
      pure (.term result)
  | .access line value attr _ => Infer.attributeOf (line.getD 0) (infer home value) attr
  | .lambda _ ⟨_, params, _, _, _, _, _⟩ body => do
    let scope ← Infer.openScope []
    Infer.inChild scope do
      let params ← params.mapM fun param => do
        let type ← Infer.fresh "func_arg"
        Infer.bind param.name (.term type)
        pure (Meaning.term type)
      let result ← infer home body
      pure (.term (← Infer.function 0 params result))
  | .slice .. => throw (.unsupportedExpression "Slice")
  | .yieldFrom .. => throw (.unsupportedExpression "YieldFrom")
  | .starred .. => throw (.unsupportedExpression "Starred")
  | .named .. => throw (.unsupportedExpression "NamedExpr")
termination_by structural e

def inferEach (home : Option ModuleKey) : List Expr → List (Infer Meaning)
  | [] => []
  | e :: es => infer home e :: inferEach home es

/-- The steps that infer the types of keys. An unpacked mapping has none. -/
def inferEachKey (home : Option ModuleKey) : List (Option Expr) → List (Infer Meaning)
  | [] => []
  | none :: keys => throw .badOperand :: inferEachKey home keys
  | some key :: keys => infer home key :: inferEachKey home keys

def inferBound (home : Option ModuleKey) : Option Expr → Infer Meaning
  | none => pure (.term .int)
  | some e => infer home e

def inferGenerators (home : Option ModuleKey) (line : Nat) : List Generator → Infer Unit
  | [] => pure ()
  | ⟨target, source, _, _⟩ :: generators => do
    Infer.generator line target (infer home source)
    inferGenerators home line generators

end

end Expr

end TypeInference
