/- The rules for blocks and for statements that branch. A block is given as its steps. -/

import TypeInference.Inference.Target

namespace TypeInference

namespace Infer

variable (line : Nat) (home : Option ModuleKey)

/-- A statement of a block, with what it says of the block's type. -/
def blockStep (type : Term) (step : Infer Meaning) : Infer Term := do
  let stmt ← (← step).toTerm
  assert (inLine "Body type" line) (Constraint.block type stmt)
  pure stmt

/-- The type of a block is that of its statements that have one. -/
def block (steps : List (Infer Meaning)) : Infer Term := do
  let type ← fresh "body"
  if steps.isEmpty then
    assert (inLine "Body type" line) [.eq type Term.none]
  else
    let types ← steps.mapM (blockStep line type)
    assert (inLine "Body type" line)
      [.implies (.and (types.map fun stmt => .eq stmt Term.none)) (.eq type Term.none)]
  pure type

/-- What a test tells about an expression, and the name that it is. -/
structure Narrowing where
  key : String
  type : Meaning
  name : Option String

/-- A test for an instance of a type narrows an expression. -/
def narrowingOf (test : Expr) : Infer (Option Narrowing) := do
  match test with
  | .call _ (.name _ "isinstance" _) [e, hint] _ => do
    let type ← readHint (.ofHome home) (Hint.ofExpr hint)
    pure (some ⟨e.key, type, e.id?⟩)
  | _ => pure none

def narrow (narrowing : Narrowing) : Infer Unit :=
  modify fun session =>
    { session with here := { session.here with
      narrowed := session.here.narrowed.insert narrowing.key narrowing.type } }

/-- A branch keeps the types of the names that are bound around it. -/
def keepTypes (types : Table String Meaning) (except : Option String) : Infer Unit :=
  types.entries.forM fun (name, type) => do
    if (← get).chain.binds name && except != some name then
      let known ← find name
      assert (inLine "re-assigning in flow branching" line) [← type.eq known]

/-- How the types of a name in two branches relate to that after them. -/
def branchParts (sameType : Bool) (first second : Meaning) (joined : Term) :
    Infer (List Formula) := do
  if sameType then
    pure [← first.eq (.term joined), ← second.eq (.term joined)]
  else
    pure [← subtype (← first.toTerm) joined, ← subtype (← second.toTerm) joined]

/-- The part of a join that is about one name of the first branch. It is bound if the second branch
binds it too and nothing around does. -/
def joinEntry (second : Table String Meaning) (entry : String × Meaning) : Infer Unit := do
  match second.get? entry.1 with
  | none => pure ()
  | some secondType => do
    if !(← get).chain.binds entry.1 then
      let joined ← fresh "branching_var"
      let parts ← branchParts (← theory).settings.sameTypeInBranches entry.2 secondType joined
      assert (inLine "subtyping in flow branching" line) parts
      prefer (← entry.2.eq (.term joined))
      prefer (← secondType.eq (.term joined))
      bind entry.1 (.term joined)

/-- The scopes of two branches, and what the test narrows. -/
structure BranchStart where
  first : Nat
  second : Nat
  narrowing : Option Narrowing

/-- The test, and what it says about the first block. -/
def narrowFirst (first : Nat) (test : Infer (Option Narrowing)) : Infer (Option Narrowing) := do
  let narrowing ← test
  if let some narrowing := narrowing then inChild first (narrow narrowing)
  pure narrowing

/-- All that comes before the first block. Both scopes start with the definitions of the first. -/
def startBranch (body : List Stmt) (test : Infer (Option Narrowing)) : Infer BranchStart := do
  let first ← openScope body
  let second ← openScope body
  let narrowing ← narrowFirst first test
  pure ⟨first, second, narrowing⟩

/-- A statement with two branches whose first block has been inferred. -/
structure HalfBranch extends BranchStart where
  firstType : Term

/-- All that comes before the second block. -/
def halfBranch (body : List Stmt) (test : Infer (Option Narrowing))
    (bodySteps : List (Infer Meaning)) : Infer HalfBranch := do
  let start ← startBranch body test
  let firstType ← inChild start.first (block line bodySteps)
  pure ⟨start, firstType⟩

/-- What the names of the two scopes mean for the scope around them. -/
def joinScopes (half : HalfBranch) (secondType : Term) : Infer Term := do
  let firstTypes := (← child half.first).types
  let secondTypes := (← child half.second).types
  keepTypes line firstTypes (half.narrowing.bind (·.name))
  keepTypes line secondTypes none
  firstTypes.entries.forM (joinEntry line secondTypes)
  let result ← fresh "control_flow"
  assert (inLine "Control flow" line)
    (Constraint.branches (← frame) half.firstType secondType result)
  prefer (.eq result half.firstType)
  prefer (.eq result secondType)
  pure result

/-- A statement with two branches. -/
def branch (body : List Stmt) (test : Infer (Option Narrowing))
    (bodySteps elseSteps : List (Infer Meaning)) : Infer Term := do
  let half ← halfBranch line body test bodySteps
  let secondType ← inChild half.second (block line elseSteps)
  joinScopes line half secondType

def branchTest (test : Expr) : Infer (Option Narrowing) := do
  let _ ← test.infer home
  narrowingOf home test

/-- The target of a loop gets what the loop runs through. -/
def loopTarget (line : Nat) (target source : Expr) : Infer Unit := do
  let source ← source.infer home
  let type ← fresh "for_target"
  assert (inLine "For loop" line) (Constraint.loop (← source.toTerm) type)
  let _ ← target.assign home (.term type)

/-- Of the items of a block only those with a target are inferred. -/
def withItems (items : List WithItem) : Infer Unit :=
  items.forM fun item => do
    match item.target with
    | none => pure ()
    | some target => do
      let value ← item.context.infer home
      let _ ← target.assign home value

/-- An exception handler, as the step that infers its block. -/
structure HandlerStep where
  line : Nat
  exception : Option Expr
  name : Option String
  steps : List (Infer Meaning)

/-- A handler with a name has a scope with the definitions of the tried block. -/
def handler (home : Option ModuleKey) (body : List Stmt) (result : Term) (step : HandlerStep) :
    Infer Unit := do
  let type ← match step.name with
    | none => block step.line step.steps
    | some name => do
      let scope ← openScope body
      let exception ← readHint (.ofHome home) (Hint.ofExpr? step.exception)
      inChild scope do
        bind name exception
        block step.line step.steps
  assert (inLine "Exception handler" step.line) [← subtype type result]

def tryBlock (home : Option ModuleKey) (line : Nat) (body : List Stmt)
    (bodySteps elseSteps finalSteps : List (Infer Meaning)) (handlers : List HandlerStep) :
    Infer Term := do
  let result ← fresh "try"
  let bodyType ← block line bodySteps
  let elseType ← block line elseSteps
  let finalType ← block line finalSteps
  assert (inLine "Try/Except block" line)
    (Constraint.tryBlock (← frame) bodyType elseType finalType result)
  prefer (.eq result bodyType)
  prefer (.eq result elseType)
  prefer (.eq result finalType)
  handlers.forM (handler home body result)
  pure result

end Infer

end TypeInference
