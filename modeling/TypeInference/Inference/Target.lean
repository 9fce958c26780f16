/- The targets of assignments and deletions, and declarations of type variables. -/

import TypeInference.Inference.Expression

namespace TypeInference

namespace Infer

def unbind (name : String) : Infer Unit := do
  let session ← get
  match ← session.chain.delete name with
  | here :: outer => set { session with here := here, outer := outer }
  | [] => pure ()

end Infer

namespace Expr

mutual

/-- The type of a target. A new name is bound to a fresh constant. -/
def inferTarget (home : Option ModuleKey) (target : Expr) : Infer Meaning :=
  match target with
  | .name _ id _ => do
    if (← get).here.types.contains id then Infer.find id
    else
      let type ← Infer.fresh "assign"
      Infer.bind id (.term type)
      pure (.term type)
  | .tuple _ elements _ => do
    let components ← (targetSteps home elements).mapM id
    if components.isEmpty then throw .badOperand
    pure (.term (← Infer.tuple components))
  | .list line elements _ => do
    let type ← Infer.fresh "assign"
    (targetSteps home elements).forM fun step => do
      let element ← step
      Infer.assert (Infer.inLine "List assignment" (line.getD 0))
        [← (Meaning.term type).eq element]
    pure (.term (.list type))
  | .subscript line value index usage => do
    let type ← infer home (.subscript line value index usage)
    let whole ← infer home value
    Infer.assert (Infer.inLine "Subscript assignment" (line.getD 0))
      (Constraint.subscriptAssignment (← Infer.frame) (← whole.toTerm))
    pure type
  | e => infer home e
termination_by structural target

def targetSteps (home : Option ModuleKey) : List Expr → List (Infer Meaning)
  | [] => []
  | e :: es => inferTarget home e :: targetSteps home es

end

def assign (home : Option ModuleKey) (target : Expr) (value : Meaning) : Infer Meaning := do
  let type ← inferTarget home target
  let targetType ← type.toTerm
  let valueType ← value.toTerm
  Infer.assert (Infer.inLine "Assignment" target.lineNumber)
    (Constraint.assignment (← Infer.frame) targetType valueType)
  Infer.prefer (.eq targetType valueType) 2
  pure type

mutual

def delete (home : Option ModuleKey) (line : Nat) (target : Expr) : Infer Unit :=
  match target with
  | .tuple _ elements _ | .list _ elements _ => deleteAll home line elements
  | .name _ id _ => Infer.unbind id
  | .subscript l value index usage => do
    let _ ← infer home (.subscript l value index usage)
    let whole ← infer home value
    Infer.assert (Infer.inLine "Deletion" line)
      (Constraint.subscriptDeletion (← Infer.frame) (← whole.toTerm))
  | .access .. => throw .attributeDeletion
  | _ => pure ()
termination_by structural target

def deleteAll (home : Option ModuleKey) (line : Nat) : List Expr → Infer Unit
  | [] => pure ()
  | e :: es => do
    delete home line e
    deleteAll home line es

end

end Expr

namespace Infer

/-- The bound that the first keyword of a declaration gives. -/
def boundOf? : List Keyword → Option Expr
  | ⟨_, some "bound", value⟩ :: _ => some value
  | _ => none

/-- Declares a type variable, and constrains its bound if it is one of the theory. -/
def declareTypeVar (scope : HintScope) (target : Expr) (line : Nat) (args : List Expr)
    (keywords : List Keyword) : Infer Unit := do
  match target, args with
  | .name _ name _, .literal _ (.str ..) :: options => do
    modify fun session =>
      let bounds := match boundOf? keywords with
        | some value => session.vars.bounds.insert name value
        | none => session.vars.bounds
      { session with vars := ⟨session.vars.options.insert name options, bounds⟩ }
    if (← theory).typeVars.contains name then
      let upper : Meaning := .term (.upper (.typeVar name))
      let boundMessage := "Upper bound of type variable " ++ name
      match boundOf? keywords, options with
      | some value, _ => do
        assert boundMessage [← upper.eq (← readHint scope (Hint.ofExpr value))]
      | none, [] => assert boundMessage [← upper.eq (.term .object)]
      | none, [_] => throw (.typeVarSingleOption line)
      | none, options => do
        let equal ← options.mapM fun value => do
          upper.eq (← readHint scope (Hint.ofExpr value))
        assert ("Options of type variable " ++ name) [.or equal]
  | .name .., [] => throw (.typeVarWithoutName line)
  | .name .., _ => throw (.typeVarNameNotText line)
  | _, _ => throw .typeVarTarget

end Infer

end TypeInference
