/- The rule for class definitions: receivers, inherited members and overridden methods. -/

import TypeInference.Inference.Block

namespace TypeInference

namespace ClassFacts

def attr (facts : ClassFacts) (name : String) : Term := .classAttr facts.name name

def isOwnMethod (facts : ClassFacts) (attr : String) : Bool :=
  match facts.methods.get? attr with
  | some shape =>
    !facts.inherited.contains attr && !shape.decorators.contains "staticmethod"
  | none => false

end ClassFacts

namespace Infer

def methodShape (className method : String) : Infer MethodShape := do
  match (← theory).method? className method with
  | some shape => pure shape
  | none => throw .missingKey

/-- The type of an attribute that a class has to have. -/
def knownAttr (className attr : String) : Infer Term := do
  if (← theory).hasInstanceAttr className attr then pure (.classAttr className attr)
  else throw .missingKey

def access (accessor : String) (whole : Term) : Infer Term := do
  (← theory).sort.get accessor whole

/-- The class of the program that a base stands for, if any. -/
def baseName (base : Expr) : Infer (List String) := do
  match base with
  | .subscript _ (.name _ "Generic" _) _ _ => pure []
  | .subscript _ (.name ..) _ _ => throw .missingPart
  | .name _ "object" _ => pure []
  | .name _ id _ => do
    if ((← theory).survey.methods.get? id).isNone then throw .missingKey
    pure [id]
  | _ => throw .missingPart

def baseNames (bases : List Expr) : Infer (List String) := do
  pure (← bases.flatMapM baseName).eraseDups

/-- The type of the instances of a class, with its own type parameters if it is generic. -/
def instanceType (className : String) : Infer Meaning := do
  let theory ← theory
  let constructor := Theory.constructorOf className
  match theory.survey.classParams.get? className with
  | some params => do
    let vars := params.map fun param => Term.typeVar param.text
    pure (.term (← theory.sort.apply constructor vars))
  | none =>
    match theory.sort.accessors? constructor with
    | some [] => pure (.term (.atom constructor))
    | _ => pure (.constructor constructor)

/-- The function in the type of a method, which is generic in a generic class. -/
def methodFunction (className attr : String) : Infer Term := do
  match (← theory).survey.classParams.get? className with
  | some params => access (TypeSort.genericFunc params.length) (.classAttr className attr)
  | none => pure (.classAttr className attr)

variable (facts : ClassFacts)

/-- The first parameter of a method is the instance. -/
def receiver (attr : String) : Infer Unit := do
  let shape ← methodShape facts.name attr
  if shape.args = 0 then throw (.missingReceiver attr facts.name)
  let accessor := TypeSort.funcArg shape.args 1
  let _ ← access accessor Term.none
  let type ← instanceType facts.name
  let first ← access accessor (← methodFunction facts.name attr)
  assert ("First arg in instance method " ++ attr ++ " in class " ++ facts.name
    ++ " has class instance type") [← (Meaning.term first).eq type]

/-- An inherited initialiser has the parameters of the class it comes from. -/
def inheritedInitialiser (base : String) : Infer Unit := do
  let baseArgs := (← methodShape base "__init__").args
  let args := (← methodShape facts.name "__init__").args
  (List.range (baseArgs - 1)).forM fun index => do
    let baseAccessor := TypeSort.funcArg baseArgs (index + 2)
    let accessor := TypeSort.funcArg args (index + 2)
    let _ ← access baseAccessor Term.none
    let _ ← access accessor Term.none
    let given ← access baseAccessor (← knownAttr base "__init__")
    let own ← access accessor (facts.attr "__init__")
    assert ("Inherited __init__ parameter in class " ++ facts.name) [.eq given own]

/-- An overridden method must stay as it is or become more general. -/
def overriding (attr base : String) : Infer Unit := do
  let baseShape ← methodShape base attr
  let shape ← methodShape facts.name attr
  let isStatic (shape : MethodShape) := shape.decorators.contains "staticmethod"
  if isStatic baseShape || isStatic shape then
    if !isStatic baseShape then throw (.staticOverridesInstance attr facts.name)
    if !isStatic shape then throw (.instanceOverridesStatic attr facts.name)
  else
    if baseShape.args > shape.args then throw (.fewerArguments attr facts.name)
    if baseShape.args + shape.defaults < shape.args + baseShape.defaults then
      throw (.moreRequiredArguments attr facts.name)
    (List.range (baseShape.args - 1)).forM fun index => do
      let given ← access (TypeSort.funcArg baseShape.args (index + 2)) (.classAttr base attr)
      let own ← access (TypeSort.funcArg shape.args (index + 2)) (facts.attr attr)
      assert (inLine "Arguments contravariance" facts.line) [.subtype facts.method given own]
    let given ← access (TypeSort.funcResult baseShape.args) (.classAttr base attr)
    let own ← access (TypeSort.funcResult shape.args) (facts.attr attr)
    assert (inLine "Return covariance" facts.line) [.subtype facts.method own given]
    prefer (.eq own given)

def memberOrigin (attr : String) : Infer Unit := do
  if attr == "__init__" || facts.isOwnMethod attr then
    receiver facts attr
    if attr == "__init__" then
      if let some base := facts.inherited.get? attr then inheritedInitialiser facts base
  else if facts.methods.contains attr then
    if let some base := facts.inherited.get? attr then
      assert ("Inherited method " ++ attr ++ " in subclass " ++ facts.name
        ++ " has same type as that in superclass " ++ base)
        [.eq (facts.attr attr) (← knownAttr base attr)]
  if !facts.methods.contains attr then
    facts.bases.forM fun base => do
      if (← theory).hasInstanceAttr base attr then
        assert ("Field " ++ attr ++ " in subclass " ++ facts.name
          ++ " has same typeas that in the superclass")
          [.eq (facts.attr attr) (.classAttr base attr)]

def classMember (attr : String) : Infer Unit := do
  memberOrigin facts attr
  match facts.bound.get? attr with
  | none => pure ()
  | some type => do
    match type with
    | .signature _ => pure ()
    | type =>
      assert ("Class attribute in " ++ toString facts.line)
        [← (Meaning.term (facts.attr attr)).eq type]
    if !facts.inherited.contains attr && attr != "__init__" then
      facts.bases.forM fun base => do
        if ((← theory).method? base attr).isSome then overriding facts attr base

def defineClass (object : Meaning) : Infer Unit := do
  let type ← (← instanceType facts.name).toTerm
  match object with
  | .generic _ => pure ()
  | object =>
    assert (inLine "Class definition" facts.line) [← object.eq (.term (.type type))]
  modify fun session => { session with classes := session.classes ++ [(facts, object)] }

/-- Whether a member is left to the class that it comes from. -/
def isLeftOut (inherited : Table String String) : Stmt → Bool
  | .functionDef f => f.name != "__init__" && inherited.contains f.name
  | _ => false

def classDef (c : ClassDef) (steps : List (Stmt × Infer Meaning)) : Infer Meaning := do
  let scope ← openClass c
  let object ← findDefinition c.name
  let survey := (← theory).survey
  match survey.instanceAttrs.get? c.name, survey.methods.get? c.name,
      survey.inheritance.supers.get? c.name with
  | some attrs, some methods, some inherited => do
    inChild scope (steps.forM fun (member, step) => do
      if !isLeftOut inherited member then let _ ← step)
    let bases ← baseNames c.bases
    let facts : ClassFacts :=
      ⟨c.name, c.lineNumber, (← get).method, methods, inherited, bases, (← child scope).types⟩
    attrs.forM (classMember facts)
    defineClass facts object
    pure (.term Term.none)
  | _, _, _ => throw .missingKey

end Infer

end TypeInference
