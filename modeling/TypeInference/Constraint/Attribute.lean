/- The constraints of attribute access. -/

import TypeInference.Constraint.Call

namespace TypeInference

namespace Constraint

variable (frame : Frame) (receiver : Meaning)

def classAccessors (className : String) : Except Fault (List String) :=
  match frame.survey.classBases.keys.findSome? fun
    | .generic name accessors => if name == className then some accessors else none
    | .plain _ => none with
  | some accessors => .ok accessors
  | none => .error (.arityOutOfRange .typeParameters)

/-- The attribute of a generic class is a generic type, with the type arguments of the instance. -/
def genericAttribute (attr className : String) (result : Meaning) : Except Fault Formula := do
  let attrType ← frame.theory.attrType className attr
  let count := ((frame.survey.classParams.get? className).getD []).length
  let accessors ← classAccessors frame className
  let args ← accessors.mapM fun accessor => do frame.sort.get accessor (← receiver.toTerm)
  if count > TypeSort.maxGeneric then .error .missingPart
  let params := (List.range count).map fun index =>
    Term.get (TypeSort.genericVar count (index + 1)) attrType
  let func := Term.get (TypeSort.genericFunc count) attrType
  let type ← frame.sort.apply (Theory.constructorOf className) args
  let same ← receiver.eq (.term type)
  let found ← result.eq (.term (substAll func (params.zip args)))
  pure (.and [same, .isCon ("generic" ++ toString count) attrType, found])

/-- The attribute of an instance. A property has the type of its result. -/
def instanceAttribute (attr className : String) (result : Meaning) : Except Fault Formula := do
  let attrType ← frame.theory.attrType className attr
  let type ← frame.instanceOf className
  let isProperty := match ← frame.theory.methodIn className attr with
    | some shape => shape.decorators.contains "property"
    | none => false
  let same ← receiver.eq (.term type)
  if isProperty then
    let func := Term.con "func_1"
      [.num 0, .get (TypeSort.funcArg 1 1) attrType, ← result.toTerm]
    pure (.and [same, .eq attrType func])
  else pure (.and [same, ← result.eq (.term attrType)])

/-- The attribute of some class, on an instance or on the class itself. -/
def attributeAccess (attr : String) (result : Meaning) : Except Fault Formula := do
  let options ← frame.theory.classNames.flatMapM fun name => do
    if frame.theory.hasInstanceAttr name attr && frame.theory.isGenericClass name then
      pure [← genericAttribute frame receiver attr name result]
    else
      let onInstance ←
        if frame.theory.hasInstanceAttr name attr then
          do pure [← instanceAttribute frame receiver attr name result]
        else pure []
      let onClass ←
        if frame.theory.hasClassAttr name attr then do
          let same ← receiver.eq (frame.theory.classObject name)
          pure [Formula.and [same, ← result.eq (.term (.classAttr name attr))]]
        else pure []
      pure (onInstance ++ onClass)
  pure (.or options)

end Constraint

end TypeInference
