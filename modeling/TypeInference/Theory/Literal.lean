/- The classes of a graph as types of the type sort. -/

import TypeInference.Logic.Formula
import TypeInference.Theory.TypeSort

namespace TypeInference

namespace ClassKey

variable (key : ClassKey) (sort : TypeSort)

/-- A variable for each type parameter of the class. -/
def vars : List Variable :=
  key.accessors.zipIdx.map fun (accessor, index) =>
    ⟨"y" ++ toString index, if TypeSort.isCount accessor then .int else .type⟩

def argumentsOf (whole : Term) : Except Fault (List Term) :=
  key.accessors.mapM fun accessor => sort.get accessor whole

/-- The sort has counts among the arguments of functions only. -/
def countsFit : Bool :=
  key.accessors.zipIdx.all fun (accessor, index) =>
    !TypeSort.isCount accessor || (index == 0 && accessor == key.name ++ "_defaults_args")

def applied (args : List Term) : Except Fault Term :=
  match key with
  | .plain name =>
    match sort.accessors? name with
    | none => .error .missingPart
    | some [] => .ok (.con name [])
    | some (_ :: _) => .error .notATerm
  | .generic name _ => sort.apply name args

def literal : Except Fault Term :=
  if key.countsFit then key.applied sort (key.vars.map (·.term)) else .error .notATerm

def literalOf (whole : Term) : Except Fault Term := do
  if sort.hasConstructor key.name then
    key.applied sort (← key.argumentsOf sort whole)
  else .error .missingPart

/-- The class with changed variables. Counts stay. -/
def literalWith (change : Term → Term) : Except Fault Term :=
  key.applied sort (key.vars.map fun v =>
    if v.sort == .int then v.term else change v.term)

def isTuple : ClassKey → Bool
  | .generic name _ => name.startsWith "tuple"
  | .plain _ => false

def isFunction : ClassKey → Bool
  | .generic name _ => name.startsWith "func"
  | .plain _ => false

end ClassKey

end TypeInference
