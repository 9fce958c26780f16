/- What a solver answers: a verdict and a model, which gives types to constants. -/

import TypeInference.Theory.Meaning

namespace TypeInference

inductive Verdict where
  | sat | unsat | unknown
deriving DecidableEq, Repr

namespace Verdict

def text : Verdict → String
  | sat => "sat"
  | unsat => "unsat"
  | unknown => "unknown"

def ofText? (text : String) : Option Verdict :=
  [sat, unsat, unknown].find? fun verdict => verdict.text == text

end Verdict

structure Model where
  values : Table String Term := {}
  bounds : Table Term Term := {}

namespace Model

/-- The value of a constant. Constructors have none. -/
def value? (model : Model) : Meaning → Except Fault (Option Term)
  | .term (.const name) => .ok (model.values.get? name)
  | .term (.con _ []) => .ok none
  | _ => .error .notATerm

/-- The upper bound of a type variable, or itself if unknown. -/
def upper (model : Model) (var : Term) : Term := (model.bounds.get? var).getD (.upper var)

end Model

end TypeInference
