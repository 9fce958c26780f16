/- The formulas in which constraints and axioms are stated. -/

import TypeInference.Logic.Term

namespace TypeInference

inductive VarSort where
  | type | int | method
deriving DecidableEq, Repr

structure Variable where
  name : String
  sort : VarSort := .type
deriving DecidableEq, Repr

def Variable.term (v : Variable) : Term := .const v.name

inductive Atom where
  /-- Within the method, the first type is a subtype of the second. -/
  | subtype (method sub sup : Term)
  | issubst (whole what replacement result : Term)
  | isCon (name : String) (t : Term)
deriving DecidableEq, Repr

inductive Trigger where
  | atom (value : Atom)
  | term (value : Term)
deriving DecidableEq, Repr

inductive Formula where
  | truth (value : Bool)
  | atom (value : Atom)
  | eq (left right : Term)
  | distinct (left right : Term)
  | less (left right : Term)
  | atLeast (left right : Term)
  | not (body : Formula)
  | implies (premise conclusion : Formula)
  | iff (left right : Formula)
  | and (parts : List Formula)
  | or (parts : List Formula)
  | all (vars : List Variable) (body : Formula) (trigger : Option Trigger)
deriving Repr, Inhabited

namespace Formula

def issubst (whole what replacement result : Term) : Formula :=
  atom (.issubst whole what replacement result)

def isCon (name : String) (t : Term) : Formula := atom (.isCon name t)

end Formula

end TypeInference
