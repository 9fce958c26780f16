/- What is known of a program before its types are inferred. Names are sorted. -/

import TypeInference.Hierarchy.ClassGraph
import TypeInference.Hierarchy.Inheritance
import TypeInference.Settings
import TypeInference.Survey.Source

namespace TypeInference

/-- Puts a name before the first one that is not less. -/
def insertName (name : String) : List String → List String
  | [] => [name]
  | other :: names =>
    if other < name then other :: insertName name names else name :: other :: names

/-- Names by their code points, each once. -/
def sortedNames (names : List String) : List String := names.eraseDups.foldr insertName []

structure MethodShape where
  args : Nat
  decorators : List String
  defaults : Nat
deriving DecidableEq, Repr, Inhabited

/-- A type variable: its module, if any, and its name. -/
structure TypeVarKey where
  home : Option ModuleKey
  name : TypeParam
deriving DecidableEq, Repr

/-- The class that a method was last seen in. -/
structure Owner where
  home : Option ModuleKey
  bases : List Expr

structure Survey where
  maxTupleLength : Nat := 0
  maxFunctionArgs : Nat := 1
  maxDefaultArgs : Nat := 0
  maxTypeArgs : Nat := 0
  usedNames : List String := []
  instanceAttrs : Table String (List String) := {}
  classAttrs : Table String (List String) := {}
  classBases : ClassTable := {}
  methods : Table String (Table String MethodShape) := {}
  inheritance : Inheritance := {}
  abstractClasses : List String := []
  allClasses : ClassTable := {}
  funcParams : TypeParams := {}
  classParams : TypeParams := {}
  typeVars : Table TypeVarKey String := {}
  /-- What each class, by its label, has beyond the members in its text. -/
  additions : Table Nat (List Stmt) := {}
  owners : Table Nat Owner := {}
  base : Option String := none

end TypeInference
