/- What names and expressions stand for. -/

import TypeInference.Theory.Basic

namespace TypeInference

/-- The module in which hints are read. -/
inductive HintScope where
  | nowhere
  | home (key : ModuleKey)
  /-- Type variables cannot be looked up at all. -/
  | unusable
deriving DecidableEq, Repr, Inhabited

def HintScope.ofHome : Option ModuleKey → HintScope
  | none => nowhere
  | some key => home key

/-- A function that is known by its hints, by its label. -/
structure Signature where
  label : Nat
  args : List (Option Expr)
  returns : Option Expr
  defaults : Nat
  scope : HintScope

/-- What a name or an expression stands for. -/
inductive Meaning where
  | term (value : Term)
  /-- A class as an object, with its type. -/
  | classObject (className : String) (type : Term)
  /-- A class that takes type arguments, as an object. -/
  | generic (className : String)
  /-- A constructor of types that lacks its arguments. -/
  | constructor (name : String)
  | signature (value : Signature)
  | module (key : ModuleKey)
  | nothing
deriving Inhabited

namespace Meaning

def term? : Meaning → Option Term
  | term value | classObject _ value => some value
  | _ => none

/-- Only terms can be used in constraints. -/
def toTerm (d : Meaning) : Except Fault Term :=
  match d.term? with
  | some value => .ok value
  | none => .error .notATerm

/-- Whether two meanings are one and the same. -/
def same : Meaning → Meaning → Bool
  | term a, term b => a == b
  | classObject a _, classObject b _ => a == b
  | generic a, generic b => a == b
  | constructor a, constructor b => a == b
  | signature a, signature b => a.label == b.label
  | module a, module b => a == b
  | nothing, nothing => true
  | _, _ => false

/-- Two meanings are equal. A term differs from nothing and cannot be compared with anything else
that is no term. A constructor on the left differs from every term. -/
def eq (left right : Meaning) : Except Fault Formula :=
  match left.term?, right.term? with
  | some a, some b => .ok (.eq a b)
  | some _, none =>
    match right with
    | nothing => .ok (.truth false)
    | _ => .error .notATerm
  | none, some _ =>
    match left with
    | nothing | constructor _ => .ok (.truth false)
    | _ => .error .notATerm
  | none, none =>
    match left, right with
    | constructor a, constructor b => .ok (.truth (a == b))
    | constructor _, _ | _, constructor _ => .error .notATerm
    | a, b => .ok (.truth (a.same b))

end Meaning

namespace Theory

def constructorOf (className : String) : String :=
  ((aliasedTypes.find? fun entry => entry.1 == className).map (·.2)).getD ("class_" ++ className)

variable (theory : Theory)

/-- The classes of the program and of the declarations that it uses. -/
def classNames : List String := theory.survey.instanceAttrs.keys

def classObject (theory : Theory) (className : String) : Meaning :=
  let name := constructorOf className
  match theory.sort.accessors? name with
  | some [] => .classObject className (.type (.atom name))
  | _ => .generic className

def isGenericClass (className : String) : Bool :=
  theory.survey.classParams.contains className

def method? (className method : String) : Option MethodShape :=
  (theory.survey.methods.get? className).bind fun methods => methods.get? method

/-- What a table has for a key that it should have. -/
def lookup {α : Type} (table : Table String α) (key : String) : Except Fault α :=
  match table.get? key with
  | some value => .ok value
  | none => .error .missingKey

/-- The method of a class that is in the tables. -/
def methodIn (className method : String) : Except Fault (Option MethodShape) := do
  pure ((← lookup theory.survey.methods className).get? method)

/-- The type of an attribute that the instances of a class have. -/
def attrType (className attr : String) : Except Fault Term := do
  if (← lookup theory.survey.instanceAttrs className).contains attr then
    .ok (.classAttr className attr)
  else .error .missingKey

/-- What is said of each class whose method passes a test. -/
def forMethods (method : String) (passes : MethodShape → Bool)
    (say : String → Except Fault Formula) : Except Fault (List Formula) :=
  theory.classNames.flatMapM fun name => do
    match ← theory.methodIn name method with
    | some shape => if passes shape then do pure [← say name] else pure []
    | none => pure []

def hasInstanceAttr (className attr : String) : Bool :=
  ((theory.survey.instanceAttrs.get? className).getD []).contains attr

def hasClassAttr (className attr : String) : Bool :=
  ((theory.survey.classAttrs.get? className).getD []).contains attr

end Theory

/-- A theory as seen from within a method. -/
structure Frame where
  theory : Theory
  method : Term := Term.noMethod

namespace Frame

def sort (frame : Frame) : TypeSort := frame.theory.sort

def survey (frame : Frame) : Survey := frame.theory.survey

def subtype (frame : Frame) (sub sup : Term) : Formula := .subtype frame.method sub sup

def instanceOf (frame : Frame) (className : String) : Except Fault Term := do
  pure (.typeArg (← (frame.theory.classObject className).toTerm))

end Frame

end TypeInference
