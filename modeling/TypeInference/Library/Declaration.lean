/- A short form for the declarations of built-in functions, methods and libraries. -/

import TypeInference.Syntax.Basic

namespace TypeInference.Library

/-- An expression without its line. -/
structure Shape where
  expr : Nat → Expr

namespace Shape

def name (id : String) : Shape := ⟨fun line => .name (some line) id .load⟩

instance : Coe String Shape := ⟨name⟩

/-- The expression stands on a line of its own. -/
def on (line : Nat) (shape : Shape) : Shape := ⟨fun _ => shape.expr line⟩

def literal (value : Literal) : Shape := ⟨fun line => .literal (some line) value⟩

def int (value : Int) : Shape := literal (.int value)

def float (value : String) : Shape := literal (.float value)

def bool (value : Bool) : Shape := literal (.bool value)

def text (value : String) : Shape := literal (.str value none)

def bytes (hex : String) : Shape := literal (.bytes hex)

def nothing : Shape := literal .none

def dots : Shape := literal .ellipsis

def tuple (elements : List Shape) : Shape :=
  ⟨fun line => .tuple (some line) (elements.map (·.expr line)) .load⟩

def list (elements : List Shape) : Shape :=
  ⟨fun line => .list (some line) (elements.map (·.expr line)) .load⟩

def item (value index : Shape) : Shape :=
  ⟨fun line => .subscript (some line) (value.expr line) (index.expr line) .load⟩

/-- A type with type arguments. Several form a tuple. -/
def of (head : String) : List Shape → Shape
  | [arg] => item head arg
  | args => item head (tuple args)

def call (head : String) (args : List Shape) (keywords : List (String × Shape) := []) : Shape :=
  ⟨fun line =>
    .call (some line) ((name head).expr line) (args.map (·.expr line))
      (keywords.map fun keyword => ⟨some line, some keyword.1, keyword.2.expr line⟩)⟩

def negative (value : Shape) : Shape := ⟨fun line => .unary (some line) .minus (value.expr line)⟩

def power (base exponent : Shape) : Shape :=
  ⟨fun line => .binary (some line) (base.expr line) .pow (exponent.expr line)⟩

def lambda (names : List String) (body : Shape) : Shape :=
  ⟨fun line =>
    let args := names.map fun name => ⟨some line, name, none⟩
    .lambda (some line) ⟨[], args, none, [], [], none, []⟩ (body.expr line)⟩

end Shape

structure Input where
  name : String
  hint : Option Shape
  line : Option Nat

def param (name : String) (hint : Shape) : Input := ⟨name, some hint, none⟩

/-- Parameters of one type. -/
def params (names : List String) (hint : Shape) : List Input := names.map (param · hint)

def bare (name : String) : Input := ⟨name, none, none⟩

namespace Input

def on (line : Nat) (input : Input) : Input := { input with line := some line }

def toParam (input : Input) (line : Nat) : Param :=
  let line := input.line.getD line
  ⟨some line, input.name, input.hint.map (·.expr line)⟩

end Input

inductive Body where
  | pass (line : Nat)
  | dots (line : Nat)
  | documented (docLine passLine : Nat)
  | returning (line : Nat) (value : Shape)
  | documentedReturning (docLine line : Nat) (value : Shape)

variable (line : Nat)

def siteOn : Site := ⟨0, some line, none⟩

/-- A text that documents what follows. -/
def heading : Stmt := .expr (siteOn line) ((Shape.text "").expr line)

def pass (line : Nat) : Stmt := .pass (siteOn line)

namespace Body

def toStmts : Body → List Stmt
  | pass line => [.pass (siteOn line)]
  | dots line => [.expr (siteOn line) (Shape.dots.expr line)]
  | documented docLine passLine => [heading docLine, .pass (siteOn passLine)]
  | returning line value => [.returnValue (siteOn line) (some (value.expr line))]
  | documentedReturning docLine line value =>
    [heading docLine, .returnValue (siteOn line) (some (value.expr line))]

end Body

def function (name : String) (inputs : List Input) (result : Option Shape) (body : Body)
    (defaults : List Shape := []) (decorators : List Shape := []) : Stmt :=
  .functionDef
    { site := siteOn line
      name := name
      params := ⟨[], inputs.map (·.toParam line), none, [], [], none, defaults.map (·.expr line)⟩
      body := body.toStmts
      decorators := decorators.map (·.expr line)
      returns := result.map (·.expr line)
      synthetic := false }

/-- A function that is given by its signature. -/
def stub (name : String) (inputs : List Input) (result : Option Shape)
    (defaults : List Shape := []) : Stmt :=
  function line name inputs result (.dots (line + 1)) defaults

def method (name : String) (inputs : List Input) (result : Option Shape)
    (defaults : List Shape := []) : Stmt :=
  stub line name (bare "self" :: inputs) result defaults

/-- A function with a text on the lines before the last. -/
def described (last : Nat) (name : String) (inputs : List Input) (result : Option Shape)
    (defaults : List Shape := []) : Stmt :=
  function line name inputs result (.documented (line + 1) last) defaults

def constant (name : String) (value : Shape) : Stmt :=
  .assign (siteOn line) [.name (some line) name .store] (value.expr line)

/-- Constants of one value on lines that follow each other. -/
def constants (names : List String) (value : Shape) : List Stmt :=
  names.mapIdx fun index name => constant (line + index) name value

def typeVar (name text : String) (options : List Shape := []) (bound : Option Shape := none) :
    Stmt :=
  constant line name
    (.call "TypeVar" (.text text :: options) (bound.toList.map fun shape => ("bound", shape)))

def classOf (name : String) (bases : List Shape) (body : List Stmt)
    (metaclass : Option Shape := none) : Stmt :=
  let keywords := metaclass.toList.map fun shape => ⟨some line, some "metaclass", shape.expr line⟩
  .classDef ⟨siteOn line, name, bases.map (·.expr line), keywords, body, []⟩

def emptyClass (name : String) (bases : List Shape) : Stmt :=
  classOf line name bases [pass (line + 1)]

def importing (moduleName : String) (names : List String) : Stmt :=
  .importFrom (siteOn line) (some moduleName)
    (names.map fun name => ⟨some line, name, none⟩) 0

end TypeInference.Library
