/- The syntax trees of the analysed programs. -/

import TypeInference.Syntax.Operator

namespace TypeInference

/-- A literal. Other numbers and bytes are kept as texts. -/
inductive Literal where
  | int (value : Int)
  | float (text : String)
  | complex (text : String)
  | str (text : String) (marker : Option String)
  | bytes (hex : String)
  | bool (value : Bool)
  | none
  | ellipsis
deriving DecidableEq, Repr, Inhabited

/-- What a comprehension without keys builds. -/
inductive Collected where
  | list | set | generator
deriving DecidableEq, Repr, Inhabited

def Collected.form : Collected → String
  | list => "ListComp"
  | set => "SetComp"
  | generator => "GeneratorExp"

mutual

inductive Expr where
  | name (line : Option Nat) (id : String) (usage : Usage)
  | literal (line : Option Nat) (value : Literal)
  | tuple (line : Option Nat) (elements : List Expr) (usage : Usage)
  | list (line : Option Nat) (elements : List Expr) (usage : Usage)
  | set (line : Option Nat) (elements : List Expr)
  /-- A missing key stands for an unpacked mapping. -/
  | dict (line : Option Nat) (keys : List (Option Expr)) (values : List Expr)
  | binary (line : Option Nat) (left : Expr) (op : BinaryOperator) (right : Expr)
  | boolean (line : Option Nat) (op : BoolOperator) (operands : List Expr)
  | unary (line : Option Nat) (op : UnaryOperator) (operand : Expr)
  | conditional (line : Option Nat) (test body orelse : Expr)
  | compare (line : Option Nat) (left : Expr) (ops : List CompareOperator) (rest : List Expr)
  | call (line : Option Nat) (func : Expr) (args : List Expr) (keywords : List Keyword)
  | access (line : Option Nat) (value : Expr) (attr : String) (usage : Usage)
  | subscript (line : Option Nat) (value index : Expr) (usage : Usage)
  | slice (line : Option Nat) (lower upper step : Option Expr)
  | lambda (line : Option Nat) (params : Params) (body : Expr)
  | comprehension (line : Option Nat) (collected : Collected) (element : Expr)
      (generators : List Generator)
  | dictComprehension (line : Option Nat) (key value : Expr) (generators : List Generator)
  | joined (line : Option Nat) (values : List Expr)
  | formatted (line : Option Nat) (value : Expr) (conversion : Int) (spec : Option Expr)
  | await (line : Option Nat) (value : Expr)
  | yield (line : Option Nat) (value : Option Expr)
  | yieldFrom (line : Option Nat) (value : Expr)
  | starred (line : Option Nat) (value : Expr) (usage : Usage)
  | named (line : Option Nat) (target value : Expr)

structure Keyword where
  line : Option Nat
  /-- Absent for an unpacked mapping. -/
  name : Option String
  value : Expr

structure Generator where
  target : Expr
  source : Expr
  conditions : List Expr
  isAsync : Int

structure Param where
  line : Option Nat
  name : String
  hint : Option Expr

structure Params where
  positional : List Param
  args : List Param
  rest : Option Param
  keywordOnly : List Param
  keywordDefaults : List (Option Expr)
  keywords : Option Param
  defaults : List Expr

end

instance : Inhabited Expr := ⟨.literal none .none⟩

/-- The program itself, an imported file or a library. -/
inductive ModuleKey where
  | program
  | file (name : String)
  | library (name : String)
deriving DecidableEq, Repr, Inhabited

/-- Where a statement stands. Two occurrences with one label are one statement. -/
structure Site where
  label : Nat := 0
  line : Option Nat := none
  home : Option ModuleKey := none
deriving DecidableEq, Repr, Inhabited

structure Alias where
  line : Option Nat
  name : String
  asName : Option String

structure WithItem where
  context : Expr
  target : Option Expr

mutual

inductive Stmt where
  | functionDef (definition : FunctionDef)
  | classDef (definition : ClassDef)
  | assign (site : Site) (targets : List Expr) (value : Expr)
  | augAssign (site : Site) (target : Expr) (op : BinaryOperator) (value : Expr)
  | annAssign (site : Site) (target hint : Expr) (value : Option Expr) (simple : Int)
  | returnValue (site : Site) (value : Option Expr)
  | delete (site : Site) (targets : List Expr)
  | ifElse (site : Site) (test : Expr) (body orelse : List Stmt)
  | whileLoop (site : Site) (test : Expr) (body orelse : List Stmt)
  | forLoop (site : Site) (isAsync : Bool) (target source : Expr) (body orelse : List Stmt)
  | withBlock (site : Site) (isAsync : Bool) (items : List WithItem) (body : List Stmt)
  | tryBlock (site : Site) (body : List Stmt) (handlers : List Handler) (orelse final : List Stmt)
  | raise (site : Site) (exception cause : Option Expr)
  | importModules (site : Site) (names : List Alias)
  | importFrom (site : Site) (moduleName : Option String) (names : List Alias) (level : Int)
  | expr (site : Site) (value : Expr)
  | pass (site : Site)
  /-- A statement that inference has no rule for. -/
  | other (site : Site) (form : String) (fields : List Field)

structure FunctionDef where
  site : Site
  name : String
  params : Params
  body : List Stmt
  decorators : List Expr
  returns : Option Expr
  /-- Set for an initialiser that the analysis adds. -/
  synthetic : Bool

structure ClassDef where
  site : Site
  name : String
  bases : List Expr
  keywords : List Keyword
  body : List Stmt
  decorators : List Expr

structure Handler where
  line : Option Nat
  exception : Option Expr
  name : Option String
  body : List Stmt

/-- A part of a statement that inference has no rule for. -/
inductive Part where
  | absent
  | text (value : String)
  | number (value : Int)
  | flag (value : Bool)
  | expr (value : Expr)
  | stmt (value : Stmt)
  | params (value : Params)
  | handler (value : Handler)
  | node (form : String) (line : Option Nat) (fields : List Field)
  | items (values : List Part)

structure Field where
  name : String
  part : Part

end

instance : Inhabited Stmt := ⟨.pass {}⟩

structure Module where
  site : Site
  body : List Stmt

instance : Inhabited Module := ⟨⟨{}, []⟩⟩

namespace Expr

def line : Expr → Option Nat
  | name line .. | literal line .. | tuple line .. | list line .. | set line .. | dict line ..
  | binary line .. | boolean line .. | unary line .. | conditional line .. | compare line ..
  | call line .. | access line .. | subscript line .. | slice line .. | lambda line ..
  | comprehension line .. | dictComprehension line .. | joined line .. | formatted line ..
  | await line .. | yield line .. | yieldFrom line .. | starred line .. | named line .. => line

def lineNumber (e : Expr) : Nat := e.line.getD 0

def form : Expr → String
  | name .. => "Name" | literal .. => "Constant" | tuple .. => "Tuple" | list .. => "List"
  | set .. => "Set" | dict .. => "Dict" | binary .. => "BinOp" | boolean .. => "BoolOp"
  | unary .. => "UnaryOp" | conditional .. => "IfExp" | compare .. => "Compare"
  | call .. => "Call" | access .. => "Attribute" | subscript .. => "Subscript"
  | slice .. => "Slice" | lambda .. => "Lambda"
  | comprehension _ collected .. => collected.form
  | dictComprehension .. => "DictComp" | joined .. => "JoinedStr"
  | formatted .. => "FormattedValue" | await .. => "Await" | yield .. => "Yield"
  | yieldFrom .. => "YieldFrom" | starred .. => "Starred" | named .. => "NamedExpr"

def id? : Expr → Option String
  | name _ id _ => some id
  | _ => none

end Expr

namespace Stmt

def site : Stmt → Site
  | functionDef definition => definition.site
  | classDef definition => definition.site
  | assign site .. | augAssign site .. | annAssign site .. | returnValue site .. | delete site ..
  | ifElse site .. | whileLoop site .. | forLoop site .. | withBlock site .. | tryBlock site ..
  | raise site .. | importModules site .. | importFrom site .. | expr site .. | pass site
  | other site .. => site

def label (s : Stmt) : Nat := s.site.label

def form : Stmt → String
  | functionDef _ => "FunctionDef" | classDef _ => "ClassDef" | assign .. => "Assign"
  | augAssign .. => "AugAssign" | annAssign .. => "AnnAssign" | returnValue .. => "Return"
  | delete .. => "Delete" | ifElse .. => "If" | whileLoop .. => "While"
  | forLoop _ false .. => "For" | forLoop _ true .. => "AsyncFor" | withBlock _ false .. => "With"
  | withBlock _ true .. => "AsyncWith" | tryBlock .. => "Try" | raise .. => "Raise"
  | importModules .. => "Import" | importFrom .. => "ImportFrom" | expr .. => "Expr"
  | pass _ => "Pass" | other _ form _ => form

end Stmt

def FunctionDef.lineNumber (f : FunctionDef) : Nat := f.site.line.getD 0

def ClassDef.lineNumber (c : ClassDef) : Nat := c.site.line.getD 0

def Site.lineNumber (site : Site) : Nat := site.line.getD 0

end TypeInference
