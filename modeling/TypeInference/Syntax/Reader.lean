/- Syntax trees are read from their plain form. A part that is missing or out of place reads as
the constant `None`, an empty list or an empty text. -/

import TypeInference.Syntax.Basic
import TypeInference.Syntax.Tree

namespace TypeInference

inductive Reading where
  | absent
  | text (value : String)
  | number (value : Int)
  | flag (value : Bool)
  | expr (value : Expr)
  | stmt (value : Stmt)
  | keyword (value : Keyword)
  | generator (value : Generator)
  | param (value : Param)
  | params (value : Params)
  | importAlias (value : Alias)
  | withItem (value : WithItem)
  | handler (value : Handler)
  | module (body : List Stmt)
  | part (value : Part)
  | items (values : List Reading)

namespace Reading

def expr? : Reading → Option Expr
  | .expr value => some value
  | _ => none

def text? : Reading → Option String
  | .text value => some value
  | _ => none

def stmt? : Reading → Option Stmt
  | .stmt value => some value
  | _ => none

def keyword? : Reading → Option Keyword
  | .keyword value => some value
  | _ => none

def generator? : Reading → Option Generator
  | .generator value => some value
  | _ => none

def param? : Reading → Option Param
  | .param value => some value
  | _ => none

def importAlias? : Reading → Option Alias
  | .importAlias value => some value
  | _ => none

def withItem? : Reading → Option WithItem
  | .withItem value => some value
  | _ => none

def handler? : Reading → Option Handler
  | .handler value => some value
  | _ => none

def params? : Reading → Option Params
  | .params value => some value
  | _ => none

mutual

def toPart : Reading → Part
  | .absent => .absent
  | .text value => .text value
  | .number value => .number value
  | .flag value => .flag value
  | .expr value => .expr value
  | .stmt value => .stmt value
  | .params value => .params value
  | .handler value => .handler value
  | .part value => value
  | .items values => .items (toParts values)
  | .keyword _ | .generator _ | .param _ | .importAlias _ | .withItem _ | .module _ => .absent

def toParts : List Reading → List Part
  | [] => []
  | value :: values => toPart value :: toParts values

end

end Reading

structure Record where
  form : String
  line : Option Nat
  fields : List (String × Reading)

namespace Record

variable (node : Record) (name : String)

def get : Reading :=
  ((node.fields.find? fun field => field.1 == name).map (·.2)).getD .absent

def list {α : Type} (pick : Reading → Option α) : List α :=
  match node.get name with
  | .items values => values.filterMap pick
  | _ => []

def expr? (node : Record) (name : String) : Option Expr := (node.get name).expr?

def expr (node : Record) (name : String) : Expr := (node.expr? name).getD default

def exprs : List Expr := node.list name Reading.expr?

def exprOptions : List (Option Expr) :=
  node.list name fun value => some value.expr?

def stmts : List Stmt := node.list name Reading.stmt?

def text? (node : Record) (name : String) : Option String := (node.get name).text?

def text (node : Record) (name : String) : String := (node.text? name).getD ""

def number (node : Record) (name : String) : Int :=
  match node.get name with
  | .number value => value
  | _ => 0

def params (node : Record) (name : String) : Params :=
  (node.get name).params?.getD ⟨[], [], none, [], [], none, []⟩

def usage : Usage := ((node.text? "ctx").bind Usage.ofName?).getD .load

def binaryOperator : BinaryOperator :=
  (BinaryOperator.ofName? (node.text "op")).getD default

def literal : Literal :=
  let value := node.text "v"
  match node.text "k" with
  | "int" => .int (value.toInt?.getD 0)
  | "float" => .float value
  | "complex" => .complex value
  | "str" => .str value (node.text? "kind")
  | "bytes" => .bytes value
  | "bool" => .bool (value == "True")
  | "Ellipsis" => .ellipsis
  | _ => .none

def toExpr? : Option Expr :=
  let line := node.line
  match node.form with
  | "Name" => some (.name line (node.text "id") node.usage)
  | "Constant" => some (.literal line node.literal)
  | "Tuple" => some (.tuple line (node.exprs "elts") node.usage)
  | "List" => some (.list line (node.exprs "elts") node.usage)
  | "Set" => some (.set line (node.exprs "elts"))
  | "Dict" => some (.dict line (node.exprOptions "keys") (node.exprs "values"))
  | "BinOp" => some (.binary line (node.expr "left") node.binaryOperator (node.expr "right"))
  | "BoolOp" =>
    some (.boolean line ((BoolOperator.ofName? (node.text "op")).getD default)
      (node.exprs "values"))
  | "UnaryOp" =>
    some (.unary line ((UnaryOperator.ofName? (node.text "op")).getD default)
      (node.expr "operand"))
  | "IfExp" => some (.conditional line (node.expr "test") (node.expr "body") (node.expr "orelse"))
  | "Compare" =>
    some (.compare line (node.expr "left")
      (node.list "ops" fun value => value.text?.bind CompareOperator.ofName?)
      (node.exprs "comparators"))
  | "Call" =>
    some (.call line (node.expr "func") (node.exprs "args")
      (node.list "keywords" Reading.keyword?))
  | "Attribute" => some (.access line (node.expr "value") (node.text "attr") node.usage)
  | "Subscript" => some (.subscript line (node.expr "value") (node.expr "slice") node.usage)
  | "Slice" => some (.slice line (node.expr? "lower") (node.expr? "upper") (node.expr? "step"))
  | "Lambda" => some (.lambda line (node.params "args") (node.expr "body"))
  | "ListComp" => some (comprehension .list)
  | "SetComp" => some (comprehension .set)
  | "GeneratorExp" => some (comprehension .generator)
  | "DictComp" =>
    some (.dictComprehension line (node.expr "key") (node.expr "value")
      (node.list "generators" Reading.generator?))
  | "JoinedStr" => some (.joined line (node.exprs "values"))
  | "FormattedValue" =>
    some (.formatted line (node.expr "value") (node.number "conversion")
      (node.expr? "format_spec"))
  | "Await" => some (.await line (node.expr "value"))
  | "Yield" => some (.yield line (node.expr? "value"))
  | "YieldFrom" => some (.yieldFrom line (node.expr "value"))
  | "Starred" => some (.starred line (node.expr "value") node.usage)
  | "NamedExpr" => some (.named line (node.expr "target") (node.expr "value"))
  | _ => none
where
  comprehension (collected : Collected) : Expr :=
    .comprehension node.line collected (node.expr "elt") (node.list "generators" Reading.generator?)

/-- The fields of statements and patterns without a rule, in their order. -/
def fieldOrder? : String → Option (List String)
  | "AsyncFunctionDef" => some ["name", "args", "body", "decorator_list", "returns"]
  | "Match" => some ["subject", "cases"]
  | "TryStar" => some ["body", "handlers", "orelse", "finalbody"]
  | "Assert" => some ["test", "msg"]
  | "Global" | "Nonlocal" => some ["names"]
  | "Break" | "Continue" => some []
  | _ => none

def patternFields : String → List String
  | "match_case" => ["pattern", "guard", "body"]
  | "MatchValue" | "MatchSingleton" => ["value"]
  | "MatchSequence" | "MatchOr" => ["patterns"]
  | "MatchMapping" => ["keys", "patterns", "rest"]
  | "MatchClass" => ["cls", "patterns", "kwd_attrs", "kwd_patterns"]
  | "MatchStar" => ["name"]
  | "MatchAs" => ["pattern", "name"]
  | _ => []

def orderedFields (order : List String) : List Field :=
  let known := order.map fun name => (⟨name, (node.get name).toPart⟩ : Field)
  let rest := node.fields.filter fun field => !order.contains field.1
  known ++ rest.map fun field => ⟨field.1, field.2.toPart⟩

def toStmt? : Option Stmt :=
  let site : Site := ⟨0, node.line, none⟩
  match node.form with
  | "FunctionDef" =>
    some (.functionDef ⟨site, node.text "name", node.params "args", node.stmts "body",
      node.exprs "decorator_list", node.expr? "returns", false⟩)
  | "ClassDef" =>
    some (.classDef ⟨site, node.text "name", node.exprs "bases",
      node.list "keywords" Reading.keyword?, node.stmts "body", node.exprs "decorator_list"⟩)
  | "Assign" => some (.assign site (node.exprs "targets") (node.expr "value"))
  | "AugAssign" =>
    some (.augAssign site (node.expr "target") node.binaryOperator (node.expr "value"))
  | "AnnAssign" =>
    some (.annAssign site (node.expr "target") (node.expr "annotation") (node.expr? "value")
      (node.number "simple"))
  | "Return" => some (.returnValue site (node.expr? "value"))
  | "Delete" => some (.delete site (node.exprs "targets"))
  | "If" => some (.ifElse site (node.expr "test") (node.stmts "body") (node.stmts "orelse"))
  | "While" => some (.whileLoop site (node.expr "test") (node.stmts "body") (node.stmts "orelse"))
  | "For" => some (loop site false)
  | "AsyncFor" => some (loop site true)
  | "With" => some (block site false)
  | "AsyncWith" => some (block site true)
  | "Try" =>
    some (.tryBlock site (node.stmts "body") (node.list "handlers" Reading.handler?)
      (node.stmts "orelse") (node.stmts "finalbody"))
  | "Raise" => some (.raise site (node.expr? "exc") (node.expr? "cause"))
  | "Import" => some (.importModules site (node.list "names" Reading.importAlias?))
  | "ImportFrom" =>
    some (.importFrom site (node.text? "module") (node.list "names" Reading.importAlias?)
      (node.number "level"))
  | "Expr" => some (.expr site (node.expr "value"))
  | "Pass" => some (.pass site)
  | form => (fieldOrder? form).map fun order => .other site form (node.orderedFields order)
where
  loop (site : Site) (isAsync : Bool) : Stmt :=
    .forLoop site isAsync (node.expr "target") (node.expr "iter") (node.stmts "body")
      (node.stmts "orelse")
  block (site : Site) (isAsync : Bool) : Stmt :=
    .withBlock site isAsync (node.list "items" Reading.withItem?) (node.stmts "body")

def toReading : Reading :=
  match node.form with
  | "Module" => .module (node.stmts "body")
  | "keyword" => .keyword ⟨node.line, node.text? "arg", node.expr "value"⟩
  | "comprehension" =>
    .generator ⟨node.expr "target", node.expr "iter", node.exprs "ifs", node.number "is_async"⟩
  | "arg" => .param ⟨node.line, node.text "arg", node.expr? "annotation"⟩
  | "arguments" =>
    .params ⟨node.list "posonlyargs" Reading.param?, node.list "args" Reading.param?,
      (node.get "vararg").param?, node.list "kwonlyargs" Reading.param?,
      node.exprOptions "kw_defaults", (node.get "kwarg").param?, node.exprs "defaults"⟩
  | "alias" => .importAlias ⟨node.line, node.text "name", node.text? "asname"⟩
  | "withitem" => .withItem ⟨node.expr "context_expr", node.expr? "optional_vars"⟩
  | "ExceptHandler" =>
    .handler ⟨node.line, node.expr? "type", node.text? "name", node.stmts "body"⟩
  | form =>
    match node.toExpr? with
    | some value => .expr value
    | none =>
      match node.toStmt? with
      | some value => .stmt value
      | none => .part (.node form node.line (node.orderedFields (patternFields form)))

end Record

namespace Tree

mutual

def read : Tree → Reading
  | .absent => .absent
  | .text value => .text value
  | .number value => .number value
  | .flag value => .flag value
  | .items values => .items (readItems values)
  | .node form line fields => Record.toReading ⟨form, line, readFields fields⟩

def readItems : List Tree → List Reading
  | [] => []
  | value :: values => value.read :: readItems values

def readFields : List TreeField → List (String × Reading)
  | [] => []
  | ⟨name, value⟩ :: fields => (name, value.read) :: readFields fields

end

def toExpr? (tree : Tree) : Option Expr := tree.read.expr?

def toExpr (tree : Tree) : Expr := tree.toExpr?.getD default

def toStmt? (tree : Tree) : Option Stmt := tree.read.stmt?

def toBody (tree : Tree) : List Stmt :=
  match tree.read with
  | .module body => body
  | _ => []

end Tree

end TypeInference
