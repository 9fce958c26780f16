/- Syntax trees are written in their plain form. -/

import TypeInference.Syntax.Basic
import TypeInference.Syntax.Tree

namespace TypeInference

/-- Reading is the usage that goes without saying. -/
def Usage.toTree : Usage → Tree
  | .load => .absent
  | usage => .text usage.name

def Literal.toTree (line : Option Nat) : Literal → Tree
  | .int value => literal "int" (.text (toString value)) .absent
  | .float value => literal "float" (.text value) .absent
  | .complex value => literal "complex" (.text value) .absent
  | .str value marker => literal "str" (.text value) (Tree.ofText? marker)
  | .bytes hex => literal "bytes" (.text hex) .absent
  | .bool true => literal "bool" (.text "True") .absent
  | .bool false => literal "bool" (.text "False") .absent
  | .none => literal "None" .absent .absent
  | .ellipsis => literal "Ellipsis" .absent .absent
where
  literal (kind : String) (value marker : Tree) : Tree :=
    .build "Constant" line [("k", .text kind), ("v", value), ("kind", marker)]

mutual

def Expr.toTree : Expr → Tree
  | .name line id usage => .build "Name" line [("id", .text id), ("ctx", usage.toTree)]
  | .literal line value => value.toTree line
  | .tuple line elements usage =>
    .build "Tuple" line [("elts", .items (exprTrees elements)), ("ctx", usage.toTree)]
  | .list line elements usage =>
    .build "List" line [("elts", .items (exprTrees elements)), ("ctx", usage.toTree)]
  | .set line elements => .build "Set" line [("elts", .items (exprTrees elements))]
  | .dict line keys values =>
    .build "Dict" line
      [("keys", .items (optionTrees keys)), ("values", .items (exprTrees values))]
  | .binary line left op right =>
    .build "BinOp" line [("left", left.toTree), ("op", .text op.name), ("right", right.toTree)]
  | .boolean line op operands =>
    .build "BoolOp" line [("op", .text op.name), ("values", .items (exprTrees operands))]
  | .unary line op operand =>
    .build "UnaryOp" line [("op", .text op.name), ("operand", operand.toTree)]
  | .conditional line test body orelse =>
    .build "IfExp" line
      [("test", test.toTree), ("body", body.toTree), ("orelse", orelse.toTree)]
  | .compare line left ops rest =>
    .build "Compare" line
      [("left", left.toTree), ("ops", .items (ops.map fun op => .text op.name)),
       ("comparators", .items (exprTrees rest))]
  | .call line func args keywords =>
    .build "Call" line
      [("func", func.toTree), ("args", .items (exprTrees args)),
       ("keywords", .items (keywordTrees keywords))]
  | .access line value attr usage =>
    .build "Attribute" line
      [("value", value.toTree), ("attr", .text attr), ("ctx", usage.toTree)]
  | .subscript line value index usage =>
    .build "Subscript" line
      [("value", value.toTree), ("slice", index.toTree), ("ctx", usage.toTree)]
  | .slice line lower upper step =>
    .build "Slice" line
      [("lower", optionTree lower), ("upper", optionTree upper), ("step", optionTree step)]
  | .lambda line params body =>
    .build "Lambda" line [("args", params.toTree), ("body", body.toTree)]
  | .comprehension line collected element generators =>
    .build (collected.form) line
      [("elt", element.toTree), ("generators", .items (generatorTrees generators))]
  | .dictComprehension line key value generators =>
    .build "DictComp" line
      [("key", key.toTree), ("value", value.toTree),
       ("generators", .items (generatorTrees generators))]
  | .joined line values => .build "JoinedStr" line [("values", .items (exprTrees values))]
  | .formatted line value conversion spec =>
    .build "FormattedValue" line
      [("value", value.toTree), ("conversion", .number conversion),
       ("format_spec", optionTree spec)]
  | .await line value => .build "Await" line [("value", value.toTree)]
  | .yield line value => .build "Yield" line [("value", optionTree value)]
  | .yieldFrom line value => .build "YieldFrom" line [("value", value.toTree)]
  | .starred line value usage =>
    .build "Starred" line [("value", value.toTree), ("ctx", usage.toTree)]
  | .named line target value =>
    .build "NamedExpr" line [("target", target.toTree), ("value", value.toTree)]

def exprTrees : List Expr → List Tree
  | [] => []
  | value :: values => value.toTree :: exprTrees values

def optionTree : Option Expr → Tree
  | none => .absent
  | some value => value.toTree

def optionTrees : List (Option Expr) → List Tree
  | [] => []
  | value :: values => optionTree value :: optionTrees values

def Keyword.toTree : Keyword → Tree
  | ⟨line, name, value⟩ =>
    .build "keyword" line [("arg", Tree.ofText? name), ("value", value.toTree)]

def keywordTrees : List Keyword → List Tree
  | [] => []
  | value :: values => value.toTree :: keywordTrees values

def Generator.toTree : Generator → Tree
  | ⟨target, source, conditions, isAsync⟩ =>
    .build "comprehension" none
      [("target", target.toTree), ("iter", source.toTree),
       ("ifs", .items (exprTrees conditions)), ("is_async", .number isAsync)]

def generatorTrees : List Generator → List Tree
  | [] => []
  | value :: values => value.toTree :: generatorTrees values

def Param.toTree : Param → Tree
  | ⟨line, name, hint⟩ =>
    .build "arg" line [("arg", .text name), ("annotation", optionTree hint)]

def paramTrees : List Param → List Tree
  | [] => []
  | value :: values => value.toTree :: paramTrees values

def paramTree : Option Param → Tree
  | none => .absent
  | some value => value.toTree

def Params.toTree : Params → Tree
  | ⟨positional, args, rest, keywordOnly, keywordDefaults, keywords, defaults⟩ =>
    .build "arguments" none
      [("posonlyargs", .items (paramTrees positional)), ("args", .items (paramTrees args)),
       ("vararg", paramTree rest), ("kwonlyargs", .items (paramTrees keywordOnly)),
       ("kw_defaults", .items (optionTrees keywordDefaults)), ("kwarg", paramTree keywords),
       ("defaults", .items (exprTrees defaults))]

end

def Alias.toTree (value : Alias) : Tree :=
  .build "alias" value.line [("name", .text value.name), ("asname", Tree.ofText? value.asName)]

def WithItem.toTree (value : WithItem) : Tree :=
  .build "withitem" none
    [("context_expr", value.context.toTree), ("optional_vars", optionTree value.target)]

mutual

def Stmt.toTree : Stmt → Tree
  | .functionDef definition => definition.toTree
  | .classDef definition => definition.toTree
  | .assign site targets value =>
    .build "Assign" site.line [("targets", .items (exprTrees targets)), ("value", value.toTree)]
  | .augAssign site target op value =>
    .build "AugAssign" site.line
      [("target", target.toTree), ("op", .text op.name), ("value", value.toTree)]
  | .annAssign site target hint value simple =>
    .build "AnnAssign" site.line
      [("target", target.toTree), ("annotation", hint.toTree), ("value", optionTree value),
       ("simple", .number simple)]
  | .returnValue site value => .build "Return" site.line [("value", optionTree value)]
  | .delete site targets => .build "Delete" site.line [("targets", .items (exprTrees targets))]
  | .ifElse site test body orelse =>
    .build "If" site.line
      [("test", test.toTree), ("body", .items (stmtTrees body)),
       ("orelse", .items (stmtTrees orelse))]
  | .whileLoop site test body orelse =>
    .build "While" site.line
      [("test", test.toTree), ("body", .items (stmtTrees body)),
       ("orelse", .items (stmtTrees orelse))]
  | .forLoop site isAsync target source body orelse =>
    .build (if isAsync then "AsyncFor" else "For") site.line
      [("target", target.toTree), ("iter", source.toTree), ("body", .items (stmtTrees body)),
       ("orelse", .items (stmtTrees orelse))]
  | .withBlock site isAsync items body =>
    .build (if isAsync then "AsyncWith" else "With") site.line
      [("items", .items (items.map (·.toTree))), ("body", .items (stmtTrees body))]
  | .tryBlock site body handlers orelse final =>
    .build "Try" site.line
      [("body", .items (stmtTrees body)), ("handlers", .items (handlerTrees handlers)),
       ("orelse", .items (stmtTrees orelse)), ("finalbody", .items (stmtTrees final))]
  | .raise site exception cause =>
    .build "Raise" site.line [("exc", optionTree exception), ("cause", optionTree cause)]
  | .importModules site names =>
    .build "Import" site.line [("names", .items (names.map (·.toTree)))]
  | .importFrom site moduleName names level =>
    .build "ImportFrom" site.line
      [("module", Tree.ofText? moduleName), ("names", .items (names.map (·.toTree))),
       ("level", .number level)]
  | .expr site value => .build "Expr" site.line [("value", value.toTree)]
  | .pass site => .build "Pass" site.line []
  | .other site form fields => .build form site.line (fieldTrees fields)

def FunctionDef.toTree : FunctionDef → Tree
  | ⟨site, name, params, body, decorators, returns, _⟩ =>
    .build "FunctionDef" site.line
      [("name", .text name), ("args", params.toTree), ("body", .items (stmtTrees body)),
       ("decorator_list", .items (exprTrees decorators)), ("returns", optionTree returns)]

def ClassDef.toTree : ClassDef → Tree
  | ⟨site, name, bases, keywords, body, decorators⟩ =>
    .build "ClassDef" site.line
      [("name", .text name), ("bases", .items (exprTrees bases)),
       ("keywords", .items (keywordTrees keywords)), ("body", .items (stmtTrees body)),
       ("decorator_list", .items (exprTrees decorators))]

def stmtTrees : List Stmt → List Tree
  | [] => []
  | value :: values => value.toTree :: stmtTrees values

def Handler.toTree : Handler → Tree
  | ⟨line, exception, name, body⟩ =>
    .build "ExceptHandler" line
      [("type", optionTree exception), ("name", Tree.ofText? name),
       ("body", .items (stmtTrees body))]

def handlerTrees : List Handler → List Tree
  | [] => []
  | value :: values => value.toTree :: handlerTrees values

def Part.toTree : Part → Tree
  | .absent => .absent
  | .text value => .text value
  | .number value => .number value
  | .flag value => .flag value
  | .expr value => value.toTree
  | .stmt value => value.toTree
  | .params value => value.toTree
  | .handler value => value.toTree
  | .node form line fields => .build form line (fieldTrees fields)
  | .items values => .items (partTrees values)

def partTrees : List Part → List Tree
  | [] => []
  | value :: values => value.toTree :: partTrees values

def fieldTrees : List Field → List (String × Tree)
  | [] => []
  | ⟨name, part⟩ :: fields => (name, part.toTree) :: fieldTrees fields

end

def Module.toTree (value : Module) : Tree :=
  .build "Module" none [("body", .items (stmtTrees value.body))]

/-- Expressions with one key are the same. -/
def Expr.key (e : Expr) : String := e.toTree.key

end TypeInference
