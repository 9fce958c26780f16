/- The nodes of a syntax tree level by level, from the root downwards. -/

import TypeInference.Syntax.Basic

namespace TypeInference

/-- A node of a syntax tree. -/
inductive Node where
  | module (value : Module)
  | stmt (value : Stmt)
  | expr (value : Expr)
  | params (value : Params)
  | param (value : Param)
  | keyword (value : Keyword)
  | generator (value : Generator)
  | importAlias (value : Alias)
  | withItem (value : WithItem)
  | handler (value : Handler)
  | part (value : Part)

namespace Node

def ofExprs (es : List Expr) : List Node := es.map .expr

def ofStmts (ss : List Stmt) : List Node := ss.map .stmt

def ofOption (e : Option Expr) : List Node := ofExprs e.toList

/-- The missing ones among the expressions are no nodes. -/
def ofOptions (es : List (Option Expr)) : List Node := es.flatMap ofOption

def ofExpr : Expr → List Node
  | .name .. | .literal .. => []
  | .tuple _ elements _ | .list _ elements _ | .set _ elements => ofExprs elements
  | .dict _ keys values => ofOptions keys ++ ofExprs values
  | .binary _ left _ right => [.expr left, .expr right]
  | .boolean _ _ operands => ofExprs operands
  | .unary _ _ operand => [.expr operand]
  | .conditional _ test body orelse => [.expr test, .expr body, .expr orelse]
  | .compare _ left _ rest => .expr left :: ofExprs rest
  | .call _ func args keywords => .expr func :: (ofExprs args ++ keywords.map .keyword)
  | .access _ value _ _ => [.expr value]
  | .subscript _ value index _ => [.expr value, .expr index]
  | .slice _ lower upper step => ofOption lower ++ ofOption upper ++ ofOption step
  | .lambda _ inputs body => [.params inputs, .expr body]
  | .comprehension _ _ element generators => .expr element :: generators.map .generator
  | .dictComprehension _ key value generators =>
    .expr key :: .expr value :: generators.map .generator
  | .joined _ values => ofExprs values
  | .formatted _ value _ spec => .expr value :: ofOption spec
  | .await _ value | .yieldFrom _ value | .starred _ value _ => [.expr value]
  | .yield _ value => ofOption value
  | .named _ target value => [.expr target, .expr value]

def ofLeaf : Part → List Node
  | .expr value => [.expr value]
  | .stmt value => [.stmt value]
  | .params value => [.params value]
  | .handler value => [.handler value]
  | .node form line fields => [.part (.node form line fields)]
  | .absent | .text _ | .number _ | .flag _ | .items _ => []

def ofPart : Part → List Node
  | .items values => values.flatMap ofLeaf
  | value => ofLeaf value

def ofFields (fields : List Field) : List Node := fields.flatMap fun field => ofPart field.part

def ofStmt : Stmt → List Node
  | .functionDef ⟨_, _, inputs, body, decorators, returns, _⟩ =>
    .params inputs :: (ofStmts body ++ ofExprs decorators ++ ofOption returns)
  | .classDef ⟨_, _, bases, keywords, body, decorators⟩ =>
    ofExprs bases ++ keywords.map .keyword ++ ofStmts body ++ ofExprs decorators
  | .assign _ targets value => ofExprs targets ++ [.expr value]
  | .augAssign _ target _ value => [.expr target, .expr value]
  | .annAssign _ target hint value _ => .expr target :: .expr hint :: ofOption value
  | .returnValue _ value => ofOption value
  | .delete _ targets => ofExprs targets
  | .ifElse _ test body orelse | .whileLoop _ test body orelse =>
    .expr test :: (ofStmts body ++ ofStmts orelse)
  | .forLoop _ _ target source body orelse =>
    .expr target :: .expr source :: (ofStmts body ++ ofStmts orelse)
  | .withBlock _ _ items body => items.map .withItem ++ ofStmts body
  | .tryBlock _ body handlers orelse final =>
    ofStmts body ++ handlers.map .handler ++ ofStmts orelse ++ ofStmts final
  | .raise _ exception cause => ofOption exception ++ ofOption cause
  | .importModules _ names | .importFrom _ _ names _ => names.map .importAlias
  | .expr _ value => [.expr value]
  | .pass _ => []
  | .other _ _ fields => ofFields fields

def ofParams : Params → List Node
  | ⟨positional, args, rest, keywordOnly, keywordDefaults, keywords, defaults⟩ =>
    positional.map .param ++ args.map .param ++ rest.toList.map .param
      ++ keywordOnly.map .param ++ ofOptions keywordDefaults ++ keywords.toList.map .param
      ++ ofExprs defaults

/-- The nodes directly below a node, in order. -/
def children : Node → List Node
  | .module ⟨_, body⟩ => ofStmts body
  | .stmt value => ofStmt value
  | .expr value => ofExpr value
  | .params value => ofParams value
  | .param ⟨_, _, hint⟩ => ofOption hint
  | .keyword ⟨_, _, value⟩ => [.expr value]
  | .generator ⟨target, source, conditions, _⟩ =>
    .expr target :: .expr source :: ofExprs conditions
  | .importAlias _ => []
  | .withItem ⟨context, target⟩ => .expr context :: ofOption target
  | .handler ⟨_, exception, _, body⟩ => ofOption exception ++ ofStmts body
  | .part (.node _ _ fields) => ofFields fields
  | .part _ => []

/-- The payload's size, which the nodes below stay under. -/
noncomputable def size : Node → Nat
  | .module value => sizeOf value
  | .stmt value => sizeOf value
  | .expr value => sizeOf value
  | .params value => sizeOf value
  | .param value => sizeOf value
  | .keyword value => sizeOf value
  | .generator value => sizeOf value
  | .importAlias value => sizeOf value
  | .withItem value => sizeOf value
  | .handler value => sizeOf value
  | .part value => sizeOf value

noncomputable def sizes (nodes : List Node) : Nat :=
  nodes.foldr (fun node rest => node.size + rest) 0

@[simp] theorem sizes_nil : sizes [] = 0 := rfl

@[simp] theorem sizes_cons (node : Node) (nodes : List Node) :
    sizes (node :: nodes) = node.size + sizes nodes := rfl

@[simp] theorem sizes_append (first second : List Node) :
    sizes (first ++ second) = sizes first + sizes second := by
  induction first with
  | nil => simp
  | cons node first ih => simp [ih, Nat.add_assoc]

theorem sizes_map_lt {α : Type} [SizeOf α] (wrap : α → Node)
    (same : ∀ value, (wrap value).size = sizeOf value) (values : List α) :
    sizes (values.map wrap) < sizeOf values := by
  induction values with
  | nil => simp
  | cons value values ih => simp [same]; omega

theorem sizes_toList_lt {α : Type} [SizeOf α] (wrap : α → Node)
    (same : ∀ value, (wrap value).size = sizeOf value) (value : Option α) :
    sizes (value.toList.map wrap) < sizeOf value := by
  cases value <;> simp [same]

theorem sizes_ofExprs_lt (es : List Expr) : sizes (ofExprs es) < sizeOf es :=
  sizes_map_lt _ (fun _ => rfl) es

theorem sizes_ofStmts_lt (ss : List Stmt) : sizes (ofStmts ss) < sizeOf ss :=
  sizes_map_lt _ (fun _ => rfl) ss

theorem sizes_ofOption_lt (e : Option Expr) : sizes (ofOption e) < sizeOf e :=
  sizes_toList_lt _ (fun _ => rfl) e

theorem sizes_ofOptions_lt (es : List (Option Expr)) : sizes (ofOptions es) < sizeOf es := by
  induction es with
  | nil => simp [ofOptions]
  | cons e es ih =>
    have head := sizes_ofOption_lt e
    simp only [ofOptions, List.flatMap_cons, sizes_append, List.cons.sizeOf_spec] at ih ⊢
    omega

theorem sizes_ofLeaf_le (part : Part) : sizes (ofLeaf part) ≤ sizeOf part := by
  cases part <;> simp [ofLeaf, size]

theorem sizes_ofPart_le (part : Part) : sizes (ofPart part) ≤ sizeOf part := by
  cases part with
  | items values =>
    have bound : sizes (values.flatMap ofLeaf) < sizeOf values := by
      induction values with
      | nil => simp
      | cons value values ih =>
        have head := sizes_ofLeaf_le value
        simp only [List.flatMap_cons, sizes_append, List.cons.sizeOf_spec]
        omega
    simp only [ofPart, Part.items.sizeOf_spec]
    omega
  | _ => simp [ofPart, ofLeaf, size]

theorem sizes_ofFields_lt (fields : List Field) : sizes (ofFields fields) < sizeOf fields := by
  induction fields with
  | nil => simp [ofFields]
  | cons field fields ih =>
    obtain ⟨name, part⟩ := field
    have head := sizes_ofPart_le part
    simp only [ofFields, List.flatMap_cons, sizes_append, List.cons.sizeOf_spec,
      Field.mk.sizeOf_spec] at ih ⊢
    omega

theorem sizes_ofParams_lt (inputs : Params) : sizes (ofParams inputs) < sizeOf inputs := by
  have lists := sizes_map_lt .param fun _ => rfl
  have options := sizes_toList_lt .param fun _ => rfl
  have exprs := sizes_ofExprs_lt
  have defaults := sizes_ofOptions_lt
  cases inputs
  simp only [ofParams, sizes_append, Params.mk.sizeOf_spec]
  grind

-- The nodes below a node come from lists and options of its fields, whose bounds are given once.
theorem sizes_ofExpr_lt (value : Expr) : sizes (ofExpr value) < sizeOf value := by
  have exprs := sizes_ofExprs_lt
  have options := sizes_ofOptions_lt
  have option := sizes_ofOption_lt
  have keywords := sizes_map_lt .keyword fun _ => rfl
  have generators := sizes_map_lt .generator fun _ => rfl
  cases value <;> simp [ofExpr, size] <;> grind

theorem sizes_ofStmt_lt (value : Stmt) : sizes (ofStmt value) < sizeOf value := by
  have exprs := sizes_ofExprs_lt
  have option := sizes_ofOption_lt
  have stmts := sizes_ofStmts_lt
  have fields := sizes_ofFields_lt
  have keywords := sizes_map_lt .keyword fun _ => rfl
  have items := sizes_map_lt .withItem fun _ => rfl
  have handlers := sizes_map_lt .handler fun _ => rfl
  have names := sizes_map_lt .importAlias fun _ => rfl
  cases value with
  | functionDef definition => cases definition; simp [ofStmt, size]; grind
  | classDef definition => cases definition; simp [ofStmt]; grind
  | _ => simp [ofStmt, size] <;> grind

theorem sizes_children_lt (node : Node) : sizes node.children < node.size := by
  have exprs := sizes_ofExprs_lt
  have option := sizes_ofOption_lt
  have stmts := sizes_ofStmts_lt
  have fields := sizes_ofFields_lt
  cases node with
  | stmt value => exact sizes_ofStmt_lt value
  | expr value => exact sizes_ofExpr_lt value
  | params value => exact sizes_ofParams_lt value
  | _ value => cases value <;> simp [children, size] <;> grind

theorem sizes_flatMap_children_le (nodes : List Node) :
    sizes (nodes.flatMap children) ≤ sizes nodes := by
  induction nodes with
  | nil => simp
  | cons node nodes ih =>
    have head := sizes_children_lt node
    simp only [List.flatMap_cons, sizes_append, sizes_cons]; omega

/-- All nodes at or below the given ones, level by level. -/
def walkFrom : List Node → List Node
  | [] => []
  | node :: nodes => (node :: nodes) ++ walkFrom ((node :: nodes).flatMap children)
termination_by nodes => sizes nodes
decreasing_by
  have head := sizes_children_lt node
  have rest := sizes_flatMap_children_le nodes
  simp only [List.flatMap_cons, sizes_append, sizes_cons]
  omega

def walk (node : Node) : List Node := walkFrom [node]

end Node

end TypeInference
