/- The nodes of a syntax tree whose statements are changed one by one. -/

import Mathlib.Logic.Relation
import TypeInference.Syntax.Node
import TypeInference.Syntax.Traversal

namespace TypeInference

open List

namespace Node

variable {node root : Node}

/-- One node is directly below another. -/
def IsParent (parent child : Node) : Prop := child ∈ parent.children

/-- A walk finds the nodes below its roots. -/
theorem mem_walkFrom_iff {roots : List Node} :
    node ∈ walkFrom roots ↔ ∃ root ∈ roots, Relation.ReflTransGen IsParent root node := by
  induction roots using walkFrom.induct with
  | case1 => simp [walkFrom]
  | case2 first others ih =>
    rw [walkFrom, mem_append, ih]
    constructor
    · rintro (here | ⟨child, member, below⟩)
      · exact ⟨node, here, .refl⟩
      · obtain ⟨root, isRoot, isChild⟩ := mem_flatMap.mp member
        exact ⟨root, isRoot, .head isChild below⟩
    · rintro ⟨root, isRoot, below⟩
      rcases below.cases_head with rfl | ⟨child, isChild, rest⟩
      · exact .inl isRoot
      · exact .inr ⟨child, mem_flatMap.mpr ⟨root, isRoot, isChild⟩, rest⟩

theorem mem_walkFrom_append {first second : List Node} :
    node ∈ walkFrom (first ++ second) ↔ node ∈ walkFrom first ∨ node ∈ walkFrom second := by
  simp only [mem_walkFrom_iff, mem_append, or_and_right, exists_or]

theorem mem_walkFrom_singleton :
    node ∈ walkFrom [root] ↔ node = root ∨ node ∈ walkFrom root.children := by
  rw [walkFrom]
  simp

theorem mem_walk_iff : node ∈ root.walk ↔ Relation.ReflTransGen IsParent root node := by
  simp [walk, mem_walkFrom_iff]

theorem mem_walk_child {child : Node} (isChild : child ∈ root.children) : child ∈ root.walk :=
  mem_walk_iff.mpr (.single isChild)

theorem ofStmts_subset_walk (module : Module) :
    ofStmts module.body ⊆ (Node.module module).walk := by
  exact fun node isChild => mem_walk_child isChild

theorem walk_subset (member : node ∈ root.walk) : node.walk ⊆ root.walk := by
  intro inner inside
  exact mem_walk_iff.mpr ((mem_walk_iff.mp member).trans (mem_walk_iff.mp inside))

/-- All nodes at or below a node have a property. -/
def All (property : Node → Prop) (root : Node) : Prop := ∀ node ∈ root.walk, property node

/-- What holds of all nodes holds of the root and below it. -/
theorem all_iff {property : Node → Prop} :
    root.All property ↔ property root ∧ ∀ child ∈ root.children, child.All property := by
  constructor
  · intro all
    refine ⟨all root (mem_walk_iff.mpr .refl), fun child isChild node below => ?_⟩
    exact all node (mem_walk_iff.mpr (.head isChild (mem_walk_iff.mp below)))
  · rintro ⟨own, below⟩ node member
    rcases (mem_walk_iff.mp member).cases_head with rfl | ⟨child, isChild, rest⟩
    · exact own
    · exact below child isChild node (mem_walk_iff.mpr rest)

theorem All.child {property : Node → Prop} {child : Node} (all : root.All property)
    (isChild : child ∈ root.children) : child.All property :=
  (all_iff.mp all).2 child isChild

/-- All nodes at or below any of the nodes have a property. -/
def Each (property : Node → Prop) (nodes : List Node) : Prop := ∀ node ∈ nodes, node.All property

section Each

variable {property : Node → Prop} {node : Node} {nodes first second : List Node}

@[simp] theorem each_nil : Each property [] := forall_mem_nil _

@[simp] theorem each_cons :
    Each property (node :: nodes) ↔ node.All property ∧ Each property nodes :=
  forall_mem_cons

@[simp] theorem each_append :
    Each property (first ++ second) ↔ Each property first ∧ Each property second :=
  forall_mem_append

theorem All.children (all : node.All property) : Each property node.children := (all_iff.mp all).2

end Each

/-- Whether statements can be at or below the node. -/
def mayHoldStmts : Node → Bool
  | .module _ | .stmt _ | .handler _ | .part _ => true
  | _ => false

/-- If a node may not hold statements, its children may not. -/
theorem mayHoldStmts_children {child : Node} (isChild : child ∈ node.children)
    (plain : node.mayHoldStmts = false) : child.mayHoldStmts = false := by
  have exprs {es : List Expr} : child ∈ ofExprs es → child.mayHoldStmts = false := by
    intro member
    obtain ⟨e, -, rfl⟩ := mem_map.mp member
    rfl
  have options {es : List (Option Expr)} : child ∈ ofOptions es → child.mayHoldStmts = false := by
    intro member
    obtain ⟨e, -, inside⟩ := mem_flatMap.mp member
    exact exprs inside
  cases node with
  | module value | stmt value | handler value | part value => cases plain
  | importAlias value => cases isChild
  | keyword value =>
    obtain ⟨line, name, value⟩ := value
    obtain rfl := mem_singleton.mp isChild
    rfl
  | param value =>
    obtain ⟨line, name, hint⟩ := value
    exact exprs isChild
  | generator value =>
    obtain ⟨target, source, conditions, isAsync⟩ := value
    rcases mem_cons.mp isChild with rfl | later
    · rfl
    · rcases mem_cons.mp later with rfl | last
      · rfl
      · exact exprs last
  | withItem value =>
    rcases mem_cons.mp isChild with rfl | later
    · rfl
    · exact exprs later
  | params value =>
    simp only [children, ofParams] at isChild
    grind [mayHoldStmts]
  | expr value =>
    cases value <;> simp only [children, ofExpr, mem_cons, mem_append] at isChild <;>
      grind [ofOption, mayHoldStmts]

theorem mayHoldStmts_of_mem_walk (plain : root.mayHoldStmts = false) (member : node ∈ root.walk) :
    node.mayHoldStmts = false := by
  have path := mem_walk_iff.mp member
  clear member
  induction path with
  | refl => exact plain
  | tail _ isChild ih => exact mayHoldStmts_children isChild ih

end Node

/-- What a statement is apart from the statements inside it. -/
def Stmt.head : Stmt → Stmt
  | .functionDef f => .functionDef { f with body := [] }
  | .classDef c => .classDef { c with body := [] }
  | .ifElse site test _ _ => .ifElse site test [] []
  | .whileLoop site test _ _ => .whileLoop site test [] []
  | .forLoop site isAsync target source _ _ => .forLoop site isAsync target source [] []
  | .withBlock site isAsync items _ => .withBlock site isAsync items []
  | .tryBlock site _ _ _ _ => .tryBlock site [] [] [] []
  | .other site form _ => .other site form []
  | stmt => stmt

/-- A computation leads from one state to another. -/
structure Runs (m : Type → Type) [Monad m] (σ : Type) where
  ran : {α : Type} → m α → σ → α → σ → Prop
  pure : ∀ {α : Type} {value result : α} {first last : σ},
    ran (pure value) first result last → result = value ∧ last = first
  bind : ∀ {α β : Type} {act : m α} {next : α → m β} {result : β} {first last : σ},
    ran (act >>= next) first result last →
    ∃ value middle, ran act first value middle ∧ ran (next value) middle result last

theorem Runs.map {m : Type → Type} [Monad m] {σ α β : Type} (runs : Runs m σ) {act : m α}
    {f : α → β} {result : β} {first last : σ}
    (ran : runs.ran (act >>= fun value => Pure.pure (f value)) first result last) :
    ∃ value, runs.ran act first value last ∧ result = f value := by
  obtain ⟨value, _, here, rest⟩ := runs.bind ran
  obtain ⟨rfl, rfl⟩ := runs.pure rest
  exact ⟨value, here, rfl⟩

/-- A computation without effects. -/
def Runs.ofId : Runs Id Unit where
  ran act _ result _ := act.run = result
  pure is := ⟨is.symm, rfl⟩
  bind is := ⟨_, (), rfl, is⟩

/-- A computation with a counter. -/
def Runs.counting : Runs (StateM Nat) Nat where
  ran act first result last := act.run first = (result, last)
  pure is := ⟨(Prod.mk.inj is).1.symm, (Prod.mk.inj is).2.symm⟩
  bind is := ⟨_, _, rfl, is⟩

/-- A relation between the nodes and states before and after a change, put together along the tree.
What it says of a statement must not depend on the statements inside it. -/
structure Relates {m : Type → Type} [Monad m] {σ : Type} (runs : Runs m σ)
    (change : Stmt → m (List Stmt)) (relation : σ → σ → List Node → List Node → Prop) : Prop where
  plain : ∀ {state nodes}, (∀ node ∈ nodes, node.mayHoldStmts = false) →
    relation state state nodes nodes
  append : ∀ {first middle last before after others results},
    relation first middle before after → relation middle last others results →
    relation first last (before ++ others) (after ++ results)
  /-- Of the statements that a field gets, one is kept. -/
  keep : ∀ {first last nodes node others}, relation first last nodes (node :: others) →
    relation first last nodes [node]
  /-- Lists inside lists have no nodes. -/
  skip : ∀ {first last before after}, relation first last before after → relation first last [] []
  handler : ∀ {first last handler result},
    relation first last (Node.handler handler).children (Node.handler result).children →
    relation first last [.handler handler] [.handler result]
  part : ∀ {first last part result},
    relation first last (Node.part part).children (Node.part result).children →
    relation first last [.part part] [.part result]
  step : ∀ {first middle last stmt inner results}, inner.head = stmt.head →
    relation first middle (Node.stmt stmt).children (Node.stmt inner).children →
    runs.ran (change inner) middle results last →
    relation first last [.stmt stmt] (Node.ofStmts results)

namespace Relates

open Stmt
open Node (ofStmts ofExprs ofLeaf ofPart ofFields ofStmt)

variable {m : Type → Type} [Monad m] {σ : Type} {runs : Runs m σ} {change : Stmt → m (List Stmt)}
  {relation : σ → σ → List Node → List Node → Prop} {first last state : σ}
  {before after : List Node} (relates : Relates runs change relation) (es : List Expr)
include relates

theorem nil : relation state state [] [] := relates.plain fun _ none => nomatch none

theorem wrapped {α : Type} {wrap : α → Node} (plain : ∀ value, (wrap value).mayHoldStmts = false)
    (values : List α) : relation state state (values.map wrap) (values.map wrap) := by
  refine relates.plain fun node member => ?_
  obtain ⟨value, -, rfl⟩ := mem_map.mp member
  exact plain value

theorem exprs : relation state state (ofExprs es) (ofExprs es) :=
  relates.wrapped (fun _ => rfl) es

/-- Expressions before the statements inside a statement. -/
theorem after_exprs (inside : relation first last before after) :
    relation first last (ofExprs es ++ before) (ofExprs es ++ after) :=
  relates.append (relates.exprs es) inside

/-- Expressions after the statements inside a statement. -/
theorem before_exprs (inside : relation first last before after) :
    relation first last (before ++ ofExprs es) (after ++ ofExprs es) :=
  relates.append inside (relates.exprs es)

mutual

/-- A change of statements relates what is before and after it. -/
theorem of_mapM : (stmt : Stmt) → {first last : σ} → {results : List Stmt} →
    runs.ran (stmt.mapM change) first results last →
    relation first last [.stmt stmt] (ofStmts results)
  | .functionDef f, _, _, _, ran => by
    obtain ⟨g, middle, ofFunction, ran⟩ := runs.bind ran
    obtain ⟨same, inside⟩ := of_mapFunctionM f ofFunction
    exact relates.step same inside ran
  | .classDef c, _, _, _, ran => by
    obtain ⟨d, middle, ofClass, ran⟩ := runs.bind ran
    obtain ⟨same, inside⟩ := of_mapClassM c ofClass
    exact relates.step same inside ran
  | .ifElse site test body orelse, _, _, _, ran
  | .whileLoop site test body orelse, _, _, _, ran => by
    obtain ⟨_, _, ofBody, ran⟩ := runs.bind ran
    obtain ⟨_, _, ofElse, ran⟩ := runs.bind ran
    have inside := relates.append (of_mapListM body ofBody) (of_mapListM orelse ofElse)
    exact relates.step (by rfl) (relates.after_exprs [test] inside) ran
  | .forLoop site isAsync target source body orelse, _, _, _, ran => by
    obtain ⟨_, _, ofBody, ran⟩ := runs.bind ran
    obtain ⟨_, _, ofElse, ran⟩ := runs.bind ran
    have inside := relates.append (of_mapListM body ofBody) (of_mapListM orelse ofElse)
    exact relates.step (by rfl) (relates.after_exprs [target, source] inside) ran
  | .withBlock site isAsync items body, _, _, _, ran => by
    obtain ⟨_, _, ofBody, ran⟩ := runs.bind ran
    exact relates.step (by rfl) (relates.append (relates.wrapped (fun _ => rfl) items)
      (of_mapListM body ofBody)) ran
  | .tryBlock site body handlers orelse final, _, _, _, ran => by
    obtain ⟨_, _, ofBody, ran⟩ := runs.bind ran
    obtain ⟨_, _, ofHandlers, ran⟩ := runs.bind ran
    obtain ⟨_, _, ofElse, ran⟩ := runs.bind ran
    obtain ⟨_, _, ofFinal, ran⟩ := runs.bind ran
    have tried := relates.append (of_mapListM body ofBody) (of_mapHandlersM handlers ofHandlers)
    have passed := relates.append tried (of_mapListM orelse ofElse)
    exact relates.step (by rfl) (relates.append passed (of_mapListM final ofFinal)) ran
  | .other site form fields, _, _, _, ran => by
    obtain ⟨_, _, ofFields, ran⟩ := runs.bind ran
    exact relates.step (by rfl) (of_mapFieldsM fields ofFields) ran
  | .assign site targets value, _, _, _, ran =>
    relates.step rfl (relates.after_exprs targets (relates.exprs [value])) ran
  | .augAssign site target op value, _, _, _, ran =>
    relates.step rfl (relates.exprs [target, value]) ran
  | .annAssign site target hint value simple, _, _, _, ran =>
    relates.step rfl (relates.exprs (target :: hint :: value.toList)) ran
  | .returnValue site value, _, _, _, ran =>
    relates.step rfl (relates.exprs value.toList) ran
  | .delete site targets, _, _, _, ran =>
    relates.step rfl (relates.exprs targets) ran
  | .raise site exception cause, _, _, _, ran =>
    relates.step rfl (relates.after_exprs exception.toList (relates.exprs cause.toList)) ran
  | .importModules site names, _, _, _, ran
  | .importFrom site moduleName names level, _, _, _, ran =>
    relates.step rfl (relates.wrapped (fun _ => rfl) names) ran
  | .expr site value, _, _, _, ran =>
    relates.step rfl (relates.exprs [value]) ran
  | .pass site, _, _, _, ran => relates.step rfl (relates.nil) ran

theorem of_mapListM : (stmts : List Stmt) →
    {first last : σ} → {results : List Stmt} → runs.ran (mapListM change stmts) first results last →
    relation first last (ofStmts stmts) (ofStmts results)
  | [], _, _, _, ran => by
    obtain ⟨rfl, rfl⟩ := runs.pure ran
    exact relates.nil
  | stmt :: stmts, _, _, _, ran => by
    obtain ⟨_, _, ofFirst, ran⟩ := runs.bind ran
    obtain ⟨_, ofRest, rfl⟩ := runs.map ran
    rw [ofStmts, ofStmts, map_append]
    exact relates.append (of_mapM stmt ofFirst) (of_mapListM stmts ofRest)

theorem of_mapFunctionM : (f : FunctionDef) →
    {first last : σ} → {result : FunctionDef} →
    runs.ran (mapFunctionM change f) first result last →
    (functionDef result).head = (functionDef f).head ∧
      relation first last (Node.stmt (.functionDef f)).children
        (Node.stmt (.functionDef result)).children
  | ⟨site, name, params, body, decorators, returns, synthetic⟩, _, _, _, ran => by
    obtain ⟨_, ofBody, rfl⟩ := runs.map ran
    refine ⟨by rfl, relates.append (relates.wrapped (fun _ => rfl) [params]) ?_⟩
    exact relates.before_exprs returns.toList
      (relates.before_exprs decorators (of_mapListM body ofBody))

theorem of_mapClassM : (c : ClassDef) →
    {first last : σ} → {result : ClassDef} → runs.ran (mapClassM change c) first result last →
    (classDef result).head = (classDef c).head ∧
      relation first last (Node.stmt (.classDef c)).children (Node.stmt (.classDef result)).children
  | ⟨site, name, bases, keywords, body, decorators⟩, _, _, _, ran => by
    obtain ⟨_, ofBody, rfl⟩ := runs.map ran
    refine ⟨by rfl, relates.before_exprs decorators (relates.append ?_ (of_mapListM body ofBody))⟩
    exact relates.after_exprs bases (relates.wrapped (fun _ => rfl) keywords)

theorem of_mapHandlerM : (handler : Handler) →
    {first last : σ} → {result : Handler} →
    runs.ran (mapHandlerM change handler) first result last →
    relation first last [.handler handler] [.handler result]
  | ⟨line, exception, name, body⟩, _, _, _, ran => by
    obtain ⟨_, ofBody, rfl⟩ := runs.map ran
    exact relates.handler (relates.after_exprs exception.toList (of_mapListM body ofBody))

theorem of_mapHandlersM : (handlers : List Handler) →
    {first last : σ} → {results : List Handler} →
    runs.ran (mapHandlersM change handlers) first results last →
    relation first last (handlers.map .handler) (results.map .handler)
  | [], _, _, _, ran => by
    obtain ⟨rfl, rfl⟩ := runs.pure ran
    exact relates.nil
  | handler :: handlers, _, _, _, ran => by
    obtain ⟨_, _, ofFirst, ran⟩ := runs.bind ran
    obtain ⟨_, ofRest, rfl⟩ := runs.map ran
    exact relates.append (of_mapHandlerM handler ofFirst) (of_mapHandlersM handlers ofRest)

theorem of_mapPartM : (part : Part) →
    {first last : σ} → {results : List Part} → runs.ran (mapPartM change part) first results last →
    relation first last (ofPart part) (ofPart (results.headD .absent)) ∧
      relation first last (ofLeaf part) (results.flatMap ofLeaf)
  | .stmt value, _, _, _, ran => by
    obtain ⟨stmts, ofStmt, rfl⟩ := runs.map ran
    have inside := of_mapM value ofStmt
    have same : (stmts.map Part.stmt).flatMap ofLeaf = ofStmts stmts := by
      rw [flatMap_map]
      exact map_eq_flatMap.symm
    refine ⟨?_, same ▸ inside⟩
    cases stmts with
    | nil => exact inside
    | cons stmt rest => exact relates.keep inside
  | .handler value, _, _, _, ran => by
    obtain ⟨_, ofHandler, rfl⟩ := runs.map ran
    exact ⟨of_mapHandlerM value ofHandler, of_mapHandlerM value ofHandler⟩
  | .node form line fields, _, _, _, ran => by
    obtain ⟨_, ofFields, rfl⟩ := runs.map ran
    have inside := of_mapFieldsM fields ofFields
    exact ⟨relates.part inside, relates.part inside⟩
  | .items values, _, _, _, ran => by
    obtain ⟨_, ofParts, rfl⟩ := runs.map ran
    have inside := of_mapPartsM values ofParts
    exact ⟨inside, relates.skip inside⟩
  | .absent, _, _, _, ran | .text _, _, _, _, ran
  | .number _, _, _, _, ran | .flag _, _, _, _, ran => by
    obtain ⟨rfl, rfl⟩ := runs.pure ran
    exact ⟨relates.nil, relates.nil⟩
  | .expr value, _, _, _, ran => by
    obtain ⟨rfl, rfl⟩ := runs.pure ran
    exact ⟨relates.exprs [value], relates.exprs [value]⟩
  | .params value, _, last, _, ran => by
    obtain ⟨rfl, rfl⟩ := runs.pure ran
    have same : relation last last [.params value] [.params value] :=
      relates.wrapped (fun _ => rfl) [value]
    exact ⟨same, same⟩

theorem of_mapPartsM : (parts : List Part) →
    {first last : σ} → {results : List Part} →
    runs.ran (mapPartsM change parts) first results last →
    relation first last (parts.flatMap ofLeaf) (results.flatMap ofLeaf)
  | [], _, _, _, ran => by
    obtain ⟨rfl, rfl⟩ := runs.pure ran
    exact relates.nil
  | part :: parts, _, _, _, ran => by
    obtain ⟨_, _, ofFirst, ran⟩ := runs.bind ran
    obtain ⟨_, ofRest, rfl⟩ := runs.map ran
    rw [flatMap_cons, flatMap_append]
    exact relates.append (of_mapPartM part ofFirst).2 (of_mapPartsM parts ofRest)

theorem of_mapFieldsM : (fields : List Field) →
    {first last : σ} → {results : List Field} →
    runs.ran (mapFieldsM change fields) first results last →
    relation first last (ofFields fields) (ofFields results)
  | [], _, _, _, ran => by
    obtain ⟨rfl, rfl⟩ := runs.pure ran
    exact relates.nil
  | ⟨name, part⟩ :: fields, _, _, _, ran => by
    obtain ⟨_, _, ofField, ran⟩ := runs.bind ran
    obtain ⟨_, ofPart, rfl⟩ := runs.map ofField
    obtain ⟨_, ofRest, rfl⟩ := runs.map ran
    exact relates.append (of_mapPartM part ofPart).1 (of_mapFieldsM fields ofRest)

end

end Relates

end TypeInference
