/- What additions to classes make of a program, and the labels of its statements. -/

import TypeInference.Proofs.Nodes
import TypeInference.Survey.Classes

namespace TypeInference

open List Node

open Node (Each each_nil each_cons each_append ofStmts)

/-- A property of statements whatever is inside them. -/
structure Node.IsLocal (property : Node → Prop) : Prop where
  handler : ∀ handler, property (.handler handler)
  part : ∀ part, property (.part part)
  head : ∀ {first second : Stmt}, second.head = first.head → property (.stmt first) →
    property (.stmt second)

theorem Stmt.mapList_eq_flatMap (change : Stmt → List Stmt) (body : List Stmt) :
    mapList change body = body.flatMap fun stmt => Id.run (stmt.mapM fun s => pure (change s)) := by
  induction body with
  | nil => rfl
  | cons stmt body ih =>
    rw [flatMap_cons, ← ih]
    rfl

namespace Stmt

variable {stmt : Stmt}

theorem exists_function_of_head {f : FunctionDef} (same : stmt.head = (functionDef f).head) :
    ∃ g, stmt = .functionDef g ∧ g.name = f.name := by
  cases stmt with
  | functionDef g =>
    have heads : functionDef { g with body := [] } = functionDef { f with body := [] } := same
    have inner := functionDef.inj heads
    exact ⟨g, rfl, (FunctionDef.mk.inj inner).2.1⟩
  | _ => cases same

theorem exists_class_of_head {c : ClassDef} (same : stmt.head = (classDef c).head) :
    ∃ d, stmt = .classDef d ∧ d.name = c.name ∧ d.bases = c.bases := by
  cases stmt with
  | classDef d =>
    have heads : classDef { d with body := [] } = classDef { c with body := [] } := same
    have inner := ClassDef.mk.inj (classDef.inj heads)
    exact ⟨d, rfl, inner.2.1, inner.2.2.1⟩
  | _ => cases same

/-- A change keeps heads, also of changed statements. -/
theorem exists_mapM {change : Stmt → List Stmt}
    (single : ∀ stmt, ∃ result, change stmt = [result] ∧ result.head = stmt.head) (stmt : Stmt) :
    ∃ result, Id.run (stmt.mapM fun stmt => pure (change stmt)) = [result] ∧
      result.head = stmt.head := by
  have given (inner : Stmt) (same : inner.head = stmt.head) :
      ∃ result, change inner = [result] ∧ result.head = stmt.head := by
    obtain ⟨result, is, head⟩ := single inner
    exact ⟨result, is, head.trans same⟩
  cases stmt with
  | functionDef f =>
    obtain ⟨site, name, params, body, decorators, returns, synthetic⟩ := f
    exact given _ rfl
  | classDef c =>
    obtain ⟨site, name, bases, keywords, body, decorators⟩ := c
    exact given _ rfl
  | _ => exact given _ rfl

end Stmt

namespace Survey

variable {additions : Table Nat (List Stmt)} {body : List Stmt}

variable {property : Node → Prop} {depth : Nat}

/-- Statements with additions have what both had. -/
theorem each_expandWith (isLocal : Node.IsLocal property) {additions : ClassDef → List Stmt}
    (added : ∀ c, property (.stmt (.classDef c)) → Each property (ofStmts (additions c)))
    (all : Each property (ofStmts body)) : Each property (ofStmts (expandWith additions body)) := by
  refine @Relates.of_mapListM _ _ Unit .ofId _ (fun _ _ before after =>
    Each property before → Each property after) ?_ body () () _ rfl all
  refine ⟨fun _ => id, fun left right all => ?_, fun inside all => ?_, fun _ _ => each_nil,
    fun inside all => ?_, fun inside all => ?_, fun {_ _ _ _ inner _} same inside ran all => ?_⟩
  · exact each_append.mpr ⟨left (each_append.mp all).1, right (each_append.mp all).2⟩
  · exact each_cons.mpr ⟨(each_cons.mp (inside all)).1, each_nil⟩
  · exact each_cons.mpr ⟨all_iff.mpr
      ⟨isLocal.handler _, inside (each_cons.mp all).1.children⟩, each_nil⟩
  · exact each_cons.mpr ⟨all_iff.mpr
      ⟨isLocal.part _, inside (each_cons.mp all).1.children⟩, each_nil⟩
  · have own := isLocal.head same (all_iff.mp (each_cons.mp all).1).1
    have inside := inside (each_cons.mp all).1.children
    subst ran
    cases inner with
    | classDef c =>
      have given := added c own
      have kept : property (.stmt (.classDef { c with body := c.body ++ additions c })) :=
        isLocal.head (by rfl) own
      obtain ⟨site, name, bases, keywords, body, decorators⟩ := c
      refine each_cons.mpr ⟨all_iff.mpr ⟨kept, ?_⟩, each_nil⟩
      change Each property _
      simp only [children, ofStmt, ofStmts, map_append, each_append] at inside given ⊢
      exact ⟨⟨inside.1.1, inside.1.2, given⟩, inside.2⟩
    | _ => exact each_cons.mpr ⟨all_iff.mpr ⟨own, inside⟩, each_nil⟩

theorem each_expandTo (isLocal : Node.IsLocal property)
    (added : ∀ c, property (.stmt (.classDef c)) →
      Each property (ofStmts ((additions.get? c.site.label).getD []))) (depth : Nat)
    (all : Each property (ofStmts body)) :
    Each property (ofStmts (expandTo additions depth body)) := by
  induction depth generalizing body with
  | zero => exact all
  | succ depth ih => exact each_expandWith isLocal (fun c own => ih (added c own)) all

/-- Statements are expanded one by one. -/
theorem mem_expandTo_iff {result : Stmt} :
    result ∈ expandTo additions depth body ↔
      ∃ stmt ∈ body, result ∈ expandTo additions depth [stmt] := by
  cases depth with
  | zero => simp [expandTo]
  | succ depth => simp [expandTo, expandWith, Stmt.mapList_eq_flatMap]

/-- With all additions, a statement keeps its head. -/
theorem exists_expandTo (additions : Table Nat (List Stmt)) (depth : Nat) (stmt : Stmt) :
    ∃ result, expandTo additions depth [stmt] = [result] ∧ result.head = stmt.head := by
  cases depth with
  | zero => exact ⟨stmt, rfl, rfl⟩
  | succ depth =>
    rw [expandTo, expandWith, Stmt.mapList_eq_flatMap, flatMap_singleton]
    exact Stmt.exists_mapM (fun stmt => by cases stmt <;> exact ⟨_, rfl, rfl⟩) stmt

theorem head_of_mem_expandTo {stmt result : Stmt}
    (member : result ∈ expandTo additions depth [stmt]) : result.head = stmt.head := by
  obtain ⟨other, is, same⟩ := exists_expandTo additions depth stmt
  rw [is] at member
  exact mem_singleton.mp member ▸ same

theorem exists_mem_expandTo (depth : Nat) {stmt : Stmt} (member : stmt ∈ body) :
    ∃ result ∈ expandTo additions depth body, result.head = stmt.head := by
  obtain ⟨result, is, same⟩ := exists_expandTo additions depth stmt
  exact ⟨result, mem_expandTo_iff.mpr ⟨stmt, member, is ▸ mem_cons_self⟩, same⟩

end Survey

namespace Node

theorem eq_or_mem_of_walkFrom {stmt other : Stmt} (member : .stmt other ∈ walkFrom [.stmt stmt]) :
    other = stmt ∨ .stmt other ∈ walkFrom (Node.stmt stmt).children :=
  (mem_walkFrom_singleton.mp member).imp_left Node.stmt.inj

/-- Statements have labels from a range, each its own. -/
structure Labelled (first last : Nat) (nodes : List Node) : Prop where
  ordered : first ≤ last
  range : ∀ {stmt}, .stmt stmt ∈ walkFrom nodes → first ≤ stmt.label ∧ stmt.label < last
  apart : ∀ {stmt other}, .stmt stmt ∈ walkFrom nodes → .stmt other ∈ walkFrom nodes →
    stmt.label = other.label → stmt = other

namespace Labelled

variable {first middle last : Nat} {nodes others : List Node}

theorem of_stmts (labelled : Labelled first last nodes)
    (known : ∀ {stmt}, .stmt stmt ∈ walkFrom others → .stmt stmt ∈ walkFrom nodes) :
    Labelled first last others where
  ordered := labelled.ordered
  range member := labelled.range (known member)
  apart member other := labelled.apart (known member) (known other)

theorem append (left : Labelled first middle nodes) (right : Labelled middle last others) :
    Labelled first last (nodes ++ others) where
  ordered := Nat.le_trans left.ordered right.ordered
  range member := by
    have bounds := And.intro left.ordered right.ordered
    rcases mem_walkFrom_append.mp member with here | there
    · have range := left.range here
      omega
    · have range := right.range there
      omega
  apart {stmt other} member isOther same := by
    rcases mem_walkFrom_append.mp member with here | there <;>
      rcases mem_walkFrom_append.mp isOther with otherHere | otherThere
    · exact left.apart here otherHere same
    · have ranges := And.intro (left.range here) (right.range otherThere)
      omega
    · have ranges := And.intro (right.range there) (left.range otherHere)
      omega
    · exact right.apart there otherThere same

/-- A node that is no statement adds no label. -/
theorem wrap {node : Node} (labelled : Labelled first last node.children)
    (other : ∀ stmt, node ≠ .stmt stmt) : Labelled first last [node] :=
  labelled.of_stmts fun {stmt} member =>
    (mem_walkFrom_singleton.mp member).resolve_left fun is => other stmt is.symm

/-- A statement takes the first label that is free. -/
theorem stmt {stmt : Stmt} (labelled : Labelled first stmt.label (Node.stmt stmt).children)
    (small : stmt.label < last) : Labelled first last [.stmt stmt] where
  ordered := Nat.le_of_lt (Nat.lt_of_le_of_lt labelled.ordered small)
  range member := by
    rcases eq_or_mem_of_walkFrom member with rfl | inside
    · exact ⟨labelled.ordered, small⟩
    · exact ⟨(labelled.range inside).1, Nat.lt_trans (labelled.range inside).2 small⟩
  apart member isOther same := by
    rcases eq_or_mem_of_walkFrom member with rfl | inside <;>
      rcases eq_or_mem_of_walkFrom isOther with rfl | otherInside
    · rfl
    · exact absurd same (Nat.ne_of_gt (labelled.range otherInside).2)
    · exact absurd same (Nat.ne_of_lt (labelled.range inside).2)
    · exact labelled.apart inside otherInside same

end Labelled

end Node

theorem Stmt.children_moveTo (place : Site) (stmt : Stmt) :
    (Node.stmt (stmt.moveTo place)).children = (Node.stmt stmt).children := by
  cases stmt with
  | functionDef f => cases f; rfl
  | classDef c => cases c; rfl
  | _ => rfl

theorem Stmt.label_moveTo (place : Site) (stmt : Stmt) :
    (stmt.moveTo place).label = place.label := by
  cases stmt <;> rfl

theorem Stmt.relates_number (home : Option ModuleKey) :
    Relates .counting (number home) fun first last _ nodes => Node.Labelled first last nodes where
  plain {state nodes} plain := by
    have none {stmt : Stmt} : .stmt stmt ∉ walkFrom nodes := by
      intro member
      obtain ⟨root, isRoot, below⟩ := mem_walkFrom_iff.mp member
      cases mayHoldStmts_of_mem_walk (plain root isRoot) (mem_walk_iff.mpr below)
    exact ⟨Nat.le_refl _, fun member => absurd member none, fun member => absurd member none⟩
  append := .append
  keep labelled := labelled.of_stmts fun member =>
    Node.mem_walkFrom_append.mpr (.inl (by exact member))
  skip labelled := labelled.of_stmts fun {stmt} member => by simp [Node.walkFrom] at member
  handler labelled := labelled.wrap fun _ => Node.noConfusion
  part labelled := labelled.wrap fun _ => Node.noConfusion
  step {_ middle _ _ inner _} _ labelled ran := by
    obtain ⟨rfl, rfl⟩ := Prod.mk.inj ran
    have isLabel := label_moveTo ⟨middle, inner.site.line, home⟩ inner
    refine .stmt ?_ ?_
    · rw [children_moveTo, isLabel]
      exact labelled
    · rw [isLabel]
      cases inner <;> simp [labelCount]

/-- Numbering gives statements labels from the first free one on. -/
theorem Module.labelled_number (home : Option ModuleKey) (body : List Stmt) (count : Nat) :
    Node.Labelled count ((number home body).run count).2
      [.module ((number home body).run count).1] := by
  have labelled := (Stmt.relates_number home).of_mapListM body (Eq.refl ((Stmt.mapListM
    (Stmt.number home) body).run (count + 1)))
  refine .wrap ⟨?_, fun member => ?_, labelled.apart⟩ fun _ => Node.noConfusion
  · exact Nat.le_of_succ_le labelled.ordered
  · exact ⟨Nat.le_of_succ_le (labelled.range member).1, (labelled.range member).2⟩

theorem Module.labelled_mapM (home : String → Option ModuleKey)
    (entries : List (String × List Stmt)) (count : Nat) :
    let numbered := (entries.mapM fun (name, body) => do
      pure (name, ← number (home name) body) : StateM Nat _).run count
    Node.Labelled count numbered.2 (numbered.1.map (.module ·.2)) := by
  induction entries generalizing count with
  | nil => exact (Stmt.relates_number none).nil
  | cons entry entries ih =>
    rw [mapM_cons]
    exact (labelled_number (home entry.1) entry.2 count).append (ih _)

namespace Library

/-- All modules of declarations. -/
def modules : List Module :=
  standard.functions :: (standard.methods.values ++ standard.libraries.values)

theorem labelled_modules : Node.Labelled 0 nextLabel (modules.map .module) := by
  unfold modules standard nextLabel numbered number Table.values
  -- The declarations are long lists, which nothing below looks into.
  generalize builtinFunctions = functions
  generalize methodDeclarations = methods
  generalize libraryDeclarations = libraries
  rw [map_cons, map_append, map_map, map_map]
  have own := Module.labelled_number none functions 0
  have ofMethods := Module.labelled_mapM (fun _ => none) methods
    ((Module.number none functions).run 0).2
  exact own.append (ofMethods.append (Module.labelled_mapM (some <| .library ·) libraries _))

end Library

end TypeInference
