/- The inference of an expression leaves the scopes around it as they were. -/

import TypeInference.Proofs.Branches

namespace TypeInference

open Infer

namespace Infer

/-- The beginning of a run: declarations and first statements. -/
def upTo (done : List Stmt) : Infer Unit := do
  declarations importer
  done.forM fun stmt => do let _ ← stmt.infer importer

instance (done : List Stmt) : Grows (upTo done) := by
  unfold upTo
  infer_instance

end Infer

/-- A run gets to each statement after those before it. -/
theorem Session.infer_eq_upTo {session : Session} {done rest : List Stmt}
    (isBody : session.here.body = done ++ rest) : session.infer =
      (do
        upTo done
        rest.forM fun stmt => do let _ ← stmt.infer importer : Infer Unit).run session := by
  simp only [infer, upTo, bind_assoc]
  rw [run_bind, run_bind]
  cases result : (declarations importer).run session with
  | mk outcome mid =>
    cases outcome with
    | error fault => rfl
    | ok value =>
      dsimp only
      rw [run_get_bind, body_of_run_declarations result, isBody]
      exact congrArg (fun act : Infer Unit => act.run mid) List.forM_append

/-- A statement keeps the method, so a program ends with none. -/
theorem Stmt.infer_keeps_method :
    (∀ {stmt : Stmt} {session after : Session} {type : Meaning},
      (stmt.infer Infer.importer).run session = (.ok type, after) →
      after.method = session.method) ∧
    ∀ {theory : Theory} {axioms : Axioms} {program : Program} {done rest : List Stmt},
      theory.survey.expand program.main.body = done ++ rest →
      (Session.ofProgram theory axioms program).infer =
        (do
          Infer.upTo done
          rest.forM fun stmt => do
            let _ ← stmt.infer Infer.importer : Infer Unit).run (.ofProgram theory axioms program) ∧
      ∀ {reached : Session},
        (Infer.upTo done).run (.ofProgram theory axioms program) = (.ok (), reached) →
        reached.method = Term.noMethod := by
  refine ⟨fun done => (Grows.le done).method, fun {theory axioms program done rest} isBody => ?_⟩
  obtain ⟨-, noMethod, -, -, body⟩ := Session.ofProgram_start theory axioms program
  exact ⟨Session.infer_eq_upTo (body.trans isBody), fun run =>
    (Grows.le run).method.trans noMethod⟩

/-- Whether a formula relates two types in a method. -/
def Formula.isIn (name : String) : Formula → Bool
  | .atom (.subtype (.method method) _ _) => method == name
  | _ => false

/-- A function that copies its argument. -/
def copying : Stmt :=
  .functionDef ⟨{}, "f", ⟨[], [⟨some 1, "a", none⟩], none, [], [], none, []⟩,
    [.assign {} [.name (some 1) "b" .store] (.name (some 1) "a" .load)], [], none, false⟩

/-- A generic function is inferred in its own method only. -/
theorem copying_keeps_method : ∃ prepared type after reached,
    Prepared.ofBody [copying] none ⟨[("f", [.named "A"])]⟩ = .ok prepared ∧
    (copying.infer Infer.importer).run prepared.start = (.ok type, after) ∧
    after.log.hard.any (fun assertion => assertion.parts.any (Formula.isIn "f")) = true ∧
    after.method = prepared.start.method ∧
    (Infer.upTo (prepared.theory.survey.expand prepared.program.main.body)).run prepared.start =
      (.ok (), reached) ∧
    reached.log.hard.any (fun assertion => assertion.parts.any (Formula.isIn "f")) = true ∧
    reached.method = Term.noMethod := by
  have evaluated :
      ∃ prepared, Prepared.ofBody [copying] none ⟨[("f", [.named "A"])]⟩ = .ok prepared ∧
      (∃ type after, (copying.infer importer).run prepared.start = (.ok type, after) ∧
        after.log.hard.any (fun assertion => assertion.parts.any (Formula.isIn "f")) = true) ∧
      ∃ reached, (upTo (prepared.theory.survey.expand prepared.program.main.body)).run
          prepared.start = (.ok (), reached) ∧
        reached.log.hard.any (fun assertion => assertion.parts.any (Formula.isIn "f")) = true := by
    decide +kernel
  obtain ⟨prepared, done, ⟨type, after, run, inside⟩, reached, runAll, insideAll⟩ := evaluated
  have ends := (Stmt.infer_keeps_method.2 (List.append_nil _).symm).2 runAll
  exact ⟨prepared, type, after, reached, done, run, inside, Stmt.infer_keeps_method.1 run, runAll,
    insideAll, ends⟩

variable {session after : Session}

/-- A session has grown in its log and below its current scope. -/
structure Session.Adds (rights : Rights) (before after : Session) : Prop where
  log : before.log ≤ after.log
  same : after = { before with
    log := after.log
    here := { before.here with types := after.here.types, children := after.here.children } }
  types : (∀ name, ¬ rights.binds name) → after.here.types = before.here.types

namespace Session.Adds

variable {rights : Rights} {before mid after : Session}

theorem of_log {log : Log} (grown : session.log ≤ log) :
    Adds rights session { session with log := log } := by
  refine ⟨grown, ?_, fun _ => rfl⟩
  cases isHere : session.here
  rfl

theorem trans (first : Adds rights before mid) (second : Adds rights mid after) :
    Adds rights before after where
  log := le_trans first.log second.log
  same := by rw [second.same, first.same]
  types unbound := (second.types unbound).trans (first.types unbound)

/-- What has happened within a scope has happened below the one around. -/
theorem leave {inner : Session} {child : Scope} (index : Nat)
    (inside : Adds rights.inside (session.enter child) inner) :
    Adds rights session (inner.leave index) := by
  have outer : inner.outer = session.here :: session.outer := by
    rw [inside.same]
    rfl
  have left : inner.leave index = { inner with
      here := { session.here with children := session.here.children.set index inner.here }
      outer := session.outer } := by
    rw [Session.leave, outer]
  rw [left]
  refine ⟨inside.log, ?_, fun _ => rfl⟩
  rw [inside.same]
  rfl

end Session.Adds

namespace Infer

/-- Steps that neither note nor delete only add to their session. -/
theorem holdsOfSteps_adds : HoldsOfSteps fun rights before after =>
    ¬ rights.notes → (∀ name, ¬ rights.deletes name) → Session.Adds rights before after where
  refl _ _ _ := .of_log le_rfl
  trans first second still spared := (first still spared).trans (second still spared)
  logs grown _ _ := .of_log grown
  notes may _ still _ := absurd may still
  binds _ _ may _ _ := ⟨le_rfl, rfl, fun unbound => absurd may (unbound _)⟩
  unbinds may _ _ spared := absurd may (spared _)
  opens rest still spared :=
    have added := rest still spared
    ⟨added.log, added.same, added.types⟩
  leaves {_ _ _ index _} _ _ inside still spared := (inside still spared).leave index
  narrows _ _ may _ still _ := absurd may still
  method {_ session _ _} inside still spared := by
    have added := inside still spared
    refine ⟨added.log, ?_, added.types⟩
    rw [added.same]
  imports may _ _ still _ := absurd may still

end Infer

/-- Steps that enter no child keep the children. -/
theorem Session.Within.children_prefix {rights : Rights} {before : Session}
    (within : before.Within rights after) (away : ∀ index, index ∉ rights.enters) :
    before.here.children <+: after.here.children := by
  rw [List.prefix_iff_getElem?]
  intro index inside
  obtain ⟨later, isLater, same, -⟩ := within.children (List.getElem?_eq_getElem inside)
  rw [isLater, same (away index)]

namespace Expr

variable {home : Option ModuleKey} {type : Meaning}

theorem adds_of_run_infer {e : Expr} (done : (e.infer home).run session = (.ok type, after)) :
    session.Adds .none after := by
  have composed : (e.infer home).Composed Infer.importer .none := inferInstance
  exact composed.relates Infer.holdsOfSteps_adds (List.forall_mem_nil _) done id
    fun _ => id

/-- The inference of an expression leaves behind only constraints and new scopes below. A name
stands for what it stood for, in the current scope and in each one around it. -/
theorem infer_binds_nothing {e : Expr} (done : (e.infer home).run session = (.ok type, after)) :
    (∃ log children, session.log ≤ log ∧ after = { session with
      log := log
      here := { session.here with children := session.here.children ++ children } }) ∧
    ∀ depth name, Chain.find? (after.chain.drop depth) name =
      Chain.find? (session.chain.drop depth) name := by
  have composed : (e.infer home).Composed Infer.importer .none := inferInstance
  have within := composed.within (List.forall_mem_nil _) done
  have added := adds_of_run_infer done
  obtain ⟨children, isAll⟩ := within.children_prefix fun _ member => nomatch member
  have same : after = { session with
      log := after.log
      here := { session.here with children := session.here.children ++ children } } := by
    rw [isAll]
    nth_rewrite 1 [added.same]
    rw [added.types fun _ => id]
  refine ⟨⟨after.log, children, added.log, same⟩, fun depth name => ?_⟩
  rw [same]
  cases depth <;> rfl

/-- A list of functions, one for each element of another list. -/
def nestedBinders : Expr :=
  .comprehension (some 1) .list
    (.lambda (some 1) ⟨[], [⟨some 1, "x", none⟩], none, [], [], none, []⟩
      (.name (some 1) "y" .load))
    [⟨.name (some 1) "y" .store, .list (some 1) [.literal (some 1) (.int 1)] .load, [], 0⟩]

/-- Inner variables are bound below, and unknown afterwards. -/
theorem nestedBinders_binds_nothing : ∃ prepared type after,
    Prepared.ofBody [] none {} = .ok prepared ∧
    (nestedBinders.infer none).run prepared.start = (.ok type, after) ∧
    after.here.bindsBelow "x" = true ∧ after.here.bindsBelow "y" = true ∧
    (∀ depth name, Chain.find? (after.chain.drop depth) name =
      Chain.find? (prepared.start.chain.drop depth) name) ∧
    after.chain.find? "x" = none ∧ after.chain.find? "y" = none := by
  have evaluated : ∃ prepared, Prepared.ofBody [] none {} = .ok prepared ∧
      ∃ type after, (nestedBinders.infer none).run prepared.start = (.ok type, after) ∧
        after.here.bindsBelow "x" = true ∧ after.here.bindsBelow "y" = true ∧
        after.chain.find? "x" = none ∧ after.chain.find? "y" = none := by
    decide +kernel
  obtain ⟨prepared, done, type, after, run, belowX, belowY, unknownX, unknownY⟩ := evaluated
  exact ⟨prepared, type, after, done, run, belowX, belowY, (infer_binds_nothing run).2, unknownX,
    unknownY⟩

end Expr

end TypeInference
