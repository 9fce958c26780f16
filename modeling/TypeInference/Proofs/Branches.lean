/- The names that the blocks of a branching statement see, and those bound after it. -/

import TypeInference.Proofs.InferenceFaults

namespace TypeInference

open List Table Infer

variable {session : Session} {index : Nat}

namespace Stmt

/-- The names that are deleted somewhere within some statements. -/
def deletedIn (body : List Stmt) : List String :=
  body.flatMap fun stmt => (Node.stmt stmt).walk.flatMap Node.deleted

theorem composedEach_block (importer : Importer) (body : List Stmt) :
    Infer.ComposedEach importer (inferEach importer body) (.free (· ∈ deletedIn body)) :=
  composedEach_inferEach body fun stmt member inner inside _ isDeleted =>
    mem_flatMap.mpr ⟨stmt, member, mem_flatMap.mpr ⟨inner, inside, isDeleted⟩⟩

/-- A statement with two branches. -/
structure Branching where
  line : Nat
  test : Infer (Option Infer.Narrowing)
  body : List Stmt
  orelse : List Stmt

/-- The target of a loop is bound before its branches. -/
def branching? : Stmt → Option Branching
  | .ifElse site test body orelse | .whileLoop site test body orelse =>
    some ⟨site.lineNumber, branchTest site.home test, body, orelse⟩
  | .forLoop site _ _ _ body orelse => some ⟨site.lineNumber, pure none, body, orelse⟩
  | _ => none

/-- Infers both branches and joins them. -/
def Branching.infer (importer : Importer) (branching : Branching) : Infer Term :=
  branch branching.line branching.body branching.test
    (inferEach importer branching.body) (inferEach importer branching.orelse)

end Stmt

namespace Session

variable {rights : Rights} {before after : Session} {name : String}

theorem Within.evolves (within : before.Within rights after) :
    Forall₂ (Scope.Evolves rights.binds rights.deletes) before.chain after.chain :=
  .cons within.here (within.outer.imp fun _ _ sheds => sheds.evolves)

/-- All scopes agree on a name that steps may neither bind nor delete. -/
theorem Within.chain_agrees (within : before.Within rights after) (unbound : ¬ rights.binds name)
    (spared : ¬ rights.deletes name) :
    Forall₂ (fun before after : Scope => after.isClass = before.isClass ∧
      after.isFunction = before.isFunction ∧
      after.types.get? name = before.types.get? name) before.chain after.chain :=
  within.evolves.imp fun _ _ evolves =>
    ⟨evolves.isClass, evolves.isFunction, evolves.get?_eq unbound spared⟩

/-- A name that can be looked up afterwards could be before, if it may not be bound. -/
theorem Within.isSome_find? (within : before.Within rights after) (unbound : ¬ rights.binds name) :
    (after.chain.find? name).isSome → (before.chain.find? name).isSome :=
  Chain.isSome_findFrom false <| .flip <| within.evolves.imp fun _ _ evolves =>
    ⟨evolves.isClass.symm, evolves.isFunction.symm, evolves.contains_before unbound⟩

/-- The sessions bind a name in the same places. -/
structure Agree (name : String) (before after : Session) : Prop where
  here : after.here.types.contains name = before.here.types.contains name
  binds : after.chain.binds name = before.chain.binds name

theorem Agree.trans {mid : Session} (first : Agree name before mid)
    (second : Agree name mid after) : Agree name before after :=
  ⟨second.here.trans first.here, second.binds.trans first.binds⟩

theorem Within.agree (within : before.Within rights after) (unbound : ¬ rights.binds name)
    (spared : ¬ rights.deletes name) : Agree name before after where
  here := by
    rw [← isSome_get?, within.here.get?_eq unbound spared, isSome_get?]
  binds := by
    apply Chain.binds_eq
    apply (within.chain_agrees unbound spared).imp
    intro _ _ same
    refine ⟨same.1, ?_⟩
    rw [← isSome_get?, same.2.2, isSome_get?]

/-- Whether a name can be looked up within a scope below the current one. -/
def sees (session : Session) (index : Nat) (name : String) : Prop :=
  ((session.enter ((session.here.children[index]?).getD {})).chain.find? name).isSome = true

instance (session : Session) (index : Nat) (name : String) : Decidable (session.sees index name) :=
  inferInstanceAs (Decidable (_ = true))

theorem sees_iff {child : Scope} (known : session.here.children[index]? = some child)
    (noFunction : child.isFunction = false) : session.sees index name ↔
      child.types.contains name ∨ (session.chain.find? name).isSome := by
  rw [sees, known, ← isSome_get?]
  change (Chain.findFrom false (child :: session.chain) name).isSome = true ↔ _
  rw [Chain.findFrom, noFunction]
  cases child.types.get? name <;> simp [Chain.find?]

end Session

/-- The session in which a prepared program is inferred. -/
def Prepared.start (prepared : Prepared) : Session :=
  .ofProgram prepared.theory prepared.axioms prepared.program

namespace Infer

variable {after : Session} {child : Scope} {deletes : String → Prop}

variable {importer : Importer} [KeepsScopes importer] {rights : Rights} {α : Type}

/-- The scope below that was worked in is what the work has made of it. -/
theorem child_of_run_inChild {act : Infer α} (composed : act.Composed importer rights.inside)
    {value : α} (known : session.here.children[index]? = some child)
    (done : (inChild index act).run session = (.ok value, after)) :
    ∃ inner, act.run (session.enter child) = (.ok value, inner) ∧
      after.here.children[index]? = some inner.here := by
  obtain ⟨inner, run, rfl⟩ := run_inChild_eq_ok known done
  refine ⟨inner, run, ?_⟩
  obtain ⟨parent, others, sheds, -, areOuter⟩ := forall₂_cons_left_iff.mp
    (composed.within (forall_mem_nil _) run).outer
  have same : parent.children = session.here.children := by rw [sheds.same]
  have inside := (List.getElem?_eq_some_iff.mp known).1
  rw [Session.leave, areOuter]
  simp [same, inside]

/-- A block in a scope below changes no other scope but for deletions. -/
theorem run_inChild_block {line : Nat} {steps : List (Infer Meaning)}
    (composed : ComposedEach importer steps (.free deletes)) {type : Term}
    (known : session.here.children[index]? = some child)
    (done : (inChild index (block line steps)).run session = (.ok type, after)) :
    session.Within ((Rights.below deletes).opening index) after ∧
      ∃ finish, (block line steps).run (session.enter child) = (.ok type, finish) ∧
        after.here.children[index]? = some finish.here := by
  have inside : ComposedEach importer steps ((Rights.below deletes).opening index).inside :=
    composed
  have blockComposed : (block line steps).Composed importer
    ((Rights.below deletes).opening index).inside := inferInstance
  refine ⟨Composed.within (.inChild mem_cons_self blockComposed) ?_ done,
    child_of_run_inChild blockComposed known done⟩
  intro other member
  obtain rfl := mem_singleton.mp member
  exact (List.getElem?_eq_some_iff.mp known).1

omit [KeepsScopes importer] in
set_option synthInstance.maxSize 512 in
theorem composed_joinScopes (line : Nat) (half : HalfBranch) (secondType : Term)
    [∀ name, rights.Binds name] : (joinScopes line half secondType).Composed importer rights := by
  unfold joinScopes
  dsimp only
  infer_instance

section FirstBlock

variable {line : Nat} {body : List Stmt} {test : Infer (Option Narrowing)}
  [tests : ∀ rights, test.Composed importer rights]

include tests

instance (first : Nat) [rights.Notes] [rights.Enters first] :
    (narrowFirst first test).Composed importer rights := by
  unfold narrowFirst
  refine .andThen inferInstance fun narrowing => ?_
  dsimp only
  split <;> infer_instance

variable (importer) in
/-- A test changes no names. In the first scope it narrows what it tests. -/
theorem scope_of_run_narrowFirst {first : Nat} {narrowing : Option Narrowing}
    (known : session.here.children[first]? = some child)
    (done : (narrowFirst first test).run session = (.ok narrowing, after)) :
    (∃ mid, test.run session = (.ok narrowing, mid)) ∧
      ∃ later, after.here.children[first]? = some later ∧ later.types = child.types ∧
        ∀ {told}, narrowing = some told →
          later.narrowed = child.narrowed.insert told.key told.type := by
  obtain ⟨tested, mid, isTested, rest⟩ := run_bind_ok done
  have still : mid.here.children[first]? = some child := by
    have composed : test.Composed importer Rights.none := inferInstance
    have within := composed.within (forall_mem_nil _) isTested
    obtain ⟨later, isLater, same, -⟩ := within.children known
    rw [isLater, same (fun member => nomatch member)]
  cases tested with
  | none =>
    obtain ⟨rfl, rfl⟩ := run_pure_ok rest
    exact ⟨⟨mid, isTested⟩, child, still, rfl, fun isTold => nomatch isTold⟩
  | some tested =>
    obtain ⟨⟨⟩, last, narrowed, rest⟩ := run_bind_ok rest
    obtain ⟨rfl, rfl⟩ := run_pure_ok rest
    have inside := (List.getElem?_eq_some_iff.mp still).1
    obtain ⟨inner, run, rfl⟩ := run_inChild_eq_ok still narrowed
    obtain rfl := (Prod.mk.inj run).2
    refine ⟨⟨mid, isTested⟩, _, getElem?_set_self inside, rfl, fun isTold => ?_⟩
    rw [← Option.some.inj isTold]
    rfl

/-- What the first block leaves for the second. -/
theorem run_halfBranch_eq_ok {bodySteps : List (Infer Meaning)}
    (steps : ComposedEach importer bodySteps (.free deletes)) {half : HalfBranch}
    (done : (halfBranch line body test bodySteps).run session = (.ok half, after)) :
    session.Within (.below deletes) after ∧
      half.first = session.here.children.length ∧ half.second = session.here.children.length + 1 ∧
      (∃ start finish : Session,
        (∀ name, start.here.types.contains name ↔ name ∈ session.theory.announced body) ∧
        (block line bodySteps).run start = (.ok half.firstType, finish) ∧
        after.here.children[half.first]? = some finish.here) ∧
      ∃ scope, after.here.children[half.second]? = some scope ∧ scope.isClass = false ∧
        scope.isFunction = false ∧
        ∀ name, scope.types.contains name ↔ name ∈ session.theory.announced body := by
  have inside : ComposedEach importer bodySteps (Rights.below deletes).inside := steps
  have composed : (halfBranch line body test bodySteps).Composed importer (.below deletes) := by
    simp only [halfBranch, startBranch, bind_assoc, pure_bind]
    infer_instance
  refine ⟨composed.within (forall_mem_nil _) done, ?_⟩
  obtain ⟨_, _, started, done⟩ := run_bind_ok done
  obtain ⟨firstType, last, isType, done⟩ := run_bind_ok done
  obtain ⟨rfl, rfl⟩ := run_pure_ok done
  obtain ⟨first, opened, isFirst, rest⟩ := run_bind_ok started
  obtain ⟨rfl, firstScope, firstLog, rfl, opensFirst⟩ := run_openScope_eq_ok isFirst
  obtain ⟨second, both, isSecond, rest⟩ := run_bind_ok rest
  obtain ⟨rfl, secondScope, secondLog, rfl, opensSecond⟩ := run_openScope_eq_ok isSecond
  obtain ⟨narrowing, tested, isTested, rest⟩ := run_bind_ok rest
  obtain ⟨rfl, rfl⟩ := run_pure_ok rest
  have count : (session.here.addChild firstScope).children.length =
      session.here.children.length + 1 := length_append
  have firstKnown : ((session.here.addChild firstScope).addChild secondScope).children[
      session.here.children.length]? = some firstScope := by
    simp [Scope.addChild]
  have secondKnown : ((session.here.addChild firstScope).addChild secondScope).children[
      (session.here.addChild firstScope).children.length]? = some secondScope := by
    simp [Scope.addChild]
  obtain ⟨-, start, isStart, types, -⟩ := scope_of_run_narrowFirst importer firstKnown isTested
  obtain ⟨blockWithin, finish, run, isFinish⟩ := run_inChild_block steps isStart isType
  refine ⟨rfl, count, ⟨tested.enter start, finish, fun name => ?_, run, isFinish⟩, ?_⟩
  · rw [show (tested.enter start).here.types = firstScope.types from types]
    exact opensFirst.contains_iff
  · let entered : Rights := (Rights.below deletes).opening session.here.children.length
    have narrowed : (narrowFirst session.here.children.length test).Composed importer entered :=
      inferInstance
    have within :=
      (narrowed.within (by simp [entered, Rights.opening, Rights.below, Scope.addChild])
      isTested).trans blockWithin
    obtain ⟨scope, isScope, same, -⟩ := within.children secondKnown
    obtain rfl := same (by simp [entered, Rights.opening, Rights.below, count])
    exact ⟨scope, isScope, opensSecond.isClass, opensSecond.isFunction,
      fun name => opensSecond.contains_iff⟩

end FirstBlock

section Joining

variable {line : Nat} {second : Table String Meaning}

omit [KeepsScopes importer] in
set_option synthInstance.maxSize 512 in
theorem composed_joinEntry (entry : String × Meaning) [rights.Binds entry.1] :
    (joinEntry line second entry).Composed importer rights := by
  unfold joinEntry
  split <;> infer_instance

/-- A join binds its name if the second branch binds it and nothing around does. -/
theorem joinEntry_binds {entry : String × Meaning}
    (done : (joinEntry line second entry).run session = (.ok ⟨⟩, after)) :
    if second.contains entry.1 ∧ session.chain.binds entry.1 = false then
      after.here.types.contains entry.1 else after = session := by
  unfold joinEntry at done
  split at done
  · next absent =>
    obtain ⟨-, rfl⟩ := run_pure_ok done
    rw [← isSome_get?, absent]
    simp
  · next secondType present =>
    rw [run_get_bind] at done
    rw [← isSome_get?, present]
    split at done
    · next free =>
      rw [if_pos ⟨rfl, by simpa using free⟩]
      iterate 8 obtain ⟨_, _, -, done⟩ := run_bind_ok done
      obtain rfl := (Prod.mk.inj done).2
      exact contains_insert.mpr (.inl rfl)
    · next taken =>
      obtain ⟨-, rfl⟩ := run_pure_ok done
      rw [if_neg fun both => taken (by simp [both.2])]

theorem joinEntries_binds {entries : List (String × Meaning)}
    (done : (entries.forM (joinEntry line second)).run session = (.ok ⟨⟩, after)) (name : String) :
    after.here.types.contains name ↔ session.here.types.contains name ∨
      session.chain.binds name = false ∧ name ∈ entries.map (·.1) ∧
        second.contains name := by
  induction entries generalizing session with
  | nil =>
    obtain ⟨-, rfl⟩ := run_pure_ok done
    simp
  | cons entry entries ih =>
    obtain ⟨⟨⟩, mid, first, rest⟩ := run_bind_ok done
    rw [ih rest, map_cons, mem_cons]
    by_cases same : name = entry.1
    · subst same
      have step := joinEntry_binds first
      split at step
      · next binds => simp [step, binds.1, binds.2]
      · next keeps =>
        rw [step]
        tauto
    · let named : Rights := ⟨(· = entry.1), fun _ => False, False, []⟩
      have : named.Binds entry.1 := ⟨rfl⟩
      have composed : (joinEntry line second entry).Composed importer named :=
        composed_joinEntry entry
      have agree := (composed.within (forall_mem_nil _) first).agree same id
      rw [agree.here, agree.binds]
      simp only [same, false_or]

/-- What is bound after the names of two scopes have been joined. -/
theorem joinScopes_binds {half : HalfBranch} {secondType type : Term}
    {firstScope secondScope : Scope}
    (isFirst : session.here.children[half.first]? = some firstScope)
    (isSecond : session.here.children[half.second]? = some secondScope)
    (done : (joinScopes line half secondType).run session = (.ok type, after)) (name : String) :
    after.here.types.contains name ↔ session.here.types.contains name ∨
      session.chain.binds name = false ∧ firstScope.types.contains name ∧
        secondScope.types.contains name := by
  have quiet {α : Type} {act : Infer α} {before later : Session} {value : α}
      (composed : act.Composed importer Rights.none)
      (run : act.run before = (.ok value, later)) :
      before.Agree name later :=
    (composed.within (forall_mem_nil _) run).agree id id
  change (get >>= _ : Infer Term).run session = _ at done
  rw [run_get_bind, isFirst] at done
  change (get >>= _ : Infer Term).run session = _ at done
  rw [run_get_bind, isSecond] at done
  obtain ⟨⟨⟩, one, keptFirst, done⟩ := run_bind_ok done
  obtain ⟨⟨⟩, two, keptSecond, done⟩ := run_bind_ok done
  obtain ⟨⟨⟩, three, joined, done⟩ := run_bind_ok done
  have before := (quiet inferInstance keptFirst).trans (quiet inferInstance keptSecond)
  have behind : three.Agree name after := quiet inferInstance done
  have keys : firstScope.types.contains name = true ↔ name ∈ firstScope.types.keys := contains_iff
  rw [behind.here, joinEntries_binds joined, before.here, before.binds, keys]
  rfl

end Joining

/-- A block that starts in a scope with some names can end with a scope. -/
def BlockEnds (line : Nat) (steps : List (Infer Meaning)) (names : List String) (scope : Scope) :
    Prop :=
  ∃ start type finish, (∀ name, start.here.types.contains name = true ↔ name ∈ names) ∧
    (block line steps).run start = (.ok type, finish) ∧ finish.here = scope

theorem BlockEnds.kept {line : Nat} {body : List Stmt} {names : List String} {scope : Scope}
    (ends : BlockEnds line (Stmt.inferEach importer body) names scope) {name : String}
    (known : name ∈ names) (spared : name ∉ Stmt.deletedIn body) :
    scope.types.contains name := by
  obtain ⟨start, type, finish, starts, run, rfl⟩ := ends
  have := Stmt.composedEach_block importer body
  have composed : (block line (Stmt.inferEach importer body)).Composed importer
    (.free (· ∈ Stmt.deletedIn body)) := inferInstance
  exact (composed.within (forall_mem_nil _) run).here.kept spared
    ((starts name).mpr known)

end Infer

namespace Stmt

variable {stmt : Stmt}

theorem composed_branching {branching : Branching} (isBranching : stmt.branching? = some branching)
    (rights : Rights) : branching.test.Composed importer rights := by
  cases stmt <;> cases isBranching <;> infer_instance

/-- How a statement with two branches changes what the scope around binds. -/
structure Branching.Joins (branching : Branching) (session after : Session)
    (bodyScope elseScope : Scope) : Prop where
  isBody : after.here.children[session.here.children.length]? = some bodyScope
  isElse : after.here.children[session.here.children.length + 1]? = some elseScope
  /-- Both blocks start with what the first one defines. -/
  bodyEnds : Infer.BlockEnds branching.line (inferEach importer branching.body)
    (session.theory.announced branching.body) bodyScope
  elseEnds : Infer.BlockEnds branching.line (inferEach importer branching.orelse)
    (session.theory.announced branching.body) elseScope
  binds_iff : ∀ name, name ∉ deletedIn branching.body → name ∉ deletedIn branching.orelse →
    (after.here.types.contains name = true ↔ session.here.types.contains name = true ∨
      session.chain.binds name = false ∧ bodyScope.types.contains name = true ∧
        elseScope.types.contains name = true)
  /-- What the first block defines counts as bound by both. -/
  announced : ∀ name, name ∉ deletedIn branching.body → name ∉ deletedIn branching.orelse →
    name ∈ session.theory.announced branching.body →
      bodyScope.types.contains name = true ∧ elseScope.types.contains name = true
  /-- No other name is new, whatever is deleted. -/
  not_new : ∀ name, after.here.types.contains name = true →
    session.here.types.contains name = true ∨
      bodyScope.types.contains name = true ∧ elseScope.types.contains name = true

/-- After a statement with two branches the names are bound that were bound before, and those that
nothing around binds and both blocks have bound at their ends. -/
theorem branching_binds_joined {branching : Branching}
    (isBranching : stmt.branching? = some branching) {after : Session} {type : Term}
    (done : (branching.infer Infer.importer).run session = (.ok type, after)) :
    ∃ bodyScope elseScope, branching.Joins session after bodyScope elseScope := by
  have := composed_branching isBranching
  have bodySteps := composedEach_block importer branching.body
  have elseSteps := composedEach_block importer branching.orelse
  obtain ⟨half, mid, isHalf, done⟩ := run_bind_ok done
  obtain ⟨secondType, joint, isSecond, joined⟩ := run_bind_ok done
  obtain ⟨begun, isFirst, isLast, ⟨start, finish, starts, run, isBody⟩, scope, isScope, -, -,
    announced⟩ := run_halfBranch_eq_ok bodySteps isHalf
  obtain ⟨went, inner, elseRun, isElse⟩ := run_inChild_block elseSteps isScope isSecond
  have stillBody : joint.here.children[half.first]? = some finish.here := by
    obtain ⟨later, isLater, same, -⟩ := went.children isBody
    rw [isLater, same]
    simp [Rights.opening, Rights.below, isFirst, isLast]
  have binds := joinScopes_binds stillBody isElse joined
  have joins : (joinScopes branching.line half secondType).Composed importer
    (.free fun _ => False) := composed_joinScopes _ _ _
  have joinedWithin := joins.within (forall_mem_nil _) joined
  have unchanged {index : Nat} {child : Scope} (known : joint.here.children[index]? = some child) :
      after.here.children[index]? = some child := by
    obtain ⟨later, isLater, same, -⟩ := joinedWithin.children known
    rw [isLater, same fun member => nomatch member]
  have bodyEnds : Infer.BlockEnds branching.line (inferEach importer branching.body)
      (session.theory.announced branching.body) finish.here :=
    ⟨start, half.firstType, finish, starts, run, rfl⟩
  have elseEnds : Infer.BlockEnds branching.line (inferEach importer branching.orelse)
      (session.theory.announced branching.body) inner.here :=
    ⟨mid.enter scope, secondType, inner, announced, elseRun, rfl⟩
  rw [isFirst] at stillBody
  rw [isLast] at isElse
  refine ⟨finish.here, inner.here, unchanged stillBody, unchanged isElse, bodyEnds, elseEnds,
    fun name keptBody keptElse => ?_, fun name keptBody keptElse known =>
      ⟨bodyEnds.kept known keptBody, elseEnds.kept known keptElse⟩, fun name known => ?_⟩
  · have agree := (begun.agree id keptBody).trans (went.agree id keptElse)
    rw [binds name, agree.here, agree.binds]
  · rcases (binds name).mp known with earlier | ⟨-, both⟩
    · exact .inl (begun.here.contains_before id (went.here.contains_before id earlier))
    · exact .inr both

/-- A choice between two blocks. -/
def choice (body orelse : List Stmt) : Stmt := .ifElse {} (.literal (some 1) (.int 1)) body orelse

def choiceBranching (body orelse : List Stmt) : Branching :=
  ⟨0, branchTest none (.literal (some 1) (.int 1)), body, orelse⟩

theorem branching?_choice (body orelse : List Stmt) :
    (choice body orelse).branching? = some (choiceBranching body orelse) := rfl

/-- An assignment of a number. -/
def numbered (name : String) : Stmt :=
  .assign {} [.name (some 1) name .store] (.literal (some 1) (.int 1))

/-- A function without parameters. -/
def constantFunction (name : String) : Stmt :=
  .functionDef ⟨{}, name, ⟨[], [], none, [], [], none, []⟩,
    [.returnValue {} (some (.literal (some 1) (.int 1)))], [], none, false⟩

/-- A name that is assigned in both blocks is bound after them. -/
theorem choice_binds_assigned : ∃ prepared type after,
    Prepared.ofBody [choice [numbered "x"] [numbered "x"]] none {} = .ok prepared ∧
    ((choiceBranching [numbered "x"] [numbered "x"]).infer Infer.importer).run prepared.start =
      (.ok type, after) ∧
    prepared.start.here.types.contains "x" = false ∧ after.here.types.contains "x" = true ∧
    ∃ bodyScope elseScope, (choiceBranching [numbered "x"] [numbered "x"]).Joins prepared.start
      after bodyScope elseScope := by
  have evaluated : ∃ prepared, Prepared.ofBody [choice [numbered "x"] [numbered "x"]] none {} =
      .ok prepared ∧ ∃ type after, ((choiceBranching [numbered "x"] [numbered "x"]).infer
        importer).run prepared.start = (.ok type, after) ∧
      prepared.start.here.types.contains "x" = false ∧ after.here.types.contains "x" = true := by
    decide +kernel
  obtain ⟨prepared, done, type, after, run, new, bound⟩ := evaluated
  exact ⟨prepared, type, after, done, run, new, bound,
    branching_binds_joined (branching?_choice _ _) run⟩

/-- A function that only the first block defines is bound after both. -/
theorem choice_binds_defined : ∃ prepared type after,
    Prepared.ofBody [choice [constantFunction "f"] [.pass {}]] none {} = .ok prepared ∧
    ((choiceBranching [constantFunction "f"] [.pass {}]).infer Infer.importer).run prepared.start =
      (.ok type, after) ∧
    prepared.start.here.types.contains "f" = false ∧ after.here.types.contains "f" = true := by
  simp only [exists_and_left]
  decide +kernel

/-- All that is inferred before the second block. -/
def Branching.inferBody (importer : Importer) (branching : Branching) : Infer Infer.HalfBranch :=
  halfBranch branching.line branching.body branching.test (inferEach importer branching.body)

section Sight

variable {branching : Branching} [tests : ∀ rights, branching.test.Composed importer rights]
  {session after : Session} {half : Infer.HalfBranch} {name : String}

include tests

/-- The second block sees what the first one defines, and what is bound around. -/
theorem else_sees_iff
    (done : (branching.inferBody importer).run session = (.ok half, after)) :
    after.sees half.second name ↔ name ∈ session.theory.announced branching.body ∨
      (after.chain.find? name).isSome := by
  obtain ⟨-, -, -, -, scope, isScope, -, noFunction, announced⟩ :=
    run_halfBranch_eq_ok (composedEach_block importer branching.body) done
  rw [Session.sees_iff isScope noFunction, announced]

theorem within_inferBody
    (done : (branching.inferBody importer).run session = (.ok half, after)) :
    session.Within (.below (· ∈ deletedIn branching.body)) after :=
  (run_halfBranch_eq_ok (composedEach_block importer branching.body) done).1

end Sight

/-- Two first blocks let the second block see a name alike exactly if the name is bound around them,
or if both define it or none does. Names that are deleted within them can get lost around the
blocks, but none can be gained there. -/
theorem else_sees_same_iff {branching : Branching} {other : List Stmt}
    (isBranching : stmt.branching? = some branching) {after afterOther : Session}
    {half halfOther : Infer.HalfBranch}
    (done : (branching.inferBody Infer.importer).run session = (.ok half, after))
    (doneOther : ({ branching with body := other }.inferBody Infer.importer).run session =
      (.ok halfOther, afterOther)) (name : String) :
    (name ∉ deletedIn branching.body → name ∉ deletedIn other →
      ((after.sees half.second name ↔ afterOther.sees halfOther.second name) ↔
        (session.chain.find? name).isSome = true ∨
          (name ∈ session.theory.announced branching.body ↔
            name ∈ session.theory.announced other))) ∧
    (after.sees half.second name ↔ name ∈ session.theory.announced branching.body ∨
      (after.chain.find? name).isSome = true) ∧
    ((after.chain.find? name).isSome = true → (session.chain.find? name).isSome = true) := by
  have := composed_branching isBranching
  have within := within_inferBody done
  refine ⟨fun spared sparedOther => ?_, else_sees_iff done, within.isSome_find? id⟩
  have : ∀ rights, { branching with body := other }.test.Composed importer rights := this
  have withinOther := within_inferBody doneOther
  rw [else_sees_iff done, else_sees_iff doneOther, Chain.find?, Chain.find?, Chain.find?,
    Chain.findFrom_eq false (within.chain_agrees id spared),
    Chain.findFrom_eq false (withinOther.chain_agrees id sparedOther)]
  tauto

/-- Blocks that define the same let the second block see the same. -/
theorem choice_else_sees_same : ∃ prepared half after halfOther afterOther,
    Prepared.ofBody [choice [constantFunction "f", numbered "x"] []] none {} = .ok prepared ∧
    ((choiceBranching [constantFunction "f", numbered "x"] []).inferBody Infer.importer).run
      prepared.start = (.ok half, after) ∧
    ((choiceBranching [constantFunction "f"] []).inferBody Infer.importer).run prepared.start =
      (.ok halfOther, afterOther) ∧
    ∀ name, after.sees half.second name ↔ afterOther.sees halfOther.second name := by
  have evaluated : ∃ prepared, Prepared.ofBody [choice [constantFunction "f", numbered "x"] []] none
      {} = .ok prepared ∧
      (∃ half after, ((choiceBranching [constantFunction "f", numbered "x"] []).inferBody
        importer).run prepared.start = (.ok half, after) ∧ True) ∧
      ∃ half after, ((choiceBranching [constantFunction "f"] []).inferBody
        importer).run prepared.start = (.ok half, after) ∧ True := by
    decide +kernel
  obtain ⟨prepared, done, ⟨half, after, run, -⟩, halfOther, afterOther, runOther, -⟩ := evaluated
  refine ⟨prepared, half, after, halfOther, afterOther, done, run, runOther, fun name => ?_⟩
  have none : deletedIn [constantFunction "f", numbered "x"] = [] := by decide +kernel
  have noneOther : deletedIn [constantFunction "f"] = [] := by decide +kernel
  have same := else_sees_same_iff (branching?_choice [constantFunction "f", numbered "x"] []) run
    runOther name
  exact (same.1 (fun member => nomatch none ▸ member)
    (fun member => nomatch noneOther ▸ member)).mpr (.inr Iff.rfl)

/-- A function that one of two blocks defines is seen only after that one. -/
theorem choice_else_sees_defined : ∃ prepared half after halfOther afterOther,
    Prepared.ofBody [choice [constantFunction "f"] []] none {} = .ok prepared ∧
    ((choiceBranching [constantFunction "f"] []).inferBody Infer.importer).run prepared.start =
      (.ok half, after) ∧
    ((choiceBranching [.pass {}] []).inferBody Infer.importer).run prepared.start =
      (.ok halfOther, afterOther) ∧
    after.sees half.second "f" ∧ ¬ afterOther.sees halfOther.second "f" := by
  simp only [exists_and_left]
  decide +kernel

end Stmt

end TypeInference
