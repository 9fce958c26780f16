/- What a name that a test has narrowed is read as. -/

import TypeInference.Proofs.ExpressionEffects

namespace TypeInference

open List Infer Infer Expr Chain

variable {session : Session} {home : Option ModuleKey}

namespace Infer

/-- A run comes to a step in a later session, with its scopes entered. -/
inductive Reaches (importer : Importer) {β : Type} (step : Infer β) (later : Session) :
    {α : Type} → Infer α → Session → Prop where
  | here : Reaches importer step later step later
  | first {α γ : Type} {act : Infer α} {next : α → Infer γ} {session : Session}
      (inside : Reaches importer step later act session) :
      Reaches importer step later (act >>= next) session
  | next {α γ : Type} {act : Infer α} {next : α → Infer γ} {session mid : Session} {value : α}
      {rights : Rights} (passed : act.Composed importer rights)
      (exist : ∀ index ∈ rights.enters, index < session.here.children.length)
      (done : act.run session = (.ok value, mid))
      (further : Reaches importer step later (next value) mid) :
      Reaches importer step later (act >>= next) session
  | inChild {α : Type} {act : Infer α} {session : Session} {index : Nat} {child : Scope}
      (known : session.here.children[index]? = some child)
      (inside : Reaches importer step later act (session.enter child)) :
      Reaches importer step later (inChild index act) session
  | withMethod {α : Type} {act : Infer α} {session : Session} {method : Term}
      (inside : Reaches importer step later act { session with method := method }) :
      Reaches importer step later (withMethod (some method) act) session

variable {importer : Importer} [KeepsScopes importer] {α β : Type} {step : Infer β} {act : Infer α}
  {later after : Session}

omit [KeepsScopes importer] in
/-- A step of a step of a run is a step of the run. -/
theorem Reaches.trans {γ : Type} {part : Infer γ} {mid : Session}
    (inside : Reaches importer step later part mid)
    (reaches : Reaches importer part mid act session) :
    Reaches importer step later act session := by
  induction reaches with
  | here => exact inside
  | first _ ih => exact .first ih
  | next passed exist done _ ih => exact .next passed exist done ih
  | inChild known _ ih => exact .inChild known ih
  | withMethod _ ih => exact .withMethod ih

/-- What has been narrowed stays narrowed wherever a run gets. -/
theorem Reaches.narrowings_suffix (reaches : Reaches importer step later act session) :
    session.narrowings <:+ later.narrowings := by
  induction reaches with
  | here => exact List.suffix_rfl
  | first _ ih => exact ih
  | next passed exist done _ ih =>
    rw [← passed.narrowings_eq exist done]
    exact ih
  | @inChild _ _ session _ child _ _ ih =>
    have inside : child.narrowed :: session.narrowings <:+ _ := ih
    exact (List.suffix_cons _ _).trans inside
  | withMethod _ ih => exact ih

/-- Whatever a run in a scope comes to, the scope is around it. -/
theorem Reaches.exists_chain_eq {scope : Scope}
    (reaches : Reaches importer step later act (session.enter scope)) :
    ∃ inner branch outer, later.chain = inner ++ branch :: outer ∧
      branch.narrowed = scope.narrowed ∧ outer.map (·.narrowed) = session.narrowings := by
  obtain ⟨before, isAll⟩ := reaches.narrowings_suffix
  obtain ⟨inner, rest, isChain, -, isRest⟩ := map_eq_append_iff.mp isAll.symm
  obtain ⟨branch, outer, rfl, narrowed, around⟩ := map_eq_cons_iff.mp isRest
  exact ⟨inner, branch, outer, isChain, narrowed, around⟩

omit [KeepsScopes importer] in
/-- A block comes to each of its statements in turn. -/
theorem reaches_statement {line : Nat} {before rest : List (Infer Meaning)} {step : Infer Meaning}
    {rights : Rights} (each : ComposedEach importer before rights)
    (away : ∀ index, index ∉ rights.enters) {start opened reached : Session} {type : Term}
    {types : List Term} (isType : (fresh "body").run start = (.ok type, opened))
    (done : (before.mapM (blockStep line type)).run opened = (.ok types, reached)) :
    Reaches importer step reached (block line (before ++ step :: rest)) start := by
  have composed : (before.mapM (blockStep line type)).Composed importer rights := by
    unfold blockStep
    infer_instance
  have nonempty : (before ++ step :: rest).isEmpty = false := by simp
  have begins : (fresh "body").Composed importer rights := inferInstance
  simp only [block, nonempty, mapM_append, mapM_cons, bind_assoc]
  refine .next begins (fun index member => absurd member (away index)) isType ?_
  refine .next composed (fun index member => absurd member (away index)) done ?_
  simp only [blockStep, bind_assoc]
  exact .first .here

omit [KeepsScopes importer] in
/-- A function without a name comes to its result. -/
theorem reaches_lambda {line : Option Nat} {params : Params} {body : Expr}
    {opened reached : Session} {index : Nat} {child : Scope} {types : List Meaning}
    (plain : session.chain.narrowing? (.lambda line params body) = none)
    (isOpened : (openScope []).run session = (.ok index, opened))
    (known : opened.here.children[index]? = some child)
    (bound : (bindParams params.args).run (opened.enter child) = (.ok types, reached)) :
    Reaches importer (body.infer home) reached ((lambda line params body).infer home)
      session := by
  obtain ⟨positional, args, rest, keywordOnly, keywordDefaults, keywords, defaults⟩ := params
  have reads : (get : Infer Session).Composed importer .silent := .get
  have opens : (openScope []).Composed importer .silent := by
    rw [← bind_pure (openScope [])]
    infer_instance
  have binds : (bindParams args).Composed importer .silent :=
    (@obeys_bindParams _ (.of .silent) _ fun _ _ => trivial).composed
  rw [infer.eq_def home (.lambda _ _ _), narrowedOr]
  refine .next reads (forall_mem_nil _) rfl ?_
  rw [plain]
  refine .next opens (forall_mem_nil _) isOpened (.inChild known ?_)
  exact .next binds (forall_mem_nil _) bound (.first .here)

/-- A test of a name narrows it to the type of the hint. -/
theorem run_branchTest_eq_ok {line nameLine argLine : Option Nat} {usage : Usage} {x : String}
    {hint : Expr} {keywords : List Keyword} {narrowing : Option Narrowing}
    (done : (branchTest home (.call line (.name nameLine "isinstance" usage)
      [.name argLine x .load, hint] keywords)).run session = (.ok narrowing, after)) :
    ∃ type asked, asked.theory = session.theory ∧ asked.vars = session.vars ∧
      (readHint (.ofHome home) (Hint.ofExpr hint)).run asked = (.ok type, after) ∧
      narrowing = some ⟨(name argLine x .load).key, type, some x⟩ := by
  obtain ⟨_, asked, isAsked, rest⟩ := run_bind_ok done
  obtain ⟨type, told, isType, rest⟩ := run_bind_ok rest
  obtain ⟨rfl, rfl⟩ := run_pure_ok rest
  have same := (adds_of_run_infer isAsked).same
  exact ⟨type, asked, by rw [same], by rw [same], isType, rfl⟩

section Starting

variable {body : List Stmt} {test : Infer (Option Narrowing)}
  [tests : ∀ rights, test.Composed importer rights]

include tests

omit [KeepsScopes importer] in
theorem composed_startBranch :
    (startBranch body test).Composed importer (.below fun _ => False) := by
  unfold startBranch
  infer_instance

variable (importer) in
/-- The first block starts in a narrowed scope. -/
theorem run_startBranch_eq_ok {start : BranchStart}
    (done : (startBranch body test).run session = (.ok start, after)) :
    ∃ scope tested told, after.here.children[start.first]? = some scope ∧
      tested.theory = session.theory ∧ tested.vars = session.vars ∧
      test.run tested = (.ok start.narrowing, told) ∧
      ∀ {narrowing}, start.narrowing = some narrowing →
        scope.narrowed.get? narrowing.key = some narrowing.type := by
  obtain ⟨first, opened, isFirst, rest⟩ := run_bind_ok done
  obtain ⟨rfl, firstScope, firstLog, rfl, -⟩ := run_openScope_eq_ok isFirst
  obtain ⟨second, both, isSecond, rest⟩ := run_bind_ok rest
  obtain ⟨rfl, secondScope, secondLog, rfl, -⟩ := run_openScope_eq_ok isSecond
  obtain ⟨narrowing, last, isTested, rest⟩ := run_bind_ok rest
  obtain ⟨rfl, rfl⟩ := run_pure_ok rest
  have known : ((session.here.addChild firstScope).addChild secondScope).children[
      session.here.children.length]? = some firstScope := by
    simp [Scope.addChild]
  obtain ⟨⟨told, isTold⟩, scope, isScope, -, narrowed⟩ :=
    scope_of_run_narrowFirst importer known isTested
  refine ⟨scope, _, told, isScope, ?_, ?_, isTold, fun isNarrowing => ?_⟩
  · rfl
  · rfl
  · rw [narrowed isNarrowing]
    exact Table.get?_insert_self _ _ _

end Starting

end Infer

/-- The narrowed type, unless the scopes since then bind the name. -/
def Chain.newestOr (newer : Chain) (name : String) (narrowed : Meaning) : Meaning :=
  (newer.find? name).getD narrowed

namespace Expr

/-- An expression that has been narrowed is not looked at. -/
theorem run_infer_of_narrowing? {e : Expr} {type : Meaning}
    (narrowed : session.chain.narrowing? e = some type) :
    (e.infer home).run session = (.ok type, session) := by
  unfold infer narrowedOr
  rw [run_get_bind, narrowed]
  rfl

end Expr

/-- Every read of a name within the first block of a test gives the type of the innermost test
around it. So it gives the type of a newer binding exactly if that is the same type. -/
theorem Stmt.reads_as_narrowed {site : Site} {test hint : Expr} {x : String}
    {body orelse : List Stmt} {line nameLine argLine : Option Nat} {usage : Usage}
    {keywords : List Keyword} (isTest : test = .call line (.name nameLine "isinstance" usage)
      [.name argLine x .load, hint] keywords) {session mid : Session} {start : Infer.BranchStart}
    (begun : (startBranch body (branchTest site.home test)).run session =
      (.ok start, mid)) :
    ∃ type scope, mid.here.children[start.first]? = some scope ∧
      (∃ asked told, asked.theory = session.theory ∧ asked.vars = session.vars ∧
        (readHint (.ofHome site.home) (Hint.ofExpr hint)).run asked = (.ok type, told)) ∧
      Infer.Reaches importer
        (block site.lineNumber (inferEach importer body)) (mid.enter scope)
        ((Stmt.ifElse site test body orelse).infer importer) session ∧
      ∀ {home : Option ModuleKey} {readLine : Option Nat} {reading : Session},
        Infer.Reaches importer ((name readLine x .load).infer home) reading
          (block site.lineNumber (inferEach importer body)) (mid.enter scope) →
        ∃ inner branch outer, reading.chain = inner ++ branch :: outer ∧
          outer.length = session.chain.length ∧
          ∃ narrowed, narrowed = (narrowing? inner (.name readLine x .load)).getD type ∧
            ((name readLine x .load).infer home).run reading = (.ok narrowed, reading) ∧
            (((name readLine x .load).infer home).run reading =
                (.ok (newestOr (inner ++ [branch]) x narrowed), reading) ↔
              ∀ newer, find? (inner ++ [branch]) x = some newer → newer = narrowed) := by
  obtain ⟨scope, tested, told, isScope, theory, vars, isTold, narrowed⟩ :=
    run_startBranch_eq_ok importer begun
  rw [isTest] at isTold
  obtain ⟨type, asked, sameTheory, sameVars, isType, isNarrowing⟩ := run_branchTest_eq_ok isTold
  have composed : (startBranch body (branchTest site.home test)).Composed
    importer (.below fun _ => False) := composed_startBranch
  refine ⟨type, scope, isScope, ⟨asked, told, sameTheory.trans theory, sameVars.trans vars, isType⟩,
    ?_, fun {home readLine reading} reached => ?_⟩
  · unfold Stmt.infer
    simp only [branch, halfBranch, bind_assoc]
    exact .next composed (forall_mem_nil _) begun (.first (.inChild isScope .here))
  obtain ⟨inner, branch, outer, isChain, same, around⟩ := reached.exists_chain_eq
  have kept := composed.narrowings_eq (forall_mem_nil _) begun
  have length : outer.length = session.chain.length := by
    have lengths := congrArg List.length (around.trans kept)
    simpa [Session.narrowings] using lengths
  have read : ((name readLine x .load).infer home).run reading =
      (.ok ((narrowing? inner (.name readLine x .load)).getD type), reading) := by
    -- Of several tests around the name the innermost counts.
    apply run_infer_of_narrowing?
    have here : branch.narrowing? (.name readLine x .load) = some type := by
      rw [Scope.narrowing?, same]
      exact narrowed isNarrowing
    rw [isChain, narrowing?, narrowing?, findSome?_append, findSome?_cons, here]
    cases inner.findSome? fun scope => scope.narrowing? (.name readLine x .load) <;> rfl
  refine ⟨inner, branch, outer, isChain, length, _, rfl, read, ?_⟩
  rw [read, newestOr]
  cases find? (inner ++ [branch]) x with
  | none => simp
  | some newer =>
    refine ⟨fun same _ isNewer => ?_, fun same => by rw [Option.getD_some, same newer rfl]⟩
    rw [← Option.some.inj isNewer]
    exact (Except.ok.inj (Prod.mk.inj same).1).symm

namespace Stmt

/-- The test whether `x` is a number. -/
def numberTest : Expr :=
  .call (some 2) (.name (some 2) "isinstance" .load)
    [.name (some 2) "x" .load, .name (some 2) "int" .load] []

/-- A program that tests a number. -/
def numberTested (body : List Stmt) : List Stmt := [numbered "x", .ifElse {} numberTest body []]

/-- The program has been inferred up to its test. -/
structure ComesToTested (body : List Stmt) (session mid : Session) (start : Infer.BranchStart)
    (scope : Scope) : Prop where
  upTo : ∃ prepared, Prepared.ofBody (numberTested body) none {} = .ok prepared ∧
    (upTo [numbered "x"]).run prepared.start = (.ok (), session)
  begun : (startBranch body (branchTest none numberTest)).run session = (.ok start, mid)
  known : mid.here.children[start.first]? = some scope

theorem exists_comesToTested {body : List Stmt} {check : Session → Term → Session → Prop}
    (comes : ∃ prepared, Prepared.ofBody (numberTested body) none {} = .ok prepared ∧
      ∃ session, (upTo [numbered "x"]).run prepared.start = (.ok (), session) ∧
      ∃ start mid, (startBranch body (branchTest none numberTest)).run session =
        (.ok start, mid) ∧ ∃ scope ∈ mid.here.children[start.first]?, ∃ type opened,
      (fresh "body").run (mid.enter scope) = (.ok type, opened) ∧ check session type opened) :
    ∃ session mid start scope type opened, ComesToTested body session mid start scope ∧
      (fresh "body").run (mid.enter scope) = (.ok type, opened) ∧
      check session type opened := by
  obtain ⟨prepared, done, session, isSession, start, mid, begun, scope, known, type,
    opened, rest⟩ :=
    comes
  exact ⟨session, mid, start, scope, type, opened, ⟨⟨prepared, done, isSession⟩, begun, known⟩,
    rest⟩

/-- An assignment to `y`. -/
def toY (value : Expr) : Stmt := .assign {} [.name (some 3) "y" .store] value

/-- A function that gives `x`, whatever its argument is. -/
def constantly : Expr :=
  .lambda (some 3) ⟨[], [⟨some 3, "z", none⟩], none, [], [], none, []⟩ (.name (some 3) "x" .load)

set_option synthInstance.maxSize 2000 in
/-- Within a function, too, a tested name is narrowed. -/
theorem constantly_reads_as_narrowed : ∃ session mid start scope reading narrowed,
    ComesToTested [toY constantly] session mid start scope ∧
    Infer.Reaches importer ((name (some 3) "x" .load).infer none) reading
      (block 0 (inferEach importer [toY constantly])) (mid.enter scope) ∧
    narrowed.term? = some .int ∧
    ((name (some 3) "x" .load).infer none).run reading = (.ok narrowed, reading) ∧
    ∃ inner branch outer, reading.chain = inner ++ branch :: outer ∧
      outer.length = session.chain.length ∧
      ((name (some 3) "x" .load).infer none).run reading =
        (.ok (newestOr (inner ++ [branch]) "x" narrowed), reading) := by
  obtain ⟨session, mid, start, scope, type, opened, comes, isType, plain, index, inside, isOpened,
      child, known, types, reading, bound, narrowed, after, isRead, isInt, unbound⟩ :=
    @exists_comesToTested [toY constantly] (fun session _ opened =>
      opened.chain.narrowing? constantly = none ∧
      ∃ index inside, (openScope []).run opened = (.ok index, inside) ∧
      ∃ child ∈ inside.here.children[index]?, ∃ types reading,
        (bindParams [⟨some 3, "z", none⟩]).run (inside.enter child) = (.ok types, reading) ∧
        ∃ narrowed after, ((name (some 3) "x" .load).infer none).run reading =
          (.ok narrowed, after) ∧ narrowed.term? = some .int ∧
          find? (reading.chain.take (reading.chain.length - session.chain.length)) "x" = none)
      (by decide +kernel)
  have assigned : Infer.Reaches importer (constantly.infer none) opened
      ((toY constantly).infer importer) opened := by
    unfold infer
    exact .first (.first .here)
  have reached : Infer.Reaches importer ((name (some 3) "x" .load).infer none) reading
      (block 0 (inferEach importer [toY constantly])) (mid.enter scope) :=
    (reaches_lambda plain isOpened known bound).trans
      (assigned.trans (reaches_statement (composedEach_block importer [])
        (forall_mem_nil _) isType rfl))
  obtain ⟨tested, found, isFound, -, -, reads⟩ := @reads_as_narrowed {} numberTest
    (.name (some 2) "int" .load) "x" [toY constantly] [] (some 2) (some 2) (some 2) .load [] rfl
    session mid start comes.begun
  obtain rfl := Option.some.inj (comes.known.symm.trans isFound)
  obtain ⟨inner, branch, outer, isChain, length, read, -, isSame, newest⟩ := reads reached
  obtain ⟨isResult, rfl⟩ := Prod.mk.inj (isRead.symm.trans isSame)
  obtain rfl := Except.ok.inj isResult
  refine ⟨session, mid, start, scope, after, narrowed, comes, reached, isInt,
    isSame, inner, branch, outer, isChain, length, newest.mpr fun newer isNewer => ?_⟩
  rw [append_cons] at isChain
  have count : after.chain.length - session.chain.length = (inner ++ [branch]).length := by
    rw [isChain, length_append, length, Nat.add_sub_cancel]
  have since : after.chain.take (after.chain.length - session.chain.length) =
      inner ++ [branch] := by
    rw [count, isChain, take_left]
  rw [since, isNewer] at unbound
  cases unbound

/-- A text that is assigned to `x`. -/
def reassigned : Stmt :=
  .assign {} [.name (some 3) "x" .store] (.literal (some 3) (.str "a" none))

set_option synthInstance.maxSize 2000 in
/-- A reassigned name is still read as it was tested. -/
theorem reassigned_reads_as_narrowed : ∃ session mid start scope reading narrowed newer,
    ComesToTested [reassigned, toY (.name (some 4) "x" .load)] session mid start scope ∧
    Infer.Reaches importer ((name (some 4) "x" .load).infer none) reading
      (block 0 (inferEach importer [reassigned, toY (.name (some 4) "x" .load)]))
      (mid.enter scope) ∧
    ((name (some 4) "x" .load).infer none).run reading = (.ok narrowed, reading) ∧
    reading.outer.length = session.chain.length ∧
    find? [reading.here] "x" = some newer ∧ newer ≠ narrowed := by
  obtain ⟨session, mid, start, scope, type, opened, comes, isType, types, reading, done, depth,
      narrowed, isNarrowed, newer, isNewer, differs⟩ :=
    @exists_comesToTested [reassigned, toY (.name (some 4) "x" .load)] (fun session type opened =>
      ∃ types reading, ([reassigned.infer importer].mapM (blockStep 0 type)).run opened =
        (.ok types, reading) ∧ reading.outer.length = session.chain.length ∧
      ∃ narrowed ∈ reading.chain.narrowing? (.name (some 4) "x" .load),
      ∃ newer ∈ find? [reading.here] "x", newer.term? ≠ narrowed.term?) (by decide +kernel)
  have read : Infer.Reaches importer ((name (some 4) "x" .load).infer none) reading
      ((toY (.name (some 4) "x" .load)).infer importer) reading := by
    unfold infer
    exact .first (.first .here)
  have earlier := composedEach_block importer [reassigned]
  refine ⟨session, mid, start, scope, reading, narrowed, newer, comes,
    read.trans (reaches_statement earlier (forall_mem_nil _) isType done),
    run_infer_of_narrowing? isNarrowed, depth, isNewer, ?_⟩
  rintro rfl
  exact differs rfl

end Stmt

end TypeInference
