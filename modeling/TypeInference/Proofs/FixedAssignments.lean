/- Which constants can be assigned to names with fixed-width integer hints. -/

import TypeInference.Inference.Module
import TypeInference.Proofs.Faults
import TypeInference.Proofs.FixedWidth
import TypeInference.Proofs.HintRoundTrip
import TypeInference.Proofs.TypeVariables

namespace TypeInference

open List Infer Hint Theory Theory

variable {session : Session} {type : Meaning}

/-- A bound name is found, unless in a class and function at once. -/
theorem Chain.find?_bind_self {scope : Scope} {outer : Chain} {name : String}
    (visible : (scope.isClass && scope.isFunction) = false) :
    find? (scope.bind name type :: outer) name = some type := by
  have bound : (scope.types.insert name type).get? name = some type := Table.get?_insert_self ..
  simp [find?, findFrom, bound, Scope.bind, visible]

namespace Log

/-- A message about the range of a constant begins so. -/
def rangeMessage : String := "fixed width int out of range on line: "

/-- The formulas which say that constants fit their types. -/
def rangeConstraints (log : Log) : List Formula :=
  (log.hard.toList.filter fun a => a.message.startsWith rangeMessage).flatMap (·.parts)

theorem rangeConstraints_fresh (log : Log) (stem : String) (allowed : isStem stem) :
    (log.fresh stem allowed).2.rangeConstraints = log.rangeConstraints := rfl

theorem rangeConstraints_assert (log : Log) (message : String) (parts : List Formula) :
    (log.assert message parts).rangeConstraints = log.rangeConstraints ++
      if message.startsWith rangeMessage then parts else [] := by
  by_cases ofRange : message.startsWith rangeMessage = true <;>
    simp [rangeConstraints, assert, ofRange]

end Log

/-- An integer constant, possibly with minus signs, of a value. -/
inductive IsConstant : Expr → Int → Prop where
  | literal (line : Option Nat) (value : Int) : IsConstant (.literal line (.int value)) value
  | minus (line : Option Nat) {operand : Expr} {value : Int}
      (isConstant : IsConstant operand value) :
      IsConstant (.unary line .minus operand) (-value)

namespace IsConstant

variable {value : Int} {e : Expr}

theorem constantInt_eq (isConstant : IsConstant e value) :
    e.constantInt = .ok (true, .int value) := by
  induction isConstant with
  | literal => rfl
  | minus line isConstant ih =>
    rw [Expr.constantInt, ih]
    rfl

/-- No test has narrowed the constant or its parts. -/
def Unnarrowed (narrowing? : Expr → Option Meaning) : Expr → Prop
  | .unary line op operand =>
    narrowing? (.unary line op operand) = none ∧ Unnarrowed narrowing? operand
  | e => narrowing? e = none

theorem run_narrowedOr (e : Expr) (act : Infer Meaning) (session : Session) :
    (e.narrowedOr act).run session = match session.chain.narrowing? e with
      | some type => (.ok type, session)
      | none => act.run session := by
  change (match session.chain.narrowing? e with
    | some type => (pure type : Infer Meaning)
    | none => act).run session = _
  cases session.chain.narrowing? e <;> rfl

theorem infer_literal (home : Option ModuleKey) (line : Option Nat) (value : Int) :
    (Expr.literal line (.int value)).infer home =
      (Expr.literal line (.int value)).narrowedOr (pure (.term .int)) := rfl

theorem infer_minus (home : Option ModuleKey) (line : Option Nat) (operand : Expr) :
    (Expr.unary line .minus operand).infer home =
      (Expr.unary line .minus operand).narrowedOr (do
        pure (.term (← unary .minus (← operand.infer home) (line.getD 0)))) := rfl

theorem isStem_negated : Log.isStem "unary_result" = true := by decide

/-- The log with the constraint of a minus sign. -/
def negated (log : Log) (frame : Frame) (line : Nat) (operand : Term) : Log :=
  (log.fresh "unary_result" isStem_negated).2.assert (inLine "Unary operation" line)
    (Constraint.sign frame operand (log.fresh "unary_result" isStem_negated).1)

theorem rangeConstraints_negated (log : Log) (frame : Frame) (line : Nat) (operand : Term) :
    (negated log frame line operand).rangeConstraints = log.rangeConstraints := by
  have other : (inLine "Unary operation" line).startsWith Log.rangeMessage = false := by
    rw [Bool.eq_false_iff]
    intro starts
    have start := String.startsWith_string_iff.mp starts
    simp [inLine, Log.rangeMessage] at start
  rw [negated, Log.rangeConstraints_assert, Log.rangeConstraints_fresh, other]
  simp

theorem run_minus (operand : Meaning) (line : Nat) (session : Session) :
    (unary .minus operand line).run session = match operand.toTerm with
      | .ok t => (.ok (session.log.fresh "unary_result").1,
          { session with log := negated session.log ⟨session.theory, session.method⟩ line t })
      | .error fault => (.error fault,
          { session with log := (session.log.fresh "unary_result").2 }) := by
  rw [unary]
  cases operand.toTerm <;> rfl

/-- Only the log has gone on, without ranges. -/
def OnlyLogs (session after : Session) : Prop :=
  ∃ log, after = { session with log := log } ∧ session.log.count ≤ log.count ∧
    log.rangeConstraints = session.log.rangeConstraints

theorem onlyLogs_infer (isConstant : IsConstant e value) (home : Option ModuleKey)
    (session : Session) : OnlyLogs session ((e.infer home).run session).2 := by
  have same : OnlyLogs session session := ⟨session.log, rfl, Nat.le_refl _, rfl⟩
  induction isConstant with
  | literal line value =>
    rw [infer_literal, run_narrowedOr]
    split
    · exact same
    · exact same
  | @minus line operand value isConstant ih =>
    rw [infer_minus, run_narrowedOr]
    split
    · exact same
    · rw [run_bind]
      obtain ⟨log, isMid, counted, ranges⟩ := ih
      rcases outcome : (operand.infer home).run session with ⟨fault | type, mid⟩
      · rw [outcome] at isMid
        exact ⟨log, isMid, counted, ranges⟩
      · rw [outcome] at isMid
        obtain rfl : mid = { session with log := log } := isMid
        dsimp only
        rw [run_bind, run_minus]
        cases type.toTerm with
        | error fault => exact ⟨_, rfl, Nat.le_succ_of_le counted, ranges⟩
        | ok t =>
          refine ⟨_, rfl, Nat.le_succ_of_le (Nat.le_succ_of_le counted), ?_⟩
          exact (rangeConstraints_negated ..).trans ranges

theorem exists_infer (isConstant : IsConstant e value) (home : Option ModuleKey)
    (free : Unnarrowed session.chain.narrowing? e) :
    ∃ t after, (e.infer home).run session = (.ok (.term t), after) := by
  induction isConstant with
  | literal line value =>
    rw [infer_literal, run_narrowedOr, free]
    exact ⟨_, _, rfl⟩
  | @minus line operand value isConstant ih =>
    obtain ⟨here, inside⟩ := free
    obtain ⟨t, mid, done⟩ := ih inside
    rw [infer_minus, run_narrowedOr, here]
    rw [run_bind_of_ok done]
    exact ⟨_, _, rfl⟩

end IsConstant

/-- An integer constant is assigned to a name with a fixed-width hint. -/
structure FixedAssignment where
  site : Site
  line : Option Nat
  target : String
  type : FixedType
  value : Expr
  number : Int
  isConstant : IsConstant value number

namespace FixedAssignment

variable (a : FixedAssignment)

def stmt : Stmt :=
  .annAssign a.site (.name a.line a.target .store) (.name a.line a.type.name .load) (some a.value) 1

/-- The type that the hint stands for. -/
def meaning : Meaning := .term (.fixed a.type.mark a.type.width)

/-- The session in which the target has been bound, with a log. -/
def bound (session : Session) (log : Log) : Session :=
  { session with here := session.here.bind a.target a.meaning, log := log }

/-- What the assignment asks of the constant with the next number. -/
def fixing (count : Nat) : Fixing :=
  ⟨"fixed" ++ "_" ++ toString (count + 1), a.type, a.number⟩

theorem run_readHint (scope : HintScope) (session : Session) :
    (readHint scope (ofExpr (.name a.line a.type.name .load))).run session =
      (.ok a.meaning, session) := by
  have primitive : ∀ width ∈ TypeSort.widths, ∀ signed : Bool,
      ((if signed then "i" else "u") ++ toString width,
        Term.fixed (if signed then "i" else "u") width) ∈ primitives := by
    decide
  obtain ⟨named, found⟩ := primitives_find? _ (primitive a.type.width a.type.isWidth a.type.signed)
  have resolved (setting : Hint.Setting) (readOptions mode line) :
      resolveName setting readOptions mode a.type.name line = pure a.meaning := by
    rw [resolveName, FixedType.name, FixedType.mark, baseName_of_isIdentifier named, found]
    rfl
  have resolvedTo (setting : Hint.Setting) (depth : Nat) (line : Nat) :
      resolveTo setting depth .fixed (.name a.type.name line) = pure a.meaning := by
    cases depth <;> rw [resolveTo, resolveWith_name, resolved]
  change ((reading (resolve ⟨session.theory, session.vars, scope⟩ .fixed
    (.name a.type.name (a.line.getD 0)))).run session) = _
  rw [resolve, resolvedTo]
  rfl

theorem fixedWidth?_eq : a.meaning.term?.bind Constraint.fixedWidth? =
    some (a.type.mark, a.type.width) := by
  have known : ∀ width ∈ TypeSort.widths, ∀ signed : Bool,
      Constraint.fixedWidth? (Term.fixed (if signed then "i" else "u") width) =
        some (if signed then "i" else "u", width) := by
    decide
  exact known a.type.width a.type.isWidth a.type.signed

theorem isStem_fixed : Log.isStem "fixed" = true := by decide

/-- The log with what the assignment asks. -/
def fixed (log : Log) : Log :=
  (log.fresh "fixed" isStem_fixed).2.assert (Log.rangeMessage ++ toString a.site.lineNumber)
    [(a.fixing log.count).formula]

theorem run_fixedWidthConstant (session : Session) :
    (fixedWidthConstant a.meaning (.int a.number) a.site.lineNumber).run session =
      (.ok (), { session with log := a.fixed session.log }) := by
  unfold fixedWidthConstant
  rw [a.fixedWidth?_eq]
  rfl

theorem infer_stmt (importer : Importer) : a.stmt.infer importer =
    noType (hintedAssignment a.site.home (.name a.line a.target .store)
      (.name a.line a.type.name .load) (some a.value) a.site.lineNumber) := rfl

/-- The target, once bound, is looked up. -/
theorem run_inferTarget (session : Session) (log : Log) :
    (Expr.inferTarget a.site.home (.name a.line a.target .store)).run (a.bound session log) =
      ((a.bound session log).chain.find a.target, a.bound session log) := by
  have known : (a.bound session log).here.types.contains a.target = true :=
    Table.contains_iff.mpr (Table.mem_keys_insert.mpr (.inl rfl))
  change ((if (a.bound session log).here.types.contains a.target then find a.target
    else _ : Infer Meaning).run _) = _
  rw [if_pos known]
  exact run_lift _

/-- What remains once the target has been bound. -/
def rest : Infer Unit := do
  let _ ← a.value.infer a.site.home
  let _ ← Expr.inferTarget a.site.home (.name a.line a.target .store)
  fixedWidthConstant a.meaning (.int a.number) a.site.lineNumber

theorem run_stmt (importer : Importer) (session : Session) :
    (a.stmt.infer importer).run session =
      (noType a.rest).run (a.bound session session.log) := by
  have isRest : (hintedAssignment a.site.home (.name a.line a.target .store)
      (.name a.line a.type.name .load) (some a.value) a.site.lineNumber).run session =
      a.rest.run (a.bound session session.log) := by
    unfold hintedAssignment rest
    rw [run_bind_of_ok (a.run_readHint ..)]
    simp only [Expr.id?, finishAssignment, a.isConstant.constantInt_eq]
    rfl
  rw [infer_stmt, noType, run_bind, isRest, noType, run_bind]

/-- Nothing keeps the constant or the target from being inferred. -/
structure IsClear (session : Session) : Prop where
  unnarrowed : IsConstant.Unnarrowed session.chain.narrowing? a.value
  visible : (session.here.isClass && session.here.isFunction) = false

variable {a}

/-- One assignment does not get in the way of another. -/
theorem IsClear.bound (clear : a.IsClear session) (other : FixedAssignment) (log : Log) :
    a.IsClear (other.bound session log) := by
  have same : (other.bound session log).chain.narrowing? = session.chain.narrowing? := rfl
  exact ⟨same ▸ clear.unnarrowed, clear.visible⟩

theorem IsClear.find_target (clear : a.IsClear session) (log : Log) :
    (a.bound session log).chain.find a.target = .ok a.meaning := by
  have found : (a.bound session log).chain.find? a.target = some a.meaning :=
    Chain.find?_bind_self clear.visible
  rw [Chain.find, found]

variable {importer : Importer} {after : Session}

/-- An assignment binds its target and asks for its constant only. -/
theorem run_stmt_eq_ok (done : (a.stmt.infer importer).run session = (.ok type, after)) :
    ∃ log, after = a.bound session (a.fixed log) ∧ session.log.count ≤ log.count ∧
      log.rangeConstraints = session.log.rangeConstraints := by
  rw [run_stmt] at done
  obtain ⟨_, _, done, isAfter⟩ := run_bind_ok done
  obtain ⟨_, mid, valued, done⟩ := run_bind_ok done
  obtain ⟨_, _, targeted, done⟩ := run_bind_ok done
  obtain ⟨log, isMid, counted, ranges⟩ := a.isConstant.onlyLogs_infer a.site.home
    (a.bound session session.log)
  rw [valued] at isMid
  obtain rfl : mid = a.bound session log := isMid
  rw [run_inferTarget] at targeted
  obtain ⟨-, rfl⟩ := Prod.mk.inj targeted
  rw [run_fixedWidthConstant] at done
  obtain ⟨-, rfl⟩ := Prod.mk.inj done
  obtain ⟨-, rfl⟩ := Prod.mk.inj isAfter
  exact ⟨log, rfl, counted, ranges⟩

theorem exists_run_stmt (importer : Importer) (clear : a.IsClear session) :
    ∃ after, (a.stmt.infer importer).run session = (.ok (.term .none), after) := by
  obtain ⟨_, mid, valued⟩ := a.isConstant.exists_infer a.site.home
    (clear.bound a session.log).unnarrowed
  obtain ⟨log, isMid, -⟩ := a.isConstant.onlyLogs_infer a.site.home (a.bound session session.log)
  rw [valued] at isMid
  obtain rfl : mid = a.bound session log := isMid
  have targeted := a.run_inferTarget session log
  rw [clear.find_target] at targeted
  have done : a.rest.run (a.bound session session.log) =
      (.ok (), a.bound session (a.fixed log)) := by
    rw [rest, run_bind_of_ok valued, run_bind_of_ok targeted, run_fixedWidthConstant]
    rfl
  exact ⟨_, by rw [run_stmt, noType, run_bind_of_ok done]; rfl⟩

theorem rangeConstraints_fixed (log : Log) :
    (a.fixed log).rangeConstraints = log.rangeConstraints ++ [(a.fixing log.count).formula] := by
  have ofRange : (Log.rangeMessage ++ toString a.site.lineNumber).startsWith Log.rangeMessage =
      true := by
    rw [String.startsWith_string_iff, String.toList_append]
    exact List.prefix_append ..
  rw [fixed, Log.rangeConstraints_assert, ofRange]
  rfl

theorem constant_injective {first second : FixedAssignment} {m n : Nat}
    (same : (first.fixing m).constant = (second.fixing n).constant) : m = n := by
  have digits : Nat.repr (m + 1) = Nat.repr (n + 1) := String.append_right_inj _ |>.mp same
  exact Nat.succ.inj (Nat.repr_injective digits)

/-- Infers assignments one after the other. -/
def inferEach (importer : Importer) (assignments : List FixedAssignment) : Infer Unit :=
  (assignments.map stmt).forM fun stmt => do
    let _ ← stmt.infer importer

/-- What assignments ask of constants with given numbers. -/
def fixings (numbered : List (FixedAssignment × Nat)) : List Fixing :=
  numbered.map fun entry => entry.1.fixing entry.2

/-- Each assignment asks for a constant of its own. -/
theorem run_inferEach_eq_ok {assignments : List FixedAssignment}
    (done : (inferEach importer assignments).run session = (.ok (), after)) :
    ∃ numbered : List (FixedAssignment × Nat), numbered.map (·.1) = assignments ∧
      (numbered.map (·.2)).Pairwise (· < ·) ∧ (∀ entry ∈ numbered, session.log.count ≤ entry.2) ∧
      after.log.rangeConstraints =
        session.log.rangeConstraints ++ (fixings numbered).map Fixing.formula := by
  induction assignments generalizing session with
  | nil =>
    obtain ⟨-, rfl⟩ := Prod.mk.inj done
    exact ⟨[], rfl, .nil, nofun, (append_nil _).symm⟩
  | cons a assignments ih =>
    obtain ⟨_, mid, step, rest⟩ := run_bind_ok done
    obtain ⟨_, _, inferred, isMid⟩ := run_bind_ok step
    obtain ⟨-, rfl⟩ := Prod.mk.inj isMid
    obtain ⟨log, rfl, counted, ranges⟩ := run_stmt_eq_ok inferred
    obtain ⟨numbered, rfl, increasing, later, appended⟩ := ih rest
    have after (entry) (member : entry ∈ numbered) : log.count < entry.2 :=
      Nat.lt_of_lt_of_le (Nat.lt_add_of_pos_right (Nat.zero_lt_two)) (later entry member)
    refine ⟨(a, log.count) :: numbered, rfl, ?_, ?_, ?_⟩
    · rw [map_cons, pairwise_cons]
      exact ⟨forall_mem_map.mpr after, increasing⟩
    · exact forall_mem_cons.mpr ⟨counted, fun entry member => counted.trans (after entry member).le⟩
    · rw [appended]
      change (a.fixed log).rangeConstraints ++ _ = _
      rw [rangeConstraints_fixed, ranges, append_assoc]
      rfl

theorem exists_run_inferEach (importer : Importer) (assignments : List FixedAssignment)
    (clear : ∀ a ∈ assignments, a.IsClear session) :
    ∃ after, (inferEach importer assignments).run session = (.ok (), after) := by
  induction assignments generalizing session with
  | nil => exact ⟨session, rfl⟩
  | cons a assignments ih =>
    obtain ⟨here, others⟩ := forall_mem_cons.mp clear
    obtain ⟨mid, first⟩ := exists_run_stmt importer here
    obtain ⟨log, rfl, -⟩ := run_stmt_eq_ok first
    obtain ⟨after, rest⟩ := ih fun other member => (others other member).bound a _
    refine ⟨after, run_bind_eq_ok_iff.mpr ⟨(), _, ?_, rest⟩⟩
    exact run_bind_eq_ok_iff.mpr ⟨_, _, first, rfl⟩

theorem nodup_constants {numbered : List (FixedAssignment × Nat)}
    (increasing : (numbered.map (·.2)).Pairwise (· < ·)) :
    ((fixings numbered).map (·.constant)).Nodup := by
  rw [fixings, map_map]
  refine List.Pairwise.map _ ?_ (pairwise_map.mp increasing)
  intro first second less same
  exact Nat.ne_of_lt less (constant_injective same)

section Ranges

variable {settings : Settings} {survey : Survey} {theory : Theory}

/-- The constraints can be met exactly if each constant is within its limits and constants of one
type have one value. -/
theorem satisfiable_fixings_iff (complete : survey.IsComplete)
    (built : ofSurvey settings survey = .ok theory) (datatype : theory.sort.IsDatatype)
    (numbered : List (FixedAssignment × Nat))
    (increasing : (numbered.map (·.2)).Pairwise (· < ·)) :
    theory.Satisfiable (limitAxioms ++ (fixings numbered).map Fixing.formula) ↔
      (∀ a ∈ numbered.map (·.1), a.type.Represents a.number ∨ a.type.FallsShortOf a.number) ∧
      ∀ a ∈ numbered.map (·.1), ∀ b ∈ numbered.map (·.1), a.type = b.type →
        a.number = b.number := by
  rw [Fixing.satisfiable_iff complete built (nodup_constants increasing)]
  simp only [datatype, true_and, fixings, forall_mem_map, ← FixedType.bounds_iff]
  rfl

/-- One constraint is met within the limits of its type. -/
theorem satisfiable_fixing_iff (complete : survey.IsComplete)
    (built : ofSurvey settings survey = .ok theory) (datatype : theory.sort.IsDatatype)
    (a : FixedAssignment) (count : Nat) :
    theory.Satisfiable (limitAxioms ++ [(a.fixing count).formula]) ↔
      a.type.Represents a.number ∨ a.type.FallsShortOf a.number := by
  have together := satisfiable_fixings_iff complete built datatype [(a, count)]
    (pairwise_singleton ..)
  simpa [fixings] using together

/-- The constraint can be met exactly if the type represents the constant, or falls short of it by
the bit for the sign. -/
theorem range_constraint_satisfiable_iff (complete : survey.IsComplete)
    (built : ofSurvey settings survey = .ok theory) (datatype : theory.sort.IsDatatype)
    (a : FixedAssignment) (importer : Importer) (session : Session) :
    (a.IsClear session →
      ∃ after, (a.stmt.infer importer).run session = (.ok (.term .none), after)) ∧
    ∀ type after, (a.stmt.infer importer).run session = (.ok type, after) →
      ∃ constraint,
        after.log.rangeConstraints = session.log.rangeConstraints ++ [constraint] ∧
        (theory.Satisfiable (limitAxioms ++ [constraint]) ↔
          a.type.Represents a.number ∨ a.type.FallsShortOf a.number) := by
  refine ⟨exists_run_stmt importer, ?_⟩
  intro type after done
  obtain ⟨log, rfl, -, ranges⟩ := run_stmt_eq_ok done
  refine ⟨(a.fixing log.count).formula, ?_, satisfiable_fixing_iff complete built datatype ..⟩
  rw [← ranges]
  exact rangeConstraints_fixed log

/-- Together, the constraints can be met exactly if constants of one type have one value. -/
theorem range_constraints_satisfiable_iff (complete : survey.IsComplete)
    (built : ofSurvey settings survey = .ok theory) (datatype : theory.sort.IsDatatype)
    (assignments : List FixedAssignment)
    (represented : ∀ a ∈ assignments, a.type.Represents a.number) (importer : Importer)
    (session : Session) :
    ((∀ a ∈ assignments, a.IsClear session) →
      ∃ after, (inferEach importer assignments).run session = (.ok (), after)) ∧
    ∀ after, (inferEach importer assignments).run session = (.ok (), after) →
      ∃ constraints, constraints.length = assignments.length ∧
        after.log.rangeConstraints = session.log.rangeConstraints ++ constraints ∧
        (theory.Satisfiable (limitAxioms ++ constraints) ↔
          ∀ a ∈ assignments, ∀ b ∈ assignments, a.type = b.type → a.number = b.number) := by
  refine ⟨exists_run_inferEach importer assignments, ?_⟩
  intro after done
  obtain ⟨numbered, rfl, increasing, -, appended⟩ := run_inferEach_eq_ok done
  refine ⟨(fixings numbered).map Fixing.formula, by simp [fixings], appended, ?_⟩
  rw [satisfiable_fixings_iff complete built datatype _ increasing]
  have within (a : FixedAssignment) (member : a ∈ numbered.map (·.1)) :
      a.type.Represents a.number ∨ a.type.FallsShortOf a.number := .inl (represented a member)
  exact ⟨fun both => both.2, fun agree => ⟨within, agree⟩⟩

end Ranges

section Samples

def i8 : FixedType := ⟨true, 8, by decide⟩

def i16 : FixedType := ⟨true, 16, by decide⟩

def u8 : FixedType := ⟨false, 8, by decide⟩

/-- An assignment of a number, possibly with a minus sign. -/
def sample (target : String) (type : FixedType) (negative : Bool) (value : Nat) :
    FixedAssignment where
  site := {}
  line := some 1
  target := target
  type := type
  value := if negative then .unary (some 1) .minus (.literal (some 1) (.int value))
    else .literal (some 1) (.int value)
  number := if negative then -value else value
  isConstant := by
    cases negative
    · exact .literal ..
    · exact .minus _ (.literal ..)

theorem sample_isClear (theory : Theory) (target : String) (type : FixedType) (negative : Bool)
    (value : Nat) : (sample target type negative value).IsClear { theory := theory } := by
  cases negative
  · exact ⟨rfl, rfl⟩
  · exact ⟨⟨rfl, rfl⟩, rfl⟩

/-- The least number of eight bits is accepted. -/
theorem least_number_accepted : ∃ theory axioms after constraint,
    ofEmptyProgram {} {} = .ok (theory, axioms) ∧ theory.sort.IsDatatype ∧
    ((sample "x" i8 true 128).stmt.infer Infer.importer).run { theory := theory } =
      (.ok (.term .none), after) ∧
    after.log.rangeConstraints = [constraint] ∧
    theory.Satisfiable (limitAxioms ++ [constraint]) := by
  obtain ⟨theory, axioms, empty⟩ := exists_isEmpty
  obtain ⟨succeeds, ranges⟩ := range_constraint_satisfiable_iff empty.complete empty.built
    empty.datatype (sample "x" i8 true 128) importer { theory := theory }
  obtain ⟨after, inferred⟩ := succeeds (sample_isClear ..)
  obtain ⟨constraint, asked, satisfiable⟩ := ranges _ _ inferred
  exact ⟨theory, axioms, after, constraint, empty.done, empty.datatype, inferred, asked,
    satisfiable.mpr (.inl (by decide))⟩

/-- A number that does not fit into eight bits is accepted. -/
theorem short_number_accepted : ∃ theory axioms after constraint,
    ofEmptyProgram {} {} = .ok (theory, axioms) ∧ theory.sort.IsDatatype ∧
    ((sample "x" i8 true 200).stmt.infer Infer.importer).run { theory := theory } =
      (.ok (.term .none), after) ∧
    after.log.rangeConstraints = [constraint] ∧
    theory.Satisfiable (limitAxioms ++ [constraint]) ∧ ¬ i8.Represents (-200) := by
  obtain ⟨theory, axioms, empty⟩ := exists_isEmpty
  obtain ⟨after, inferred⟩ := exists_run_stmt importer (sample_isClear theory "x" i8 true 200)
  obtain ⟨log, rfl, -, ranges⟩ := run_stmt_eq_ok inferred
  have satisfiable := (satisfiable_fixing_iff empty.complete empty.built empty.datatype
    (sample "x" i8 true 200) log.count).mpr (.inr (by decide))
  refine ⟨theory, axioms, _, _, empty.done, empty.datatype, inferred, ?_, satisfiable, by decide⟩
  exact (rangeConstraints_fixed log).trans (congrArg (· ++ _) ranges)

/-- Constants of two types, one given twice, are accepted. -/
theorem same_values_accepted : ∃ theory axioms after constraints,
    ofEmptyProgram {} {} = .ok (theory, axioms) ∧ theory.sort.IsDatatype ∧
    (inferEach Infer.importer [sample "x" u8 false 255, sample "y" i16 true 2,
      sample "z" u8 false 255]).run { theory := theory } = (.ok (), after) ∧
    constraints.length = 3 ∧ after.log.rangeConstraints = constraints ∧
    theory.Satisfiable (limitAxioms ++ constraints) := by
  obtain ⟨theory, axioms, empty⟩ := exists_isEmpty
  obtain ⟨succeeds, ranges⟩ := range_constraints_satisfiable_iff empty.complete empty.built
    empty.datatype [sample "x" u8 false 255, sample "y" i16 true 2, sample "z" u8 false 255]
    (by decide) importer { theory := theory }
  obtain ⟨after, inferred⟩ := succeeds (by simp [sample_isClear])
  obtain ⟨constraints, count, asked, satisfiable⟩ := ranges _ inferred
  exact ⟨theory, axioms, after, constraints, empty.done, empty.datatype, inferred, count, asked,
    satisfiable.mpr (by decide)⟩

/-- Two values of one type are refused, although each fits. -/
theorem two_values_refused : ∃ theory axioms after,
    ofEmptyProgram {} {} = .ok (theory, axioms) ∧ theory.sort.IsDatatype ∧
    (inferEach Infer.importer [sample "x" u8 false 1, sample "y" u8 false 2]).run
      { theory := theory } = (.ok (), after) ∧
    u8.Represents 1 ∧ u8.Represents 2 ∧
    ¬ theory.Satisfiable (limitAxioms ++ after.log.rangeConstraints) := by
  obtain ⟨theory, axioms, empty⟩ := exists_isEmpty
  have clear : ∀ a ∈ [sample "x" u8 false 1, sample "y" u8 false 2],
      a.IsClear { theory := theory } := by
    simp [sample_isClear]
  obtain ⟨after, inferred⟩ := exists_run_inferEach importer _ clear
  obtain ⟨numbered, are, increasing, -, asked⟩ := run_inferEach_eq_ok inferred
  refine ⟨theory, axioms, after, empty.done, empty.datatype, inferred, by decide, by decide, ?_⟩
  rw [asked]
  intro satisfiable
  obtain ⟨-, agree⟩ := (satisfiable_fixings_iff empty.complete empty.built empty.datatype _
    increasing).mp satisfiable
  rw [are] at agree
  have same := agree (sample "x" u8 false 1) (by simp) (sample "y" u8 false 2) (by simp) rfl
  exact absurd same (by decide)

end Samples

end FixedAssignment

end TypeInference
