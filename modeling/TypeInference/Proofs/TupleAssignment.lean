/- A tuple is assigned at once, or its parts one after the other. -/

import Mathlib.Logic.Function.Basic
import TypeInference.Output.Typed
import TypeInference.Proofs.Traversal

namespace TypeInference

open List Expr

variable {line : Option Nat} {id : String} {usage : Usage} {target value : Expr}
  {targets values : List Expr} {parts before after : List (String × Expr)}

namespace Expr

def isStarred : Expr → Bool
  | starred .. => true
  | _ => false

mutual

/-- The names in a target with their parts of a value of its shape. -/
def partsFor? (target value : Expr) : Option (List (String × Expr)) :=
  match target with
  | name _ id _ => if value.isStarred then none else some [(id, value)]
  | tuple _ targets _ =>
    match value with
    | tuple _ values _ => partsForAll? targets values
    | _ => none
  | _ => none
termination_by structural target

def partsForAll? (targets values : List Expr) : Option (List (String × Expr)) :=
  match targets, values with
  | [], [] => some []
  | target :: targets, value :: values =>
    (partsFor? target value).bind fun first =>
      (partsForAll? targets values).map fun rest => first ++ rest
  | _, _ => none
termination_by structural targets

end

theorem partsFor?_name_eq_some (shape : (name line id usage).partsFor? value = some parts) :
    parts = [(id, value)] := by
  unfold partsFor? at shape
  split at shape
  · cases shape
  · exact (Option.some.inj shape).symm

theorem partsFor?_tuple_eq_some (shape : (tuple line targets usage).partsFor? value = some parts) :
    ∃ line values usage, value = tuple line values usage ∧
      partsForAll? targets values = some parts := by
  unfold partsFor? at shape
  split at shape
  · exact ⟨_, _, _, rfl, shape⟩
  · cases shape

theorem partsForAll?_nil_eq_some (shape : partsForAll? [] values = some parts) :
    values = [] ∧ parts = [] := by
  cases values with
  | nil => exact ⟨rfl, (Option.some.inj shape).symm⟩
  | cons value values => cases shape

theorem partsForAll?_cons_eq_some (shape : partsForAll? (target :: targets) values = some parts) :
    ∃ value others first rest, values = value :: others ∧ target.partsFor? value = some first ∧
      partsForAll? targets others = some rest ∧ parts = first ++ rest := by
  cases values with
  | nil => cases shape
  | cons value others =>
    obtain ⟨first, isFirst, shape⟩ := Option.bind_eq_some_iff.mp shape
    obtain ⟨rest, isRest, rfl⟩ := Option.map_eq_some_iff.mp shape
    exact ⟨value, others, first, rest, rfl, isFirst, isRest, rfl⟩

theorem not_isStarred_of_partsFor? (shape : target.partsFor? value = some parts) :
    value.isStarred = false := by
  cases target with
  | name line id usage =>
    unfold partsFor? at shape
    split at shape
    · cases shape
    · next plain => simpa using plain
  | tuple line targets usage =>
    obtain ⟨_, _, _, rfl, -⟩ := partsFor?_tuple_eq_some shape
    rfl
  | _ => simp [partsFor?] at shape

theorem not_isStarred_of_partsForAll? (shape : partsForAll? targets values = some parts) :
    ∀ value ∈ values, value.isStarred = false := by
  induction targets generalizing values parts with
  | nil =>
    obtain ⟨rfl, -⟩ := partsForAll?_nil_eq_some shape
    simp
  | cons target targets ih =>
    obtain ⟨value, others, first, rest, rfl, isFirst, isRest, -⟩ := partsForAll?_cons_eq_some shape
    exact forall_mem_cons.mpr ⟨not_isStarred_of_partsFor? isFirst, ih isRest⟩

end Expr

/-- The values of variables. -/
abbrev Environment (V : Type) := String → V

/-- Expressions have a value in each environment and no other effect. That of a tuple is made of the
values of its elements. -/
structure Evaluation (V : Type) where
  eval : Expr → Environment V → V
  tuple : List V → V
  elements? : V → Option (List V)
  elements?_tuple : ∀ values, elements? (tuple values) = some values
  eval_tuple : ∀ {line parts usage} env, (∀ part ∈ parts, part.isStarred = false) →
    eval (.tuple line parts usage) env = tuple (parts.map fun part => eval part env)

namespace Evaluation

variable {V : Type} (evaluation : Evaluation V)

mutual

/-- Binds the names in a target to a value and its parts. -/
def bind (target : Expr) (value : V) (env : Environment V) : Option (Environment V) :=
  match target with
  | .name _ id _ => some (Function.update env id value)
  | .tuple _ targets _ =>
    (evaluation.elements? value).bind fun values => bindAll targets values env
  | _ => none
termination_by structural target

def bindAll (targets : List Expr) (values : List V) (env : Environment V) :
    Option (Environment V) :=
  match targets, values with
  | [], [] => some env
  | target :: targets, value :: values =>
    (bind target value env).bind fun env => bindAll targets values env
  | _, _ => none
termination_by structural targets

end

/-- Runs an assignment. Hints have no effect. -/
def exec (env : Environment V) : Stmt → Option (Environment V)
  | .assign _ [target] value => evaluation.bind target (evaluation.eval value env) env
  | .annAssign _ target _ (some value) _ => evaluation.bind target (evaluation.eval value env) env
  | _ => none

/-- Runs assignments one after the other. -/
def run (stmts : List Stmt) (env : Environment V) : Option (Environment V) :=
  stmts.foldlM evaluation.exec env

/-- Gives values to names in turn, in the environment so far. -/
def assign (valueOf : Environment V → Expr → V) (parts : List (String × Expr))
    (env : Environment V) : Environment V :=
  parts.foldl (fun env part => Function.update env part.1 (valueOf env part.2)) env

/-- Each value is taken when its name gets it. -/
def assignInTurn (parts : List (String × Expr)) (env : Environment V) : Environment V :=
  assign (fun env value => evaluation.eval value env) parts env

/-- All values are taken at the start. -/
def assignAtOnce (parts : List (String × Expr)) (env : Environment V) : Environment V :=
  assign (fun _ value => evaluation.eval value env) parts env

section Assign

variable {valueOf : Environment V → Expr → V}

theorem assign_append (first rest : List (String × Expr)) (env : Environment V) :
    assign valueOf (first ++ rest) env = assign valueOf rest (assign valueOf first env) :=
  foldl_append

theorem assign_of_not_mem (outside : id ∉ parts.map (·.1)) (env : Environment V) :
    assign valueOf parts env id = env id := by
  induction parts generalizing env with
  | nil => rfl
  | cons part parts ih =>
    rw [map_cons, mem_cons, not_or] at outside
    exact (ih outside.2 _).trans (Function.update_of_ne outside.1 _ _)

/-- A name that is given a value once has it at the end. -/
theorem assign_of_mem (last : id ∉ after.map (·.1)) (env : Environment V) :
    assign valueOf (before ++ (id, value) :: after) env id =
      valueOf (assign valueOf before env) value := by
  rw [assign_append]
  exact (assign_of_not_mem last _).trans (Function.update_self _ _ _)

end Assign

theorem run_append {first rest : List Stmt} {env middle : Environment V}
    (done : evaluation.run first env = some middle) :
    evaluation.run (first ++ rest) env = evaluation.run rest middle := by
  unfold run at *
  rw [foldlM_append, done]
  rfl

mutual

/-- A target is bound to the parts of a value at once. -/
theorem bind_eval (target : Expr) {value : Expr} {parts : List (String × Expr)}
    (shape : target.partsFor? value = some parts) (start env : Environment V) :
    evaluation.bind target (evaluation.eval value start) env =
      some (assign (fun _ value => evaluation.eval value start) parts env) := by
  cases target with
  | name line id usage =>
    rw [partsFor?_name_eq_some shape, bind]
    rfl
  | tuple line targets usage =>
    obtain ⟨_, values, _, rfl, each⟩ := partsFor?_tuple_eq_some shape
    rw [evaluation.eval_tuple start (not_isStarred_of_partsForAll? each), bind,
      evaluation.elements?_tuple, Option.bind_some]
    exact bindAll_eval targets each start env
  | _ => simp [partsFor?] at shape

theorem bindAll_eval (targets : List Expr) {values : List Expr} {parts : List (String × Expr)}
    (shape : partsForAll? targets values = some parts) (start env : Environment V) :
    evaluation.bindAll targets (values.map fun value => evaluation.eval value start) env =
      some (assign (fun _ value => evaluation.eval value start) parts env) := by
  cases targets with
  | nil =>
    obtain ⟨rfl, rfl⟩ := partsForAll?_nil_eq_some shape
    rfl
  | cons target targets =>
    obtain ⟨value, others, first, rest, rfl, isFirst, isRest, rfl⟩ :=
      partsForAll?_cons_eq_some shape
    rw [map_cons, bindAll, bind_eval target isFirst start env, Option.bind_some,
      bindAll_eval targets isRest start, assign_append]

end

theorem exec_assign (shape : target.partsFor? value = some parts) (site : Site)
    (env : Environment V) :
    evaluation.exec env (.assign site [target] value) = some (evaluation.assignAtOnce parts env) :=
  evaluation.bind_eval target shape env env

open Typed in
/-- The assignment of a name gives it the value. -/
theorem exec_partAssignment {source : Source} {scope : Scope} {type : Term} {stmt : Stmt}
    (done : partAssignment source scope (.name line id usage) value type = .ok stmt)
    (env : Environment V) : evaluation.exec env stmt =
      some (Function.update env id (evaluation.eval value env)) := by
  unfold partAssignment at done
  obtain ⟨found, -, done⟩ := bind_ok done
  obtain ⟨hint, -, rfl⟩ := map_ok done
  rfl

open Typed in
mutual

/-- Each part takes its value when its name gets it. -/
theorem run_unfold (target : Expr) {source : Source} {scope : Scope} {type : Term} {value : Expr}
    {stmts : List Stmt} {parts : List (String × Expr)}
    (shape : target.partsFor? value = some parts)
    (done : unfold source scope type value target = .ok stmts) (env : Environment V) :
    evaluation.run stmts env = some (evaluation.assignInTurn parts env) := by
  cases target with
  | name line id usage =>
    simp only [Typed.unfold] at done
    obtain ⟨stmt, isStmt, rfl⟩ := map_ok done
    rw [partsFor?_name_eq_some shape, run, foldlM_cons,
      evaluation.exec_partAssignment isStmt env]
    rfl
  | tuple line targets usage =>
    obtain ⟨_, values, _, rfl, each⟩ := partsFor?_tuple_eq_some shape
    rw [Typed.unfold] at done
    exact run_unfoldAll targets each done env
  | _ => simp [partsFor?] at shape

theorem run_unfoldAll (targets : List Expr) {source : Source} {scope : Scope} {type : Term}
    {length position : Nat} {values : List Expr} {stmts : List Stmt}
    {parts : List (String × Expr)} (shape : partsForAll? targets values = some parts)
    (done : unfoldAll source scope type length position values targets = .ok stmts)
    (env : Environment V) :
    evaluation.run stmts env = some (evaluation.assignInTurn parts env) := by
  cases targets with
  | nil =>
    obtain ⟨-, rfl⟩ := partsForAll?_nil_eq_some shape
    rw [unfoldAll] at done
    obtain rfl := Except.ok.inj done
    rfl
  | cons target targets =>
    obtain ⟨value, others, first, rest, rfl, isFirst, isRest, rfl⟩ :=
      partsForAll?_cons_eq_some shape
    rw [unfoldAll] at done
    obtain ⟨part, -, done⟩ := bind_ok done
    obtain ⟨stmtsFirst, doneFirst, done⟩ := bind_ok done
    obtain ⟨stmtsRest, doneRest, rfl⟩ := map_ok done
    rw [evaluation.run_append (run_unfold target isFirst doneFirst env),
      run_unfoldAll targets isRest doneRest, assignInTurn, assignInTurn, assignInTurn,
      assign_append]

end

/-- No value changes when the names before it get theirs. -/
def Undisturbed (parts : List (String × Expr)) (env : Environment V) : Prop :=
  ∀ before id value after, parts = before ++ (id, value) :: after →
    evaluation.eval value (evaluation.assignInTurn before env) = evaluation.eval value env

/-- The value of an expression does not depend on a name. -/
def Ignores (value : Expr) (id : String) : Prop :=
  ∀ (env : Environment V) (new : V),
    evaluation.eval value (Function.update env id new) = evaluation.eval value env

/-- No value depends on a name before it. -/
def ReadsAhead (parts : List (String × Expr)) : Prop :=
  parts.Pairwise fun earlier later => evaluation.Ignores later.2 earlier.1

variable {evaluation}

theorem eval_assignInTurn (ignored : ∀ part ∈ parts, evaluation.Ignores value part.1)
    (env : Environment V) :
    evaluation.eval value (evaluation.assignInTurn parts env) = evaluation.eval value env := by
  induction parts generalizing env with
  | nil => rfl
  | cons part parts ih =>
    rw [forall_mem_cons] at ignored
    exact (ih ignored.2 _).trans (ignored.1 env _)

theorem ReadsAhead.undisturbed (ahead : evaluation.ReadsAhead parts) (env : Environment V) :
    evaluation.Undisturbed parts env := by
  intro before id value after split
  subst split
  have apart := (pairwise_append.mp ahead).2.2
  exact eval_assignInTurn (fun part member => apart part member (id, value) mem_cons_self) env

theorem assignInTurn_eq_assignAtOnce_iff (distinct : (parts.map (·.1)).Nodup)
    (env : Environment V) :
    evaluation.assignInTurn parts env = evaluation.assignAtOnce parts env ↔
      evaluation.Undisturbed parts env := by
  have last {before after : List (String × Expr)} {id : String} {value : Expr}
      (split : parts = before ++ (id, value) :: after) : id ∉ after.map (·.1) := by
    rw [split, map_append] at distinct
    exact (nodup_cons.mp (nodup_append.mp distinct).2.1).1
  -- Each name gets a value once, so its value at the end is the one that its part had.
  have atPart {before after : List (String × Expr)} {id : String} {value : Expr}
      (split : parts = before ++ (id, value) :: after) :
      evaluation.assignInTurn parts env id =
          evaluation.eval value (evaluation.assignInTurn before env) ∧
        evaluation.assignAtOnce parts env id = evaluation.eval value env := by
    have outside := last split
    subst split
    exact ⟨assign_of_mem outside env, assign_of_mem outside env⟩
  constructor
  · intro same before id value after split
    rw [← (atPart split).1, same, (atPart split).2]
  · intro undisturbed
    funext id
    by_cases member : id ∈ parts.map (·.1)
    · obtain ⟨part, isPart, rfl⟩ := mem_map.mp member
      obtain ⟨before, after, split⟩ := append_of_mem isPart
      rw [(atPart split).1, (atPart split).2]
      exact undisturbed before part.1 part.2 after split
    · exact (assign_of_not_mem member env).trans (assign_of_not_mem member env).symm

end Evaluation

namespace Typed

/-- The assignments of the parts do the same as that of the tuple exactly if no value is disturbed
by the assignments before it. This is so if no value depends on a name before it. -/
theorem run_unfold_eq_exec_iff {V : Type} (evaluation : Evaluation V) {source : Source}
    {scope : Scope} {type : Term} {stmts : List Stmt} (shape : target.partsFor? value = some parts)
    (distinct : (parts.map (·.1)).Nodup) (done : unfold source scope type value target = .ok stmts)
    (site : Site) (env : Environment V) :
    evaluation.exec env (.assign site [target] value) = some (evaluation.assignAtOnce parts env) ∧
    evaluation.run stmts env = some (evaluation.assignInTurn parts env) ∧
    (evaluation.run stmts env = evaluation.exec env (.assign site [target] value) ↔
      evaluation.Undisturbed parts env) ∧
    (evaluation.ReadsAhead parts →
      evaluation.run stmts env = evaluation.exec env (.assign site [target] value)) := by
  have once := evaluation.exec_assign shape site env
  have turn := evaluation.run_unfold target shape done env
  have same : evaluation.run stmts env = evaluation.exec env (.assign site [target] value) ↔
      evaluation.Undisturbed parts env := by
    rw [once, turn, Option.some.injEq]
    exact Evaluation.assignInTurn_eq_assignAtOnce_iff distinct env
  exact ⟨once, turn, same, fun ahead => same.mpr (ahead.undisturbed env)⟩

end Typed

/-- Numbers and tuples. -/
inductive Datum where
  | number (value : Int)
  | tuple (elements : List Datum)

namespace Datum

mutual

/-- The value of an expression of names and tuples. -/
def ofExpr (expr : Expr) (env : Environment Datum) : Datum :=
  match expr with
  | .name _ id _ => env id
  | .tuple _ parts _ => tuple (ofExprs parts env)
  | _ => number 0
termination_by structural expr

def ofExprs (parts : List Expr) (env : Environment Datum) : List Datum :=
  match parts with
  | [] => []
  | part :: parts => ofExpr part env :: ofExprs parts env
termination_by structural parts

end

theorem ofExprs_eq_map (parts : List Expr) (env : Environment Datum) :
    ofExprs parts env = parts.map fun part => ofExpr part env := by
  induction parts with
  | nil => rfl
  | cons part parts ih => rw [ofExprs, ih, map_cons]

def evaluation : Evaluation Datum where
  eval := ofExpr
  tuple := tuple
  elements?
    | tuple elements => some elements
    | number _ => none
  elements?_tuple _ := rfl
  eval_tuple env _ := by rw [ofExpr, ofExprs_eq_map]

end Datum

namespace Typed

def namePair (first second : String) : Expr :=
  .tuple none [.name none first .load, .name none second .load] .load

def nested (first second third : String) : Expr :=
  .tuple none [.name none first .load, namePair second third] .load

def intPair : Term := .con "tuple_2" [.int, .int]

/-- A nested rotation and a swap can be unfolded. -/
theorem exists_unfold : ∃ source : Source,
    (∃ stmts, unfold source {} (.con "tuple_2" [.int, intPair]) (nested "b" "c" "d")
      (nested "a" "b" "c") = .ok stmts) ∧
    ∃ stmts, unfold source {} intPair (namePair "b" "a") (namePair "a" "b") = .ok stmts := by
  have evaluated : ∃ theory, Theory.ofSurvey {} { maxTupleLength := 2 } = .ok theory ∧
      (∃ stmts, unfold ⟨theory, {}, {}⟩ {} (.con "tuple_2" [.int, intPair]) (nested "b" "c" "d")
        (nested "a" "b" "c") = .ok stmts) ∧
      ∃ stmts, unfold ⟨theory, {}, {}⟩ {} intPair (namePair "b" "a") (namePair "a" "b") =
        .ok stmts := by
    decide +kernel
  obtain ⟨theory, -, both⟩ := evaluated
  exact ⟨⟨theory, {}, {}⟩, both⟩

/-- In a rotation, each value is that of a name behind it. -/
theorem run_unfold_rotation : ∃ (source : Source) (type : Term) (stmts : List Stmt),
    unfold source {} type (nested "b" "c" "d") (nested "a" "b" "c") = .ok stmts ∧
    ∀ env, Datum.evaluation.run stmts env =
      Datum.evaluation.exec env (.assign {} [nested "a" "b" "c"] (nested "b" "c" "d")) := by
  obtain ⟨source, ⟨stmts, done⟩, -⟩ := exists_unfold
  have shape : (nested "a" "b" "c").partsFor? (nested "b" "c" "d") = some
      [("a", .name none "b" .load), ("b", .name none "c" .load), ("c", .name none "d" .load)] := rfl
  have ahead : Datum.evaluation.ReadsAhead
      [("a", .name none "b" .load), ("b", .name none "c" .load), ("c", .name none "d" .load)] := by
    simp [Evaluation.ReadsAhead, Evaluation.Ignores, Datum.evaluation, Datum.ofExpr]
  refine ⟨source, _, stmts, done, fun env => ?_⟩
  have distinct : (["a", "b", "c"] : List String).Nodup := by decide
  exact (run_unfold_eq_exec_iff Datum.evaluation shape distinct done {} env).2.2.2 ahead

/-- A swap is lost if done one after the other. -/
theorem run_unfold_swap : ∃ (source : Source) (type : Term) (stmts : List Stmt),
    unfold source {} type (namePair "b" "a") (namePair "a" "b") = .ok stmts ∧
    ∃ env, Datum.evaluation.run stmts env ≠
      Datum.evaluation.exec env (.assign {} [namePair "a" "b"] (namePair "b" "a")) := by
  obtain ⟨source, -, stmts, done⟩ := exists_unfold
  have shape : (namePair "a" "b").partsFor? (namePair "b" "a") = some
      [("a", .name none "b" .load), ("b", .name none "a" .load)] := rfl
  let env : Environment Datum := fun id => .number (if id = "a" then 1 else 2)
  refine ⟨source, _, stmts, done, env, ?_⟩
  rw [Datum.evaluation.run_unfold _ shape done, Datum.evaluation.exec_assign shape]
  intro same
  have atB := congrFun (Option.some.inj same) "b"
  simp [Evaluation.assignInTurn, Evaluation.assignAtOnce, Evaluation.assign, Datum.evaluation,
    Datum.ofExpr, env] at atB

end Typed

end TypeInference
