/- In a call, each type variable stands for one of its options. -/

import TypeInference.Proofs.Branches
import TypeInference.Proofs.ConcreteModels
import TypeInference.Proofs.ReachedOptions

namespace TypeInference

open List Interpretation Hint

namespace Signature

variable {signature : Signature} {theory : Theory} {vars : DeclaredVars} {formula : Formula}
  {args : List Meaning} {result : Term} {before after : Hint.Progress}

theorem callConstraint_withBounds (bounds : Table String Expr) (args : List Meaning)
    (result : Meaning) :
    signature.callConstraint theory { vars with bounds := bounds } args result =
      signature.callConstraint theory vars args result := by
  have alike : Hint.Setting.Alike ⟨theory, { vars with bounds := bounds }, signature.scope⟩
      ⟨theory, vars, signature.scope⟩ fun _ => True :=
    ⟨rfl, fun _ => rfl, rfl, rfl, fun _ => rfl, fun _ => rfl, fun _ _ _ _ _ _ => trivial⟩
  exact callConstraint_congr alike (fun _ _ _ _ => trivial) result

/-- A call compares arguments and result with the hints. -/
theorem step_callConstraint (ending : Hint.Ending ⟨theory, vars, signature.scope⟩)
    {result : Meaning}
    (called : (signature.callConstraint theory vars args result).run before =
      (.ok (some formula), after)) :
    args.length ≤ signature.args.length ∧ ∃ fits returned, formula = .and (fits ++ [returned]) ∧
      ending.Step { before with instances := {} } after
        (Forall₂ (fun pair part => ending.Compares pair.1 (ofExpr? pair.2) part)
            (args.zip signature.args) fits ∧
          ending.Compares result (ofExpr? signature.returns) returned) := by
  rw [callConstraint] at called
  split at called
  · obtain ⟨none, -⟩ := run_pure_ok called
    cases none
  · next accepted =>
    simp only [accepts, Bool.not_eq_true, Bool.not_eq_false', Bool.and_eq_true,
      decide_eq_true_eq] at accepted
    obtain ⟨⟨⟩, _, reset, called⟩ := run_bind_ok called
    obtain rfl := (Prod.mk.inj reset).2
    obtain ⟨fits, _, areFits, called⟩ := run_bind_ok called
    obtain ⟨meaning, _, isMeaning, called⟩ := run_bind_ok called
    obtain ⟨returned, _, isReturned, called⟩ := run_bind_ok called
    obtain ⟨is, rfl⟩ := run_pure_ok called
    refine ⟨accepted.2, fits, returned, (Option.some.inj is).symm, ?_⟩
    exact (Hint.Ending.step_mapM Hint.Ending.step_compare areFits).trans
      (Hint.Ending.step_compare (run_bind_eq_ok_iff.mpr ⟨meaning, _, isMeaning, isReturned⟩))

theorem forall₂_accords (ending : Hint.Ending ⟨theory, vars, signature.scope⟩) {args : List Term}
    (called : (signature.callConstraint theory vars (args.map .term) (.term result)).run before =
      (.ok (some formula), ending.final)) (started : ending.start ≤ before.log.hard.size)
    (holds : ending.model.holds formula ending.assigned) :
    Forall₂ ending.Accords (args ++ [result]) (signature.hints args.length) := by
  obtain ⟨short, fits, returned, rfl, step⟩ := step_callConstraint ending called
  obtain ⟨⟨areFits, isReturned⟩, -⟩ := step.ends started (.refl _)
  rw [holds_and, forall_mem_append] at holds
  rw [zip_map_left, forall₂_map_left_iff] at areFits
  rw [hints, map_append]
  refine rel_append ?_ (.cons ?_ .nil)
  · rw [forall₂_map_right_iff]
    refine forall₂_take (by simpa using short) fun pair member => ?_
    obtain ⟨part, inside, compares⟩ := forall₂_exists_right areFits member
    exact Hint.Ending.accords_of_compares compares (holds.1 part inside)
  · exact Hint.Ending.accords_of_compares isReturned (holds.2 returned (mem_singleton_self _))

/-- What a call takes its arguments and result to be. The constants of type variables have the
values of options, and bounds have no say. -/
theorem call_instantiates_with_options {args : List Term}
    (called : (signature.callConstraint theory vars (args.map .term) (.term result)).run before =
      (.ok (some formula), after)) (model : Interpretation theory) (assigned : Assignment)
    (holds : model.holds formula assigned)
    (asserted : ∀ assertion ∈ after.log.hard.toList.drop before.log.hard.size,
      ∀ part ∈ assertion.parts, model.holds part assigned) :
    let setting : Hint.Setting := ⟨theory, vars, signature.scope⟩
    let value? (name : String) := (after.instances.get? name).map (model.eval assigned)
    Forall₂ (fun t hint => hint.Allows setting .instantiated value? (model.eval assigned t))
        (args ++ [result]) (signature.hints args.length) ∧
      (∀ hint ∈ signature.hints args.length, ∀ name ∈ hint.names,
        name ∉ Hint.primitives.map (·.1) → name ∉ theory.classNames → ∃ value,
          value? name = some value) ∧
      (∀ name value, value? name = some value → ∃ options, vars.options.get? name = some options ∧
        (options = [] ∨ ∃ option ∈ options,
          (Hint.ofExpr option).Allows setting .mixed value? value)) ∧
      ∀ bounds, signature.callConstraint theory { vars with bounds := bounds } (args.map .term)
        (.term result) = signature.callConstraint theory vars (args.map .term) (.term result) := by
  intro setting value?
  let ending : Hint.Ending setting := ⟨model, assigned, before.log.hard.size, after, asserted⟩
  have accord := forall₂_accords ending called le_rfl holds
  obtain ⟨-, _, _, -, step⟩ := step_callConstraint ending called
  obtain ⟨-, new⟩ := step.ends le_rfl (.refl after)
  refine ⟨accord.imp fun _ _ accords => accords.1, ?_, ?_,
    fun bounds => callConstraint_withBounds bounds _ _⟩
  · intro hint member name inside notPrimitive notClass
    obtain ⟨_, -, -, covers⟩ := forall₂_exists_left accord member
    obtain ⟨constant, known⟩ := covers name inside notPrimitive notClass rfl
    exact ⟨_, congrArg (Option.map _) known⟩
  · intro name value is
    obtain ⟨constant, known, rfl⟩ := Option.map_eq_some_iff.mp is
    rcases new known with old | isOption
    · cases old
    · exact isOption

/-- One type variable with options, and one with a bound. -/
def sampleVars : DeclaredVars where
  options := ⟨[("T", [nameExpr "int", nameExpr "str"]), ("N", [])]⟩
  bounds := ⟨[("N", nameExpr "complex")]⟩

/-- A function whose result is like its first argument. -/
def sampleSignature : Signature where
  label := 0
  args := [some (nameExpr "T"), some (nameExpr "N")]
  returns := some (nameExpr "T")
  defaults := 0
  scope := .nowhere

/-- A call of the function with two constants. -/
def sampleCall (theory : Theory) : Hint.Reading (Option Formula) :=
  sampleSignature.callConstraint theory sampleVars ([.const "a", .const "b"].map .term)
    (.term (.const "c"))

/-- All constants stand for texts. -/
def texts (theory : Theory) : Valuation := ⟨theory.sort, [], fun _ => .str, []⟩

set_option synthInstance.maxSize 2000 in
/-- What can be computed of the call in the empty program. -/
theorem exists_evaluated : ∃ program theory, Theory.ofBody [] {} = .ok (program, theory) ∧
    ((∃ axioms, Axioms.ofTheory theory = .ok axioms) ∧ theory.sort.IsDatatype ∧
      "T" ∉ theory.classNames ∧ (∀ t ∈ [Term.str, .complex], theory.IsGround t) ∧
      -- From texts the bases lead to no number.
      ∀ entry ∈ theory.survey.allClasses.entries, entry.1.name ∈ ["str", "sequence", "object"] →
        ∀ base ∈ entry.2, base ∈ ["str", "sequence", "object"]) ∧
    ∃ formula? after, (sampleCall theory).run { log := {} } = (.ok formula?, after) ∧
      (∀ assertion ∈ after.log.hard.toList, ∀ part ∈ assertion.parts,
        (texts theory).truth? part = some true) ∧
      (∃ constant ∈ after.instances.get? "N", (texts theory).value? constant = some .str) ∧
      ∃ formula ∈ formula?, (texts theory).truth? formula = some true := by
  decide +kernel

/-- The call holds if all constants are texts, which are no numbers. -/
theorem exists_sampleCall : ∃ program theory axioms formula after,
    Theory.ofBody [] {} = .ok (program, theory) ∧ Axioms.ofTheory theory = .ok axioms ∧
    (sampleCall theory).run { log := {} } = (.ok (some formula), after) ∧
    "T" ∉ theory.classNames ∧
    ∃ model : Interpretation theory, model.IsStandard axioms ∧
      model.holds formula (fun _ => .str) ∧
      (∀ assertion ∈ after.log.hard.toList, ∀ part ∈ assertion.parts,
        model.holds part fun _ => .str) ∧
      ∃ constant, after.instances.get? "N" = some constant ∧
        ¬ model.holds (.subtype Term.noMethod constant .complex) fun _ => .str := by
  obtain ⟨program, theory, done, ⟨⟨axioms, stated⟩, datatype, notClass, ground, closed⟩, _, after,
    called, logged, ⟨constant, known, isStr⟩, formula, rfl, truth⟩ := exists_evaluated
  obtain ⟨-, surveyed, built⟩ := Theory.ofBody_eq_ok done
  obtain ⟨model, standard, structural⟩ := exists_isStandard_structural
    (Survey.ofProgram_isComplete surveyed) built rfl stated datatype
  have fits : (texts theory).Fits model :=
    ⟨standard.select, fun _ member => absurd member not_mem_nil,
      fun _ member => absurd member not_mem_nil⟩
  refine ⟨program, theory, axioms, formula, after, done, stated, called, notClass, model, standard,
    (fits.holds_iff _ truth).mpr rfl, fun assertion member part inside =>
      (fits.holds_iff _ (logged assertion member part inside)).mpr rfl, constant, known, ?_⟩
  have isValue : model.eval (fun _ => .str) constant = .str := fits.eval_eq _ isStr
  have isComplex : model.eval (fun _ => .str) .complex = .complex := eval_con _ _ []
  rw [holds_subtype, isValue, isComplex]
  change ¬ model.subtype Term.noMethod .str .complex
  rw [structural (ground _ (by simp)) (ground _ (by simp))]
  exact not_structuralSubtype_of_closed closed (by decide) (by decide) (by decide)

/-- The constant with options is a number or a text. -/
theorem sampleCall_instantiates : ∃ program theory axioms formula after,
    Theory.ofBody [] {} = .ok (program, theory) ∧ Axioms.ofTheory theory = .ok axioms ∧
    (sampleCall theory).run { log := {} } = (.ok (some formula), after) ∧
    ∃ model : Interpretation theory, model.IsStandard axioms ∧ ∃ assigned,
      model.holds formula assigned ∧
      (∀ assertion ∈ after.log.hard.toList, ∀ part ∈ assertion.parts, model.holds part assigned) ∧
      ∃ constant, after.instances.get? "T" = some constant ∧
        (model.eval assigned constant = .int ∨ model.eval assigned constant = .str) := by
  obtain ⟨program, theory, axioms, formula, after, done, stated, called, notClass, model, standard,
    holds, asserted, -⟩ := exists_sampleCall
  obtain ⟨-, covered, isOption, -⟩ := call_instantiates_with_options called model _ holds asserted
  obtain ⟨value, isValue⟩ := covered (.name "T" 1) (mem_cons_self ..) "T"
    (mem_singleton_self _) (by decide) notClass
  obtain ⟨constant, known, rfl⟩ := Option.map_eq_some_iff.mp isValue
  obtain ⟨options, declared, isOne⟩ := isOption "T" _ isValue
  obtain rfl : [nameExpr "int", nameExpr "str"] = options := Option.some.inj declared
  obtain ⟨option, member, allows⟩ := isOne.resolve_left (cons_ne_nil _ _)
  refine ⟨program, theory, axioms, formula, after, done, stated, called, model, standard, _, holds,
    asserted, constant, known, ?_⟩
  rcases mem_pair.mp member with rfl | rfl
  · exact .inl ((allows_primitive_iff (by decide : ("int", .int) ∈ _)).mp allows)
  · exact .inr ((allows_primitive_iff (by decide : ("str", .str) ∈ _)).mp allows)

/-- A text is possible although the bound is a number. -/
theorem sampleCall_ignores_bound : ∃ program theory axioms formula after constant,
    Theory.ofBody [] {} = .ok (program, theory) ∧ Axioms.ofTheory theory = .ok axioms ∧
    (sampleCall theory).run { log := {} } = (.ok (some formula), after) ∧
    sampleVars.bounds.get? "N" = some (Hint.nameExpr "complex") ∧
    after.instances.get? "N" = some constant ∧
    ∃ model : Interpretation theory, model.IsStandard axioms ∧ ∃ assigned,
      model.holds formula assigned ∧
      (∀ assertion ∈ after.log.hard.toList, ∀ part ∈ assertion.parts, model.holds part assigned) ∧
      ¬ model.holds (.subtype Term.noMethod constant .complex) assigned := by
  obtain ⟨program, theory, axioms, formula, after, done, stated, called, -, model, standard, holds,
    asserted, constant, known, notBelow⟩ := exists_sampleCall
  exact ⟨program, theory, axioms, formula, after, constant, done, stated, called, rfl, known, model,
    standard, _, holds, asserted, notBelow⟩

/-- A call states the same whatever other type variables are declared, as long as the names to which
its hints lead mean the same. -/
theorem call_depends_on_reached_options {other : Theory} {others : DeclaredVars}
    (sameClasses : theory.classNames = other.classNames)
    (sameAccessors : ∀ name, theory.sort.accessors? ("class_" ++ name) =
      other.sort.accessors? ("class_" ++ name))
    (sameTuples : theory.sort.maxTuple = other.sort.maxTuple)
    (sameFunctions : theory.sort.maxFunc = other.sort.maxFunc)
    (agree : ∀ name, vars.Reaches (signature.hints args.length) name →
      vars.options.get? name = others.options.get? name ∧
      Hint.Setting.typeVar? ⟨theory, vars, signature.scope⟩ name =
        Hint.Setting.typeVar? ⟨other, others, signature.scope⟩ name) (result : Meaning) :
    signature.callConstraint theory vars args result =
      signature.callConstraint other others args result := by
  have alike : Hint.Setting.Alike ⟨theory, vars, signature.scope⟩ ⟨other, others, signature.scope⟩
      (vars.Reaches (signature.hints args.length)) :=
    ⟨sameClasses, sameAccessors, sameTuples, sameFunctions, fun reached => (agree _ reached).2,
      fun reached => (agree _ reached).1,
      fun reached declared _ member _ named => reached.ofOption declared member named⟩
  exact callConstraint_congr alike (fun _ member _ named => .ofHint member named) result

/-- The hints lead to their own type variables. -/
theorem mem_of_reaches_sample {name : String}
    (reached : sampleVars.Reaches (sampleSignature.hints 2) name) :
    name ∈ ["T", "N", "int", "str"] := by
  induction reached with
  | ofHint member named =>
    have closed : ∀ hint ∈ sampleSignature.hints 2, ∀ name ∈ hint.names,
        name ∈ ["T", "N", "int", "str"] := by decide
    exact closed _ member _ named
  | ofOption _ declared member named ih =>
    have closed : ∀ name ∈ ["T", "N", "int", "str"],
        ∀ hint ∈ ofExprs ((sampleVars.options.get? name).getD []), ∀ other ∈ hint.names,
          other ∈ ["T", "N", "int", "str"] := by decide
    exact closed _ ih _ (by rwa [declared]) _ named

/-- One more type variable, which is not used. -/
def moreVars : DeclaredVars :=
  { sampleVars with options := sampleVars.options.insert "U" [nameExpr "bytes"] }

/-- The options of another type variable do not matter. -/
theorem sampleCall_ignores_other : ∃ program theory, Theory.ofBody [] {} = .ok (program, theory) ∧
    sampleCall theory = sampleSignature.callConstraint theory moreVars
      ([.const "a", .const "b"].map .term) (.term (.const "c")) := by
  obtain ⟨program, theory, done, -⟩ := exists_evaluated
  have agree (name : String) (reached : sampleVars.Reaches (sampleSignature.hints 2) name) :
      sampleVars.options.get? name = moreVars.options.get? name := by
    have other : name ≠ "U" := by
      rintro rfl
      exact absurd (mem_of_reaches_sample reached) (by decide)
    exact (Table.get?_insert_of_ne _ _ other).symm
  exact ⟨program, theory, done, call_depends_on_reached_options rfl (fun _ => rfl) rfl rfl
    (fun name reached => ⟨agree name reached, rfl⟩) _⟩

/-- A call of a function of the library. -/
def absCall : Stmt := .assign {} [.name (some 2) "x" .store]
  (.call (some 2) (.name (some 2) "abs" .load) [.literal (some 2) (.int 1)] [])

/-- The program declares a type variable of that name. -/
def numDeclaration : Stmt := .assign {} [.name (some 1) "Num" .store]
  (.call (some 1) (.name (some 1) "TypeVar" .load) [.literal (some 1) (.str "Num" none),
    .name (some 1) "str" .load, .name (some 1) "bytes" .load] [])

/-- What a constant may be equal to. -/
def alternatives : Formula → List Term
  | .or options => options.filterMap fun
      | .eq _ t => some t
      | _ => none
  | _ => []

/-- What the type variable of the function may stand for. -/
def numOptions (prepared : Prepared) : Option (List Term) :=
  let (outcome, final) := prepared.start.infer
  outcome.toOption.map fun _ => (final.log.hard.toList.filter fun assertion =>
    assertion.message == "Generic type in line 26").flatMap (·.parts.flatMap alternatives)

/-- Then the argument has to be a text or bytes. -/
theorem absCall_reads_declaration_of_program : ∃ own declared,
    Prepared.ofBody [absCall] none {} = .ok own ∧
    Prepared.ofBody [numDeclaration, absCall] none {} = .ok declared ∧
    numOptions own = some [] ∧ numOptions declared = some [.str, .bytes] := by
  simp only [exists_and_left]
  decide +kernel

end Signature

end TypeInference
