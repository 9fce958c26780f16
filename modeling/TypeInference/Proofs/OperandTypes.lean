/- Which operands operators compare and accept. -/

import TypeInference.Proofs.OperatorResults

namespace TypeInference

open List Constraint

def CompareOperator.isOrder (op : CompareOperator) : Bool := op.orderMethod?.isSome

namespace Infer

variable {line : Nat} {left : Meaning} {chain : List (CompareOperator × Infer Meaning)}

/-- An operator by order asserts how its operands compare. -/
def compare (line : Nat) (op : CompareOperator) (left right : Meaning) : Infer Unit :=
  match op.orderMethod? with
  | none => pure ()
  | some method => do
    assert (inLine (method ++ " comparison") line)
      (← ordering (← frame) (← left.toTerm) (← right.toTerm) method)

/-- Takes the operands of a chain one after the other. Left of an operator is the operand before it,
unless an operator keeps its own. -/
def compareEach (line : Nat) (keeps : CompareOperator → Bool) (left : Meaning) :
    List (CompareOperator × Infer Meaning) → Infer Unit
  | [] => pure ()
  | (op, step) :: rest => do
    let right ← step
    compare line op left right
    compareEach line keeps (if keeps op then left else right) rest

theorem compareEach_cons (keeps : CompareOperator → Bool) (op : CompareOperator)
    (step : Infer Meaning) : compareEach line keeps left ((op, step) :: chain) = (do
      let right ← step
      compare line op left right
      compareEach line keeps (if keeps op then left else right) chain) := rfl

theorem comparisons_eq_compareEach :
    comparisons line left chain = compareEach line (fun op => !op.isOrder) left chain := by
  induction chain generalizing left with
  | nil => rfl
  | cons entry chain ih =>
    obtain ⟨op, step⟩ := entry
    rw [compareEach_cons]
    unfold comparisons compare
    cases isMethod : op.orderMethod? <;> simp [CompareOperator.isOrder, isMethod, ih]

/-- Without comparisons by order, the left does not matter. -/
theorem compareEach_of_unordered {keeps keeps' : CompareOperator → Bool} {left' : Meaning}
    (unordered : ∀ entry ∈ chain, entry.1.isOrder = false) :
    compareEach line keeps left chain = compareEach line keeps' left' chain := by
  induction chain generalizing left left' with
  | nil => rfl
  | cons entry chain ih =>
    obtain ⟨op, step⟩ := entry
    have isMethod : op.orderMethod? = none :=
      Option.not_isSome_iff_eq_none.mp (Bool.eq_false_iff.mp (unordered (op, step) mem_cons_self))
    have passed (left right : Meaning) : compare line op left right = pure () := by
      rw [compare, isMethod]
    simp only [compareEach_cons, passed]
    exact bind_congr fun right => bind_congr fun _ =>
      ih fun entry member => unordered entry (mem_cons_of_mem _ member)

/-- Neighbours are compared if comparisons by order come first. -/
theorem compareEach_eq_of_pairwise {ops : List CompareOperator} {steps : List (Infer Meaning)}
    (first : ops.Pairwise fun op next => next.isOrder → op.isOrder) :
    compareEach line (fun op => !op.isOrder) left (ops.zip steps) =
      compareEach line (fun _ => false) left (ops.zip steps) := by
  induction ops generalizing left steps with
  | nil => rfl
  | cons op ops ih =>
    cases steps with
    | nil => rfl
    | cons step steps =>
      obtain ⟨above, rest⟩ := pairwise_cons.mp first
      cases isOrder : op.isOrder with
      | true =>
        rw [zip_cons_cons, compareEach_cons, compareEach_cons]
        simp [isOrder, ih rest]
      | false =>
        refine compareEach_of_unordered fun entry member => ?_
        rcases mem_cons.mp member with rfl | later
        · exact isOrder
        · have later := above entry.1 (of_mem_zip later).1
          rw [isOrder] at later
          exact Bool.eq_false_iff.mpr fun ordered => Bool.false_ne_true (later ordered)

/-- A chain asserts how two operands compare, for the operators that compare by order only. The left
one is the operand before the operator if comparisons by order come first. -/
theorem comparisons_between_neighbours (line : Nat) (ops : List CompareOperator) :
    (∀ left steps, comparisons line left (ops.zip steps) =
      compareEach line (fun op => !op.isOrder) left (ops.zip steps)) ∧
    ((ops.Pairwise fun op next => next.isOrder → op.isOrder) →
      ∀ left steps, comparisons line left (ops.zip steps) =
        compareEach line (fun _ => false) left (ops.zip steps)) :=
  ⟨fun _ _ => comparisons_eq_compareEach,
    fun first _ _ => comparisons_eq_compareEach.trans (compareEach_eq_of_pairwise first)⟩

/-- Before an equality, operands are compared with their neighbours. -/
theorem ordered_then_equal_between_neighbours :
    comparisons 1 (.term .int) [(.lt, pure (.term .float)), (.ltE, pure (.term .bool)),
        (.eq, pure (.term .str))] =
      (do compare 1 .lt (.term .int) (.term .float)
          compare 1 .ltE (.term .float) (.term .bool)
          pure ()) :=
  (comparisons_between_neighbours 1 [.lt, .ltE, .eq]).2 (by decide) (.term .int)
    [pure (.term .float), pure (.term .bool), pure (.term .str)]

/-- The first operand is compared with the last one. -/
theorem second_operand_not_compared : ∃ theory axioms,
    Theory.ofEmptyProgram {} {} = .ok (theory, axioms) ∧ ∃ after formulas,
      ((Expr.compare (some 1) (.literal (some 1) (.int 1)) [.eq, .lt]
        [.literal (some 1) (.str "a" none), .literal (some 1) (.int 2)]).infer none).run
          { theory := theory } = (.ok (.term .bool), after) ∧
      after.log.hard = #[⟨"__lt__ comparison in line 1", formulas⟩] ∧
      ordering ⟨theory, Term.noMethod⟩ .int .int "__lt__" = .ok formulas ∧
      ordering ⟨theory, Term.noMethod⟩ .str .int "__lt__" ≠ .ok formulas := by
  obtain ⟨theory, axioms, empty, -, plain⟩ := Theory.exists_emptyModel
  have stated (left right : Term) : ∃ rule, ordering ⟨theory, Term.noMethod⟩ left right
      "__lt__" = .ok [notNone left right, rule] :=
    ⟨_, bind_eq_ok_iff.mpr ⟨[], overloading_eq_nil
      (fun name isClass => (plain name isClass).2 _ (by decide)) left right .bool, rfl⟩⟩
  obtain ⟨rule, isRule⟩ := stated .int .int
  obtain ⟨other, isOther⟩ := stated .str .int
  let message := "__lt__ comparison in line 1"
  let after : Session := { theory := theory
                           log := ({} : Log).assert message [notNone .int .int, rule] }
  let chain : List (CompareOperator × Infer Meaning) :=
    [(.eq, pure (.term .str)), (.lt, pure (.term .int))]
  have compared :
      (comparisons 1 (.term .int) chain).run { theory := theory } = (.ok (), after) := by
    change ((liftM (ordering ⟨theory, Term.noMethod⟩ .int .int "__lt__") :
      Infer (List Formula)) >>= fun parts => assert message parts >>= fun _ => pure ()).run _ = _
    rw [isRule]
    rfl
  refine ⟨theory, axioms, empty.done, after, [notNone .int .int, rule], ?_, rfl, isRule, ?_⟩
  · change (comparisons 1 (.term .int) chain >>= fun _ => pure (Meaning.term .bool)).run
      { theory := theory } = _
    rw [run_bind_of_ok compared]
    rfl
  · rw [isOther]
    intro same
    exact absurd (cons.inj (Except.ok.inj same)).1
      (by simp [notNone, Term.str, Term.int, Term.atom])

end Infer

open Interpretation ArithmeticOperator

variable {theory : Theory} {model : Interpretation theory} {frame : Frame} {assigned : Assignment}
  {left right result : Term} {formulas : List Formula} {name : String}

namespace Interpretation

/-- A rule of arithmetic applies, and a left number is a whole one. -/
theorem holds_bitwise
    (done : bitwise frame left right result name = .ok formulas) :
    (∀ formula ∈ formulas, model.holds formula assigned) ↔
      (model.eval assigned left ≠ Term.none ∧ model.eval assigned right ≠ Term.none ∧
        (model.Combines frame assigned (model.signed assigned left right) (model.eval assigned left)
          (model.eval assigned right) (model.eval assigned result) (.other name false) ∨
        model.Overloads frame assigned name (model.eval assigned left) (model.eval assigned right)
          (model.eval assigned result))) ∧
      (model.Below frame assigned (model.eval assigned left) .complex →
        model.Below frame assigned (model.eval assigned right) .complex →
        model.Below frame assigned (model.eval assigned left) .int) := by
  obtain ⟨arithmetic, isArithmetic, rfl⟩ := map_ok done
  rw [forall_mem_append, holds_constraint (.other name false) isArithmetic, forall_mem_singleton]
  simp only [holds, holdsAll, Frame.subtype, holds_subtype, and_true, and_imp, Below]
  exact Iff.rfl

theorem IsStructural.below_complex (structural : model.IsStructural frame assigned)
    (number : name ∈ Family.numbers) : model.Below frame assigned (.atom name) .complex := by
  have all : ∀ number ∈ Family.numbers, isNumberBelow number "complex" := by decide
  exact (structural.isNumberBelow_iff number (by decide)).mpr (all name number)

end Interpretation

namespace Theory

variable {settings : Settings} {survey : Survey} {axioms : List Formula}

/-- Unless a class has a method for it, a bitwise operator accepts whole numbers on its left side,
and on its right side floating point and complex numbers as well. -/
theorem bitwise_operands (complete : survey.IsComplete)
    (built : ofSurvey settings survey = .ok theory) (stated : theory.subtypeAxioms = .ok axioms)
    (satisfied : model.Satisfies axioms) {method : Term} (isMethod : theory.IsMethod method)
    (groundLeft : theory.IsGround (model.eval assigned left))
    (groundRight : theory.IsGround (model.eval assigned right))
    (done : bitwise ⟨theory, method⟩ left right result name = .ok formulas)
    (accepted : ∀ formula ∈ formulas, model.holds formula assigned) :
    model.Overloads ⟨theory, method⟩ assigned name (model.eval assigned left)
      (model.eval assigned right) (model.eval assigned result) ∨
    model.Below ⟨theory, method⟩ assigned (model.eval assigned left) .int ∧
      (model.Below ⟨theory, method⟩ assigned (model.eval assigned right) .int ∨
        model.eval assigned right = .float ∨ model.eval assigned right = .complex) := by
  have structural := isStructural_of_model complete built stated satisfied isMethod assigned
  obtain ⟨⟨someLeft, someRight, combines | overloads⟩, restricted⟩ :=
    (holds_bitwise done).mp accepted
  · rw [Combines, ← or_assoc] at combines
    have exceeds := combines.resolve_right fun formats => Bool.false_ne_true formats.1
    obtain ⟨l, leftNumber, r, rightNumber, isLeft, isRight, -⟩ :=
      structural.exists_greater ⟨groundLeft, someLeft⟩ ⟨groundRight, someRight⟩ exceeds
    rw [isLeft, isRight] at restricted ⊢
    refine .inr ⟨restricted (structural.below_complex leftNumber)
      (structural.below_complex rightNumber), ?_⟩
    have kinds : ∀ number ∈ Family.numbers,
        isNumberBelow number "int" ∨ number = "float" ∨ number = "complex" := by decide
    rcases kinds r rightNumber with whole | rfl | rfl
    · exact .inl ((structural.isNumberBelow_iff rightNumber (by decide)).mpr whole)
    · exact .inr (.inl rfl)
    · exact .inr (.inr rfl)
  · exact .inl overloads

/-- A whole number and any number at least as great are accepted. -/
theorem exists_bitwise : ∃ theory axioms, ∃ model : Interpretation theory,
    ∃ assigned : Assignment, IsEmpty theory {} axioms ∧ model.Satisfies axioms ∧
      model.IsStructural ⟨theory, Term.noMethod⟩ assigned ∧
    (∀ name ∈ theory.classNames, theory.method? name "__and__" = none) ∧
    ∀ name ∈ ["int", "float", "complex"], ∃ formulas,
      bitwise ⟨theory, Term.noMethod⟩ .int (.atom name) (.atom name) "__and__" =
        .ok formulas ∧ ∀ formula ∈ formulas, model.holds formula assigned := by
  obtain ⟨theory, axioms, empty, ⟨model, satisfied⟩, plain⟩ := exists_emptyModel
  have known (name : String) (isClass : name ∈ theory.classNames) :
      theory.methodIn name "__and__" = .ok none := (plain name isClass).2 _ (by decide)
  have noMethod (name : String) (isClass : name ∈ theory.classNames) :=
    method?_of_methodIn (known name isClass)
  let assigned : Assignment := fun _ => .object
  have structural := isStructural_of_model empty.complete empty.built empty.stated satisfied
    theory.isMethod_noMethod assigned
  refine ⟨theory, axioms, model, assigned, empty, satisfied, structural, noMethod,
    fun name listed => ?_⟩
  have above : ∀ name ∈ ["int", "float", "complex"], name ∈ Family.numbers ∧
      isNumberBelow "int" name := by decide
  obtain ⟨number, isAbove⟩ := above name listed
  obtain ⟨base, isBase⟩ := exists_constraint ⟨theory, Term.noMethod⟩ (.other "__and__" false)
    known .int (.atom name) (.atom name)
  obtain ⟨formulas, isFormulas⟩ : ∃ formulas, bitwise ⟨theory, Term.noMethod⟩ .int
      (.atom name) (.atom name) "__and__" = .ok formulas :=
    ⟨_, bind_eq_ok_iff.mpr ⟨base, isBase, rfl⟩⟩
  refine ⟨formulas, isFormulas, (holds_bitwise isFormulas).mpr ?_⟩
  rw [Term.int, eval_atom]
  exact ⟨⟨by decide, (structural.isOperand_number number).some,
    .inl (.inr (.inl ⟨structural.below_complex number,
      (structural.isNumberBelow_iff (by decide) number).mpr isAbove, rfl⟩))⟩,
    fun _ _ => (structural.isNumberBelow_iff (by decide) (by decide)).mpr (by decide)⟩

/-- Two whole numbers are accepted. -/
theorem whole_and_whole_accepted : ∃ theory axioms, ofEmptyProgram {} {} = .ok (theory, axioms) ∧
    ∃ (model : Interpretation theory) (assigned : Assignment) (formulas : List Formula),
      model.Satisfies axioms ∧ bitwise ⟨theory, Term.noMethod⟩ .int .int .int
        "__and__" = .ok formulas ∧
      (∀ formula ∈ formulas, model.holds formula assigned) ∧
      model.Below ⟨theory, Term.noMethod⟩ assigned .int .int := by
  obtain ⟨theory, axioms, model, assigned, empty, satisfied, structural, noMethod, accepts⟩ :=
    exists_bitwise
  obtain ⟨formulas, isFormulas, all⟩ := accepts "int" (by decide)
  have isInt : model.eval assigned .int = .int := eval_atom assigned _
  have ground : theory.IsGround (model.eval assigned .int) :=
    isInt ▸ (structural.isOperand_number (by decide)).ground
  refine ⟨theory, axioms, empty.done, model, assigned, formulas, satisfied, isFormulas, all, ?_⟩
  rcases bitwise_operands empty.complete empty.built empty.stated satisfied
    theory.isMethod_noMethod ground ground isFormulas all with
    ⟨name, isClass, hasMethod, -⟩ | ⟨below, -⟩
  · simp [noMethod name isClass] at hasMethod
  · rwa [isInt] at below

/-- A whole number and a floating point or complex number are accepted. -/
theorem whole_and_float_accepted : ∃ theory axioms, ofEmptyProgram {} {} = .ok (theory, axioms) ∧
    ∃ (model : Interpretation theory) (assigned : Assignment), model.Satisfies axioms ∧
      (∀ name ∈ theory.classNames, theory.method? name "__and__" = none) ∧
      ∀ name ∈ ["float", "complex"],
        ¬ model.Below ⟨theory, Term.noMethod⟩ assigned (.atom name) .int ∧ ∃ formulas,
          bitwise ⟨theory, Term.noMethod⟩ .int (.atom name) (.atom name) "__and__" =
            .ok formulas ∧ ∀ formula ∈ formulas, model.holds formula assigned := by
  obtain ⟨theory, axioms, model, assigned, empty, satisfied, structural, noMethod, accepts⟩ :=
    exists_bitwise
  refine ⟨theory, axioms, empty.done, model, assigned, satisfied, noMethod, fun name listed =>
    ⟨fun below => ?_, accepts name (mem_cons_of_mem _ listed)⟩⟩
  have apart : ∀ name ∈ ["float", "complex"], name ∈ Family.numbers ∧
      ¬ isNumberBelow name "int" := by decide
  obtain ⟨number, notBelow⟩ := apart name listed
  exact notBelow ((structural.isNumberBelow_iff number (by decide)).mp below)

end Theory

/-- Numbers of fixed width, one with and one without a sign. -/
def DifferInSign (left right : Term) : Prop :=
  ∃ marks ∈ [("u", "i"), ("i", "u")], ∃ first ∈ TypeSort.widths, ∃ second ∈ TypeSort.widths,
    left = .fixed marks.1 first ∧ right = .fixed marks.2 second

namespace Interpretation

variable {left' right' : Term}

/-- Numbers whose signs do not differ are not aligned. -/
theorem signed_of_not_differInSign
    (agree : ¬ DifferInSign (model.eval assigned left) (model.eval assigned right)) :
    model.signed assigned left right = (model.eval assigned left, model.eval assigned right) := by
  suffices aligned : alignSigns left right = (left, right) by rw [signed, aligned]
  unfold alignSigns
  split
  · next mark width other otherWidth isLeft isRight =>
    obtain ⟨isMark, isWidth, rfl⟩ := fixedWidth?_eq_some isLeft
    obtain ⟨isOther, isOtherWidth, rfl⟩ := fixedWidth?_eq_some isRight
    rcases isMark with rfl | rfl <;> rcases isOther with rfl | rfl
    · rfl
    · exact absurd ⟨("u", "i"), by decide, width, isWidth, otherWidth, isOtherWidth, rfl, rfl⟩ agree
    · exact absurd ⟨("i", "u"), by decide, width, isWidth, otherWidth, isOtherWidth, rfl, rfl⟩ agree
    · rfl
  · rfl

section

variable (sameLeft : model.eval assigned left = model.eval assigned left')
  (sameRight : model.eval assigned right = model.eval assigned right')
  (alike : areWrittenOut left right = areWrittenOut left' right' ∨
    ¬ DifferInSign (model.eval assigned left) (model.eval assigned right))
include sameLeft sameRight alike

theorem signed_eq : model.signed assigned left right = model.signed assigned left' right' := by
  rcases alike with alike | agree
  · cases writtenOut : areWrittenOut left right with
    | false =>
      rw [signed, signed, alignSigns_of_not_areWrittenOut writtenOut,
        alignSigns_of_not_areWrittenOut (alike ▸ writtenOut), sameLeft, sameRight]
    | true =>
      obtain ⟨l, -, r, -, rfl, rfl, -⟩ := alignSigns_of_areWrittenOut writtenOut
      obtain ⟨l', -, r', -, rfl, rfl, -⟩ := alignSigns_of_areWrittenOut (alike ▸ writtenOut)
      rw [eval_atom, eval_atom] at sameLeft sameRight
      rw [sameLeft, sameRight]
  · rw [signed_of_not_differInSign agree, signed_of_not_differInSign (sameLeft ▸ sameRight ▸ agree),
      sameLeft, sameRight]

/-- Whether a sum is accepted depends on the values of its operands only, if both or neither of two
pairs of operands are written out or if their signs do not differ. -/
theorem sum_depends_on_values
    (isFormulas : addition frame left right result = .ok formulas) :
    ∃ others, addition frame left' right' result = .ok others ∧
      ((∀ formula ∈ formulas, model.holds formula assigned) ↔
        ∀ formula ∈ others, model.holds formula assigned) := by
  obtain ⟨options, isOptions, -⟩ := bind_ok isFormulas
  obtain ⟨options', areOptions⟩ := exists_overloading isOptions left' right' result
  obtain ⟨others, isOthers⟩ : ∃ others, addition frame left' right' result = .ok others :=
    ⟨_, bind_eq_ok_iff.mpr ⟨options', areOptions, rfl⟩⟩
  refine ⟨others, isOthers, ?_⟩
  rw [holds_constraint .sum isFormulas, holds_constraint .sum isOthers,
    signed_eq sameLeft sameRight alike, sameLeft, sameRight]

end

end Interpretation

namespace Theory

/-- A constant without a sign is added like the number. -/
theorem constant_like_type : ∃ theory axioms, ofEmptyProgram {} {} = .ok (theory, axioms) ∧
    ∃ (model : Interpretation theory) (assigned : Assignment) (formulas others : List Formula),
      model.Satisfies axioms ∧ assigned "x" = .fixed "u" 8 ∧
      addition ⟨theory, Term.noMethod⟩ (.const "x") (.fixed "u" 16) (.const "r") =
        .ok formulas ∧
      addition ⟨theory, Term.noMethod⟩ (.fixed "u" 8) (.fixed "u" 16) (.const "r") =
        .ok others ∧
      ((∀ formula ∈ formulas, model.holds formula assigned) ↔
        ∀ formula ∈ others, model.holds formula assigned) := by
  obtain ⟨theory, axioms, empty, ⟨model, satisfied⟩, plain⟩ := exists_emptyModel
  let assigned : Assignment := fun _ => .fixed "u" 8
  obtain ⟨formulas, isFormulas⟩ := exists_constraint ⟨theory, Term.noMethod⟩ .sum
    (fun name isClass => (plain name isClass).2 _ mem_cons_self) (.const "x") (.fixed "u" 16)
    (.const "r")
  have isConstant : model.eval assigned (.const "x") = .fixed "u" 8 := by rw [eval]
  have isType (width : Nat) : model.eval assigned (.fixed "u" width) = .fixed "u" width :=
    eval_atom assigned _
  have agree : ¬ DifferInSign (model.eval assigned (.const "x"))
      (model.eval assigned (.fixed "u" 16)) := by
    rw [isConstant, isType, DifferInSign]
    decide
  obtain ⟨others, isOthers, same⟩ :=
    sum_depends_on_values (isConstant.trans (isType 8).symm) rfl (.inr agree) isFormulas
  exact ⟨theory, axioms, empty.done, model, assigned, formulas, others, satisfied, rfl, isFormulas,
    isOthers, same⟩

/-- A constant without a sign is not added to a signed one. -/
theorem constant_unlike_type : ∃ theory axioms, ofEmptyProgram {} {} = .ok (theory, axioms) ∧
    ∃ (model : Interpretation theory) (assigned : Assignment) (formulas others : List Formula),
      model.Satisfies axioms ∧ assigned "x" = .fixed "u" 8 ∧
      addition ⟨theory, Term.noMethod⟩ (.fixed "u" 8) (.fixed "i" 8) (.fixed "i" 16) =
        .ok formulas ∧
      addition ⟨theory, Term.noMethod⟩ (.const "x") (.fixed "i" 8) (.fixed "i" 16) =
        .ok others ∧
      (∀ formula ∈ formulas, model.holds formula assigned) ∧
      ¬ ∀ formula ∈ others, model.holds formula assigned := by
  obtain ⟨theory, axioms, empty, ⟨model, satisfied⟩, plain⟩ := exists_emptyModel
  let assigned : Assignment := fun _ => .fixed "u" 8
  have known (name : String) (isClass : name ∈ theory.classNames) :
      theory.methodIn name "__add__" = .ok none := (plain name isClass).2 _ mem_cons_self
  have sums := exists_constraint ⟨theory, Term.noMethod⟩ .sum known
  obtain ⟨formulas, isFormulas⟩ := sums (.fixed "u" 8) (.fixed "i" 8) (.fixed "i" 16)
  obtain ⟨others, isOthers⟩ := sums (.const "x") (.fixed "i" 8) (.fixed "i" 16)
  have isType (mark : String) (width : Nat) :
      model.eval assigned (.fixed mark width) = .fixed mark width := eval_atom assigned _
  refine ⟨theory, axioms, empty.done, model, assigned, formulas, others, satisfied, rfl, isFormulas,
    isOthers, (holds_constraint .sum isFormulas).mpr ?_, fun all => ?_⟩
  · have aligned : alignSigns (.fixed "u" 8) (.fixed "i" 8) =
        (.fixed "i" 8, .fixed "i" 8) := by decide
    rw [signed, aligned, isType, isType, isType]
    exact ⟨by decide, by decide, .inl (.inl ⟨"i", by decide, 8, by decide, rfl,
      .inl ⟨rfl, .inl rfl⟩⟩)⟩
  · have structural := isStructural_of_model empty.complete empty.built empty.stated satisfied
      theory.isMethod_noMethod assigned
    have notBelow : ¬ model.Below ⟨theory, Term.noMethod⟩ assigned (.fixed "u" 8) (.fixed "i" 8) :=
      fun below => absurd ((structural.isNumberBelow_iff (by decide) (by decide)).mp below)
        (by decide)
    obtain ⟨-, -, combines | ⟨name, isClass, hasMethod, -⟩⟩ :=
      (holds_constraint .sum isOthers).mp all
    · rw [signed, alignSigns_of_not_areWrittenOut rfl, isType, isType, eval] at combines
      have other : ∀ mark ∈ ["u", "i"], ∀ width ∈ [8, 16, 32], Term.fixed "i" 16 =
          .fixed mark (width * 2) → Term.fixed "u" 8 ≠ .fixed mark width := by decide
      rcases combines with ⟨mark, isMark, width, isWidth, is, rules⟩ | ⟨⟨-, -, is⟩, -⟩ |
        ⟨⟨-, -, is⟩, -⟩ | ⟨is, -⟩
      · exact notBelow (rules.resolve_left fun narrow =>
          other mark isMark width isWidth is narrow.1).2
      · exact absurd is (by decide)
      · exact absurd is (by decide)
      · exact absurd is (by decide)
    · simp [ArithmeticOperator.method, method?_of_methodIn (known name isClass)] at hasMethod

end Theory

end TypeInference
