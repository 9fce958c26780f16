/- Binary operators determine the types of their results. -/

import TypeInference.Proofs.OperatorRules
import TypeInference.Proofs.Subtyping

namespace TypeInference

open List ArithmeticOperator Constraint Family

variable {name : String} {writtenOut : Bool} {option : Formula} {left right : Term}

namespace ArithmeticOperator

/-- The greater one of two numbers, if they can be compared. -/
def greater (left right : String) : List String :=
  (if isNumberBelow right left then [left] else [])
    ++ (if isNumberBelow left right then [right] else [])

/-- The next greater width, if numbers compare and it exists. -/
def widened (left right : String) : List String :=
  ["u", "i"].flatMap fun mark => [8, 16, 32].flatMap fun width =>
    let narrow := mark ++ toString width
    if left = narrow ∧ (right = narrow ∨ isNumberBelow right left = true)
        ∨ right = narrow ∧ isNumberBelow left right = true then [mark ++ toString (width * 2)]
    else []

/-- Numbers of fixed width with signs that agree. -/
def alignedNames (left right : String) : String × String :=
  let name : Term → String
    | .con name _ => name
    | _ => ""
  let aligned := alignSigns (.atom left) (.atom right)
  (name aligned.1, name aligned.2)

/-- What numbers can give, with signs aligned in written sums. -/
def numberResults (op : ArithmeticOperator) (writtenOut : Bool) (left right : String) :
    List String :=
  match op with
  | sum =>
    let signed := if writtenOut then alignedNames left right else (left, right)
    widened signed.1 signed.2 ++ (greater left right).filter fun name =>
      !isNumberBelow name "u32" && !isNumberBelow name "i32"
  | product => if left = "bool" ∧ right = "bool" then ["int"] else greater left right
  | other .. => greater left right

/-- However many rules apply, they give one number. -/
theorem numberResults_unique (op : ArithmeticOperator) (writtenOut : Bool) {left right : String}
    (isLeft : left ∈ numbers) (isRight : right ∈ numbers) {first second : String}
    (isFirst : first ∈ op.numberResults writtenOut left right)
    (isSecond : second ∈ op.numberResults writtenOut left right) : first = second := by
  have sums : ∀ writtenOut, ∀ left ∈ numbers, ∀ right ∈ numbers,
      ∀ first ∈ numberResults sum writtenOut left right,
      ∀ second ∈ numberResults sum writtenOut left right, first = second := by decide +kernel
  have products : ∀ left ∈ numbers, ∀ right ∈ numbers,
      ∀ first ∈ numberResults product false left right,
      ∀ second ∈ numberResults product false left right, first = second := by decide +kernel
  have others : ∀ left ∈ numbers, ∀ right ∈ numbers, ∀ first ∈ greater left right,
      ∀ second ∈ greater left right, first = second := by decide
  cases op with
  | sum => exact sums writtenOut _ isLeft _ isRight _ isFirst _ isSecond
  | product => exact products _ isLeft _ isRight _ isFirst _ isSecond
  | other => exact others _ isLeft _ isRight _ isFirst _ isSecond

/-- The rules for numbers, sequences, and classes with a method. -/
inductive Outcome (op : ArithmeticOperator) (returned : String → Term) (writtenOut : Bool)
    (left right : Term) : Term → Prop where
  | numbers {l r c : String} (isLeft : left = .atom l) (isRight : right = .atom r)
      (leftNumber : l ∈ numbers) (rightNumber : r ∈ numbers)
      (result : c ∈ op.numberResults writtenOut l r) :
      Outcome op returned writtenOut left right (.atom c)
  | left (sequence : ofType left = .sequence) :
      Outcome op returned writtenOut left right left
  | right (number : ofType left = .number) (sequence : ofType right = .sequence) :
      Outcome op returned writtenOut left right right
  | method {name : String} (isOwn : left = .atom ("class_" ++ name)) :
      Outcome op returned writtenOut left right (returned name)

section

variable {op : ArithmeticOperator} {returned : String → Term} {first second : Term}

theorem ofType_number (number : name ∈ numbers) : ofType (.atom name) = .number :=
  ofName_eq_number_iff.mpr number

theorem ofType_own (name : String) : ofType (.atom ("class_" ++ name)) = .own :=
  ofName_own name

/-- Numbers give what the rules for numbers say. -/
theorem Outcome.mem_numberResults {l r : String} (leftNumber : l ∈ Family.numbers)
    (rightNumber : r ∈ Family.numbers)
    (outcome : Outcome op returned writtenOut (.atom l) (.atom r) first) :
    ∃ c ∈ op.numberResults writtenOut l r, first = .atom c := by
  have isLeft := ofType_number leftNumber
  have isRight := ofType_number rightNumber
  cases outcome with
  | numbers sameLeft sameRight _ _ result =>
    obtain ⟨rfl, -⟩ := Term.con.inj sameLeft
    obtain ⟨rfl, -⟩ := Term.con.inj sameRight
    exact ⟨_, result, rfl⟩
  | left => simp_all
  | right => simp_all
  | method isOwn => simp [isOwn, ofType_own] at isLeft

theorem Outcome.unique (isFirst : Outcome op returned writtenOut left right first)
    (isSecond : Outcome op returned writtenOut left right second) : first = second := by
  -- The families of the operands tell which rule is used.
  cases isFirst with
  | numbers isLeft isRight leftNumber rightNumber result =>
    subst isLeft isRight
    obtain ⟨c, other, rfl⟩ := isSecond.mem_numberResults leftNumber rightNumber
    rw [numberResults_unique op writtenOut leftNumber rightNumber result other]
  | left sequence =>
    cases isSecond with
    | left => rfl
    | numbers isLeft _ number => simp [isLeft, ofType_number number] at sequence
    | right => simp_all
    | method isOwn => simp [isOwn, ofType_own] at sequence
  | right number sequence =>
    cases isSecond with
    | right => rfl
    | numbers _ isRight _ number => simp [isRight, ofType_number number] at sequence
    | left => simp_all
    | method isOwn => simp [isOwn, ofType_own] at number
  | method isOwn =>
    have isLeft := isOwn ▸ ofType_own _
    cases isSecond with
    | numbers isNumber _ number => simp [isNumber, ofType_number number] at isLeft
    | left => simp_all
    | right => simp_all
    | method same =>
      have isName := congrArg String.toList (Term.con.inj (isOwn.symm.trans same)).1
      simp only [String.toList_append, append_cancel_left_eq] at isName
      rw [String.toList_inj.mp isName]

end

end ArithmeticOperator

/-- A value without type variables other than none. -/
structure Theory.IsOperand (theory : Theory) (value : Term) : Prop where
  ground : theory.IsGround value
  some : value ≠ Term.none

namespace Interpretation

variable {theory : Theory} {model : Interpretation theory} {frame : Frame} {assigned : Assignment}
  {result : Term} {sup : String}

/-- Subtyping without type variables is structural. -/
structure IsStructural (model : Interpretation theory) (frame : Frame) (assigned : Assignment) :
    Prop where
  formed : theory.WellFormed
  builtin : ∀ entry ∈ builtinClasses, entry ∈ theory.survey.allClasses.entries
  related : ∀ {s t}, theory.IsGround s → theory.IsGround t → (model.Below frame assigned s t ↔
    StructuralSubtype theory.survey.allClasses theory.settings.noneBelowAll s t)

namespace IsStructural

variable (structural : model.IsStructural frame assigned)
include structural

theorem isGround_builtin {base : String} {bases : List String}
    (known : (.plain name, base :: bases) ∈ builtinClasses)
    (noVariable : ¬ "tv".toList <+: name.toList) : theory.IsGround (.atom name) := by
  have isClass : theory.IsClass (.plain name) := structural.formed.isClass_iff.mpr
    (.inr ⟨_, _, base, structural.builtin _ known, mem_cons_self, rfl⟩)
  exact ⟨structural.formed.isType_con isClass trivial,
    Term.hasNoVariable_con_iff.mpr ⟨noVariable, fun _ member => absurd member not_mem_nil⟩⟩

theorem isOperand_number (number : name ∈ numbers) : theory.IsOperand (.atom name) := by
  have listed : ∀ name ∈ numbers, ¬ "tv".toList <+: name.toList ∧ name ≠ "none" ∧
      ∃ entry ∈ builtinClasses, entry.1 = .plain name ∧ entry.2 ≠ [] := by decide
  obtain ⟨noVariable, notNone, ⟨key, bases⟩, known, rfl, some⟩ := listed name number
  obtain ⟨base, others, rfl⟩ := exists_cons_of_ne_nil some
  exact ⟨structural.isGround_builtin known noVariable, fun is => notNone (Term.con.inj is).1⟩

/-- What is below a type of a family belongs to the family. -/
theorem family_of_below (isLeft : theory.IsOperand left) (ground : theory.IsGround (.atom name))
    (notRoot : name ≠ "object") (below : model.Below frame assigned left (.atom name)) :
    ofType left = ofName name :=
  (structural.formed.family_below ((structural.related isLeft.ground ground).mp below)
    isLeft.some).resolve_left notRoot

theorem family_of_sequence (isLeft : theory.IsOperand left)
    (below : model.Below frame assigned left .sequence) : ofType left = .sequence := by
  have known : (.plain "sequence", ["object"]) ∈ builtinClasses := by decide
  exact structural.family_of_below isLeft (structural.isGround_builtin known (by decide))
    (by decide) below

theorem isNumberBelow_iff {sub : String} (isSub : sub ∈ numbers)
    (isSup : sup ∈ numbers) :
    model.Below frame assigned (.atom sub) (.atom sup) ↔ isNumberBelow sub sup := by
  rw [structural.related (structural.isOperand_number isSub).ground
    (structural.isOperand_number isSup).ground]
  exact structural.formed.numberBelow_iff structural.builtin isSub isSup

/-- What is below a number is a number. -/
theorem exists_number (isLeft : theory.IsOperand left) (number : sup ∈ numbers)
    (below : model.Below frame assigned left (.atom sup)) :
    ∃ name ∈ numbers, left = .atom name ∧ isNumberBelow name sup := by
  have notRoot : sup ≠ "object" := by
    rintro rfl
    exact absurd number (by decide)
  have family := structural.family_of_below isLeft (structural.isOperand_number number).ground
    notRoot below
  obtain ⟨name, isNumber, rfl⟩ := structural.formed.eq_atom_of_number isLeft.ground.type
    (family.trans (ofName_eq_number_iff.mpr number))
  exact ⟨name, isNumber, rfl, (structural.isNumberBelow_iff isNumber number).mp below⟩

section

variable (isLeft : theory.IsOperand left) (isRight : theory.IsOperand right)
include isLeft isRight

/-- What is below a number on the left is a number. -/
theorem exists_numbers (exceeds : model.Exceeds frame assigned left right result) :
    ∃ l ∈ numbers, ∃ r ∈ numbers, left = .atom l ∧ right = .atom r ∧
      isNumberBelow r l := by
  obtain ⟨l, leftNumber, rfl, -⟩ := structural.exists_number isLeft (by decide) exceeds.1
  obtain ⟨r, rightNumber, isRight, above⟩ := structural.exists_number isRight leftNumber exceeds.2.1
  exact ⟨l, leftNumber, r, rightNumber, rfl, isRight, above⟩

theorem exists_greater (exceeds : model.Exceeds frame assigned left right result ∨
      model.Exceeds frame assigned right left result) :
    ∃ l ∈ numbers, ∃ r ∈ numbers, left = .atom l ∧ right = .atom r ∧
      ∃ c ∈ greater l r, c ∈ numbers ∧ result = .atom c := by
  rcases exceeds with exceeds | exceeds
  · obtain ⟨l, leftNumber, r, rightNumber, rfl, rfl, above⟩ :=
      structural.exists_numbers isLeft isRight exceeds
    exact ⟨l, leftNumber, r, rightNumber, rfl, rfl, l, by simp [greater, above],
      leftNumber, exceeds.2.2⟩
  · obtain ⟨r, rightNumber, l, leftNumber, rfl, rfl, above⟩ :=
      structural.exists_numbers isRight isLeft exceeds
    exact ⟨l, leftNumber, r, rightNumber, rfl, rfl, r, by simp [greater, above],
      rightNumber, exceeds.2.2⟩

theorem exists_widened (widens : model.Widens frame assigned left right result) :
    ∃ l r c, left = .atom l ∧ right = .atom r ∧ l ∈ numbers ∧ r ∈ numbers ∧
      c ∈ widened l r ∧ result = .atom c := by
  obtain ⟨mark, isMark, width, isWidth, isResult, applies⟩ := widens
  have numbers : ∀ mark ∈ ["u", "i"], ∀ width ∈ [8, 16, 32],
      mark ++ toString width ∈ numbers := by decide
  have number := numbers mark isMark width isWidth
  have wider (l r : String) (applies : l = mark ++ toString width ∧
      (r = mark ++ toString width ∨ isNumberBelow r l = true) ∨
      r = mark ++ toString width ∧ isNumberBelow l r = true) :
      mark ++ toString (width * 2) ∈ widened l r := by
    refine mem_flatMap.mpr ⟨mark, isMark, mem_flatMap.mpr ⟨width, isWidth, ?_⟩⟩
    rw [if_pos applies]
    exact mem_singleton_self _
  rcases applies with ⟨rfl, rfl | below⟩ | ⟨rfl, below⟩
  · exact ⟨_, _, _, rfl, rfl, number, number, wider _ _ (.inl ⟨rfl, .inl rfl⟩), isResult⟩
  · obtain ⟨r, rightNumber, rfl, under⟩ := structural.exists_number isRight number below
    exact ⟨_, r, _, rfl, rfl, number, rightNumber, wider _ _ (.inl ⟨rfl, .inr under⟩), isResult⟩
  · obtain ⟨l, leftNumber, rfl, under⟩ := structural.exists_number isLeft number below
    exact ⟨l, _, _, rfl, rfl, leftNumber, number, wider _ _ (.inr ⟨rfl, under⟩), isResult⟩

end

end IsStructural

end Interpretation

namespace Constraint

/-- Whether both operands are written fixed-width numbers. -/
def areWrittenOut (left right : Term) : Bool :=
  (fixedWidth? left).isSome && (fixedWidth? right).isSome

theorem alignSigns_of_not_areWrittenOut (not : areWrittenOut left right = false) :
    alignSigns left right = (left, right) := by
  unfold alignSigns
  split
  · next isLeft isRight => simp [areWrittenOut, isLeft, isRight] at not
  · rfl

theorem exists_number_of_fixedWidth? {t : Term} (fixed : (fixedWidth? t).isSome) :
    ∃ name ∈ numbers, t = .atom name := by
  obtain ⟨⟨mark, width⟩, found⟩ := Option.isSome_iff_exists.mp fixed
  obtain ⟨isMark, isWidth, rfl⟩ := fixedWidth?_eq_some found
  have numbers : ∀ width ∈ TypeSort.widths, "u" ++ toString width ∈ numbers ∧
      "i" ++ toString width ∈ numbers := by decide
  refine ⟨_, ?_, rfl⟩
  rcases isMark with rfl | rfl
  · exact (numbers width isWidth).1
  · exact (numbers width isWidth).2

/-- Written fixed-width numbers stay so with signs aligned. -/
theorem alignSigns_of_areWrittenOut (both : areWrittenOut left right) :
    ∃ l ∈ numbers, ∃ r ∈ numbers, left = .atom l ∧ right = .atom r ∧
      (alignedNames l r).1 ∈ numbers ∧
      (alignedNames l r).2 ∈ numbers ∧
      alignSigns left right = (.atom (alignedNames l r).1,
        .atom (alignedNames l r).2) := by
  have all : ∀ l ∈ numbers, ∀ r ∈ numbers,
      (alignedNames l r).1 ∈ numbers ∧
      (alignedNames l r).2 ∈ numbers ∧
      alignSigns (.atom l) (.atom r) = (.atom (alignedNames l r).1,
        .atom (alignedNames l r).2) := by decide +kernel
  obtain ⟨fixedLeft, fixedRight⟩ := Bool.and_eq_true_iff.mp both
  obtain ⟨l, leftNumber, rfl⟩ := exists_number_of_fixedWidth? fixedLeft
  obtain ⟨r, rightNumber, rfl⟩ := exists_number_of_fixedWidth? fixedRight
  exact ⟨l, leftNumber, r, rightNumber, rfl, rfl, all l leftNumber r rightNumber⟩

end Constraint

namespace Interpretation

variable {theory : Theory} {model : Interpretation theory} {frame : Frame} {assigned : Assignment}
  {result : Term} {formulas : List Formula} {op : ArithmeticOperator}

open ArithmeticOperator

/-- What a method for an operator returns. -/
def returned (model : Interpretation theory) (assigned : Assignment) (op : ArithmeticOperator)
    (className : String) : Term :=
  model.eval assigned (.get (TypeSort.funcResult 2) (.classAttr className op.method))

/-- The type of a class stands for its instances. -/
theorem eval_instanceOf (formed : theory.WellFormed)
    (builtin : ∀ entry ∈ builtinClasses, entry ∈ theory.survey.allClasses.entries)
    (isTheory : frame.theory = theory) (own : isAliasedType name = false) {receiver : Term}
    (isReceiver : frame.instanceOf name = .ok receiver) :
    model.eval assigned receiver = .atom ("class_" ++ name) := by
  have constructor : Theory.constructorOf name = "class_" ++ name := by
    have unknown : aliasedTypes.find? (fun entry => entry.1 == name) = none := by
      rw [find?_eq_none]
      intro entry listed same
      exact Bool.false_ne_true (own.symm.trans (any_eq_true.mpr ⟨entry, listed, same⟩))
    rw [Theory.constructorOf, unknown]
    rfl
  obtain ⟨type, isType, rfl⟩ := map_ok isReceiver
  rw [Theory.classObject, isTheory, constructor] at isType
  split at isType
  · next known =>
    obtain rfl := Except.ok.inj isType
    obtain ⟨entry, found, isEntry⟩ := Option.map_eq_some_iff.mp known
    have isName : entry.1 = "class_" ++ name := by simpa using find?_some found
    have declared : ("class_" ++ name, []) ∈ theory.sort.declared := by
      rw [← isName, ← isEntry]
      exact mem_reverse.mp (mem_of_find?_eq_some found)
    have instances : theory.sort.IsType (.atom ("class_" ++ name)) := by
      exact ⟨[], declared, trivial⟩
    have isClass : theory.IsClass (.generic "type" ["type_arg_0"]) :=
      formed.isClass_iff.mpr (.inr ⟨_, _, "object",
        builtin (_, ["object"]) (by decide), mem_singleton_self _, rfl⟩)
    have fit : theory.sort.AreArguments ["type_arg_0"] [.atom ("class_" ++ name)] := by
      rw [TypeSort.areArguments_iff, forall₂_cons]
      exact ⟨instances, .nil⟩
    have selected := model.select_con (formed.declared_of_isClass isClass) fit
    exact (List.cons.inj selected).1
  · cases isType

variable (structural : model.IsStructural frame assigned)
include structural

/-- A method gives what it returns on its class. -/
theorem Overloads.outcome (isTheory : frame.theory = theory)
    (own : ∀ name ∈ theory.classNames, isAliasedType name = false)
    (overloads : model.Overloads frame assigned op.method left right result) :
    op.Outcome (model.returned assigned op) writtenOut left right result := by
  obtain ⟨name, isClass, -, ⟨receiver, isReceiver, isLeft⟩, -, rfl⟩ := overloads
  rw [eval_instanceOf structural.formed structural.builtin isTheory
    (own name (isTheory ▸ isClass)) isReceiver] at isLeft
  exact .method isLeft

section

variable (isLeft : theory.IsOperand (model.eval assigned left))
  (isRight : theory.IsOperand (model.eval assigned right)) {returned : String → Term}
include isLeft isRight

/-- The rules of sums for numbers of fixed width. -/
theorem Widens.outcome
    (widens : model.Widens frame assigned (model.signed assigned left right).1
      (model.signed assigned left right).2 result) :
    sum.Outcome returned (areWrittenOut left right) (model.eval assigned left)
      (model.eval assigned right) result := by
  cases writtenOut : areWrittenOut left right with
  | false =>
    rw [signed, alignSigns_of_not_areWrittenOut writtenOut] at widens
    obtain ⟨l, r, c, firstIs, secondIs, leftNumber, rightNumber, listed, rfl⟩ :=
      structural.exists_widened isLeft isRight widens
    exact .numbers firstIs secondIs leftNumber rightNumber (mem_append_left _ listed)
  | true =>
    obtain ⟨l, leftNumber, r, rightNumber, rfl, rfl, firstNumber, secondNumber, aligned⟩ :=
      alignSigns_of_areWrittenOut writtenOut
    rw [signed, aligned] at widens
    obtain ⟨first, second, c, isFirst, isSecond, -, -, listed, rfl⟩ :=
      structural.exists_widened (structural.isOperand_number firstNumber)
        (structural.isOperand_number secondNumber) widens
    refine .numbers (eval_atom assigned l) (eval_atom assigned r) leftNumber rightNumber
      (mem_append_left _ ?_)
    rw [if_pos rfl, (Term.con.inj isFirst).1, (Term.con.inj isSecond).1]
    exact listed

/-- The rules for values have the outcomes of their families. -/
theorem Combines.outcome
    (combines : model.Combines frame assigned (model.signed assigned left right)
      (model.eval assigned left) (model.eval assigned right) result op) :
    op.Outcome returned (areWrittenOut left right) (model.eval assigned left)
      (model.eval assigned right) result := by
  cases op with
  | sum =>
    -- A number that does not grow is above neither of the greatest ones that do.
    have ofNarrow (narrow : model.ExceedsNarrow frame assigned (model.eval assigned left)
          (model.eval assigned right) result ∨
        model.ExceedsNarrow frame assigned (model.eval assigned right)
          (model.eval assigned left) result) :
        sum.Outcome returned (areWrittenOut left right) (model.eval assigned left)
          (model.eval assigned right) result := by
      have apart : ¬ model.Below frame assigned result (.fixed "u" 32) ∧
          ¬ model.Below frame assigned result (.fixed "i" 32) := by
        rcases narrow with ⟨⟨-, -, rfl⟩, apart⟩ | ⟨⟨-, -, rfl⟩, apart⟩ <;> exact apart
      obtain ⟨l, leftNumber, r, rightNumber, firstIs, secondIs, c, listed, number, rfl⟩ :=
        structural.exists_greater isLeft isRight (narrow.imp And.left And.left)
      refine .numbers firstIs secondIs leftNumber rightNumber
        (mem_append_right _ (mem_filter.mpr ⟨listed, ?_⟩))
      have notBelow (sup : String) (isSup : sup ∈ numbers)
          (not : ¬ model.Below frame assigned (.atom c) (.atom sup)) :
          isNumberBelow c sup = false :=
        Bool.eq_false_iff.mpr fun below =>
          not ((structural.isNumberBelow_iff number isSup).mpr below)
      rw [notBelow "u32" (by decide) apart.1, notBelow "i32" (by decide) apart.2]
      rfl
    rcases combines with widens | narrow | narrow | ⟨-, rfl, sequence⟩
    · exact widens.outcome structural isLeft isRight
    · exact ofNarrow (.inl narrow)
    · exact ofNarrow (.inr narrow)
    · refine .left ?_
      rcases sequence with below | isList | isText
      · exact structural.family_of_sequence isLeft below
      · rw [isList]
        exact (by decide : ofName "list" = .sequence)
      · rw [isText]
        decide
  | product =>
    rcases combines with ⟨isFirst, isSecond, rfl⟩ | ⟨notBoth, rules⟩
    · exact .numbers isFirst isSecond (by decide) (by decide) (mem_singleton_self "int")
    · rw [← or_assoc] at rules
      rcases rules with (⟨below, -, rfl⟩ | ⟨sequence, below, rfl⟩) | exceeds
      · exact .left (structural.family_of_sequence isLeft below)
      · obtain ⟨l, number, is, -⟩ := structural.exists_number isLeft (by decide) below
        refine .right ?_ (structural.family_of_sequence isRight sequence)
        rw [is]
        exact ofType_number number
      · obtain ⟨l, leftNumber, r, rightNumber, firstIs, secondIs, c, listed, -, rfl⟩ :=
          structural.exists_greater isLeft isRight exceeds
        refine .numbers firstIs secondIs leftNumber rightNumber ?_
        rw [numberResults, if_neg]
        · exact listed
        · rintro ⟨rfl, rfl⟩
          exact notBoth ⟨firstIs, secondIs⟩
  | other method isMod =>
    rw [Combines, ← or_assoc] at combines
    rcases combines with exceeds | ⟨-, isText, rfl⟩
    · obtain ⟨l, leftNumber, r, rightNumber, firstIs, secondIs, c, listed, -, rfl⟩ :=
        structural.exists_greater isLeft isRight exceeds
      exact .numbers firstIs secondIs leftNumber rightNumber listed
    · refine .left ?_
      rcases isText with isText | isText <;> rw [isText] <;> decide

end

end Interpretation

namespace Theory

open Interpretation

variable {settings : Settings} {survey : Survey} {theory : Theory} {axioms : List Formula}
  {model : Interpretation theory} {method : Term}

theorem isStructural_of_model (complete : survey.IsComplete)
    (built : ofSurvey settings survey = .ok theory) (stated : theory.subtypeAxioms = .ok axioms)
    (satisfied : model.Satisfies axioms) (isMethod : theory.IsMethod method)
    (assigned : Assignment) : model.IsStructural ⟨theory, method⟩ assigned := by
  have formed := ofSurvey_wellFormed complete built
  have rooted := isClass_of_isComplete complete built
  have laws := (satisfies_iff_subtypeLaws stated formed).mp satisfied
  have builtin : ∀ entry ∈ builtinClasses, entry ∈ theory.survey.allClasses.entries := by
    obtain ⟨-, isSurvey, -⟩ := ofSurvey_eq_ok built
    obtain ⟨before, -, rfl⟩ := complete
    rw [isSurvey]
    exact fun entry member => Survey.mem_allClasses_of_builtin before member
  refine ⟨formed, builtin, ?_⟩
  intro s t groundS groundT
  have isValue : model.eval assigned method = method := by
    obtain ⟨name, -, rfl⟩ := isMethod
    exact eval_methodConstant assigned name
  rw [Below, isValue]
  exact laws.subtype_iff formed rooted isMethod groundS groundT

/-- Two results of an operator on types without type variables are the same, be the operands written
out or values of constants. Classes are not to be called like built-in types. -/
theorem operator_result_determined (complete : survey.IsComplete)
    (built : ofSurvey settings survey = .ok theory) (stated : theory.subtypeAxioms = .ok axioms)
    (own : ∀ name ∈ theory.classNames, isAliasedType name = false)
    (satisfied : model.Satisfies axioms) (isMethod : theory.IsMethod method)
    (op : ArithmeticOperator) {assigned : Assignment}
    (groundLeft : theory.IsGround (model.eval assigned left))
    (groundRight : theory.IsGround (model.eval assigned right)) {first second : Term}
    {formulas others : List Formula}
    (isFirst : op.constraint ⟨theory, method⟩ left right first = .ok formulas)
    (isSecond : op.constraint ⟨theory, method⟩ left right second = .ok others)
    (allFirst : ∀ formula ∈ formulas, model.holds formula assigned)
    (allSecond : ∀ formula ∈ others, model.holds formula assigned) :
    model.eval assigned first = model.eval assigned second := by
  have structural := isStructural_of_model complete built stated satisfied isMethod assigned
  have outcome {result : Term} {formulas : List Formula}
      (stated : op.constraint ⟨theory, method⟩ left right result = .ok formulas)
      (all : ∀ formula ∈ formulas, model.holds formula assigned) :
      op.Outcome (model.returned assigned op) (areWrittenOut left right)
        (model.eval assigned left) (model.eval assigned right) (model.eval assigned result) := by
    obtain ⟨someLeft, someRight, combines | overloads⟩ := (holds_constraint op stated).mp all
    · exact combines.outcome structural ⟨groundLeft, someLeft⟩ ⟨groundRight, someRight⟩
    · exact overloads.outcome structural rfl own
  exact (outcome isFirst allFirst).unique (outcome isSecond allSecond)

/-- The sum of numbers of eight and sixteen bits has thirty-two bits. -/
theorem wide_sum_determined : ∃ theory axioms, ofEmptyProgram {} {} = .ok (theory, axioms) ∧
    ∃ (model : Interpretation theory) (assigned : Assignment) (formulas others : List Formula),
      model.Satisfies axioms ∧
      ArithmeticOperator.sum.constraint ⟨theory, Term.noMethod⟩ (.fixed "u" 8) (.fixed "u" 16)
        (.const "sum") = .ok formulas ∧
      ArithmeticOperator.sum.constraint ⟨theory, Term.noMethod⟩ (.fixed "u" 8) (.fixed "u" 16)
        (.fixed "u" 32) = .ok others ∧
      (∀ formula ∈ formulas, model.holds formula assigned) ∧
      (∀ formula ∈ others, model.holds formula assigned) ∧ assigned "sum" = .fixed "u" 32 := by
  obtain ⟨theory, axioms, empty, ⟨model, satisfied⟩, plain⟩ := exists_emptyModel
  let assigned : Assignment := fun _ => .fixed "u" 32
  have isMethod := theory.isMethod_noMethod
  have structural :=
    isStructural_of_model empty.complete empty.built empty.stated satisfied isMethod assigned
  have operand (name : String) (number : name ∈ numbers) :
      theory.IsOperand (model.eval assigned (.atom name)) := by
    rw [eval_atom]
    exact structural.isOperand_number number
  have narrow := operand "u8" (by decide)
  have wide := operand "u16" (by decide)
  -- Both constraints hold by the rule for a number that is below another one.
  have sums (result : Term) (is : model.eval assigned result = .fixed "u" 32) :
      ∃ formulas, sum.constraint ⟨theory, Term.noMethod⟩ (.fixed "u" 8)
          (.fixed "u" 16) result = .ok formulas ∧
        ∀ formula ∈ formulas, model.holds formula assigned := by
    obtain ⟨formulas, isFormulas⟩ := exists_constraint ⟨theory, Term.noMethod⟩ .sum
      (fun name isClass => (plain name isClass).2 _ mem_cons_self) (.fixed "u" 8) (.fixed "u" 16)
      result
    refine ⟨formulas, isFormulas, (holds_constraint .sum isFormulas).mpr
      ⟨narrow.some, wide.some, .inl (.inl ⟨"u", by decide, 16, by decide, is, .inr ?_⟩)⟩⟩
    have aligned : alignSigns (.fixed "u" 8) (.fixed "u" 16) =
        (.fixed "u" 8, .fixed "u" 16) := by decide
    rw [signed, aligned, Term.fixed, Term.fixed, eval_atom, eval_atom]
    exact ⟨rfl, (structural.isNumberBelow_iff (by decide) (by decide)).mpr (by decide)⟩
  obtain ⟨formulas, isFirst, allFirst⟩ := sums (.const "sum") (by rw [eval])
  obtain ⟨others, isSecond, allSecond⟩ := sums (.fixed "u" 32) (eval_atom assigned _)
  have same := operator_result_determined empty.complete empty.built empty.stated
    (fun name isClass => (plain name isClass).1) satisfied isMethod .sum narrow.ground wide.ground
    isFirst isSecond allFirst allSecond
  rw [eval, Term.fixed, eval_atom] at same
  exact ⟨theory, axioms, empty.done, model, assigned, formulas, others, satisfied, isFirst,
    isSecond, allFirst, allSecond, same⟩

end Theory

end TypeInference
