/- The constraints of binary operators as relations between values. -/

import TypeInference.Proofs.ConstraintFaults
import TypeInference.Proofs.FixedAssignments
import TypeInference.Proofs.SubstLaws

namespace TypeInference

open List Constraint TypeSort

/-- The operators that classes may define. -/
inductive ArithmeticOperator where
  | sum
  | product
  | other (method : String) (isMod : Bool)

namespace ArithmeticOperator

def method : ArithmeticOperator → String
  | sum => "__add__"
  | product => "__mul__"
  | other method _ => method

def constraint (op : ArithmeticOperator) (frame : Frame) (left right result : Term) :
    Except Fault (List Formula) :=
  match op with
  | sum => addition frame left right result
  | product => multiplication frame left right result
  | other method isMod => arithmetic frame left right result method isMod

end ArithmeticOperator

variable {theory : Theory} {model : Interpretation theory} {frame : Frame} {assigned : Assignment}
  {left right result : Term} {formulas : List Formula} {method : String}

namespace Interpretation

section

variable (model : Interpretation theory) (frame : Frame) (assigned : Assignment)

/-- Subtyping of values, as seen from within a method. -/
def Below (sub sup : Term) : Prop := model.subtype (model.eval assigned frame.method) sub sup

/-- A class has a method that fits the operands and the result. -/
def Overloads (method : String) (left right result : Term) : Prop :=
  ∃ name ∈ frame.theory.classNames, (frame.theory.method? name method).isSome ∧
    (∃ receiver, frame.instanceOf name = .ok receiver ∧ left = model.eval assigned receiver) ∧
    model.Below frame assigned right
      (model.eval assigned (.get (funcArg 2 2) (.classAttr name method))) ∧
    result = model.eval assigned (.get (funcResult 2) (.classAttr name method))

/-- Fixed-width numbers compare, and the result is wider. -/
def Widens (left right result : Term) : Prop :=
  ∃ mark ∈ ["u", "i"], ∃ width ∈ [8, 16, 32], result = .fixed mark (width * 2) ∧
    (left = .fixed mark width ∧
        (right = .fixed mark width ∨ model.Below frame assigned right left) ∨
      right = .fixed mark width ∧ model.Below frame assigned left right)

/-- The result is the first number and above the second. -/
def Exceeds (first second result : Term) : Prop :=
  model.Below frame assigned first .complex ∧ model.Below frame assigned second first ∧
    result = first

/-- In a sum, numbers of up to 32 bits are not the result. -/
def ExceedsNarrow (first second result : Term) : Prop :=
  model.Exceeds frame assigned first second result ∧
    ¬ model.Below frame assigned first (.fixed "u" 32) ∧
    ¬ model.Below frame assigned first (.fixed "i" 32)

/-- The first one of two values is a sequence that is repeated. -/
def Repeats (first second result : Term) : Prop :=
  model.Below frame assigned first .sequence ∧ model.Below frame assigned second .int ∧
    result = first

/-- The rules on values, those of methods apart. -/
def Combines (signed : Term × Term) (left right result : Term) : ArithmeticOperator → Prop
  | .sum =>
    model.Widens frame assigned signed.1 signed.2 result ∨
    model.ExceedsNarrow frame assigned left right result ∨
    model.ExceedsNarrow frame assigned right left result ∨
    left = right ∧ result = left ∧ (model.Below frame assigned left .sequence ∨
      left = .list (model.select "list_arg_0" left) ∨ left = .str)
  | .product =>
    left = .bool ∧ right = .bool ∧ result = .int ∨
    ¬ (left = .bool ∧ right = .bool) ∧
      (model.Repeats frame assigned left right result ∨
        model.Repeats frame assigned right left result ∨
        model.Exceeds frame assigned left right result ∨
        model.Exceeds frame assigned right left result)
  | .other _ isMod =>
    model.Exceeds frame assigned left right result ∨
    model.Exceeds frame assigned right left result ∨
    isMod = true ∧ (left = .str ∨ left = .bytes) ∧ result = left

end

theorem eval_atom (assigned : Assignment) (name : String) :
    model.eval assigned (.atom name) = .atom name :=
  eval_con assigned name []

theorem eval_listOf (assigned : Assignment) (t : Term) :
    model.eval assigned (.list (.listArg t)) =
      .list (model.select "list_arg_0" (model.eval assigned t)) := by
  rfl

theorem holds_below {sub sup : Term} : model.holds (frame.subtype sub sup) assigned ↔
    model.Below frame assigned (model.eval assigned sub) (model.eval assigned sup) :=
  holds_subtype

theorem holds_isAtom {t : Term} {name : String} :
    model.holds (.eq t (.atom name)) assigned ↔ model.eval assigned t = .atom name := by
  rw [holds_eq, eval_atom]

theorem holds_not {body : Formula} :
    model.holds (.not body) assigned ↔ ¬ model.holds body assigned := by
  rw [holds]

theorem holds_widenings : (∃ option ∈ widenings frame left right result,
    model.holds option assigned) ↔ model.Widens frame assigned (model.eval assigned left)
      (model.eval assigned right) (model.eval assigned result) := by
  have within {α : Type} {values : List α} {options : α → List Formula} :
      (∃ option ∈ values.flatMap options, model.holds option assigned) ↔
        ∃ value ∈ values, ∃ option ∈ options value, model.holds option assigned := by
    grind
  refine within.trans (exists_congr fun mark => and_congr_right fun _ => within.trans
    (exists_congr fun width => and_congr_right fun _ => ?_))
  simp only [exists_mem_cons_iff, not_mem_nil, false_and, exists_false, or_false, holds_and,
    forall_mem_cons, Term.fixed, holds_isAtom, holds_below]
  grind

theorem eq_get_of_ok {sort : TypeSort} {accessor : String} {whole part : Term}
    (found : sort.get accessor whole = .ok part) : part = .get accessor whole := by
  unfold TypeSort.get at found
  split at found
  · exact (Except.ok.inj found).symm
  · cases found

theorem holds_overloading {options : List Formula}
    (done : overloading frame left right result method = .ok options) :
    (∃ option ∈ options, model.holds option assigned) ↔
      model.Overloads frame assigned method (model.eval assigned left) (model.eval assigned right)
        (model.eval assigned result) := by
  -- What one class adds, if its rule can be stated.
  have rule {name : String} {option : Formula}
      (isOption : overloadedBy frame left right result method name = .ok option) :
      model.holds option assigned ↔
        (∃ receiver, frame.instanceOf name = .ok receiver ∧
          model.eval assigned left = model.eval assigned receiver) ∧
        model.Below frame assigned (model.eval assigned right)
          (model.eval assigned (.get (funcArg 2 2) (.classAttr name method))) ∧
        model.eval assigned result =
          model.eval assigned (.get (funcResult 2) (.classAttr name method)) := by
    obtain ⟨methodType, isMethod, rest⟩ := bind_ok isOption
    obtain ⟨receiver, isReceiver, rest⟩ := bind_ok rest
    obtain ⟨other, isOther, rest⟩ := bind_ok rest
    obtain ⟨value, isValue, rfl⟩ := map_ok rest
    obtain rfl := eq_get_of_ok isOther
    obtain rfl := eq_get_of_ok isValue
    obtain rfl := Theory.eq_of_attrType isMethod
    simp [holds_and, holds_eq, holds_below, isReceiver]
  have each := mapM_eq_ok_iff.mp (Theory.forMethods_eq_ok_iff.mp done).2
  constructor
  · rintro ⟨option, member, holds⟩
    obtain ⟨name, listed, isOption⟩ := forall₂_exists_left each member
    obtain ⟨isClass, hasMethod⟩ := mem_filter.mp listed
    exact ⟨name, isClass, by simpa using hasMethod, (rule isOption).mp holds⟩
  · rintro ⟨name, isClass, hasMethod, applies⟩
    obtain ⟨option, member, isOption⟩ :=
      forall₂_exists_right each (mem_filter.mpr ⟨isClass, by simpa using hasMethod⟩)
    exact ⟨option, member, (rule isOption).mpr applies⟩

/-- The values of operands with signs aligned if written out. -/
def signed (model : Interpretation theory) (assigned : Assignment) (left right : Term) :
    Term × Term :=
  let aligned := alignSigns left right
  (model.eval assigned aligned.1, model.eval assigned aligned.2)

/-- The constraint holds if no operand is none and one of its rules applies. -/
theorem holds_constraint (op : ArithmeticOperator)
    (done : op.constraint frame left right result = .ok formulas) :
    (∀ formula ∈ formulas, model.holds formula assigned) ↔
      model.eval assigned left ≠ Term.none ∧ model.eval assigned right ≠ Term.none ∧
        (model.Combines frame assigned (model.signed assigned left right) (model.eval assigned left)
          (model.eval assigned right) (model.eval assigned result) op ∨
        model.Overloads frame assigned op.method (model.eval assigned left)
          (model.eval assigned right) (model.eval assigned result)) := by
  have both {options : List Formula} : (∀ formula ∈ [notNone left right, .or options],
      model.holds formula assigned) ↔ model.eval assigned left ≠ Term.none ∧
        model.eval assigned right ≠ Term.none ∧
          ∃ option ∈ options, model.holds option assigned := by
    simp [notNone, holds_and, holds_or, holds_distinct, and_assoc]
  cases op with
  | sum =>
    obtain ⟨overloaded, isOverloaded, rfl⟩ := map_ok done
    refine both.trans (and_congr_right fun _ => and_congr_right fun _ => ?_)
    change (∃ option ∈ widenings frame _ _ result ++ _ ++ _, _) ↔ _
    simp only [mem_append, or_and_right, exists_or, holds_overloading isOverloaded, holds_widenings]
    refine or_congr_left (or_congr_right ?_)
    simp only [exists_mem_cons_iff, not_mem_nil, false_and, exists_false, or_false, holds_and,
      forall_mem_cons, holds_below, holds_eq, holds_not, ExceedsNarrow, Exceeds, Term.complex,
      Term.fixed, Term.sequence, Term.str, eval_listOf, eval_atom]
    grind
  | product =>
    obtain ⟨overloaded, isOverloaded, rfl⟩ := map_ok done
    refine both.trans (and_congr_right fun _ => and_congr_right fun _ => ?_)
    simp only [mem_append, or_and_right, exists_or, holds_overloading isOverloaded]
    refine or_congr_left ?_
    simp only [exists_mem_cons_iff, not_mem_nil, false_and, exists_false, or_false, holds_and,
      forall_mem_cons, holds_below, holds_eq, holds_or, Exceeds, Combines, Repeats, holds_distinct,
      strongerNumber, cons_append, nil_append, Term.complex, Term.bool, Term.int,
      Term.sequence, eval_atom]
    grind
  | other name isMod =>
    obtain ⟨overloaded, isOverloaded, rfl⟩ := map_ok done
    refine both.trans (and_congr_right fun _ => and_congr_right fun _ => ?_)
    simp only [mem_append, or_and_right, exists_or, holds_overloading isOverloaded]
    rw [or_right_comm]
    refine or_congr_left ?_
    simp only [strongerNumber, exists_mem_cons_iff, not_mem_nil, false_and, exists_false,
      or_false, holds_and, forall_mem_cons, holds_below, holds_eq, Exceeds, Term.complex, Combines,
      eval_atom]
    cases isMod
    · simp
    · simp [holds_and, holds_or, holds_eq, Term.str, Term.bytes, eval_atom, or_assoc]

end Interpretation

namespace Constraint

/-- Whether methods can be stated does not depend on operands. -/
theorem exists_overloading {options : List Formula}
    (done : overloading frame left right result method = .ok options)
    (left' right' result' : Term) :
    ∃ others, overloading frame left' right' result' method = .ok others := by
  obtain ⟨known, stated⟩ := Theory.forMethods_eq_ok_iff.mp done
  simp only [overloading, Theory.forMethods_eq_ok_iff, and_iff_right known]
  cases failed : (frame.theory.classNames.filter fun name =>
      (frame.theory.method? name method).any fun _ => true).mapM
        (overloadedBy frame left' right' result' method) with
  | ok others => exact ⟨others, rfl⟩
  | error fault =>
    obtain ⟨name, listed, is⟩ := exists_of_mapM_error failed
    obtain ⟨option, rest⟩ := exists_of_mapM stated listed
    obtain ⟨methodType, isMethod, rest⟩ := bind_ok rest
    obtain ⟨receiver, isReceiver, rest⟩ := bind_ok rest
    obtain ⟨other, isOther, rest⟩ := bind_ok rest
    obtain ⟨value, isValue, -⟩ := bind_ok rest
    simp [overloadedBy, bind_eq_error_iff, isMethod, isReceiver, isOther, isValue] at is

/-- Without a method for it, an operator is not overloaded. -/
theorem overloading_eq_nil
    (plain : ∀ name ∈ frame.theory.classNames, frame.theory.methodIn name method = .ok none)
    (left right result : Term) : overloading frame left right result method = .ok [] := by
  have unknown (name : String) (isClass : name ∈ frame.theory.classNames) :=
    Theory.method?_of_methodIn (plain name isClass)
  refine Theory.forMethods_eq_ok_iff.mpr ⟨fun name isClass => ?_, ?_⟩
  · rw [plain name isClass, unknown name isClass]
  · rw [filter_eq_nil_iff.mpr fun name isClass => by simp [unknown name isClass]]
    rfl

theorem fixedWidth?_eq_some {t : Term} {mark : String} {width : Nat}
    (found : fixedWidth? t = some (mark, width)) :
    (mark = "u" ∨ mark = "i") ∧ width ∈ widths ∧ t = .fixed mark width := by
  have all : ∀ entry ∈ ["u", "i"].flatMap fun mark => widths.map fun width =>
      (mark, width), (entry.1 = "u" ∨ entry.1 = "i") ∧ entry.2 ∈ widths := by decide
  obtain ⟨isMark, isWidth⟩ := all _ (mem_of_find?_eq_some found)
  have is := find?_some found
  exact ⟨isMark, isWidth, eq_of_beq (a := t) (b := .fixed mark width) is⟩

/-- Signs are aligned in the same way from either side. -/
theorem alignSigns_swap (left right : Term) :
    alignSigns right left = (alignSigns left right).swap := by
  unfold alignSigns
  rcases isLeft : fixedWidth? left with _ | ⟨mark, width⟩
  · cases fixedWidth? right <;> rfl
  · rcases isRight : fixedWidth? right with _ | ⟨other, otherWidth⟩
    · rfl
    · rcases (fixedWidth?_eq_some isLeft).1 with rfl | rfl <;>
        rcases (fixedWidth?_eq_some isRight).1 with rfl | rfl <;> rfl

end Constraint

namespace Interpretation

/-- Formatting of texts apart, the rules for values are symmetric. -/
theorem Combines.swap {op : ArithmeticOperator} (unformatted : ∀ method, op ≠ .other method true)
    {signed : Term × Term}
    (combines : model.Combines frame assigned signed left right result op) :
    model.Combines frame assigned signed.swap right left result op := by
  cases op with
  | sum =>
    rcases combines with ⟨mark, isMark, width, isWidth, isResult, applies⟩ | above | above | same
    · refine .inl ⟨mark, isMark, width, isWidth, isResult, ?_⟩
      rcases applies with ⟨isFirst, isSecond | below⟩ | ⟨isSecond, below⟩
      · exact .inl ⟨isSecond, .inl isFirst⟩
      · exact .inr ⟨isFirst, below⟩
      · exact .inl ⟨isSecond, .inr below⟩
    · exact .inr (.inr (.inl above))
    · exact .inr (.inl above)
    · obtain ⟨rfl, rest⟩ := same
      exact .inr (.inr (.inr ⟨rfl, rest⟩))
  | product =>
    rcases combines with ⟨isLeft, isRight, isResult⟩ | ⟨notBoth, rules⟩
    · exact .inl ⟨isRight, isLeft, isResult⟩
    · exact .inr ⟨fun both => notBoth both.symm, by tauto⟩
  | other method isMod =>
    rcases combines with above | above | ⟨rfl, -⟩
    · exact .inr (.inl above)
    · exact .inl above
    · exact absurd rfl (unformatted method)

/-- Without a method for it, an operator can be stated. -/
theorem exists_constraint (frame : Frame) (op : ArithmeticOperator)
    (plain : ∀ name ∈ frame.theory.classNames, frame.theory.methodIn name op.method = .ok none)
    (left right result : Term) :
    ∃ formulas, op.constraint frame left right result = .ok formulas := by
  have overloaded := overloading_eq_nil plain left right result
  cases op with
  | sum => exact ⟨_, bind_eq_ok_iff.mpr ⟨[], overloaded, rfl⟩⟩
  | product => exact ⟨_, bind_eq_ok_iff.mpr ⟨[], overloaded, rfl⟩⟩
  | other => exact ⟨_, bind_eq_ok_iff.mpr ⟨[], overloaded, rfl⟩⟩

/-- Without methods for them, operators that do not format are symmetric. -/
theorem operators_commute (frame : Frame) (op : ArithmeticOperator)
    (unformatted : ∀ method, op ≠ .other method true)
    (plain : ∀ name ∈ frame.theory.classNames, frame.theory.methodIn name op.method = .ok none)
    (left right result : Term) :
    ∃ formulas others, op.constraint frame left right result = .ok formulas ∧
      op.constraint frame right left result = .ok others ∧
      ∀ {theory : Theory} (model : Interpretation theory) (assigned : Assignment),
        (∀ formula ∈ formulas, model.holds formula assigned) ↔
          ∀ formula ∈ others, model.holds formula assigned := by
  -- One direction for all operands gives the other one.
  have swap {theory : Theory} (model : Interpretation theory) (assigned : Assignment)
      {left right : Term} {formulas others : List Formula}
      (isFormulas : op.constraint frame left right result = .ok formulas)
      (isOthers : op.constraint frame right left result = .ok others)
      (holds : ∀ formula ∈ formulas, model.holds formula assigned) :
      ∀ formula ∈ others, model.holds formula assigned := by
    obtain ⟨someLeft, someRight, combines | ⟨name, isClass, hasMethod, -⟩⟩ :=
      (holds_constraint op isFormulas).mp holds
    · have turned := combines.swap unformatted
      rw [signed, Prod.swap_prod_mk] at turned
      refine (holds_constraint op isOthers).mpr ⟨someRight, someLeft, .inl ?_⟩
      rw [signed, alignSigns_swap]
      exact turned
    · simp [Theory.method?_of_methodIn (plain name isClass)] at hasMethod
  obtain ⟨formulas, isFormulas⟩ := exists_constraint frame op plain left right result
  obtain ⟨others, isOthers⟩ := exists_constraint frame op plain right left result
  refine ⟨formulas, others, isFormulas, isOthers, fun model assigned => ?_⟩
  exact ⟨swap model assigned isFormulas isOthers, swap model assigned isOthers isFormulas⟩

end Interpretation

namespace Theory

open Interpretation

/-- The empty program has a model, and defines none of some operators. -/
theorem exists_emptyModel : ∃ theory axioms, IsEmpty theory {} axioms ∧
    (∃ model : Interpretation theory, model.Satisfies axioms) ∧
    ∀ name ∈ theory.classNames, isAliasedType name = false ∧
      ∀ method ∈ ["__add__", "__and__", "__lt__"], theory.methodIn name method = .ok none := by
  have evaluated : ∃ theory axioms, ofEmptyProgram {} {} = .ok (theory, axioms) ∧
      theory.sort.IsDatatype ∧ ∀ name ∈ theory.classNames, isAliasedType name = false ∧
        ∀ method ∈ ["__add__", "__and__", "__lt__"], theory.methodIn name method = .ok none := by
    decide +kernel
  obtain ⟨theory, axioms, done, datatype, plain⟩ := evaluated
  have empty : IsEmpty theory {} axioms := ⟨done, datatype⟩
  exact ⟨theory, axioms, empty, empty.exists_model, plain⟩

/-- The sum of an unsigned and a signed number is symmetric. -/
theorem mixed_sum_commutes : ∃ theory axioms, ofEmptyProgram {} {} = .ok (theory, axioms) ∧
    ∃ (model : Interpretation theory) (formulas others : List Formula), model.Satisfies axioms ∧
      ArithmeticOperator.sum.constraint ⟨theory, Term.noMethod⟩ (.fixed "u" 8) (.fixed "i" 16)
        (.fixed "i" 32) = .ok formulas ∧
      ArithmeticOperator.sum.constraint ⟨theory, Term.noMethod⟩ (.fixed "i" 16) (.fixed "u" 8)
        (.fixed "i" 32) = .ok others ∧
      ∀ assigned, (∀ formula ∈ formulas, model.holds formula assigned) ↔
        ∀ formula ∈ others, model.holds formula assigned := by
  obtain ⟨theory, axioms, empty, ⟨model, satisfied⟩, plain⟩ := exists_emptyModel
  obtain ⟨formulas, others, isFormulas, isOthers, same⟩ :=
    operators_commute ⟨theory, Term.noMethod⟩ .sum (by simp)
      (fun name isClass => (plain name isClass).2 _ mem_cons_self) (.fixed "u" 8) (.fixed "i" 16)
      (.fixed "i" 32)
  exact ⟨theory, axioms, empty.done, model, formulas, others, satisfied, isFormulas, isOthers,
    same model⟩

end Theory

end TypeInference
