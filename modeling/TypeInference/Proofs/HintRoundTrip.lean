/- A type is read back from the text of its hint. -/

import TypeInference.Proofs.GroundedClasses
import TypeInference.Proofs.HintForms
import TypeInference.Proofs.WellFormed

namespace TypeInference

open List

variable {theory : Theory}

namespace Hint

variable {t : Term}

/-- The types that can be read back. Classes take no type arguments, tuples do not have one
component, and functions no default values. -/
inductive IsReadable (theory : Theory) : Term → Prop where
  | none : IsReadable theory .none
  | primitive {name : String} {t : Term} (member : (name, t) ∈ primitives)
      (notSequence : t ≠ .sequence) : IsReadable theory t
  | own {name : String} (isClass : name ∈ theory.classNames)
      (plain : theory.sort.accessors? ("class_" ++ name) = some []) (named : IsIdentifier name)
      (notPrimitive : name ∉ primitives.map (·.1)) : IsReadable theory (.atom ("class_" ++ name))
  | list {t : Term} (element : IsReadable theory t) : IsReadable theory (.list t)
  | set {t : Term} (element : IsReadable theory t) : IsReadable theory (.set t)
  | dict {k v : Term} (key : IsReadable theory k) (value : IsReadable theory v) :
      IsReadable theory (.dict k v)
  | type {t : Term} (object : IsReadable theory t) : IsReadable theory (.type t)
  | tuple {args : List Term} (several : args.length ≠ 1) (fits : args.length ≤ theory.sort.maxTuple)
      (each : ∀ arg ∈ args, IsReadable theory arg) :
      IsReadable theory (.con ("tuple_" ++ toString args.length) args)
  | function {params : List Term} {result : Term} (fits : params.length ≤ theory.sort.maxFunc)
      (each : ∀ param ∈ params, IsReadable theory param) (returns : IsReadable theory result) :
      IsReadable theory (.con ("func_" ++ toString params.length) (.num 0 :: (params ++ [result])))

theorem IsReadable.isLegible {setting : Setting} (readable : IsReadable setting.theory t)
    (mode : VarMode) (classes : List ClassKey) (place : Place) :
    IsLegible setting mode classes place t := by
  induction readable with
  | none => exact .none
  | primitive member notSequence => exact .primitive member notSequence
  | own isClass plain named notPrimitive => exact .own isClass plain named notPrimitive
  | list _ ih => exact .list ih
  | set _ ih => exact .set ih
  | dict _ _ ihKey ihValue => exact .dict ihKey ihValue
  | type _ ih => exact .type ih
  | tuple several fits _ ih => exact .tuple (fun _ is => absurd (by simp [is]) several) fits ih
  | function fits _ _ ih ihReturns => exact .function fits ih ihReturns

/-- No accessor is applied in a type that can be read. -/
theorem IsReadable.simplify_eq_self (readable : IsReadable theory t) (sort : TypeSort) :
    sort.simplify t = t := by
  have con {name : String} {args : List Term} (each : ∀ arg ∈ args, sort.simplify arg = arg) :
      sort.simplify (.con name args) = .con name args := by
    rw [TypeSort.simplify, simplifyList_eq_self each]
  induction readable with
  | none => exact con (by simp)
  | @primitive name t member notSequence =>
    rcases primitives_symbol _ member notSequence with same | ⟨isSymbol, -⟩
    · obtain ⟨-, rfl⟩ := Prod.mk.inj same
      exact con (by simp)
    · obtain rfl : t = .atom name := isSymbol
      exact con (by simp)
  | own => exact con (by simp)
  | list _ ih => exact con (by simpa using ih)
  | set _ ih => exact con (by simpa using ih)
  | dict _ _ ihKey ihValue => exact con (by simpa using ⟨ihKey, ihValue⟩)
  | type _ ih => exact con (by simpa using ih)
  | tuple _ _ _ ih => exact con ih
  | function _ _ _ ih ihReturns =>
    refine con (forall_mem_cons.mpr ⟨rfl, ?_⟩)
    simpa [or_imp, forall_and] using ⟨ih, ihReturns⟩

/-- A type is read back from the text of its hint, wherever it stands, and nothing else changes. -/
theorem resolve_parse_print (setting : Setting) (readable : IsReadable setting.theory t)
    (place : Place) (mode : VarMode) (progress : Progress) :
    ∃ written e, print setting.theory place t = .ok written ∧ parse written = some e ∧
      (resolve setting mode (ofExpr e)).run.run progress = (.ok (.term t), progress) := by
  obtain ⟨e, isHint, reads⟩ :=
    (readable.isLegible mode setting.theory.survey.allClasses.keys place).exists_simpleExpr
  refine ⟨text e, e, ?_, parse_text reads.isHintExpr, ?_⟩
  · rw [print, ofTerm_of_simplify_eq (readable.simplify_eq_self _), isHint]
    rfl
  · have read (depth : Nat) : resolveTo setting depth mode (ofExpr e) = pure (.term t) := by
      cases depth <;> exact reads.resolves _
    rw [resolve, read]
    rfl

/-- Two classes and a tuple. -/
def twoClasses : List Stmt :=
  [.classDef ⟨{}, "A", [], [], [.pass {}], []⟩, .classDef ⟨{}, "B", [], [], [.pass {}], []⟩,
    .expr {} (.tuple (some 1) [.literal (some 1) .none, .literal (some 1) .none] .load)]

/-- A place in the second of two classes. -/
def withinB : Place := ⟨some "B", 2, .ofList [("A", 1), ("B", 2)]⟩

def nested : Term :=
  .dict .str (.con "func_1" [.num 0, .list (.atom "class_B"),
    .con "tuple_2" [.type (.atom "class_A"), .con "tuple_0" []]])

theorem isReadable_nested (readA : IsReadable theory (.atom "class_A"))
    (readB : IsReadable theory (.atom "class_B")) (tuples : 2 ≤ theory.sort.maxTuple)
    (functions : 1 ≤ theory.sort.maxFunc) : IsReadable theory nested := by
  have empty : IsReadable theory (.con "tuple_0" []) :=
    @IsReadable.tuple theory [] (by decide) (Nat.zero_le _) (by simp)
  have pair : IsReadable theory (.con "tuple_2" [.type (.atom "class_A"), .con "tuple_0" []]) :=
    @IsReadable.tuple theory [.type (.atom "class_A"), .con "tuple_0" []] (by decide) tuples
      (by simpa using ⟨.type readA, empty⟩)
  refine .dict (.primitive (by decide : ("str", .str) ∈ primitives) (by decide)) ?_
  exact @IsReadable.function theory [.list (.atom "class_B")] _ functions
    (by simpa using .list readB) pair

/-- Within the second class only its own name is quoted. -/
theorem nested_read_back : ∃ surveyed theory,
    Survey.Surveyed.ofBody twoClasses = .ok surveyed ∧
    Theory.ofSurvey {} surveyed.survey = .ok theory ∧
    print theory withinB nested =
      .ok "Dict[str, Callable[[List['B']], Tuple[Type[A], Tuple[()]]]]" ∧
    ∃ e, parse "Dict[str, Callable[[List['B']], Tuple[Type[A], Tuple[()]]]]" = some e ∧
      (resolve ⟨theory, {}, .nowhere⟩ .fixed (ofExpr e)).run.run ⟨{}, {}⟩ =
        (.ok (.term nested), ⟨{}, {}⟩) := by
  have evaluated : ∃ surveyed, Survey.Surveyed.ofBody twoClasses = .ok surveyed ∧
      ∃ theory, Theory.ofSurvey {} surveyed.survey = .ok theory ∧
        (∀ name ∈ ["A", "B"], name ∈ theory.classNames ∧
          theory.sort.accessors? ("class_" ++ name) = some []) ∧
        2 ≤ theory.sort.maxTuple ∧ 1 ≤ theory.sort.maxFunc ∧
        ∃ written, print theory withinB nested = .ok written ∧
          written = "Dict[str, Callable[[List['B']], Tuple[Type[A], Tuple[()]]]]" := by
    decide +kernel
  obtain ⟨surveyed, isBody, theory, built, classes, tuples, functions, written, isWritten, rfl⟩ :=
    evaluated
  have named : ∀ name ∈ ["A", "B"], IsIdentifier name ∧ name ∉ primitives.map (·.1) := by decide
  have readable : ∀ name ∈ ["A", "B"], IsReadable theory (.atom ("class_" ++ name)) :=
    fun name member => .own (classes name member).1 (classes name member).2 (named name member).1
      (named name member).2
  obtain ⟨_, e, again, parsed, read⟩ := resolve_parse_print ⟨theory, {}, .nowhere⟩
    (isReadable_nested (readable "A" (by simp)) (readable "B" (by simp)) tuples functions)
    withinB .fixed ⟨{}, {}⟩
  obtain rfl := Except.ok.inj (isWritten.symm.trans again)
  exact ⟨surveyed, theory, isBody, built, isWritten, e, parsed, read⟩

end Hint

end TypeInference
