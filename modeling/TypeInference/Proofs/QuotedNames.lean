/- Which names are quoted in the hint for a type. -/

import TypeInference.Proofs.HintLegibility

namespace TypeInference

open List

namespace Hint

variable {classes : List ClassKey} {place : Place} {name : String} {e : Expr} {es : List Expr}
  {t : Term} {ts : List Term} {theory : Theory}

mutual

/-- The names in quotes, from left to right. -/
def quoted : Expr → List String
  | .literal _ (.str name _) => [name]
  | .subscript _ value index _ => quoted value ++ quoted index
  | .tuple _ es _ | .list _ es _ => quotedIn es
  | .call _ func args _ => quoted func ++ quotedIn args
  | .unary _ _ operand => quoted operand
  | _ => []

def quotedIn : List Expr → List String
  | [] => []
  | e :: es => quoted e ++ quotedIn es

end

mutual

/-- The classes in a type outside of generic classes. -/
def plainClasses : Term → List String
  | .con head [] => (restAfter? "class_" head).toList
  | .con head (arg :: args) =>
    if hasForm head && (genericName? head).isNone then plainClasses arg ++ plainClassesIn args
    else []
  | _ => []

def plainClassesIn : List Term → List String
  | [] => []
  | t :: ts => plainClasses t ++ plainClassesIn ts

end

instance (place : Place) (name : String) : Decidable (place.Quotes name) :=
  decidable_of_iff ((place.lines.get? name).any fun line =>
    decide (place.line ≤ line ∨ place.scope = some name)) (by
      simp [Place.Quotes, Option.any_eq_true])

@[simp]
theorem quoted_nameExpr (name : String) : quoted (nameExpr name) = [] := rfl

@[simp]
theorem quoted_callExpr (head : String) (args : List Expr) :
    quoted (callExpr head args) = quotedIn args := rfl

@[simp]
theorem quotedIn_nil : quotedIn [] = [] := rfl

@[simp]
theorem quotedIn_cons (e : Expr) (es : List Expr) :
    quotedIn (e :: es) = quoted e ++ quotedIn es := rfl

theorem quotedIn_append (first second : List Expr) :
    quotedIn (first ++ second) = quotedIn first ++ quotedIn second := by
  induction first with
  | nil => rfl
  | cons e es ih => simp [ih]

theorem quoted_appliedExpr (head : String) (es : List Expr) :
    quoted (appliedExpr head es) = quotedIn es := by
  unfold appliedExpr
  split
  · exact (append_nil _).symm
  · rfl

theorem quoted_numberExpr (value : Int) : quoted (numberExpr value) = [] := by
  unfold numberExpr
  split <;> rfl

mutual

theorem quoted_termExpr : (t : Term) → quoted (termExpr t) = []
  | .const _ | .method _ | .con _ [] => rfl
  | .num value => quoted_numberExpr value
  | .con _ (arg :: args) => quotedIn_termExprs (arg :: args)
  | .get _ whole | .upper whole | .toInt _ whole => by
    simp [termExpr, quoted_termExpr whole]
  | .subst whole what replacement => by
    simp [termExpr, quoted_termExpr whole, quoted_termExpr what, quoted_termExpr replacement]

theorem quotedIn_termExprs : (ts : List Term) → quotedIn (termExprs ts) = []
  | [] => rfl
  | t :: ts => by simp [termExprs, quoted_termExpr t, quotedIn_termExprs ts]

end

theorem quoted_classExpr (place : Place) (name : String) :
    quoted (place.classExpr name) = [name].filter place.Quotes := by
  by_cases quotes : place.Quotes name
  · have isQuoted : quoted (.literal (some 1) (.str name none)) = [name] := rfl
    simp [Place.classExpr_of_quotes quotes, isQuoted, quotes]
  · simp [Place.classExpr_of_not_quotes quotes, quotes]

/-- A symbol is quoted if it is that of a class. -/
theorem quoted_symbolExpr (place : Place) (symbol : String) :
    quoted (symbolExpr place symbol) =
      (restAfter? "class_" symbol).toList.filter place.Quotes := by
  unfold symbolExpr
  split
  · next hint plain =>
    unfold plainName? at plain
    split at plain
    case h_5 => cases plain
    all_goals
      obtain rfl := Option.some.inj plain
      rw [restAfter?_eq_none (by decide)]
      rfl
  · split
    · next className is => simpa [is] using quoted_classExpr place className
    · next is _ => simp [is]
    · next is _ => simp [is]

/-- What is quoted in the parts is quoted in the hint. -/
theorem quoted_formExpr (done : formExpr classes name es = .ok e)
    (function : isNumbered "func_" name → ∃ first params last,
      es = first :: (params ++ [last]) ∧ quoted first = []) : quoted e = quotedIn es := by
  unfold formExpr at done
  split at done
  case h_5 =>
    split at done
    · exact Except.ok.inj done ▸ quoted_appliedExpr _ _
    · split at done
      · next numbered =>
        obtain ⟨first, params, last, rfl, unquoted⟩ := function numbered
        have isLast : (first :: (params ++ [last])).getLast? = some last := by
          rw [← cons_append, getLast?_concat]
        rw [isLast] at done
        obtain rfl := Except.ok.inj done
        have isList (es : List Expr) : quoted (.list (some 1) es .load) = quotedIn es := rfl
        simp [quoted_appliedExpr, unquoted, quotedIn_append, isList]
      · split at done
        · split at done
          · exact Except.ok.inj done ▸ quoted_appliedExpr _ _
          · cases done
        · exact Except.ok.inj done ▸ quoted_callExpr _ _
  all_goals exact Except.ok.inj done ▸ quoted_appliedExpr _ _

theorem exists_formExpr (es : List Expr) (listed : ∀ className, genericName? name = some className →
    ∃ key ∈ classes, key.accessors ≠ [] ∧ key.name = name) :
    ∃ e, formExpr classes name es = .ok e := by
  unfold formExpr
  split
  case h_5 =>
    split
    · exact ⟨_, rfl⟩
    · split
      · exact ⟨_, rfl⟩
      · split
        · next className is =>
          rw [if_pos (by simpa using listed className is)]
          exact ⟨_, rfl⟩
        · exact ⟨_, rfl⟩
  all_goals exact ⟨_, rfl⟩

/-- A type is written with the quotes that the place asks for. -/
def IsQuotedAt (classes : List ClassKey) (place : Place) (t : Term) : Prop :=
  ∃ e, simpleExpr classes place t = .ok e ∧ quoted e = (plainClasses t).filter place.Quotes

theorem quotedIn_eq
    (each : Forall₂ (fun t e => quoted e = (plainClasses t).filter place.Quotes) ts es) :
    quotedIn es = (plainClassesIn ts).filter place.Quotes := by
  induction each with
  | nil => rfl
  | cons first _ ih => rw [quotedIn_cons, plainClassesIn, filter_append, first, ih]

theorem isQuotedAt_con {head : String} {args : List Term} (nonempty : args ≠ [])
    (listed : ∀ className, genericName? head = some className →
      ∃ key ∈ classes, key.accessors ≠ [] ∧ key.name = head)
    (function : isNumbered "func_" head → ∃ count params result,
      args = .num count :: (params ++ [result]))
    (each : ∀ place, ∀ arg ∈ args, IsQuotedAt classes place arg) :
    IsQuotedAt classes place (.con head args) := by
  obtain ⟨arg, rest, rfl⟩ := exists_cons_of_ne_nil nonempty
  by_cases form : hasForm head = true
  · let inner : Place := if (genericName? head).isSome then {} else place
    obtain ⟨es, areHints, quotes⟩ := exists_simpleExprs (each inner)
    obtain ⟨e, isHint⟩ := exists_formExpr es listed
    refine ⟨e, ?_, ?_⟩
    · rw [simpleExpr_of_hasForm form nonempty]
      change (simpleExprs classes inner _ >>= _) = _
      rw [areHints]
      exact isHint
    · rw [quoted_formExpr isHint ?_, quotedIn_eq quotes, plainClasses, plainClassesIn, form]
      · cases generic : genericName? head with
        | none => simp [inner, generic]
        | some className =>
          have away (name : String) : ¬ Place.Quotes {} name := by
            rintro ⟨line, known, -⟩
            cases known
          simp [inner, generic, away]
      · intro numbered
        obtain ⟨count, params, result, is⟩ := function numbered
        rw [is] at quotes
        obtain ⟨first, others, unquoted, rest, rfl⟩ := forall₂_cons_left_iff.mp quotes
        obtain ⟨shown, last, rfl, -⟩ := forall₂_concat_left rest
        exact ⟨first, shown, last, rfl, unquoted⟩
  · refine ⟨_, if_neg form, ?_⟩
    rw [plainClasses, Bool.eq_false_iff.mpr form]
    change [] ++ quotedIn (termExprs (arg :: rest)) = []
    rw [quotedIn_termExprs]
    rfl

theorem isQuotedAt_of_isType (formed : theory.WellFormed) (type : theory.sort.IsType t)
    (place : Place) : IsQuotedAt theory.survey.allClasses.keys place t := by
  refine type.structural
    (motive := fun t => ∀ place, IsQuotedAt theory.survey.allClasses.keys place t) ?_ place
  intro name accessors args declared fit each place
  cases args with
  | nil => exact ⟨_, rfl, quoted_symbolExpr place name⟩
  | cons arg args =>
    refine isQuotedAt_con (by simp) (fun className generic => ?_) (fun numbered => ?_) ?_
    · have named := restAfter?_eq_some (Option.eq_some_of_filter_eq_some generic)
      have count := fit.length_eq
      rcases formed.declared.mp declared with ofClass | ofVariable | ofGeneric
      · obtain ⟨key, member, is⟩ := mem_map.mp ofClass
        obtain ⟨rfl, rfl⟩ : key.name = name ∧ key.accessors = accessors := Prod.mk.inj is
        rcases mem_cons.mp member with rfl | listed
        · exact absurd named (append_ne (by decide) _).symm
        · exact ⟨key, listed, fun none => by simp [none] at count, rfl⟩
      · obtain ⟨id, -, is⟩ := mem_map.mp ofVariable
        obtain ⟨rfl, rfl⟩ := Prod.ext_iff.mp is
        cases count
      · obtain ⟨index, -, is⟩ := mem_map.mp ofGeneric
        have letters := congrArg String.toList ((congrArg Prod.fst is).trans named)
        simp at letters
    · have starts : "func_".toList <+: name.toList := by
        by_contra differs
        rw [isNumbered, restAfter?_eq_none differs] at numbered
        cases numbered
      obtain ⟨-, count, params, result, is, -⟩ := formed.isType_function ⟨_, declared, fit⟩ starts
      exact ⟨count, params, result, is⟩
    · intro place arg member
      rcases fit.num_or_isType member with ⟨value, rfl⟩ | isType
      · exact ⟨_, simpleExpr_num _ _ value, quoted_numberExpr value⟩
      · exact each arg member isType place

/-- A hint quotes exactly the classes that are not yet defined where it stands, but for those that
are generic or stand in the arguments of a generic one. -/
theorem hint_quotes_plain_classes {settings : Settings} {survey : Survey}
    (complete : survey.IsComplete) (built : Theory.ofSurvey settings survey = .ok theory)
    (type : theory.sort.IsType t) (place : Place) :
    ∃ e, print theory place t = .ok (text e) ∧ ofTerm theory place t = .ok e ∧
      quoted e = (plainClasses t).filter place.Quotes := by
  have formed := Theory.ofSurvey_wellFormed complete built
  obtain ⟨e, isHint, quotes⟩ := isQuotedAt_of_isType formed type place
  have written : ofTerm theory place t = .ok e :=
    (ofTerm_of_simplify_eq (simplify_of_isType type) place).trans isHint
  refine ⟨e, ?_, written, quotes⟩
  rw [print, written]
  rfl

/-- A place before the definition of a class. -/
def earlyPlace : Place where
  line := 1
  lines := ⟨[("A", 2)]⟩

/-- Classes by themselves and in a generic class. -/
def pairedClasses : Term := .dict (.atom "class_A") (.con "class_Box" [.atom "class_A"])

theorem exists_pairedClasses : ∃ surveyed, Survey.Surveyed.ofBody genericClasses = .ok surveyed ∧
    ∃ theory, Theory.ofSurvey {} surveyed.survey = .ok theory ∧
      theory.sort.IsType pairedClasses ∧
      ∃ written, print theory earlyPlace pairedClasses = .ok written ∧
        written = "Dict['A', Box[A]]" := by
  decide +kernel

/-- A class by itself is quoted. -/
theorem pairedClasses_quotes_first : ∃ surveyed theory e,
    Survey.Surveyed.ofBody genericClasses = .ok surveyed ∧
    Theory.ofSurvey {} surveyed.survey = .ok theory ∧
    ofTerm theory earlyPlace pairedClasses = .ok e ∧ quoted e = ["A"] := by
  obtain ⟨surveyed, isBody, theory, built, type, -⟩ := exists_pairedClasses
  obtain ⟨-, isSurvey⟩ := Survey.Surveyed.ofBody_eq_ok isBody
  obtain ⟨e, -, written, quotes⟩ :=
    hint_quotes_plain_classes (Survey.ofProgram_isComplete isSurvey) built type earlyPlace
  exact ⟨surveyed, theory, e, isBody, built, written, quotes.trans (by decide +kernel)⟩

/-- In a generic class the same class is not quoted. -/
theorem boxed_class_unquoted : ∃ surveyed theory,
    Survey.Surveyed.ofBody genericClasses = .ok surveyed ∧
    Theory.ofSurvey {} surveyed.survey = .ok theory ∧ theory.sort.IsType pairedClasses ∧
    earlyPlace.Quotes "A" ∧ print theory earlyPlace pairedClasses = .ok "Dict['A', Box[A]]" := by
  obtain ⟨surveyed, isBody, theory, built, type, _, printed, rfl⟩ := exists_pairedClasses
  exact ⟨surveyed, theory, isBody, built, type, by decide, printed⟩

end Hint

end TypeInference
