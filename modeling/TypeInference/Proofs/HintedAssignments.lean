/- What the constraints of an assignment with a hint entail. -/

import TypeInference.Proofs.ConcreteModels
import TypeInference.Proofs.ExpressionEffects
import TypeInference.Proofs.FixedAssignments

namespace TypeInference

open List

/-- A formula that holds wherever others hold. -/
def Formula.FollowsFrom (formula : Formula) (premises : List Formula) : Prop :=
  ∀ {theory : Theory} (model : Interpretation theory) (assigned : Assignment),
    (∀ premise ∈ premises, model.holds premise assigned) → model.holds formula assigned

namespace Session

/-- The formulas asserted from one state to another. -/
def asserted (before after : Session) : List Formula :=
  (after.log.hard.toList.drop before.log.hard.toList.length).flatMap (·.parts)

theorem followsFrom_asserted {before after : Session} {log : Log} (message : String)
    {formula : Formula} (grown : before.log ≤ log)
    (last : after.log.hard = log.hard.push ⟨message, [formula]⟩) :
    formula.FollowsFrom (before.asserted after) := by
  refine fun model assigned all => all formula (mem_flatMap.mpr ⟨⟨message, [formula]⟩, ?_, ?_⟩)
  · rw [last, Array.toList_push, drop_append_of_le_length grown.hard.length_le]
    exact mem_append_right _ (mem_singleton_self _)
  · exact mem_singleton_self _

end Session

theorem IsConstant.of_constantInt {e : Expr} {constant : ConstantValue}
    (is : e.constantInt = .ok (true, constant)) :
    ∃ number, constant = .int number ∧ IsConstant e number := by
  fun_induction Expr.constantInt generalizing constant with
  | case1 line value =>
    obtain ⟨-, rfl⟩ := Prod.mk.inj (Except.ok.inj is)
    exact ⟨value, rfl, .literal line value⟩
  | case2 line value notInt => cases is
  | case3 line operand ih =>
    obtain ⟨⟨isInt, value⟩, inner, rest⟩ := bind_ok is
    obtain ⟨negated, negates, pair⟩ := bind_ok rest
    obtain ⟨rfl, rfl⟩ := Prod.mk.inj (pure_ok pair)
    obtain ⟨number, rfl, isConstant⟩ := ih inner
    obtain rfl := Except.ok.inj negates
    exact ⟨-number, rfl, .minus line isConstant⟩
  | case4 e => cases is

theorem Prepared.ofBody_axioms {body : List Stmt} {name : Option (String × String)}
    {funcParams : TypeParams} {prepared : Prepared}
    (done : ofBody body name funcParams = .ok prepared) :
    Axioms.ofTheory prepared.theory = .ok prepared.axioms := by
  obtain ⟨_, -, done⟩ := bind_ok done
  obtain ⟨_, -, done⟩ := bind_ok done
  obtain ⟨_, -, done⟩ := bind_ok done
  obtain ⟨_, stated, rfl⟩ := map_ok done
  exact stated

namespace Infer

variable {home : Option ModuleKey} {target hint value : Expr} {line : Nat} {session after : Session}
  {name : String} {type valueType : Meaning}

/-- A target that is bound is looked up. -/
theorem run_inferTarget_of_found (home : Option ModuleKey)
    (known : session.here.types.contains name)
    (found : session.chain.find? name = some type) (place : Option Nat) (usage : Usage) :
    ((Expr.name place name usage).inferTarget home).run session = (.ok type, session) := by
  change ((if session.here.types.contains name then Infer.find name else _ : Infer Meaning).run _) =
    _
  rw [if_pos known]
  refine (run_lift _).trans ?_
  rw [Chain.find, found]

/-- An assignment asserts that the value is below the target. -/
theorem run_assign_eq_ok {result : Meaning}
    (targeted : (target.inferTarget home).run session = (.ok type, session))
    (done : (target.assign home valueType).run session = (.ok result, after)) :
    ∃ s t, valueType.toTerm = .ok s ∧ type.toTerm = .ok t ∧
      after.log.hard = session.log.hard.push
        ⟨inLine "Assignment" target.lineNumber, [.subtype session.method s t]⟩ := by
  rw [Expr.assign, run_bind_of_ok targeted] at done
  obtain ⟨t, isType, done⟩ := run_lift_bind_ok done
  obtain ⟨s, isValueType, done⟩ := run_lift_bind_ok done
  obtain ⟨-, rfl⟩ := Prod.mk.inj done
  refine ⟨s, t, isValueType, isType, ?_⟩
  dsimp only
  split <;> rfl

theorem finishAssignment_of_isConstant {number : Int} (isConstant : IsConstant value number) :
    finishAssignment home target value type valueType line = (do
      let _ ← target.inferTarget home
      fixedWidthConstant type (.int number) line) := by
  rw [finishAssignment, isConstant.constantInt_eq]
  rfl

theorem finishAssignment_of_not_isConstant (notConstant : ∀ number, ¬ IsConstant value number)
    (done :
      (finishAssignment home target value type valueType line).run session = (.ok (), after)) :
    ∃ result, (target.assign home valueType).run session = (.ok result, after) := by
  obtain ⟨⟨isInt, constant⟩, _, read, done⟩ := run_bind_ok done
  obtain ⟨is, rfl⟩ := run_lift_ok read
  cases isInt with
  | false =>
    obtain ⟨result, _, assigned, last⟩ := run_bind_ok done
    obtain ⟨-, rfl⟩ := Prod.mk.inj last
    exact ⟨result, assigned⟩
  | true =>
    obtain ⟨number, -, isConstant⟩ := IsConstant.of_constantInt is
    exact absurd isConstant (notConstant number)

/-- The hint is read, then the value with the target bound. -/
theorem run_hintedAssignment_eq_ok
    (done : (hintedAssignment home target hint (some value) line).run session = (.ok (), after)) :
    ∃ place name usage type log valueType valued, target = .name place name usage ∧
      (readHint (.ofHome home) (Hint.ofExpr hint)).run session =
        (.ok type, { session with log := log }) ∧ session.log ≤ log ∧
      (value.infer home).run { session with log := log, here := session.here.bind name type } =
        (.ok valueType, valued) ∧
      (finishAssignment home target value type valueType line).run valued = (.ok (), after) := by
  obtain ⟨type, read, isRead, done⟩ := run_bind_ok done
  have grown := Grows.le isRead
  obtain ⟨log, rfl⟩ : ∃ log, read = { session with log := log } :=
    ⟨_, (congrArg Prod.snd isRead).symm⟩
  cases target with
  | name place name usage =>
    obtain ⟨_, bound, isBound, done⟩ := run_bind_ok done
    obtain ⟨-, rfl⟩ := Prod.mk.inj isBound
    obtain ⟨valueType, valued, isValued, done⟩ := run_bind_ok done
    exact ⟨place, name, usage, type, log, valueType, valued, rfl, isRead, grown.log, isValued, done⟩
  | _ => exact absurd done run_throw_bind_ne_ok

/-- The type of the value is below that of the hint, if it is no integer constant. Such a constant
is a value of a fixed-width type, and with another hint nothing is asked of it. -/
theorem hintedAssignment_entails
    (visible : (session.here.isClass && session.here.isFunction) = false)
    (done : (hintedAssignment home target hint (some value) line).run session = (.ok (), after)) :
    ∃ place name usage type log valueType valued, target = .name place name usage ∧
      (readHint (.ofHome home) (Hint.ofExpr hint)).run session =
        (.ok type, { session with log := log }) ∧
      (value.infer home).run { session with log := log, here := session.here.bind name type } =
        (.ok valueType, valued) ∧
      ((∀ number, ¬ IsConstant value number) → ∃ s t, valueType.toTerm = .ok s ∧
        type.toTerm = .ok t ∧
        (Formula.subtype session.method s t).FollowsFrom (session.asserted after)) ∧
      ∀ number, IsConstant value number →
        (∀ mark width, type.term?.bind Constraint.fixedWidth? = some (mark, width) → ∃ constant,
          (Formula.and [.isCon (mark ++ toString width) constant,
            .eq (.toInt (mark ++ toString width) constant) (.num number)]).FollowsFrom
              (session.asserted after)) ∧
        (type.term?.bind Constraint.fixedWidth? = none → after = valued) := by
  obtain ⟨place, name, usage, type, log, valueType, valued, rfl, isRead, grown, isValued, done⟩ :=
    run_hintedAssignment_eq_ok done
  have added := Expr.adds_of_run_infer isValued
  have logged := grown.trans added.log
  have known : valued.here.types.contains name = true := by
    rw [added.types fun _ => id]
    exact Table.contains_iff.mpr (Table.mem_keys_insert.mpr (.inl rfl))
  have found : valued.chain.find? name = some type :=
    ((Expr.infer_binds_nothing isValued).2 0 name).trans (Chain.find?_bind_self visible)
  have targeted := run_inferTarget_of_found home known found place usage
  refine ⟨place, name, usage, type, log, valueType, valued, rfl, isRead, isValued, ?_, ?_⟩
  · intro notConstant
    obtain ⟨result, assigned⟩ := finishAssignment_of_not_isConstant notConstant done
    obtain ⟨s, t, isValueType, isType, last⟩ := run_assign_eq_ok targeted assigned
    rw [show valued.method = session.method by rw [added.same]] at last
    exact ⟨s, t, isValueType, isType, Session.followsFrom_asserted _ logged last⟩
  · intro number isConstant
    rw [finishAssignment_of_isConstant isConstant, run_bind_of_ok targeted] at done
    unfold fixedWidthConstant at done
    constructor
    · intro mark width fixed
      rw [fixed] at done
      obtain ⟨-, rfl⟩ := Prod.mk.inj done
      exact ⟨_, Session.followsFrom_asserted (Log.rangeMessage ++ toString line) logged rfl⟩
    · intro notFixed
      rw [notFixed] at done
      exact (Prod.mk.inj done).2.symm

/-- A literal is assigned to a name with a class as hint. -/
def sampleAssignment (className : String) (value : Literal) : Infer Unit :=
  hintedAssignment none (.name (some 1) "x" .store) (.name (some 1) className .load)
    (some (.literal (some 1) value)) 1

set_option maxRecDepth 20000 in
/-- A truth value that is assigned to a number is below it. -/
theorem truth_assigned_to_number : ∃ prepared after s t,
    Prepared.ofBody [] none {} = .ok prepared ∧
    (sampleAssignment "int" (.bool true)).run prepared.start = (.ok (), after) ∧
    (Formula.subtype prepared.start.method s t).FollowsFrom (prepared.start.asserted after) := by
  have evaluated : ∃ prepared, Prepared.ofBody [] none {} = .ok prepared ∧
      ∃ after, (sampleAssignment "int" (.bool true)).run prepared.start = (.ok (), after) ∧
        (prepared.start.here.isClass && prepared.start.here.isFunction) = false := by
    decide +kernel
  obtain ⟨prepared, isPrepared, after, done, visible⟩ := evaluated
  obtain ⟨_, _, _, _, _, _, _, -, -, -, entails, -⟩ := hintedAssignment_entails visible done
  obtain ⟨s, t, -, -, follows⟩ := entails (fun number is => by cases is)
  exact ⟨prepared, after, s, t, isPrepared, done, follows⟩

set_option maxRecDepth 20000 in
/-- A number is assigned to a text, and in a model it is none. -/
theorem number_assigned_to_text : ∃ prepared after, Prepared.ofBody [] none {} = .ok prepared ∧
    (sampleAssignment "str" (.int 1)).run prepared.start = (.ok (), after) ∧
    prepared.start.asserted after = [] ∧ ∃ model : Interpretation prepared.theory,
      model.IsStandard prepared.axioms ∧ ¬ model.subtype Term.noMethod .int .str := by
  -- From whole numbers the bases lead to no text.
  have evaluated : ∃ prepared, Prepared.ofBody [] none {} = .ok prepared ∧
      (prepared.theory.sort.IsDatatype ∧ (∀ t ∈ [Term.int, .str], prepared.theory.IsGround t) ∧
        ∀ entry ∈ prepared.theory.survey.allClasses.entries,
          entry.1.name ∈ ["int", "float", "complex", "object"] →
          ∀ base ∈ entry.2, base ∈ ["int", "float", "complex", "object"]) ∧
      ∃ after, (sampleAssignment "str" (.int 1)).run prepared.start = (.ok (), after) ∧
        (prepared.start.asserted after).isEmpty = true := by
    decide +kernel
  obtain ⟨prepared, isPrepared, ⟨datatype, ground, closed⟩, after, done, none⟩ := evaluated
  obtain ⟨-, surveyed, built⟩ := Prepared.ofBody_eq_ok isPrepared
  obtain ⟨model, standard, structural⟩ := Interpretation.exists_isStandard_structural
    (Survey.ofProgram_isComplete surveyed) built rfl (Prepared.ofBody_axioms isPrepared) datatype
  refine ⟨prepared, after, isPrepared, done, isEmpty_iff.mp none, model, standard, ?_⟩
  rw [structural (ground _ (by simp)) (ground _ (by simp))]
  exact not_structuralSubtype_of_closed closed (by decide) (by decide) (by decide)

end Infer

end TypeInference
