/- When the type sort has a generic type for each number of type arguments. -/

import TypeInference.Proofs.InferenceFaults

namespace TypeInference

open List TypeSort

/-- The length of the longest list of type parameters. -/
def TypeParams.longest (params : TypeParams) : Nat := (params.values.map List.length).foldl max 0

/-- Anything but the number of type arguments may be blamed. -/
def Limits.ofTypeArguments (theory : Theory) (sources : Sources)
    (within : theory.survey.maxTypeArgs ≤ maxGeneric) : Limits where
  theory := theory
  sources := sources
  named _ := True
  imported _ := True
  blamed arity := arity ≠ .typeArguments
  typeArguments exceeds := absurd within (Nat.not_le.mpr exceeds)

section

variable {theory : Theory} {sources : Sources}

instance (within : theory.survey.maxTypeArgs ≤ maxGeneric) :
    (Limits.ofTypeArguments theory sources within).IsLenient := ⟨fun _ => trivial⟩

theorem covers_ofTypeArguments (within : theory.survey.maxTypeArgs ≤ maxGeneric)
    (node : Node) :
    (Limits.ofTypeArguments theory sources within).Covers node :=
  fun _ _ => ⟨fun _ _ => Arity.noConfusion, fun _ _ => Arity.noConfusion, fun _ _ => trivial⟩

theorem isComplete_ofTypeArguments (within : theory.survey.maxTypeArgs ≤ maxGeneric) :
    (Limits.ofTypeArguments theory sources within).IsComplete where
  functions := .of_covers fun _ _ =>
    ⟨fun _ _ => covers_ofTypeArguments within _, fun _ _ => trivial⟩
  methods _ _ := .of_covers fun _ _ =>
    ⟨fun _ _ => covers_ofTypeArguments within _, fun _ _ => trivial⟩
  libraries _ _ := .of_covers fun _ _ =>
    ⟨fun _ _ => covers_ofTypeArguments within _, fun _ _ => trivial⟩
  files _ _ _ := ⟨_, Limits.admits_of_covers fun _ _ => covers_ofTypeArguments within _⟩

/-- Type arguments are never blamed if generic types can have so many. -/
theorem infer_ne_typeArguments (within : theory.survey.maxTypeArgs ≤ maxGeneric)
    (axioms : Axioms) (program : Program) :
    (Session.ofProgram theory axioms program).infer.1 ≠
      .error (.arityOutOfRange .typeArguments) := by
  intro failed
  exact Session.accepts_of_infer (isComplete_ofTypeArguments within)
    (Session.ofProgram_holds rfl rfl fun _ _ => trivial)
    (Limits.admits_of_covers fun stmt _ => covers_ofTypeArguments within (.stmt stmt))
    failed rfl rfl

end

section

variable {ε α β : Type}

theorem exists_mapM {f : α → Except ε β} {values : List α}
    (each : ∀ value ∈ values, ∃ result, f value = .ok result) :
    ∃ results, values.mapM f = .ok results := by
  cases done : values.mapM f with
  | ok results => exact ⟨results, rfl⟩
  | error fault =>
    obtain ⟨value, member, failed⟩ := exists_of_mapM_error done
    obtain ⟨result, isOk⟩ := each value member
    cases failed.symm.trans isOk

/-- A joining traversal ends at the first fault. -/
theorem flatMapM_eq_error {f : α → Except ε (List β)} {before after : List α} {value : α}
    {fault : ε} (each : ∀ other ∈ before, ∃ results, f other = .ok results)
    (failed : f value = .error fault) : (before ++ value :: after).flatMapM f = .error fault := by
  induction before with
  | nil =>
    rw [nil_append, flatMapM_cons, failed]
    rfl
  | cons other before ih =>
    obtain ⟨results, isOk⟩ := each other mem_cons_self
    have rest := ih fun next member => each next (mem_cons_of_mem _ member)
    rw [cons_append, flatMapM_cons, isOk]
    exact bind_eq_error_iff.mpr (.inr ⟨results, rfl, bind_eq_error_iff.mpr (.inl rest)⟩)

end

namespace Constraint

theorem mapM_toTerm (args : List Term) :
    (args.map Meaning.term).mapM Meaning.toTerm = .ok args := by
  induction args with
  | nil => rfl
  | cons arg args ih =>
    rw [map_cons, mapM_cons]
    exact bind_eq_ok_iff.mpr ⟨arg, rfl, bind_eq_ok_iff.mpr ⟨args, ih, rfl⟩⟩

variable (frame : Frame) (called : Term) (args : List Term) (result : Term) (typeArgs : List Term)

/-- There are constraints up to the number that is allowed. -/
theorem exists_genericWith {count : Nat} (few : count ≤ maxGeneric) : ∃ calls,
    genericWith frame (.term called) (args.map .term) result typeArgs count = .ok calls := by
  rw [genericWith, if_neg (Nat.not_lt.mpr few), mapM_toTerm]
  exact exists_mapM fun arity _ => ⟨_, rfl⟩

/-- Beyond it no call is possible. -/
theorem genericCall_eq_error (exceeds : maxGeneric < frame.survey.maxTypeArgs) :
    genericCall frame (.term called) (args.map .term) result typeArgs =
      .error (.arityOutOfRange .typeArguments) := by
  obtain ⟨more, isMore⟩ := Nat.exists_eq_add_of_lt exceeds
  have counts : List.range frame.survey.maxTypeArgs = List.range maxGeneric ++
      maxGeneric :: (List.range more).map (maxGeneric + 1 + ·) := by
    rw [isMore, Nat.add_right_comm, range_add]
    rfl
  rw [genericCall, counts]
  refine flatMapM_eq_error (fun index member => ?_) ?_
  · exact exists_genericWith frame called args result typeArgs (mem_range.mp member)
  · rfl

/-- Nor is a call of anything that may be generic. -/
theorem call_ne_ok (exceeds : maxGeneric < frame.survey.maxTypeArgs)
    (calls : List Formula) :
    call frame (.term called) (args.map .term) result typeArgs ≠ .ok calls := by
  intro done
  obtain ⟨_, -, done⟩ := bind_ok done
  obtain ⟨_, -, done⟩ := bind_ok done
  obtain ⟨_, -, done⟩ := bind_ok done
  obtain ⟨_, generic, -⟩ := bind_ok done
  cases (genericCall_eq_error frame called args result typeArgs exceeds).symm.trans generic

end Constraint

/-- Calls are given as many type arguments as the longest lists of type parameters of functions and
classes together. If generic types can take them, they are never blamed. Otherwise only calls of
declared functions and of inferred classes are possible. -/
theorem type_arguments_blamed {settings : Settings} {base : Option String} {program : Program}
    {funcParams classParams : TypeParams} {survey : Survey} {theory : Theory}
    (surveyed : Survey.ofProgram settings base program funcParams classParams = .ok survey)
    (built : Theory.ofSurvey settings survey = .ok theory) :
    (survey.funcParams.longest + survey.classParams.longest ≤ TypeSort.maxGeneric →
      ∀ axioms, (Session.ofProgram theory axioms program).infer.1 ≠
        .error (.arityOutOfRange .typeArguments)) ∧
    (TypeSort.maxGeneric < survey.funcParams.longest + survey.classParams.longest →
      ∀ (method called : Term) (args : List Term) (result : Term) (typeArgs : List Term),
        Constraint.genericCall ⟨theory, method⟩ (.term called) (args.map .term) result typeArgs =
          .error (.arityOutOfRange .typeArguments) ∧
        ∀ calls, Constraint.call ⟨theory, method⟩ (.term called) (args.map .term) result typeArgs ≠
          .ok calls) := by
  have total : survey.maxTypeArgs = survey.funcParams.longest + survey.classParams.longest := by
    obtain ⟨before, -, rfl⟩ := Survey.ofProgram_isComplete surveyed
    rfl
  rw [← total, ← (Theory.ofSurvey_eq_ok built).2.1]
  constructor
  · intro within axioms
    exact infer_ne_typeArguments within axioms program
  · intro exceeds method called args result typeArgs
    exact ⟨Constraint.genericCall_eq_error ⟨theory, method⟩ called args result typeArgs exceeds,
      Constraint.call_ne_ok ⟨theory, method⟩ called args result typeArgs exceeds⟩

/-- A program with one function and one call of it. -/
def oneCall (inputs : List String) : List Stmt :=
  [.functionDef ⟨{}, "f", ⟨[], inputs.map fun name => ⟨some 1, name, none⟩, none, [], [], none, []⟩,
      [.returnValue {} (some (.name (some 1) "a" .load))], [], none, false⟩,
    .expr {} (.call (some 2) (.name (some 2) "f" .load)
      (inputs.map fun _ => .literal (some 2) (.int 1)) [])]

/-- A function generic in as many variables as parameters. -/
def oneCallParams (vars : List String) : TypeParams := ⟨[("f", vars.map .named)]⟩

/-- With the one of the declared iterators, two type parameters are not too many. -/
theorem two_type_parameters_within : ∃ prepared,
    Prepared.ofBody (oneCall ["a", "b"]) none (oneCallParams ["A", "B"]) = .ok prepared ∧
    prepared.survey.funcParams.longest + prepared.survey.classParams.longest ≤ TypeSort.maxGeneric ∧
    prepared.infer ≠ .error (.arityOutOfRange .typeArguments) := by
  have evaluated : ∃ prepared,
      Prepared.ofBody (oneCall ["a", "b"]) none (oneCallParams ["A", "B"]) = .ok prepared ∧
      prepared.survey.funcParams.longest + prepared.survey.classParams.longest ≤
        maxGeneric := by
    decide +kernel
  obtain ⟨prepared, done, within⟩ := evaluated
  obtain ⟨-, surveyed, built⟩ := Prepared.ofBody_eq_ok done
  exact ⟨prepared, done, within,
    (type_arguments_blamed surveyed built).1 within prepared.axioms⟩

/-- No list of type parameters is too long by itself. -/
def Survey.HasFewParams (survey : Survey) : Prop :=
  (∀ entry ∈ survey.funcParams.entries, entry.2.length ≤ maxGeneric) ∧
  ∀ entry ∈ survey.classParams.entries,
    ∀ method ∈ ((survey.methods.get? entry.1).getD {}).keys,
      entry.2.length + ((survey.funcParams.get? method).getD []).length ≤ maxGeneric

instance (survey : Survey) : Decidable survey.HasFewParams := inferInstanceAs (Decidable (_ ∧ _))

/-- Three type parameters are too many beside the declared one. -/
theorem three_type_parameters_blamed : ∃ prepared,
    Prepared.ofBody (oneCall ["a", "b", "c"]) none (oneCallParams ["A", "B", "C"]) = .ok prepared ∧
    prepared.survey.HasFewParams ∧
    prepared.infer = .error (.arityOutOfRange .typeArguments) := by
  decide +kernel

end TypeInference
