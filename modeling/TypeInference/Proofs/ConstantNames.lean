/- Which constants have one name. -/

import Std.Data.String.ToNat
import TypeInference.Proofs.InferenceGrowth
import TypeInference.Proofs.WellFormed

namespace TypeInference

open List Axioms

variable {stem other : String}

namespace Log

theorem underscore_not_mem_toString (n : Nat) : '_' ∉ (toString n).toList :=
  fun inside => absurd (isDigit_of_mem_toString inside) (by decide)

theorem toList_nextName (log : Log) (stem : String) :
    (log.nextName stem).toList = stem.toList ++ '_' :: (toString (log.count + 1)).toList := by
  simp [nextName]

/-- The name of a constant tells its stem and its number. -/
theorem nextName_injective {first second : Log}
    (same : first.nextName stem = second.nextName other) :
    stem = other ∧ first.count = second.count := by
  have letters := congrArg String.toList same
  rw [toList_nextName, toList_nextName] at letters
  obtain ⟨stems, numbers⟩ := append_cons_injective (underscore_not_mem_toString _)
    (underscore_not_mem_toString _) letters
  exact ⟨String.toList_inj.mp stems,
    Nat.succ.inj (Nat.repr_injective (String.toList_inj.mp numbers))⟩

/-- A log has given its next number away on the way to a later one. -/
def Passes (first later : Log) : Prop :=
  (∃ stem allowed, (first.fresh stem allowed).2 ≤ later) ∨
    ∃ message parts, first.assert message parts ≤ later

theorem Passes.count_lt {first later : Log} (passes : first.Passes later) :
    first.count < later.count := by
  rcases passes with ⟨stem, allowed, le⟩ | ⟨message, parts, le⟩
  · exact le.count
  · exact le.count

theorem isStem_iff : isStem stem ↔ ¬ "class_".toList <+: stem.toList := by
  rw [isStem, Bool.not_eq_true', ← Bool.not_eq_true, isPrefixOf_iff_prefix]

end Log

namespace Term

variable {attr : String}

theorem toList_classAttr (className attr : String) :
    ("class_" ++ className ++ "_attr_" ++ attr).toList =
      "class_".toList ++ (className.toList ++ ("_attr_".toList ++ attr.toList)) := by
  simp

/-- The first class is named like the second one with the mark of attributes and more after it. -/
def Overlap (longer attr shorter other : String) : Prop :=
  ∃ middle, longer = shorter ++ "_attr" ++ middle ∧ "_" ++ other = middle ++ "_attr_" ++ attr

theorem Overlap.classAttr_eq {longer shorter : String}
    (overlap : Overlap longer attr shorter other) :
    classAttr longer attr = classAttr shorter other := by
  obtain ⟨middle, rfl, rest⟩ := overlap
  have same : "class_" ++ (shorter ++ "_attr" ++ middle) ++ "_attr_" ++ attr =
      "class_" ++ shorter ++ "_attr" ++ (middle ++ "_attr_" ++ attr) := by
    simp only [String.append_assoc]
  rw [classAttr, classAttr, same, ← rest]
  simp only [String.append_assoc]
  rfl

/-- The mark of attributes overlaps itself in its last letter only. -/
theorem attr_of_append_eq {front left right : List Char} (nonempty : front ≠ [])
    (same : "_attr_".toList ++ left = front ++ ("_attr_".toList ++ right)) :
    ∃ middle, front = "_attr".toList ++ middle ∧
      '_' :: left = middle ++ ("_attr_".toList ++ right) := by
  rcases front with _ | ⟨a, _ | ⟨b, _ | ⟨c, _ | ⟨d, _ | ⟨e, middle⟩⟩⟩⟩⟩
  · exact absurd rfl nonempty
  · simp at same
  · simp at same
  · simp at same
  · simp at same
  · obtain ⟨rfl, rfl, rfl, rfl, rfl, rest⟩ : '_' = a ∧ 'a' = b ∧ 't' = c ∧ 't' = d ∧ 'r' = e ∧
        '_' :: left = middle ++ ("_attr_".toList ++ right) := by
      simpa using same
    exact ⟨middle, rfl, rest⟩

theorem overlap_of_append_eq {longer shorter : String} {front : List Char} (nonempty : front ≠ [])
    (isLonger : longer.toList = shorter.toList ++ front)
    (same : "_attr_".toList ++ other.toList = front ++ ("_attr_".toList ++ attr.toList)) :
    Overlap longer attr shorter other := by
  obtain ⟨middle, rfl, rest⟩ := attr_of_append_eq nonempty same
  refine ⟨String.ofList middle, ?_, ?_⟩
  · apply String.toList_inj.mp
    simpa using isLonger
  · apply String.toList_inj.mp
    simpa using rest

/-- Attributes share a constant if they are one, or if the name of one class goes on with the mark
of attributes after the other. -/
theorem classAttr_eq_iff {className otherClass : String} :
    classAttr className attr = classAttr otherClass other ↔
      (className = otherClass ∧ attr = other) ∨ Overlap className attr otherClass other ∨
        Overlap otherClass other className attr := by
  constructor
  · intro same
    have letters := congrArg String.toList (Term.const.inj same)
    rw [toList_classAttr, toList_classAttr] at letters
    have inner := append_cancel_left letters
    rcases append_eq_append_iff.mp inner with ⟨front, longer, rest⟩ | ⟨front, longer, rest⟩
    · by_cases empty : front = []
      · subst empty
        exact .inl ⟨String.toList_inj.mp (by simpa using longer.symm),
          String.toList_inj.mp (append_cancel_left rest)⟩
      · exact .inr (.inr (overlap_of_append_eq empty longer rest))
    · by_cases empty : front = []
      · subst empty
        exact .inl ⟨String.toList_inj.mp (by simpa using longer),
          String.toList_inj.mp (append_cancel_left rest.symm)⟩
      · exact .inr (.inl (overlap_of_append_eq empty longer rest))
  · rintro (⟨rfl, rfl⟩ | overlap | overlap)
    · rfl
    · exact overlap.classAttr_eq
    · exact overlap.classAttr_eq.symm

/-- What stands before a number at the end begins like an attribute. -/
theorem classAttr_ne_numbered (allowed : Log.isStem stem) (log : Log)
    (className attr : String) : classAttr className attr ≠ .const (log.nextName stem) := by
  intro same
  have letters := congrArg String.toList (Term.const.inj same)
  rw [toList_classAttr, Log.toList_nextName] at letters
  rcases append_eq_append_iff.mp letters with ⟨more, isStem, -⟩ | ⟨more, -, number⟩
  · exact Log.isStem_iff.mp allowed ⟨more, isStem.symm⟩
  · have inside : 'a' ∈ more ++ (className.toList ++ ("_attr_".toList ++ attr.toList)) := by simp
    rw [← number] at inside
    rcases mem_cons.mp inside with isMark | isDigit
    · exact absurd isMark (by decide)
    · exact absurd (isDigit_of_mem_toString isDigit) (by decide)

end Term

namespace Axioms

/-- The variables of the axioms, in the order of their numbers. -/
def vars : List Variable :=
  let ofGenerics (generics : List (List Variable × Variable)) : List Variable :=
    generics.flatMap fun generic => generic.1 ++ [generic.2]
  [Theory.SubtypeAxioms.x, Theory.SubtypeAxioms.m]
    ++ ofGenerics Theory.SubtypeAxioms.genericVariables
    ++ [Theory.SubstAxioms.what, Theory.SubstAxioms.replacement, Theory.SubstAxioms.source,
      Theory.SubstAxioms.result]
    ++ ofGenerics Theory.SubstAxioms.genericVariables ++ [Theory.LimitAxioms.x]

/-- What the names of the variables begin with. -/
def stems : List String :=
  ["x", "m", "v1", "normal_func", "v1", "v2", "normal_func", "v1", "v2", "v3", "normal_func",
    "what", "by", "in", "is", "v1", "normal_func", "v1", "v2", "normal_func", "v1", "v2", "v3",
    "normal_func", "x"]

theorem names_vars : vars.map (·.name) =
    stems.mapIdx fun taken stem => ({ count := taken } : Log).nextName stem := by
  decide

/-- The variables of the axioms are drawn before any other constant. -/
theorem exists_log_of_mem {v : Variable} (member : v ∈ vars) : ∃ (log : Log) (stem : String),
    Log.isStem stem ∧ v.name = log.nextName stem ∧ log.count < nameCount := by
  have named := mem_map_of_mem (f := (·.name)) member
  rw [names_vars, mem_mapIdx] at named
  obtain ⟨taken, early, is⟩ := named
  have allowed : ∀ stem ∈ stems, Log.isStem stem = true := by decide
  exact ⟨{ count := taken }, stems[taken], allowed _ (getElem_mem early), is.symm, early⟩

theorem nameCount_le_count (axioms : Axioms) : nameCount ≤ axioms.log.count := by
  have start : ({ count := nameCount } : Log) ≤ axioms.subtype.foldl
      (fun log formula => log.assert "Subtyping error" [formula]) { count := nameCount } := by
    refine List.foldlRecOn axioms.subtype _ le_rfl ?_
    intro log reached formula _
    exact reached.trans (log.le_assert _ _)
  exact ((start.trans (Log.le_assert _ _ _)).trans (Log.le_assert _ _ _)).count

end Axioms

/-- Two attributes have one constant if they are the same or their classes are named one after the
other. No constant that a log draws is that of an attribute, of another log or of the axioms. -/
theorem constants_with_one_name (className attr otherClass other : String) :
    (Term.classAttr className attr = .classAttr otherClass other ↔
      (className = otherClass ∧ attr = other) ∨ Term.Overlap className attr otherClass other ∨
        Term.Overlap otherClass other className attr) ∧
    (∀ (log : Log) (stem : String) (allowed : Log.isStem stem = true),
      (log.fresh stem allowed).1 ≠ .classAttr className attr) ∧
    (∀ first later : Log, first.Passes later → ∀ stem other : String,
      first.nextName stem ≠ later.nextName other) ∧
    ((vars.map (·.name)).Nodup ∧ ∀ v ∈ vars,
      v.term ≠ .classAttr className attr ∧
      ∀ (axioms : Axioms) (later : Log), axioms.log ≤ later → ∀ stem : String,
        v.name ≠ later.nextName stem) ∧
    ∀ (stmt : Stmt) (session after : Session) (type : Meaning),
      (stmt.infer Infer.importer).run session = (.ok type, after) → session.log ≤ after.log := by
  refine ⟨Term.classAttr_eq_iff, ?_, ?_, ⟨by decide, ?_⟩, ?_⟩
  · intro log stem allowed
    exact (Term.classAttr_ne_numbered allowed log className attr).symm
  · intro first later passes stem other same
    exact absurd (Log.nextName_injective same).2 (Nat.ne_of_lt passes.count_lt)
  · intro v member
    obtain ⟨log, stem, allowed, isName, early⟩ := exists_log_of_mem member
    constructor
    · intro same
      apply Term.classAttr_ne_numbered allowed log className attr
      rw [← isName]
      exact same.symm
    · intro axioms later le other same
      rw [isName] at same
      have numbers := (Log.nextName_injective same).2
      have late := Nat.le_trans axioms.nameCount_le_count le.count
      omega
  · intro stmt session after type done
    exact (Grows.le done).log

/-- An assignment, for which a constant is drawn. -/
def numberAssignment : Stmt :=
  .assign {} [.name (some 1) "x" .store] (.literal (some 1) (.int 1))

/-- The constants of an attribute, of a log and of the axioms differ. -/
theorem plain_constants_told_apart :
    Term.classAttr "A" "x" ≠ .classAttr "B" "x" ∧
    (log ⟨[], [], []⟩).Passes ((log ⟨[], [], []⟩).fresh "class" rfl).2 ∧
    ((log ⟨[], [], []⟩).fresh "class" rfl).1 ≠ .classAttr "A" "x" ∧
    (log ⟨[], [], []⟩).nextName "class" ≠
      ((log ⟨[], [], []⟩).fresh "class" rfl).2.nextName "class" ∧
    Theory.LimitAxioms.x ∈ vars ∧
    Theory.LimitAxioms.x.name ≠ (log ⟨[], [], []⟩).nextName "x" ∧
    ∃ (session after : Session) (type : Meaning),
      (numberAssignment.infer Infer.importer).run session = (.ok type, after) ∧
      session.log ≤ after.log ∧ session.log.count < after.log.count := by
  obtain ⟨attributes, numbered, told, ⟨-, drawn⟩, kept⟩ := constants_with_one_name "A" "x" "B" "x"
  have passes : (log ⟨[], [], []⟩).Passes ((log ⟨[], [], []⟩).fresh "class" rfl).2 :=
    .inl ⟨"class", rfl, le_rfl⟩
  have apart (longer shorter : String) (length : longer.length = shorter.length) :
      ¬ Term.Overlap longer "x" shorter "x" := by
    rintro ⟨middle, rfl, -⟩
    have marked : "_attr".length = 5 := rfl
    rw [String.length_append, String.length_append] at length
    omega
  refine ⟨?_, passes, numbered _ _ _, told _ _ passes _ _, by decide,
    (drawn _ (by decide)).2 _ _ le_rfl _, ?_⟩
  · intro same
    rcases attributes.mp same with ⟨one, -⟩ | overlap | overlap
    · exact absurd one (by decide)
    · exact apart "A" "B" rfl overlap
    · exact apart "B" "A" rfl overlap
  · let session : Session := { theory := ⟨{}, {}, ⟨[], 0, 0⟩, {}, [], {}, {}⟩ }
    have ran : ∃ type after,
        (numberAssignment.infer Infer.importer).run session = (.ok type, after) ∧
        session.log.count < after.log.count := by
      decide +kernel
    obtain ⟨type, after, done, drawn⟩ := ran
    exact ⟨session, after, type, done, kept _ _ _ _ done, drawn⟩

/-- A class with an attribute, and one that is named like it. -/
def overlappingClasses : List Stmt :=
  let withAttribute (name attr : String) : Stmt :=
    .classDef ⟨{}, name, [], [],
      [.assign {} [.name (some 2) attr .store] (.literal (some 2) (.int 1))], []⟩
  [withAttribute "A" "attr_x", withAttribute "A_attr" "x"]

/-- The attributes of the two classes have one constant. -/
theorem overlappingClasses_share_constant : ∃ program survey,
    Program.read {} overlappingClasses none = .ok program ∧
    Survey.ofProgram {} none program {} {} = .ok survey ∧
    survey.instanceAttrs.get? "A" = some ["__init__", "attr_x"] ∧
    survey.instanceAttrs.get? "A_attr" = some ["__init__", "x"] ∧
    Term.classAttr "A" "attr_x" = .classAttr "A_attr" "x" := by
  have evaluated : ∃ program theory, Theory.ofBody overlappingClasses {} = .ok (program, theory) ∧
      theory.survey.instanceAttrs.get? "A" = some ["__init__", "attr_x"] ∧
      theory.survey.instanceAttrs.get? "A_attr" = some ["__init__", "x"] := by
    decide +kernel
  obtain ⟨program, theory, done, first, second⟩ := evaluated
  obtain ⟨read, surveyed, -⟩ := Theory.ofBody_eq_ok done
  exact ⟨program, theory.survey, read, surveyed, first, second, by decide⟩

end TypeInference
