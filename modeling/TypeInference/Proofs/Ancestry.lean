/- The graph, the orders and the subtype axioms agree on which class inherits from which. -/

import TypeInference.Proofs.Congruence
import TypeInference.Proofs.GroundedClasses
import TypeInference.Proofs.Subtyping

namespace TypeInference

open List Theory Inheritance

variable {name : String}

namespace Survey

section Classes

variable {survey : Survey} {classes : List ClassDef} (knows : survey.Knows classes)
  (distinct : NamesAreDistinct classes) {other : String}
include knows distinct

/-- A base in the table is the root or a base that is inherited from. -/
theorem isBase_of_table {base : ClassKey}
    (isBase : survey.completeClasses.allClasses.IsBase (.plain ("class_" ++ name)) base) :
    base = .plain "object" ∨ ∃ other, base = .plain ("class_" ++ other) ∧
      (bases classes).IsBase name other := by
  obtain ⟨bases, listed, entry, member, rfl⟩ := isBase
  obtain ⟨c, isClass, rfl, -, -, own, areBases, rfl⟩ := knows.of_mem entry
  obtain ⟨other, inside, rfl⟩ := mem_map.mp member
  by_cases root : other = "object"
  · rw [root]
    exact .inl rfl
  · rw [sortBase_eq_iff.mpr ⟨root, rfl⟩]
    exact .inr ⟨other, rfl, _, get?_bases distinct isClass,
      areBases.mem_parents_iff.mpr ⟨inside, root⟩⟩

theorem isBase_of_bases (plain : survey.IsPlain name)
    (isBase : (bases classes).IsBase name other) :
    survey.completeClasses.allClasses.IsBase (.plain ("class_" ++ name))
      (.plain ("class_" ++ other)) := by
  obtain ⟨parents, known, isParent⟩ := isBase
  obtain ⟨c, isClass, rfl, rfl⟩ := mem_of_get?_bases known
  obtain ⟨own, areBases, entry⟩ := knows.exists_mem distinct isClass plain.2
  rw [keyOf_eq_plain_iff.mpr ⟨plain.1, rfl⟩] at entry
  obtain ⟨inside, notRoot⟩ := areBases.mem_parents_iff.mp isParent
  exact ⟨_, "class_" ++ other, entry,
    mem_map.mpr ⟨other, inside, sortBase_eq_iff.mpr ⟨notRoot, rfl⟩⟩, rfl⟩

/-- A path in the table stays within the program, up to the root. -/
theorem isAncestor_of_table {key : ClassKey}
    (above : survey.completeClasses.allClasses.HasAncestor (.plain ("class_" ++ name)) key) :
    key = .plain "object" ∨ ∃ other, key = .plain ("class_" ++ other) ∧
      (bases classes).IsAncestor name other := by
  induction above with
  | refl => exact .inr ⟨name, rfl, .refl⟩
  | tail _ isBase ih =>
    rcases ih with rfl | ⟨other, rfl, path⟩
    · obtain ⟨bases, _, entry, -⟩ := isBase
      exact absurd (mem_map_of_mem entry) (nodup_cons.mp survey.nodup_sortClasses).1
    · rcases isBase_of_table knows distinct isBase with root | ⟨next, rfl, last⟩
      · exact .inl root
      · exact .inr ⟨next, rfl, path.tail last⟩

/-- The table has the whole path of a plain class. -/
theorem hasAncestor_of_bases (plainly : survey.InheritsPlainly classes)
    (plain : survey.IsPlain name) (above : (bases classes).IsAncestor name other) :
    survey.IsPlain other ∧ survey.completeClasses.allClasses.HasAncestor
      (.plain ("class_" ++ name)) (.plain ("class_" ++ other)) := by
  induction above with
  | refl => exact ⟨plain, .refl⟩
  | tail _ isBase ih =>
    obtain ⟨isPlain, path⟩ := ih
    refine ⟨?_, path.tail (isBase_of_bases knows distinct isPlain isBase)⟩
    obtain ⟨parents, known, isParent⟩ := isBase
    obtain ⟨c, isClass, rfl, rfl⟩ := mem_of_get?_bases known
    exact plainly c isClass isPlain.2 _ isParent

theorem hasAncestor_iff_isAncestor (plainly : survey.InheritsPlainly classes)
    (plain : survey.IsPlain name) :
    survey.completeClasses.allClasses.HasAncestor (.plain ("class_" ++ name))
      (.plain ("class_" ++ other)) ↔ (bases classes).IsAncestor name other := by
  constructor
  · intro above
    rcases isAncestor_of_table knows distinct above with root | ⟨same, is, path⟩
    · exact absurd (ClassKey.plain.inj root) (append_ne (by decide) other)
    · rwa [class_append_injective (ClassKey.plain.inj is)]
  · intro above
    exact (hasAncestor_of_bases knows distinct plainly plain above).2

omit distinct in
/-- Structural subtyping between plain classes is inheritance. -/
theorem structuralSubtype_own_iff (plain : survey.IsPlain name) (noneBelowAll : Bool) :
    StructuralSubtype survey.completeClasses.allClasses noneBelowAll
      (.con ("class_" ++ name) []) (.con ("class_" ++ other) []) ↔
    survey.completeClasses.allClasses.HasAncestor (.plain ("class_" ++ name))
      (.plain ("class_" ++ other)) := by
  rw [structuralSubtype_iff, ClassTable.hasAncestor_iff]
  constructor
  · intro step
    generalize isFirst : Term.con ("class_" ++ name) [] = first at step
    generalize isSecond : Term.con ("class_" ++ other) [] = second at step
    cases step with
    | refl t =>
      obtain ⟨same, -⟩ := Term.con.inj (isSecond.trans isFirst.symm)
      exact .inl (congrArg ClassKey.plain same)
    | none on notGeneric =>
      exact absurd (Term.con.inj isFirst).1 (append_ne (by decide) name)
    | @ancestor key base args above =>
      obtain ⟨isKey, -⟩ := Term.con.inj isFirst
      obtain ⟨isBase, -⟩ := Term.con.inj isSecond
      obtain ⟨_, ⟨bases, _, entry, -⟩, -⟩ := Relation.TransGen.head'_iff.mp above
      have isPlain : key = _ := eq_plain_of_mem knows plain (mem_map_of_mem entry) isKey.symm
      rw [isPlain, ← isBase] at above
      exact .inr above
    | varies each =>
      obtain ⟨isName, -⟩ := Term.con.inj isFirst
      have letters := each.name_take
      simp [← isName] at letters
  · rintro (same | above)
    · rw [ClassKey.plain.inj same]
      exact .refl _
    · exact .ancestor [] above

end Classes

theorem inheritsPlainly_of_ofTable {survey : Survey} {classes : List ClassDef} {graph : ClassGraph}
    (derived : ∀ entry ∈ survey.completeClasses.allClasses.entries, entry.2 ≠ [])
    (knows : survey.Knows classes) (distinct : NamesAreDistinct classes)
    (built : ClassGraph.ofTable survey.completeClasses.allClasses = .ok graph) :
    survey.InheritsPlainly classes := by
  obtain ⟨steps, ends⟩ := (Worklist.ofTable_eq_ok_iff derived).mp built
  exact inheritsPlainly_of_grounded knows distinct
    ((Worklist.ends_iff_grounded derived survey.nodup_sortClasses).mp ⟨steps, graph, ends⟩)

/-- A class of the table has a node. -/
theorem exists_find?_of_ofTable {table : ClassTable} {graph : ClassGraph}
    (derived : ∀ entry ∈ table.entries, entry.2 ≠ [])
    (built : ClassGraph.ofTable table = .ok graph) {key : ClassKey} (member : key ∈ table.keys) :
    ∃ index, graph.find? key = some index ∧ index < graph.size ∧ graph.key index = key := by
  obtain ⟨sound, all⟩ := ClassGraph.ofTable_sound built
  obtain ⟨index, found⟩ :=
    sound.exists_find?_of_mem derived (all.mem_iff.mpr (mem_cons_of_mem _ member))
  obtain ⟨inside, -, isKey⟩ := sound.of_find? found
  exact ⟨index, found, inside, isKey⟩

end Survey

namespace Theory

/-- A class without type parameters is a ground type. -/
theorem isGround_own {theory : Theory} (formed : theory.WellFormed)
    (rooted : ∀ key ∈ theory.survey.sortClasses, theory.IsClass key)
    (member : .plain ("class_" ++ name) ∈ theory.survey.allClasses.keys) :
    theory.IsGround (.con ("class_" ++ name) []) := by
  have isClass := rooted _ (mem_cons_of_mem _ member)
  refine ⟨formed.isType_con isClass trivial, ?_⟩
  exact Term.hasNoVariable_con_iff.mpr ⟨by simp, by simp⟩

end Theory

namespace Survey

/-- Among plain classes, those above a class in the graph are those in its order, and those that the
subtype axioms put above it in every model. -/
theorem above_iff_mem_order {settings : Settings} {base : Option String} {program : Program}
    {funcParams classParams : TypeParams} {survey : Survey} {classes : List ClassDef}
    {graph : ClassGraph}
    (done : ofProgram settings base program funcParams classParams = .ok survey)
    (areClasses : classesOf program = .ok classes) (distinct : NamesAreDistinct classes)
    (built : ClassGraph.ofTable survey.allClasses = .ok graph) {a b : ClassDef}
    (isA : a ∈ classes) (isB : b ∈ classes) (plainA : survey.IsPlain a.name)
    (plainB : survey.IsPlain b.name) :
    ∃ i j order, graph.find? (.plain ("class_" ++ a.name)) = some i ∧
      graph.find? (.plain ("class_" ++ b.name)) = some j ∧
      (Inheritance.bases classes).linearize a.name = .ok order ∧
      (j ∈ graph.above i ↔ b.name ∈ order) ∧
      ∀ {theory axioms}, Theory.ofSurvey settings survey = .ok theory →
        theory.subtypeAxioms = .ok axioms → ∀ model : Interpretation theory,
        model.Satisfies axioms → ∀ {method}, theory.IsMethod method →
        (model.subtype method (.con ("class_" ++ a.name) []) (.con ("class_" ++ b.name) []) ↔
          b.name ∈ order) := by
  have complete := ofProgram_isComplete done
  obtain ⟨_, inheritance, known, inherited, before, rfl, knows⟩ := ofProgram_knows done
  obtain rfl := Except.ok.inj (known.symm.trans areClasses)
  have knows := knows distinct
  have plainly := inheritsPlainly_of_ofTable complete.bases_ne_nil knows distinct built
  have listedA := knows.mem_keys distinct isA plainA
  have listedB := knows.mem_keys distinct isB plainB
  obtain ⟨i, foundA, insideA, isKeyA⟩ := exists_find?_of_ofTable complete.bases_ne_nil built listedA
  obtain ⟨j, foundB, insideB, isKeyB⟩ := exists_find?_of_ofTable complete.bases_ne_nil built listedB
  obtain ⟨order, isOrder⟩ := exists_linearize inherited isA
  have ancestry : before.completeClasses.allClasses.HasAncestor (.plain ("class_" ++ a.name))
      (.plain ("class_" ++ b.name)) ↔ b.name ∈ order := by
    rw [hasAncestor_iff_isAncestor knows distinct plainly plainA]
    exact (Bases.mem_linearizeWithin_iff isOrder b.name).symm
  refine ⟨i, j, order, foundA, foundB, isOrder, ?_, ?_⟩
  · rw [ClassGraph.mem_above_iff built complete.nodup_sortClasses insideA, isKeyA, isKeyB, ancestry]
    exact and_iff_right insideB
  · intro theory axioms ofSurvey stated model satisfied method isMethod
    have formed := ofSurvey_wellFormed complete ofSurvey
    have rooted := isClass_of_isComplete complete ofSurvey
    have laws := (satisfies_iff_subtypeLaws stated formed).mp satisfied
    obtain ⟨-, isSurvey, -⟩ := ofSurvey_eq_ok ofSurvey
    rw [laws.subtype_iff formed rooted isMethod
      (isGround_own formed rooted (isSurvey ▸ listedA))
      (isGround_own formed rooted (isSurvey ▸ listedB)), isSurvey,
      structuralSubtype_own_iff knows plainA, ancestry]

/-- A class whose two bases have one base in common, which names the root. -/
def diamondBody : List Stmt :=
  let inheriting (name : String) (bases : List String) : Stmt :=
    .classDef ⟨{}, name, bases.map fun base => .name (some 1) base .load, [], [.pass {}], []⟩
  [inheriting "A" ["object"], inheriting "B" ["A"], inheriting "C" ["A"], inheriting "D" ["B", "C"]]

/-- The theory of a survey with its axioms. -/
def axiomatised (survey : Survey) : Except Fault (Theory × List Formula) := do
  let theory ← Theory.ofSurvey {} survey
  pure (theory, ← theory.subtypeAxioms)

/-- The bottom is below the top, in the graph and in a model. -/
theorem diamond_bottom_below_top : ∃ surveyed graph i j theory axioms,
    Surveyed.ofBody diamondBody = .ok surveyed ∧
    ClassGraph.ofTable surveyed.survey.allClasses = .ok graph ∧
    graph.find? (.plain "class_D") = some i ∧ graph.find? (.plain "class_A") = some j ∧
    j ∈ graph.above i ∧ axiomatised surveyed.survey = .ok (theory, axioms) ∧
    ∃ model : Interpretation theory, model.Satisfies axioms ∧
      model.subtype Term.noMethod (.con "class_D" []) (.con "class_A" []) := by
  have evaluated : ∃ surveyed, Surveyed.ofBody diamondBody = .ok surveyed ∧
      (surveyed.classes.map (·.name)).Nodup ∧
      (∃ graph, ClassGraph.ofTable surveyed.survey.allClasses = .ok graph) ∧
      (∃ c ∈ surveyed.classes, c.name = "D") ∧ (∃ c ∈ surveyed.classes, c.name = "A") ∧
      surveyed.survey.IsPlain "D" ∧ surveyed.survey.IsPlain "A" ∧
      (bases surveyed.classes).linearize "D" = .ok ["D", "B", "C", "A"] ∧
      ∃ theory axioms, axiomatised surveyed.survey = .ok (theory, axioms) ∧
        theory.sort.IsDatatype := by
    decide +kernel
  obtain ⟨surveyed, isBody, distinct, ⟨graph, built⟩, ⟨d, isD, named⟩, ⟨a, isA, called⟩, plainD,
    plainA, known, theory, axioms, isTheory, datatype⟩ := evaluated
  obtain ⟨areClasses, isSurvey⟩ := Surveyed.ofBody_eq_ok isBody
  obtain ⟨_, ofSurvey, rest⟩ := bind_ok isTheory
  obtain ⟨_, stated, same⟩ := bind_ok rest
  obtain ⟨rfl, rfl⟩ := Prod.mk.inj (pure_ok same)
  have formed := ofSurvey_wellFormed (ofProgram_isComplete isSurvey) ofSurvey
  obtain ⟨isSettings, -⟩ := ofSurvey_eq_ok ofSurvey
  obtain ⟨model, satisfied⟩ := exists_model_of_rootBounds formed stated
    datatype (by rw [isSettings])
  obtain ⟨i, j, order, foundD, foundA, isOrder, above, below⟩ :=
    above_iff_mem_order isSurvey areClasses (namesAreDistinct_of_nodup distinct) built isD isA
      (named ▸ plainD) (called ▸ plainA)
  rw [named] at foundD isOrder below
  rw [called] at foundA above below
  obtain rfl := Except.ok.inj (known.symm.trans isOrder)
  exact ⟨surveyed, graph, i, j, _, _, isBody, built, foundD, foundA, above.mpr (by decide),
    isTheory, model, satisfied,
    (below ofSurvey stated model satisfied (isMethod_noMethod _)).mpr (by decide)⟩

end Survey

end TypeInference
