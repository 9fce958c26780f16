/- The tables of a survey fit together, so that no constraint looks for a key in vain. -/

import TypeInference.Proofs.ClassAttributes

namespace TypeInference

open List Table

/-- Inherited methods are noted for all classes. -/
theorem Inheritance.mem_supers_iff {classes : List ClassDef} {inheritance : Inheritance}
    (done : ofClasses classes = .ok inheritance) (name : String) :
    name ∈ inheritance.supers.keys ↔ ∃ c ∈ classes, name = c.name := by
  have start : name ∈ (ofList (classes.map fun c =>
      (c.name, ({} : Table String String)))).keys ↔ ∃ c ∈ classes, name = c.name := by
    simp [mem_keys_ofList, eq_comm]
  refine (foldlM_iff (name ∈ ·.supers.keys) (name = ·.name) done ?_).trans ?_
  · intro c before after added
    obtain ⟨_, -, added⟩ := bind_ok added
    obtain ⟨_, -, rfl⟩ := map_ok added
    rw [mem_keys_insert, or_comm]
  · rw [start, or_self]

namespace Survey

variable {settings : Settings} {survey next : Survey} {classes : List ClassDef}

/-- The tables list the same classes, and attributes of a class are those of its instances. -/
structure TablesAgree (survey : Survey) : Prop where
  methods : ∀ name, name ∈ survey.methods.keys ↔ name ∈ survey.instanceAttrs.keys
  classAttrs : ∀ name, name ∈ survey.classAttrs.keys ↔ name ∈ survey.instanceAttrs.keys
  nested : ∀ name, ∀ method ∈ survey.methodsIn name, method ∈ (survey.classAttrs.get? name).getD []
  shared : ∀ name, (survey.classAttrs.get? name).getD [] ⊆ (survey.instanceAttrs.get? name).getD []

theorem addClass_tablesAgree {c : ClassDef} {members : List Stmt} (before : survey.TablesAgree)
    (done : addClass settings survey c members = .ok next) : next.TablesAgree := by
  obtain ⟨-, -, -, found, -, -, isFound, -, areMethods, areInstanceAttrs, -, areClassAttrs, -⟩ :=
    addClass_eq_ok done
  obtain ⟨methods, attrs⟩ := nested_of_foldlM isFound
  refine ⟨fun name => ?_, fun name => ?_, fun name => ?_, fun name => ?_⟩
  · rw [areMethods, areInstanceAttrs, mem_keys_insert, mem_keys_insert, before.methods]
  · rw [areClassAttrs, areInstanceAttrs, mem_keys_insert, mem_keys_insert, before.classAttrs]
  · rw [methodsIn, areMethods, areClassAttrs]
    by_cases same : name = c.name
    · subst same
      rw [get?_insert_self, get?_insert_self]
      exact fun method member => mem_sortedNames.mpr (methods member)
    · rw [get?_insert_of_ne _ _ same, get?_insert_of_ne _ _ same]
      exact before.nested name
  · rw [areClassAttrs, areInstanceAttrs]
    by_cases same : name = c.name
    · subst same
      rw [get?_insert_self, get?_insert_self]
      exact fun attr member => mem_sortedNames.mpr (attrs (mem_sortedNames.mp member))
    · rw [get?_insert_of_ne _ _ same, get?_insert_of_ne _ _ same]
      exact before.shared name

/-- The classes of a survey are those with inherited methods noted. -/
theorem mem_supers_iff_of_addClasses (empty : survey.instanceAttrs.keys = [])
    (done : survey.addClasses settings classes = .ok next) (name : String) :
    name ∈ next.inheritance.supers.keys ↔ name ∈ next.instanceAttrs.keys := by
  obtain ⟨inheritance, inherited, keeps⟩ := addClasses_keeps done
  rw [keeps.inheritance, Inheritance.mem_supers_iff inherited]
  obtain ⟨_, again, done⟩ := bind_ok done
  refine ((foldlM_iff (name ∈ ·.instanceAttrs.keys) (name = ·.name) done ?_).trans ?_).symm
  · intro c before after added
    obtain ⟨-, -, -, _, -, -, -, -, -, is, -⟩ := addClass_eq_ok added
    rw [is, mem_keys_insert, or_comm]
  · rw [empty]
    simp

theorem ofProgram_tablesAgree {base : Option String} {program : Program}
    {funcParams classParams : TypeParams}
    (done : ofProgram settings base program funcParams classParams = .ok survey) :
    survey.TablesAgree ∧
      ∀ name, name ∈ survey.inheritance.supers.keys ↔ name ∈ survey.instanceAttrs.keys := by
  obtain ⟨_, withClasses, _, _, -, isClasses, -, rfl⟩ := ofProgram_eq_ok done
  constructor
  · obtain ⟨inheritance, -, done⟩ := bind_ok isClasses
    have agree : withClasses.TablesAgree := by
      refine foldlM_invariant TablesAgree done ?_ ?_
      · exact ⟨fun _ => .rfl, fun _ => .rfl, fun _ _ member => member, fun _ => List.Subset.refl _⟩
      · exact fun c _ _ _ kept added => addClass_tablesAgree kept added
    exact ⟨agree.methods, agree.classAttrs, agree.nested, agree.shared⟩
  · have supers : ∀ name, name ∈ withClasses.inheritance.supers.keys ↔
        name ∈ withClasses.instanceAttrs.keys := mem_supers_iff_of_addClasses rfl isClasses
    exact supers

end Survey

namespace Constraint

/-- The constraints find what they look for in the tables. -/
structure FindsKeys (frame : Frame) : Prop where
  overloading : ∀ left right result method,
    overloading frame left right result method ≠ .error .missingKey
  instantiation : ∀ name ∈ frame.theory.classNames, ∀ args result typeArgs,
    instantiation frame name args result typeArgs ≠ .error .missingKey
  instantiations : ∀ called args result typeArgs,
    instantiations frame called args result typeArgs ≠ .error .missingKey
  instanceCall : ∀ called args result, instanceCall frame called args result ≠ .error .missingKey
  staticCall : ∀ owner args result method,
    staticCall frame owner args result method ≠ .error .missingKey
  methodCall : ∀ receiver args result attr typeArgs,
    methodCall frame receiver args result attr typeArgs ≠ .error .missingKey
  attributeAccess : ∀ receiver attr result,
    attributeAccess frame receiver attr result ≠ .error .missingKey

theorem findsKeys {frame : Frame} [FindsClasses (· ≠ .missingKey) frame.theory] :
    FindsKeys frame := by
  have never {α : Type} (outcome : Except Fault α) [fails : FailsWith (· ≠ .missingKey) outcome] :
      outcome ≠ .error .missingKey := fun failed => fails.fault failed rfl
  refine ⟨fun _ _ _ _ => never _, fun name member args result typeArgs => ?_,
    fun _ _ _ _ => never _,
    fun _ _ _ => never _, fun _ _ _ _ => never _, fun _ _ _ _ _ => never _, fun _ _ _ => never _⟩
  have : FindsClass (· ≠ .missingKey) frame.theory name := FindsClasses.each name member
  exact never _

end Constraint

/-- The tables of a survey list the same classes, each with an initialiser, and its methods among
its attributes. So no constraint fails because a table lacks a key. -/
theorem Survey.tables_fit_together {settings : Settings} {base : Option String} {program : Program}
    {funcParams classParams : TypeParams} {survey : Survey}
    (surveyed : ofProgram settings base program funcParams classParams = .ok survey) :
    survey.TablesAgree ∧
    (∀ name, name ∈ survey.inheritance.supers.keys ↔ name ∈ survey.instanceAttrs.keys) ∧
    (∀ name ∈ survey.methods.keys, "__init__" ∈ survey.methodsIn name) ∧
    ∀ theory, Theory.ofSurvey settings survey = .ok theory →
      (∀ name, name ∈ theory.classNames ↔ name ∈ survey.instanceAttrs.keys) ∧
      ∀ method, Constraint.FindsKeys ⟨theory, method⟩ := by
  obtain ⟨agree, supers⟩ := ofProgram_tablesAgree surveyed
  have initialised (name : String) (member : name ∈ survey.methods.keys) :
      ∃ methods, survey.methods.get? name = some methods ∧ "__init__" ∈ methods.keys := by
    obtain ⟨methods, found⟩ := Option.isSome_iff_exists.mp
      ((isSome_get? ..).trans (contains_iff.mpr member))
    exact ⟨methods, found, (ofProgram_hasInitialisers surveyed).1 methods
      (mem_map_of_mem (mem_of_get? found))⟩
  refine ⟨agree, supers, fun name member => ?_, fun theory built => ?_⟩
  · obtain ⟨methods, found, listed⟩ := initialised name member
    rwa [methodsIn, found]
  · obtain ⟨-, rfl, -⟩ := Theory.ofSurvey_eq_ok built
    have : FindsClasses (· ≠ .missingKey) theory := by
      refine ⟨fun name member => ?_⟩
      obtain ⟨methods, found, listed⟩ := initialised name ((agree.methods name).mpr member)
      refine ⟨fun none _ => ?_, fun none _ => ?_, fun method known unlisted _ => ?_⟩
      · rw [found] at none
        cases none
      · rw [Theory.method?, found] at none
        have some := (isSome_get? methods "__init__").trans (Table.contains_iff.mpr listed)
        rw [show methods.get? "__init__" = .none from none] at some
        cases some
      · rw [Theory.method?, found] at known
        have inTable : method ∈ theory.survey.methodsIn name := by
          rw [methodsIn, found]
          exact Table.contains_iff.mp ((isSome_get? ..).symm.trans known)
        exact absurd (contains_iff_mem.mpr (agree.shared name (agree.nested name method inTable)))
          (Bool.eq_false_iff.mp unlisted)
    exact ⟨fun _ => .rfl, fun method => Constraint.findsKeys⟩

/-- The tables of two classes with an assignment fit together. -/
theorem Survey.tables_fit_together_chained : ∃ program survey,
    Program.read {} Inheritance.Chained.body none = .ok program ∧
    ofProgram {} none program {} {} = .ok survey ∧ survey.TablesAgree ∧
    "__init__" ∈ survey.methodsIn "C" := by
  obtain ⟨program, read, survey, surveyed, _, -, -, -, -, own, -⟩ :=
    Inheritance.Chained.exists_surveyed
  obtain ⟨agree, -, initialised, -⟩ := tables_fit_together surveyed
  refine ⟨program, survey, read, surveyed, agree, initialised "C" ((agree.methods _).mpr
    ((agree.classAttrs _).mp ?_))⟩
  cases found : survey.classAttrs.get? "C" with
  | none =>
    rw [found] at own
    exact absurd own not_mem_nil
  | some attrs => exact mem_map_of_mem (mem_of_get? found)

end TypeInference
