/- The programs whose classes can all be placed in their graph. -/

import Mathlib.Data.Fintype.Card
import Mathlib.Data.Fintype.EquivFin
import Mathlib.Data.Fintype.Sets
import Mathlib.Data.List.Induction
import TypeInference.Proofs.ClassWorklist

namespace TypeInference

open List Worklist Inheritance

section

variable {key : ClassKey}

namespace ClassTable

variable {table : ClassTable}

theorem Grounded.cases (grounded : table.Grounded key) :
    key = .plain "object" ∨ ∃ bases, (key, bases) ∈ table.entries ∧
      ∀ base ∈ bases, table.Grounded (.plain base) := by
  cases grounded with
  | root => exact .inl rfl
  | derived entry each => exact .inr ⟨_, entry, each⟩

/-- Whether the bases of each class are known before it. -/
def areOrdered : List ClassKey → List (ClassKey × List String) → Bool
  | _, [] => true
  | known, entry :: rest =>
    (entry.2.all fun base => known.contains (.plain base)) && areOrdered (entry.1 :: known) rest

theorem grounded_of_areOrdered {known : List ClassKey} {entries : List (ClassKey × List String)}
    (ordered : areOrdered known entries) (grounded : ∀ key ∈ known, table.Grounded key)
    (listed : entries ⊆ table.entries) : ∀ entry ∈ entries, table.Grounded entry.1 := by
  induction entries generalizing known with
  | nil => simp
  | cons entry entries ih =>
    obtain ⟨head, tail⟩ := cons_subset.mp listed
    obtain ⟨based, rest⟩ := Bool.and_eq_true_iff.mp ordered
    have here : table.Grounded entry.1 := by
      refine .derived head fun base member => grounded _ ?_
      simpa using all_eq_true.mp based base member
    have later := ih rest (forall_mem_cons.mpr ⟨here, grounded⟩) tail
    exact forall_mem_cons.mpr ⟨here, later⟩

end ClassTable

namespace Survey

variable {classes : List ClassDef} {c : ClassDef}

theorem grounded_of_builtin (survey : Survey) {bases : List String}
    (builtin : (key, bases) ∈ builtinClasses) : survey.completeClasses.allClasses.Grounded key := by
  have ordered : ClassTable.areOrdered [.plain "object"] builtinClasses = true := by decide
  refine ClassTable.grounded_of_areOrdered ordered ?_ ?_ (key, bases) builtin
  · simpa using ClassTable.Grounded.root
  · intro entry member
    exact survey.mem_allClasses_of_builtin member

/-- A name of no generic class and of no built-in type. -/
def IsPlain (survey : Survey) (name : String) : Prop :=
  survey.classParams.get? name = none ∧ isAliasedType name = false

instance (survey : Survey) (name : String) : Decidable (survey.IsPlain name) :=
  inferInstanceAs (Decidable (survey.classParams.get? name = none ∧ isAliasedType name = false))

theorem Knows.mem_keys {survey : Survey} (knows : survey.Knows classes)
    (distinct : NamesAreDistinct classes) (member : c ∈ classes) (plain : survey.IsPlain c.name) :
    .plain ("class_" ++ c.name) ∈ survey.completeClasses.allClasses.keys := by
  obtain ⟨own, -, entry⟩ := knows.exists_mem distinct member plain.2
  rw [keyOf_eq_plain_iff.mpr ⟨plain.1, rfl⟩] at entry
  exact mem_map_of_mem entry

/-- A plain class is known under its name only. -/
theorem eq_plain_of_mem {survey : Survey} (knows : survey.Knows classes) {name : String}
    (plain : survey.IsPlain name) (member : key ∈ survey.completeClasses.allClasses.keys)
    (named : key.name = "class_" ++ name) : key = .plain ("class_" ++ name) := by
  obtain ⟨⟨key, bases⟩, entry, rfl⟩ := mem_map.mp member
  obtain ⟨own, others, listed, -, rfl, -⟩ := exists_own_of_mem entry named
  obtain ⟨c, -, rfl, -⟩ := knows.only listed
  have same := class_append_injective ((sortClass_name _ []).symm.trans named)
  rw [keyOf_name] at same
  rw [keyOf_eq_plain_iff.mpr ⟨same ▸ plain.1, same⟩]
  rfl

/-- No class inherits from a generic class or a built-in type. -/
def InheritsPlainly (survey : Survey) (classes : List ClassDef) : Prop :=
  ∀ c ∈ classes, isAliasedType c.name = false → ∀ base ∈ parents c, survey.IsPlain base

section Classes

variable {survey : Survey} {classes : List ClassDef} (knows : survey.Knows classes)
  (distinct : NamesAreDistinct classes)
include knows distinct

/-- By induction on the fuel, which bounds the depth. -/
theorem grounded_of_linearizeWithin (plainly : survey.InheritsPlainly classes) {fuel : Nat}
    (member : c ∈ classes) (notAliased : isAliasedType c.name = false) {order : List String}
    (done : Bases.linearizeWithin (bases classes) fuel c.name = .ok order) :
    survey.completeClasses.allClasses.Grounded
      (sortKey (keyOf survey.classParams c.name)) := by
  induction fuel generalizing c order with
  | zero => simp [Bases.linearizeWithin] at done
  | succ fuel ih =>
    obtain ⟨parents, orders, merged, known, each, -⟩ := Bases.linearizeWithin_eq_ok.mp done
    obtain rfl := Option.some.inj ((get?_bases distinct member).symm.trans known)
    obtain ⟨own, areBases, entry⟩ := knows.exists_mem distinct member notAliased
    refine .derived entry fun base listed => ?_
    obtain ⟨name, inside, rfl⟩ := mem_map.mp listed
    by_cases root : name = "object"
    · rw [root]
      exact .root
    · have isParent := areBases.mem_parents_iff.mpr ⟨inside, root⟩
      obtain ⟨order, isOrder⟩ := exists_of_mapM each isParent
      obtain ⟨notGeneric, isOwn⟩ := plainly c member notAliased name isParent
      cases fuel with
      | zero => simp [Bases.linearizeWithin] at isOrder
      | succ fuel =>
        obtain ⟨_, -, -, isKnown, -⟩ := Bases.linearizeWithin_eq_ok.mp isOrder
        obtain ⟨d, isClass, rfl, -⟩ := mem_of_get?_bases isKnown
        have grounded := ih isClass isOwn isOrder
        rw [keyOf_eq_plain_iff.mpr ⟨notGeneric, rfl⟩] at grounded
        rw [sortBase_eq_iff.mpr ⟨root, rfl⟩]
        exact grounded

theorem grounded_of_inheritsPlainly (plainly : survey.InheritsPlainly classes)
    {inheritance : Inheritance} (inherited : ofClasses classes = .ok inheritance)
    (member : key ∈ survey.completeClasses.allClasses.keys) :
    survey.completeClasses.allClasses.Grounded key := by
  obtain ⟨⟨key, bases⟩, entry, rfl⟩ := mem_map.mp member
  cases isSortClass_of_mem entry with
  | builtin builtin => exact survey.grounded_of_builtin builtin
  | tuple length =>
    refine .derived entry fun base inside => ?_
    obtain rfl : base = "tuple" := mem_singleton.mp inside
    exact survey.grounded_of_builtin (by decide : (.plain "tuple", ["sequence"]) ∈ builtinClasses)
  | function args =>
    refine .derived entry fun base inside => ?_
    obtain rfl : base = "object" := mem_singleton.mp inside
    exact .root
  | own key bases =>
    obtain ⟨own, _, listed, notAliased, isKey, -⟩ :=
      exists_own_of_mem entry (sortClass_name key bases)
    obtain ⟨c, isClass, rfl, -⟩ := knows.only listed
    rw [keyOf_name] at notAliased
    obtain ⟨order, isOrder⟩ := exists_linearize inherited isClass
    rw [isKey]
    exact grounded_of_linearizeWithin knows distinct plainly isClass notAliased isOrder

/-- A class with a way to the root inherits from plain names. -/
theorem inheritsPlainly_of_grounded
    (grounded : ∀ key ∈ survey.completeClasses.allClasses.keys,
      survey.completeClasses.allClasses.Grounded key) : survey.InheritsPlainly classes := by
  have once := (nodup_cons.mp survey.nodup_sortClasses).2
  have notRoot (name : String) : "class_" ++ name ≠ "object" := append_ne (by decide) name
  intro c member notAliased base isParent
  obtain ⟨own, areBases, entry⟩ := knows.exists_mem distinct member notAliased
  obtain ⟨inside, other⟩ := areBases.mem_parents_iff.mp isParent
  rcases (grounded _ (mem_map_of_mem entry)).cases with root | ⟨bases, same, each⟩
  · have named := congrArg ClassKey.name root
    exact absurd ((sortClass_name _ []).symm.trans named) (notRoot _)
  · obtain rfl := Table.eq_of_mem_entries once same entry
    have ofBase := each _ (mem_map_of_mem inside)
    rw [sortBase_eq_iff.mpr ⟨other, rfl⟩] at ofBase
    rcases ofBase.cases with root | ⟨_, known, -⟩
    · exact absurd (ClassKey.plain.inj root) (notRoot base)
    · obtain ⟨-, -, -, isOwn, notGeneric, -⟩ := knows.of_mem known
      exact ⟨notGeneric, isOwn⟩

end Classes

/-- Placing the classes ends exactly if each has a way to the root. With distinct names, this is so
exactly if no class inherits from a generic class or from one that stands for a built-in type. -/
theorem placing_ends_iff {settings : Settings} {base : Option String} {program : Program}
    {funcParams classParams : TypeParams} {survey : Survey}
    (done : ofProgram settings base program funcParams classParams = .ok survey) :
    (∀ steps, ∃ work, Worklist.run steps (.start survey.allClasses) = .ok work) ∧
    (∀ graph, ClassGraph.ofTable survey.allClasses = .ok graph ↔
      ∃ steps, Worklist.run steps (.start survey.allClasses) = .ok ⟨graph, []⟩) ∧
    (Worklist.Ends survey.allClasses ↔
      ∀ key ∈ survey.allClasses.keys, survey.allClasses.Grounded key) ∧
    ∀ classes, classesOf program = .ok classes → NamesAreDistinct classes →
      (Worklist.Ends survey.allClasses ↔ survey.InheritsPlainly classes) := by
  have complete := ofProgram_isComplete done
  have derived := complete.bases_ne_nil
  have ends := ends_iff_grounded derived complete.nodup_sortClasses
  obtain ⟨classes, inheritance, areClasses, inherited, before, rfl, knows⟩ := ofProgram_knows done
  refine ⟨fun steps => ?_, fun graph => ofTable_eq_ok_iff derived, ends, ?_⟩
  · obtain ⟨work, reached, -⟩ := (holds_start _).run derived steps
    exact ⟨work, reached⟩
  · intro others same distinct
    obtain rfl := Except.ok.inj (areClasses.symm.trans same)
    rw [ends]
    constructor
    · exact inheritsPlainly_of_grounded (knows distinct) distinct
    · intro plainly key
      exact grounded_of_inheritsPlainly (knows distinct) distinct plainly inherited

/-- A program with its classes and its survey. -/
structure Surveyed where
  program : Program
  classes : List ClassDef
  survey : Survey

def Surveyed.ofBody (body : List Stmt) : Except Fault Surveyed := do
  let program ← Program.read {} body none
  pure ⟨program, ← classesOf program, ← ofProgram {} none program {} {}⟩

theorem Surveyed.ofBody_eq_ok {body : List Stmt} {surveyed : Surveyed}
    (done : ofBody body = .ok surveyed) :
    classesOf surveyed.program = .ok surveyed.classes ∧
      ofProgram {} none surveyed.program {} {} = .ok surveyed.survey := by
  obtain ⟨_, -, done⟩ := bind_ok done
  obtain ⟨_, areClasses, done⟩ := bind_ok done
  obtain ⟨_, isSurvey, rfl⟩ := map_ok done
  exact ⟨areClasses, isSurvey⟩

theorem namesAreDistinct_of_nodup (distinct : (classes.map (·.name)).Nodup) :
    NamesAreDistinct classes :=
  fun _ left _ right => inj_on_of_nodup_map distinct left right

/-- A generic class, a plain one and a class below one of them. -/
def derivedFrom (base : String) : List Stmt :=
  let read (id : String) : Expr := .name (some 1) id .load
  [.importFrom {} (some "typing") [⟨some 1, "TypeVar", none⟩, ⟨some 1, "Generic", none⟩] 0,
    .assign {} [.name (some 1) "T" .store]
      (.call (some 1) (read "TypeVar") [.literal (some 1) (.str "T" none)] []),
    .classDef ⟨{}, "Base", [.subscript (some 1) (read "Generic") (read "T") .load], [], [.pass {}],
      []⟩,
    .classDef ⟨{}, "Plain", [], [], [.pass {}], []⟩,
    .classDef ⟨{}, "Derived", [read base], [], [.pass {}], []⟩]

/-- A class may inherit from a plain one beside a generic one. -/
theorem derivedFromPlain_placing_ends : ∃ surveyed,
    Surveyed.ofBody (derivedFrom "Plain") = .ok surveyed ∧
    surveyed.survey.classParams.get? "Base" = some [.named "T"] ∧
    Worklist.Ends surveyed.survey.allClasses := by
  have evaluated : ∃ surveyed, Surveyed.ofBody (derivedFrom "Plain") = .ok surveyed ∧
      surveyed.survey.classParams.get? "Base" = some [.named "T"] ∧
      (surveyed.classes.map (·.name)).Nodup ∧
      ∀ c ∈ surveyed.classes, ∀ base ∈ parents c, surveyed.survey.IsPlain base := by
    decide +kernel
  obtain ⟨surveyed, isBody, generic, distinct, plainly⟩ := evaluated
  obtain ⟨areClasses, isSurvey⟩ := Surveyed.ofBody_eq_ok isBody
  obtain ⟨-, -, -, ends⟩ := placing_ends_iff isSurvey
  refine ⟨surveyed, isBody, generic, (ends _ areClasses ?_).mpr ?_⟩
  · exact namesAreDistinct_of_nodup distinct
  · exact fun c member _ => plainly c member

/-- A class below a generic class waits for ever. -/
theorem derivedFromGeneric_waits : ∃ surveyed,
    Surveyed.ofBody (derivedFrom "Base") = .ok surveyed ∧
    ∀ steps, ∃ work, Worklist.run steps (.start surveyed.survey.allClasses) = .ok work ∧
      work.waiting ≠ [] := by
  have evaluated : ∃ surveyed, Surveyed.ofBody (derivedFrom "Base") = .ok surveyed ∧
      (.plain "class_Derived", ["class_Base"]) ∈ surveyed.survey.allClasses.entries ∧
      .plain "class_Base" ∉ surveyed.survey.allClasses.keys := by
    decide +kernel
  obtain ⟨surveyed, isBody, entry, absent⟩ := evaluated
  refine ⟨surveyed, isBody, ?_⟩
  have complete := ofProgram_isComplete (Surveyed.ofBody_eq_ok isBody).2
  refine (ofTable_eq_error_iff complete.bases_ne_nil).mp ?_
  rcases ofTable_cases complete.bases_ne_nil with ⟨steps, graph, -, ends⟩ | ⟨_, _, done, -⟩
  · -- A class with a way to the root has bases with one, but the base is known under another key.
    have grounded := (ends_iff_grounded complete.bases_ne_nil complete.nodup_sortClasses).mp
      ⟨steps, graph, ends⟩ _ (mem_map_of_mem entry)
    rcases grounded.cases with root | ⟨bases, same, each⟩
    · exact absurd (ClassKey.plain.inj root) (by decide)
    · have once := (nodup_cons.mp complete.nodup_sortClasses).2
      obtain rfl := Table.eq_of_mem_entries once entry same
      rcases (each "class_Base" mem_cons_self).cases with root | ⟨_, known, -⟩
      · exact absurd (ClassKey.plain.inj root) (by decide)
      · exact absurd (mem_map_of_mem known) absent
  · exact done

end Survey

end

/-- Each class names plain bases or the root, and none is above itself. -/
structure ClassTable.IsHierarchy (table : ClassTable) : Prop where
  distinct : table.keys.Nodup
  derived : ∀ entry ∈ table.entries, entry.2 ≠ []
  known : ∀ entry ∈ table.entries, ∀ base ∈ entry.2, base = "object" ∨ .plain base ∈ table.keys
  acyclic : ∀ key, ¬ table.HasProperAncestor key key

namespace ClassTable.IsHierarchy

variable {table order : ClassTable}

section

variable (hierarchy : table.IsHierarchy)
include hierarchy

theorem wellFounded :
    WellFounded fun lower upper : {key // key ∈ table.keys} =>
      table.HasProperAncestor upper lower := by
  have : IsTrans {key // key ∈ table.keys} fun lower upper =>
      table.HasProperAncestor upper lower := ⟨fun _ _ _ first second => second.trans first⟩
  have : Std.Irrefl fun lower upper : {key // key ∈ table.keys} =>
      table.HasProperAncestor upper lower := ⟨fun key => hierarchy.acyclic key⟩
  exact Finite.wellFounded_of_trans_of_irrefl _

/-- What passes from bases to classes holds of all classes. -/
theorem induct (holds : ClassKey → Prop)
    (step : ∀ key bases, (key, bases) ∈ table.entries →
      (∀ base ∈ bases, .plain base ∈ table.keys → holds (.plain base)) → holds key) :
    ∀ key ∈ table.keys, holds key := by
  intro key member
  suffices all : ∀ key : {key // key ∈ table.keys}, holds key from all ⟨key, member⟩
  refine hierarchy.wellFounded.fix fun ⟨key, member⟩ ih => ?_
  obtain ⟨⟨key, bases⟩, entry, rfl⟩ := mem_map.mp member
  refine step key bases entry fun base isBase known => ih ⟨_, known⟩ ?_
  exact .single ⟨bases, base, entry, isBase, rfl⟩

/-- If the root were in the table, no chain of bases would end. -/
theorem root_not_mem : .plain "object" ∉ table.keys := by
  intro root
  refine hierarchy.induct (fun _ => False) (fun key bases entry none => ?_) _ root
  obtain ⟨base, isBase⟩ := exists_mem_of_ne_nil _ (hierarchy.derived _ entry)
  rcases hierarchy.known _ entry base isBase with rfl | known
  · exact none _ isBase root
  · exact none _ isBase known

theorem grounded : ∀ key ∈ table.keys, table.Grounded key := by
  refine hierarchy.induct table.Grounded fun key bases entry ih =>
    .derived entry fun base isBase => ?_
  rcases hierarchy.known _ entry base isBase with rfl | known
  · exact .root
  · exact ih base isBase known

end

theorem isBase_of_perm (same : order.entries.Perm table.entries) : order.IsBase = table.IsBase := by
  funext key base
  simp only [ClassTable.IsBase, same.mem_iff]

theorem of_perm (hierarchy : table.IsHierarchy) (same : order.entries.Perm table.entries) :
    order.IsHierarchy where
  distinct := (same.map _).nodup_iff.mpr hierarchy.distinct
  derived entry member := hierarchy.derived entry (same.mem_iff.mp member)
  known entry member base isBase :=
    (hierarchy.known entry (same.mem_iff.mp member) base isBase).imp_right (same.map _).mem_iff.mpr
  acyclic key := by
    rw [ClassTable.HasProperAncestor, isBase_of_perm same]
    exact hierarchy.acyclic key

end ClassTable.IsHierarchy

namespace ClassGraph

variable {table : ClassTable} {graph : ClassGraph}

/-- A graph with one node for each class, each below its bases. -/
structure Arranges (graph : ClassGraph) (table : ClassTable) : Prop where
  keys : (graph.nodes.map (·.key)).Perm (.plain "object" :: table.keys)
  distinct : (graph.nodes.map (·.key)).Nodup
  find?_iff : ∀ key index, graph.find? key = some index ↔ index < graph.size ∧ graph.key index = key
  root : graph.find? (.plain "object") = some 0 ∧ graph.parents 0 = []
  parents : ∀ key bases, (key, bases) ∈ table.entries → ∃ index, graph.find? key = some index ∧
    Forall₂ (fun base parent => graph.find? (.plain base) = some parent) bases (graph.parents index)
  children : ∀ upper lower, (graph.children upper).count lower = (graph.parents lower).count upper
  below : ∀ lower < graph.size, ∀ upper < graph.size,
    (lower ∈ graph.below upper ↔ upper ∈ graph.above lower) ∧
    (upper ∈ graph.above lower ↔ table.HasAncestor (graph.key lower) (graph.key upper))

theorem find?_eq_some_iff (built : ofTable table = .ok graph)
    (distinct : (.plain "object" :: table.keys).Nodup)
    (derived : ∀ entry ∈ table.entries, entry.2 ≠ []) {key : ClassKey} {index : Nat} :
    graph.find? key = some index ↔ index < graph.size ∧ graph.key index = key := by
  have sound := (ofTable_sound built).1
  constructor
  · intro found
    obtain ⟨inside, -, named⟩ := sound.of_find? found
    exact ⟨inside, named⟩
  · rintro ⟨inside, rfl⟩
    obtain ⟨other, found⟩ := sound.exists_find? inside (sound.isAttached derived inside)
    obtain ⟨within, -, named⟩ := sound.of_find? found
    rw [found, key_injective built distinct within inside named]

theorem arranges_of_ofTable (hierarchy : table.IsHierarchy) (built : ofTable table = .ok graph) :
    graph.Arranges table := by
  have distinct := nodup_cons.mpr ⟨hierarchy.root_not_mem, hierarchy.distinct⟩
  obtain ⟨sound, keys⟩ := ofTable_sound built
  have find?_iff := @find?_eq_some_iff table graph built distinct hierarchy.derived
  refine ⟨keys, keys.nodup_iff.mpr distinct, fun _ _ => find?_iff, ?_, ?_, sound.children, ?_⟩
  · exact ⟨find?_iff.mpr ⟨sound.positive, sound.root.1⟩, sound.root.2⟩
  · intro key bases entry
    obtain ⟨index, inside, rfl⟩ :=
      mem_keys_iff.mp (keys.mem_iff.mpr (mem_cons_of_mem _ (mem_map_of_mem entry)))
    refine ⟨index, find?_iff.mpr ⟨inside, rfl⟩, ?_⟩
    rcases Nat.eq_zero_or_pos index with rfl | positive
    · rw [sound.root.1] at entry
      exact absurd (mem_map_of_mem entry) hierarchy.root_not_mem
    · obtain ⟨others, placed⟩ := sound.placed index positive inside
      obtain rfl := Table.eq_of_mem_entries hierarchy.distinct entry placed.entry
      refine placed.parents.imp ?_
      rintro base parent ⟨earlier, named, -⟩
      exact find?_iff.mpr ⟨Nat.lt_trans earlier inside, named⟩
  · intro lower isLower upper isUpper
    rw [sound.mem_below_iff isLower, mem_above_iff built distinct isLower, and_iff_right isUpper]
    exact ⟨.rfl, .rfl⟩

/-- The classes of a hierarchy are arranged in any order. -/
theorem exists_arrangement {order : ClassTable} (hierarchy : table.IsHierarchy)
    (same : order.entries.Perm table.entries) :
    ∃ graph, ofTable order = .ok graph ∧
      (∃ steps, Worklist.run steps (.start order) = .ok ⟨graph, []⟩) ∧ graph.Arranges order ∧
      ∀ lower < graph.size, ∀ upper < graph.size,
        upper ∈ graph.above lower ↔ table.HasAncestor (graph.key lower) (graph.key upper) := by
  have ofOrder := hierarchy.of_perm same
  have distinct := nodup_cons.mpr ⟨ofOrder.root_not_mem, ofOrder.distinct⟩
  obtain ⟨steps, graph, ends⟩ :=
    (Worklist.ends_iff_grounded ofOrder.derived distinct).mpr ofOrder.grounded
  have built := (Worklist.ofTable_eq_ok_iff ofOrder.derived).mpr ⟨steps, ends⟩
  have arranges := arranges_of_ofTable ofOrder built
  refine ⟨graph, built, ⟨steps, ends⟩, arranges, fun lower isLower upper isUpper => ?_⟩
  rw [(arranges.below lower isLower upper isUpper).2, ClassTable.HasAncestor,
    ClassTable.IsHierarchy.isBase_of_perm same]
  rfl

/-- A class is arranged below two others that come after it. -/
theorem exists_arrangement_diamond :
    let base : ClassKey × List String := (.plain "Base", ["object"])
    let left : ClassKey × List String := (.plain "Left", ["Base"])
    let pair : ClassKey × List String := (.generic "Pair" ["first"], ["Left", "Base"])
    ∃ graph, ofTable ⟨[pair, left, base]⟩ = .ok graph ∧ graph.Arranges ⟨[pair, left, base]⟩ := by
  intro base left pair
  have hierarchy : ClassTable.IsHierarchy ⟨[base, left, pair]⟩ := by
    refine ⟨by decide, by decide, by decide, fun key cyclic => ?_⟩
    let rank (name : String) : Nat := ["object", "Base", "Left", "Pair"].idxOf name
    have falls : ∀ entry ∈ [base, left, pair], ∀ name ∈ entry.2, rank name < rank entry.1.name := by
      decide
    suffices less : ∀ other, ClassTable.HasProperAncestor ⟨[base, left, pair]⟩ key other →
        rank other.name < rank key.name from Nat.lt_irrefl _ (less key cyclic)
    intro other above
    induction above with
    | single isBase =>
      obtain ⟨bases, name, entry, member, rfl⟩ := isBase
      exact falls _ entry name member
    | tail _ isBase ih =>
      obtain ⟨bases, name, entry, member, rfl⟩ := isBase
      exact (falls _ entry name member).trans ih
  obtain ⟨graph, built, -, arranges, -⟩ :=
    exists_arrangement hierarchy (reverse_perm [base, left, pair])
  exact ⟨graph, built, arranges⟩

end ClassGraph

end TypeInference
