/- In the order of a class, each class stands once and before its bases. -/

import Mathlib.Data.List.Perm.Subperm
import Mathlib.Logic.Relation
import TypeInference.Hierarchy.Linearization
import TypeInference.Proofs.Table
import TypeInference.Proofs.Traversal

namespace TypeInference

open List

variable {order : List String} {fault : Fault}

namespace Merge

variable {lists : List (List String)} {name : String}

theorem exists_mem_of_choose (chosen : choose lists = some name) : ∃ list ∈ lists, name ∈ list := by
  obtain ⟨list, here, first⟩ := mem_filterMap.mp (mem_of_find?_eq_some chosen)
  exact ⟨list, here, mem_of_mem_head? first⟩

variable {list : List String}

theorem not_mem_tail_of_choose (chosen : choose lists = some name) (here : list ∈ lists) :
    name ∉ list.tail := by
  have eligible := find?_some chosen
  simpa using all_eq_true.mp eligible list here

/-- A name that is taken is left in no list. -/
theorem not_mem_advance (chosen : choose lists = some name) (here : list ∈ advance lists name) :
    name ∉ list := by
  obtain ⟨before, member, rfl⟩ := mem_map.mp here
  have notLater := not_mem_tail_of_choose chosen member
  cases before with
  | nil => simp
  | cons head tail =>
    by_cases same : head = name
    · simpa [same] using notLater
    · simpa [same, Ne.symm same] using fun inside => notLater (mem_of_mem_erase inside)

/-- A merge holds the names once, in the order of each list. -/
structure Keeps (lists : List (List String)) (order : List String) : Prop where
  nodup : order.Nodup
  sublist : ∀ list ∈ lists, list.Sublist order
  covered : ∀ name ∈ order, ∃ list ∈ lists, name ∈ list

theorem Keeps.mem_iff (keeps : Keeps lists order) : name ∈ order ↔ ∃ list ∈ lists, name ∈ list :=
  ⟨keeps.covered name, fun ⟨list, here, member⟩ => (keeps.sublist list here).subset member⟩

/-- What holds for the rest holds with the name that is taken. -/
theorem Keeps.take (chosen : choose lists = some name) (rest : Keeps (advance lists name) order) :
    Keeps lists (name :: order) := by
  refine ⟨?_, ?_, ?_⟩
  · refine nodup_cons.mpr ⟨fun member => ?_, rest.nodup⟩
    obtain ⟨list, here, inside⟩ := rest.covered name member
    exact not_mem_advance chosen here inside
  · intro list here
    have kept := rest.sublist _ (mem_map_of_mem here)
    cases list with
    | nil => exact nil_sublist _
    | cons head tail =>
      by_cases same : head = name
      · subst same
        rw [erase_cons_head] at kept
        exact kept.cons_cons head
      · have absent : name ∉ head :: tail := by
          simpa [Ne.symm same] using not_mem_tail_of_choose chosen here
        rw [erase_of_not_mem absent] at kept
        exact kept.cons name
  · intro other member
    rcases mem_cons.mp member with rfl | later
    · exact exists_mem_of_choose chosen
    · obtain ⟨list, here, inside⟩ := rest.covered other later
      obtain ⟨before, isBefore, rfl⟩ := mem_map.mp here
      exact ⟨before, isBefore, mem_of_mem_erase inside⟩

theorem run_of_none (none : choose lists = none) : run lists = ⟨[], lists⟩ := by
  rw [run]
  split
  · rfl
  · next chosen => simp [none] at chosen

theorem run_of_some (chosen : choose lists = some name) :
    run lists = ⟨name :: (run (advance lists name)).order, (run (advance lists name)).left⟩ := by
  rw [run]
  split
  · next none => simp [chosen] at none
  · next other isOther =>
    obtain rfl := Option.some.inj (chosen.symm.trans isOther)
    rfl

theorem toExcept_run_of_some (chosen : choose lists = some name) :
    (run lists).toExcept = (run (advance lists name)).toExcept.map fun order => name :: order := by
  rw [run_of_some chosen]
  unfold toExcept isComplete
  split <;> rfl

/-- A whole merge, by induction on its steps. -/
theorem run_keeps (complete : (run lists).isComplete) : Keeps lists (run lists).order := by
  induction lists using run.induct with
  | case1 lists none =>
    rw [run_of_none none] at complete ⊢
    have empty {list : List String} (here : list ∈ lists) : list = [] :=
      List.isEmpty_iff.mp (all_eq_true.mp complete list here)
    refine ⟨nodup_nil, fun list here => ?_, fun name member => absurd member (by simp)⟩
    rw [empty here]
  | case2 lists name chosen ih =>
    rw [run_of_some chosen] at complete ⊢
    exact (ih complete).take chosen

theorem keeps_of_ok (done : (run lists).toExcept = .ok order) : Keeps lists order := by
  unfold toExcept at done
  split at done
  · next complete =>
    obtain rfl := Except.ok.inj done
    exact run_keeps complete
  · simp at done

theorem toExcept_eq_error {merge : Merge} (failed : merge.toExcept = .error fault) :
    fault = .inconsistentHierarchy := by
  unfold toExcept at failed
  split at failed
  · simp at failed
  · exact (Except.error.inj failed).symm

/-- An order without repetitions keeps that of each list. -/
def IsConsistent (lists : List (List String)) : Prop :=
  ∃ common : List String, common.Nodup ∧ ∀ list ∈ lists, list.Sublist common

/-- The first name of the common order can be taken as a head. -/
theorem eq_nil_of_choose_none (stuck : choose lists = none) {common : List String}
    (distinct : common.Nodup) (sublist : ∀ list ∈ lists, list.Sublist common)
    (here : list ∈ lists) : list = [] := by
  induction common with
  | nil => exact sublist_nil.mp (sublist list here)
  | cons first rest ih =>
    obtain ⟨fresh, distinct⟩ := nodup_cons.mp distinct
    refine ih distinct fun list here => ?_
    have inside := sublist list here
    cases list with
    | nil => exact nil_sublist rest
    | cons head tail =>
      rcases cons_sublist_cons'.mp inside with later | ⟨rfl, -⟩
      · exact later
      · have isHead : head ∈ lists.filterMap List.head? := mem_filterMap.mpr ⟨_, here, rfl⟩
        refine absurd (all_eq_true.mpr fun other isOther => ?_) (find?_eq_none.mp stuck head isHead)
        have notLater : head ∉ other.tail := fun member =>
          fresh ((sublist other isOther).tail.subset member)
        simpa using notLater

theorem IsConsistent.advance (consistent : IsConsistent lists) (name : String) :
    IsConsistent (advance lists name) := by
  obtain ⟨common, distinct, sublist⟩ := consistent
  refine ⟨common, distinct, fun list here => ?_⟩
  obtain ⟨before, isBefore, rfl⟩ := mem_map.mp here
  exact erase_sublist.trans (sublist before isBefore)

/-- A merge of consistent lists never gets stuck. -/
theorem IsConsistent.isComplete_run (consistent : IsConsistent lists) : (run lists).isComplete := by
  induction lists using run.induct with
  | case1 lists none =>
    obtain ⟨common, distinct, sublist⟩ := consistent
    rw [run_of_none none]
    refine all_eq_true.mpr fun list here => ?_
    rw [eq_nil_of_choose_none none distinct sublist here, isEmpty_nil]
  | case2 lists name chosen ih =>
    rw [run_of_some chosen]
    exact ih (consistent.advance name)

theorem toExcept_run_of_not_isConsistent (inconsistent : ¬ IsConsistent lists) :
    (run lists).toExcept = .error .inconsistentHierarchy := by
  refine if_neg fun complete => inconsistent ?_
  have keeps := run_keeps complete
  exact ⟨_, keeps.nodup, keeps.sublist⟩

/-- A merge has a result exactly if its lists are consistent. -/
theorem toExcept_run_iff_isConsistent (lists : List (List String)) :
    ((∃ order, (run lists).toExcept = .ok order) ↔ IsConsistent lists) ∧
    (∀ order, (run lists).toExcept = .ok order → Keeps lists order) ∧
    (¬ IsConsistent lists → (run lists).toExcept = .error .inconsistentHierarchy) ∧
    (∀ list ∈ lists, ¬ list.Nodup → (run lists).toExcept = .error .inconsistentHierarchy) := by
  refine ⟨⟨?_, fun consistent => ⟨_, if_pos consistent.isComplete_run⟩⟩, fun _ => keeps_of_ok,
    toExcept_run_of_not_isConsistent, ?_⟩
  · rintro ⟨order, done⟩
    have keeps := keeps_of_ok done
    exact ⟨order, keeps.nodup, keeps.sublist⟩
  · refine fun list here repeats => toExcept_run_of_not_isConsistent ?_
    rintro ⟨common, distinct, sublist⟩
    exact repeats (distinct.sublist (sublist list here))

end Merge

namespace Bases

variable (bases : Bases) {parents : List String} {other : String} {fuel : Nat} {name : String}

/-- A class inherits from another one directly. -/
def IsBase (name base : String) : Prop := ∃ parents, bases.get? name = some parents ∧ base ∈ parents

/-- A class and all that it inherits from. -/
def IsAncestor : String → String → Prop := Relation.ReflTransGen bases.IsBase

/-- No class inherits from itself. -/
def Acyclic : Prop := ∀ name, ¬ Relation.TransGen bases.IsBase name name

/-- All bases are classes of the table. -/
def Closed : Prop := ∀ {name base}, bases.IsBase name base → (bases.get? base).isSome = true

/-- A class first, then its ancestors once and in their orders. -/
structure KeepsOrders (ordered : String → Except Fault (List String)) (name : String)
    (order : List String) : Prop where
  head : order.head? = some name
  nodup : order.Nodup
  mem_iff : ∀ other, other ∈ order ↔ bases.IsAncestor name other
  monotone : ∀ other ∈ order, ∃ own, ordered other = .ok own ∧ own.Sublist order

/-- The bases of each ancestor stand behind it in their order. -/
structure IsLinearization (name : String) (order : List String) : Prop extends
    bases.KeepsOrders bases.linearize name order where
  precedence : ∀ other ∈ order, ∀ parents, bases.get? other = some parents →
    (other :: parents).Sublist order

variable {bases}

theorem linearizeWithin_eq_ok :
    linearizeWithin bases (fuel + 1) name = .ok order ↔ ∃ parents orders merged,
      bases.get? name = some parents ∧ parents.mapM (linearizeWithin bases fuel) = .ok orders ∧
      (Merge.run (orders ++ [parents])).toExcept = .ok merged ∧ name :: merged = order := by
  rw [linearizeWithin]
  cases known : bases.get? name with
  | none => simp
  | some parents =>
    simp only [bind_eq_ok_iff, pure_eq_ok_iff, Option.some.injEq, exists_eq_left', exists_and_left]

/-- More fuel keeps a result. -/
theorem linearizeWithin_succ (done : linearizeWithin bases fuel name = .ok order) :
    linearizeWithin bases (fuel + 1) name = .ok order := by
  induction fuel generalizing name order with
  | zero => simp [linearizeWithin] at done
  | succ fuel ih =>
    obtain ⟨parents, orders, merged, known, each, merge, rfl⟩ := linearizeWithin_eq_ok.mp done
    refine linearizeWithin_eq_ok.mpr ⟨parents, orders, merged, known, ?_, merge, rfl⟩
    exact mapM_eq_ok_iff.mpr ((mapM_eq_ok_iff.mp each).imp fun _ _ => ih)

/-- A class and its bases stand in its order as declared. -/
theorem sublist_of_linearizeWithin (done : linearizeWithin bases fuel name = .ok order)
    (known : bases.get? name = some parents) : (name :: parents).Sublist order := by
  cases fuel with
  | zero => simp [linearizeWithin] at done
  | succ fuel =>
    obtain ⟨own, orders, merged, isOwn, each, merge, rfl⟩ := linearizeWithin_eq_ok.mp done
    obtain rfl := Option.some.inj (known.symm.trans isOwn)
    exact ((Merge.keeps_of_ok merge).sublist parents (by simp)).cons_cons name

theorem isAncestor_iff (known : bases.get? name = some parents) :
    bases.IsAncestor name other ↔
      other = name ∨ ∃ parent ∈ parents, bases.IsAncestor parent other := by
  unfold IsAncestor
  rw [Relation.ReflTransGen.cases_head_iff]
  constructor
  · rintro (rfl | ⟨parent, ⟨own, isOwn, member⟩, above⟩)
    · exact .inl rfl
    · obtain rfl := Option.some.inj (known.symm.trans isOwn)
      exact .inr ⟨parent, member, above⟩
  · rintro (rfl | ⟨parent, member, above⟩)
    · exact .inl rfl
    · exact .inr ⟨parent, ⟨parents, known, member⟩, above⟩

/-- The merge of the orders holds what the bases inherit. -/
theorem mem_merged_iff {merged : List String} {orders : List (List String)}
    (each : Forall₂ (fun parent order => ∀ other, other ∈ order ↔
      bases.IsAncestor parent other) parents orders)
    (keeps : Merge.Keeps (orders ++ [parents]) merged) :
    other ∈ merged ↔ ∃ parent ∈ parents, bases.IsAncestor parent other := by
  rw [keeps.mem_iff]
  constructor
  · rintro ⟨list, here, member⟩
    rcases mem_append.mp here with isOrder | isParents
    · obtain ⟨parent, isParent, own⟩ := forall₂_exists_left each isOrder
      exact ⟨parent, isParent, (own other).mp member⟩
    · obtain rfl := mem_singleton.mp isParents
      exact ⟨other, member, .refl⟩
  · rintro ⟨parent, isParent, above⟩
    obtain ⟨own, isOwn, ofParent⟩ := forall₂_exists_right each isParent
    exact ⟨own, mem_append_left _ isOwn, (ofParent other).mpr above⟩

/-- The order of a class holds it and its ancestors. -/
theorem mem_linearizeWithin_iff (done : linearizeWithin bases fuel name = .ok order)
    (other : String) : other ∈ order ↔ bases.IsAncestor name other := by
  induction fuel generalizing name order other with
  | zero => simp [linearizeWithin] at done
  | succ fuel ih =>
    obtain ⟨parents, orders, merged, known, each, merge, rfl⟩ := linearizeWithin_eq_ok.mp done
    have ofParents := (mapM_eq_ok_iff.mp each).imp fun _ _ => ih
    rw [mem_cons, mem_merged_iff ofParents (Merge.keeps_of_ok merge), isAncestor_iff known]

section Step

variable {fuel : Nat} {parents merged : List String} {orders : List (List String)}
  (each : Forall₂ (bases.KeepsOrders (linearizeWithin bases fuel)) parents orders)
  (keeps : Merge.Keeps (orders ++ [parents]) merged)
include each keeps

/-- The orders of the bases' ancestors are parts of the merge. -/
theorem exists_sublist_merged (member : other ∈ merged) :
    ∃ own, linearizeWithin bases fuel other = .ok own ∧ own.Sublist merged := by
  have ofParents := each.imp fun _ _ (own : KeepsOrders ..) => own.mem_iff
  obtain ⟨parent, isParent, above⟩ := (mem_merged_iff ofParents keeps).mp member
  obtain ⟨order, isOrder, ofParent⟩ := forall₂_exists_right each isParent
  obtain ⟨own, done, part⟩ := ofParent.monotone other ((ofParent.mem_iff other).mpr above)
  exact ⟨own, done, part.trans (keeps.sublist order (mem_append_left _ isOrder))⟩

/-- A class in front of the merge of its bases. -/
theorem KeepsOrders.cons (acyclic : bases.Acyclic) (known : bases.get? name = some parents)
    (done : linearizeWithin bases (fuel + 1) name = .ok (name :: merged)) :
    bases.KeepsOrders (linearizeWithin bases (fuel + 1)) name (name :: merged) := by
  refine ⟨rfl, ?_, mem_linearizeWithin_iff done, ?_⟩
  · refine nodup_cons.mpr ⟨fun member => ?_, keeps.nodup⟩
    have ofParents := each.imp fun _ _ (own : KeepsOrders ..) => own.mem_iff
    obtain ⟨parent, isParent, above⟩ := (mem_merged_iff ofParents keeps).mp member
    exact acyclic name (.head' ⟨parents, known, isParent⟩ above)
  · intro other member
    rcases mem_cons.mp member with rfl | later
    · exact ⟨_, done, .refl _⟩
    · obtain ⟨own, isOwn, part⟩ := exists_sublist_merged each keeps later
      exact ⟨own, linearizeWithin_succ isOwn, part.cons name⟩

end Step

/-- By induction on the fuel, which bounds the depth. -/
theorem keepsOrders_of_linearizeWithin (acyclic : bases.Acyclic)
    (done : linearizeWithin bases fuel name = .ok order) :
    bases.KeepsOrders (linearizeWithin bases fuel) name order := by
  induction fuel generalizing name order with
  | zero => simp [linearizeWithin] at done
  | succ fuel ih =>
    obtain ⟨parents, orders, merged, known, each, merge, rfl⟩ := linearizeWithin_eq_ok.mp done
    have ofParents := (mapM_eq_ok_iff.mp each).imp fun _ _ => ih
    exact .cons ofParents (Merge.keeps_of_ok merge) acyclic known done

theorem isLinearization (acyclic : bases.Acyclic) (done : bases.linearize name = .ok order) :
    bases.IsLinearization name order := by
  have keeps := keepsOrders_of_linearizeWithin acyclic done
  refine ⟨keeps, fun other member parents known => ?_⟩
  obtain ⟨own, isOwn, part⟩ := keeps.monotone other member
  exact (sublist_of_linearizeWithin isOwn known).trans part

/-- If a path and the fuel are as long as the table, only a merge fails. -/
theorem linearizeWithin_eq_error (acyclic : bases.Acyclic) (closed : bases.Closed)
    (path : List String) (known : (bases.get? name).isSome) (distinct : path.Nodup)
    (listed : path ⊆ bases.keys)
    (leads : ∀ start ∈ path, Relation.TransGen bases.IsBase start name)
    (enough : bases.size + 1 = path.length + fuel)
    (failed : linearizeWithin bases fuel name = .error fault) : fault = .inconsistentHierarchy := by
  induction fuel generalizing name path with
  | zero =>
    have short := (distinct.subperm listed).length_le
    simp only [Table.keys, Table.size, length_map] at short enough
    omega
  | succ fuel ih =>
    obtain ⟨parents, isParents⟩ := Option.isSome_iff_exists.mp known
    simp only [linearizeWithin, isParents] at failed
    rcases bind_eq_error_iff.mp failed with inside | ⟨orders, -, failed⟩
    · obtain ⟨parent, isParent, ofParent⟩ := exists_of_mapM_error inside
      have isBase : bases.IsBase name parent := ⟨parents, isParents, isParent⟩
      have fresh : name ∉ path := fun member => acyclic name (leads name member)
      refine ih (name :: path) (closed isBase) (nodup_cons.mpr ⟨fresh, distinct⟩) ?_ ?_ ?_ ofParent
      · refine cons_subset.mpr ⟨?_, listed⟩
        exact mem_map_of_mem (Table.mem_of_get? isParents)
      · intro start member
        rcases mem_cons.mp member with rfl | before
        · exact .single isBase
        · exact (leads start before).tail isBase
      · rw [length_cons]
        omega
    · rcases bind_eq_error_iff.mp failed with merge | ⟨_, -, last⟩
      · exact Merge.toExcept_eq_error merge
      · cases last

end Bases

end TypeInference
