/- The order in which the ancestors of a class are searched. -/

import TypeInference.Fault
import TypeInference.Table

namespace TypeInference

/-- What a merge of lists has taken, and what it leaves. -/
structure Merge where
  order : List String
  left : List (List String)
deriving DecidableEq, Repr, Inhabited

namespace Merge

/-- A name may be taken if it is behind the head of no list. -/
def eligible (lists : List (List String)) (name : String) : Bool :=
  lists.all fun list => !list.tail.contains name

def choose (lists : List (List String)) : Option String :=
  (lists.filterMap List.head?).find? (eligible lists)

def advance (lists : List (List String)) (name : String) : List (List String) :=
  lists.map fun list => list.erase name

def total (lists : List (List String)) : Nat :=
  lists.foldr (fun list rest => list.length + rest) 0

theorem total_advance_le (lists : List (List String)) (name : String) :
    total (advance lists name) ≤ total lists := by
  induction lists with
  | nil => simp [total, advance]
  | cons list lists ih =>
    have head := List.length_erase_le (a := name) (l := list)
    simp only [total, advance, List.map_cons, List.foldr_cons] at ih ⊢
    omega

variable {lists : List (List String)} {name : String}

theorem total_advance_lt {list : List String} (here : list ∈ lists) (holds : name ∈ list) :
    total (advance lists name) < total lists := by
  induction lists with
  | nil => simp at here
  | cons first lists ih =>
    have rest := total_advance_le lists name
    have head := List.length_erase_le (a := name) (l := first)
    simp only [total, advance, List.map_cons, List.foldr_cons] at ih rest ⊢
    rcases List.mem_cons.mp here with same | later
    · subst same
      have shorter := List.length_erase_of_mem holds
      have positive := List.length_pos_of_mem holds
      omega
    · have shorter := ih later
      omega

theorem total_advance_choose (chosen : choose lists = some name) :
    total (advance lists name) < total lists := by
  have head := List.mem_of_find?_eq_some chosen
  obtain ⟨list, here, first⟩ := List.mem_filterMap.mp head
  exact total_advance_lt here (List.mem_of_mem_head? first)

/-- Takes eligible heads as long as there is one. -/
def run (lists : List (List String)) : Merge :=
  match _chosen : choose lists with
  | none => ⟨[], lists⟩
  | some name =>
    let rest := run (advance lists name)
    ⟨name :: rest.order, rest.left⟩
termination_by total lists
decreasing_by exact total_advance_choose ‹_›

def isComplete (merge : Merge) : Bool := merge.left.all List.isEmpty

def toExcept (merge : Merge) : Except Fault (List String) :=
  if merge.isComplete then .ok merge.order else .error .inconsistentHierarchy

end Merge

abbrev Bases := Table String (List String)

namespace Bases

/-- A class comes first, then the merge of its bases' orders and of the bases themselves. -/
def linearizeWithin (bases : Bases) : Nat → String → Except Fault (List String)
  | 0, _ => .error .circular
  | fuel + 1, name =>
    match bases.get? name with
    | none => .error .missingKey
    | some parents => do
      let orders ← parents.mapM (linearizeWithin bases fuel)
      let merged ← (Merge.run (orders ++ [parents])).toExcept
      pure (name :: merged)

/-- No path of inheritance is longer than the number of classes. -/
def linearize (bases : Bases) (name : String) : Except Fault (List String) :=
  linearizeWithin bases (bases.size + 1) name

end Bases

end TypeInference
