/- The orders of classes, computed on lists that are changed in place. -/

import Mathlib.Logic.Function.Iterate
import TypeInference.Proofs.Precedence

namespace TypeInference

open List Merge

/-- Lists that can be changed, each at its address. -/
structure Store where
  cells : List (List String)

namespace Store

variable {addresses : List Nat} {store : Store}
  {name : String} {before after base : Store} {lists : List (List String)}

section

variable (store)

def size : Nat := store.cells.length

def read (address : Nat) : List String := store.cells[address]?.getD []

def contents (addresses : List Nat) : List (List String) :=
  addresses.map store.read

/-- A new list gets the next address. -/
def add (list : List String) : Store := ⟨store.cells ++ [list]⟩

def remove (name : String) (address : Nat) : Store :=
  ⟨store.cells.modify address (·.erase name)⟩

/-- Removes a name from the lists at some addresses. -/
def removeAll (name : String) (addresses : List Nat) : Store :=
  addresses.foldl (fun store address => store.remove name address) store

theorem read_add (list : List String) : (store.add list).read store.size = list := by
  simp [add, read, size]

@[simp] theorem size_add (list : List String) : (store.add list).size = store.size + 1 := by
  simp [add, size]

theorem read_remove (name : String) (address other : Nat) :
    (store.remove name address).read other =
      if address = other then (store.read other).erase name else store.read other := by
  simp only [remove, read, getElem?_modify]
  cases store.cells[other]? <;> by_cases same : address = other <;> simp [same]

@[simp] theorem size_remove (name : String) (address : Nat) :
    (store.remove name address).size = store.size := by
  simp [remove, size]

/-- A name is removed as often as an address is given. -/
theorem read_removeAll (name : String) (addresses : List Nat) (other : Nat) :
    (store.removeAll name addresses).read other =
      (fun list : List String => list.erase name)^[addresses.count other] (store.read other) := by
  induction addresses generalizing store with
  | nil => rfl
  | cons address addresses ih =>
    have step := ih (store.remove name address)
    rw [read_remove] at step
    by_cases same : address = other
    · rw [if_pos same] at step
      rw [same, count_cons_self, Function.iterate_succ_apply, ← step, ← same]
      rfl
    · rw [if_neg same] at step
      rw [count_cons_of_ne same, ← step]
      rfl

@[simp] theorem size_removeAll (name : String) (addresses : List Nat) :
    (store.removeAll name addresses).size = store.size := by
  induction addresses generalizing store with
  | nil => rfl
  | cons address addresses ih => exact (ih (store.remove name address)).trans (size_remove ..)

/-- A name is removed once from different lists. -/
theorem contents_removeAll (name : String) (distinct : addresses.Nodup) :
    (store.removeAll name addresses).contents addresses =
      advance (store.contents addresses) name := by
  rw [advance, contents, contents, map_map]
  refine map_congr_left fun address member => ?_
  rw [read_removeAll, count_eq_one_of_mem distinct member]
  rfl

theorem length_removeAll_le (name : String) {other : Nat} (member : other ∈ addresses) :
    ((store.removeAll name addresses).read other).length ≤
      ((store.read other).erase name).length := by
  have positive := count_pos_iff.mpr member
  obtain ⟨count, is⟩ := Nat.exists_eq_add_of_le' positive
  rw [read_removeAll, is]
  clear is
  induction count with
  | zero => exact Nat.le_refl _
  | succ count ih =>
    rw [Function.iterate_succ_apply']
    exact Nat.le_trans length_erase_le ih

end

theorem total_map_le {first second : Nat → List String}
    (le : ∀ address ∈ addresses, (first address).length ≤ (second address).length) :
    total (addresses.map first) ≤ total (addresses.map second) := by
  induction addresses with
  | nil => exact Nat.le_refl _
  | cons address addresses ih =>
    rw [forall_mem_cons] at le
    exact Nat.add_le_add le.1 (ih le.2)

/-- A merge in place ends, also on shared lists. -/
theorem total_removeAll (chosen : choose (store.contents addresses) = some name) :
    total ((store.removeAll name addresses).contents addresses) <
      total (store.contents addresses) := by
  refine Nat.lt_of_le_of_lt ?_ (total_advance_choose chosen)
  rw [advance, contents, contents, map_map]
  exact total_map_le fun address member => length_removeAll_le store name member

def prepend (name : String) :
    EStateM.Result Fault Store (List String) → EStateM.Result Fault Store (List String)
  | .ok order after => .ok (name :: order) after
  | .error fault after => .error fault after

/-- Takes eligible heads off the lists at some addresses. -/
def merge (store : Store) (addresses : List Nat) : EStateM.Result Fault Store (List String) :=
  match _chosen : choose (store.contents addresses) with
  | none =>
    if (store.contents addresses).all List.isEmpty then .ok [] store
    else .error .inconsistentHierarchy store
  | some name => prepend name ((store.removeAll name addresses).merge addresses)
termination_by total (store.contents addresses)
decreasing_by exact total_removeAll ‹_›

theorem merge_of_none (none : choose (store.contents addresses) = none) :
    store.merge addresses = if (store.contents addresses).all List.isEmpty then .ok [] store
      else .error .inconsistentHierarchy store := by
  rw [merge]
  split
  · rfl
  · next chosen => simp [none] at chosen

theorem merge_of_some (chosen : choose (store.contents addresses) = some name) :
    store.merge addresses =
      prepend name ((store.removeAll name addresses).merge addresses) := by
  rw [merge]
  split
  · next none => simp [chosen] at none
  · next other isOther =>
    obtain rfl := Option.some.inj (chosen.symm.trans isOther)
    rfl

/-- A new list in the store. -/
def allocate (list : List String) : EStateM Fault Store Nat := fun store =>
  .ok store.size (store.add list)

def readAt (address : Nat) : EStateM Fault Store (List String) := fun store =>
  .ok (store.read address) store

def mergeAt (addresses : List Nat) : EStateM Fault Store (List String) := fun store =>
  store.merge addresses

section Bind

variable {α : Type} {store : Store}

theorem allocate_bind (list : List String) (next : Nat → EStateM Fault Store α) :
    (allocate list >>= next) store = next store.size (store.add list) := rfl

theorem readAt_bind (address : Nat) (next : List String → EStateM Fault Store α) :
    (readAt address >>= next) store = next (store.read address) store := rfl

end Bind

/-- The address of the order of a class. The bases are copied. -/
def linearize (table : Table String Nat) : Nat → String → EStateM Fault Store Nat
  | 0, _ => throw .circular
  | fuel + 1, name =>
    match table.get? name with
    | none => throw .missingKey
    | some address => do
      let orders ← (← readAt address).mapM (linearize table fuel)
      let own ← allocate (← readAt address)
      let merged ← mergeAt (orders ++ [own])
      allocate (name :: merged)

/-- All lists are the same in another store. -/
def KeptIn (before after : Store) : Prop :=
  before.size ≤ after.size ∧ ∀ address < before.size, after.read address = before.read address

namespace KeptIn

theorem refl (store : Store) : store.KeptIn store := ⟨Nat.le_refl _, fun _ _ => rfl⟩

theorem trans {first second third : Store} (left : first.KeptIn second)
    (right : second.KeptIn third) : first.KeptIn third := by
  refine ⟨Nat.le_trans left.1 right.1, fun address old => ?_⟩
  rw [right.2 address (Nat.lt_of_lt_of_le old left.1), left.2 address old]

theorem add (store : Store) (list : List String) : store.KeptIn (store.add list) := by
  refine ⟨by simp, fun address old => ?_⟩
  simp [Store.add, read, getElem?_append_left old]

/-- Removing names from newer lists keeps the older ones. -/
theorem removeAll (kept : before.KeptIn after) (name : String)
    (newer : ∀ address ∈ addresses, before.size ≤ address) :
    before.KeptIn (after.removeAll name addresses) := by
  refine ⟨by simpa using kept.1, fun address old => ?_⟩
  have outside : address ∉ addresses := fun member => by
    have new := newer address member
    omega
  rw [read_removeAll, count_eq_zero.mpr outside]
  exact kept.2 address old

end KeptIn

/-- A computation in place has the result of another one. -/
inductive Agrees {α β : Type} (base : Store) (means : Store → α → β → Prop) :
    EStateM.Result Fault Store α → Except Fault β → Prop where
  | ok {value : α} {after : Store} {result : β} (kept : base.KeptIn after)
      (is : means after value result) : Agrees base means (.ok value after) (.ok result)
  | error {fault : Fault} {after : Store} (kept : base.KeptIn after) :
      Agrees base means (.error fault after) (.error fault)

namespace Agrees

variable {α β γ δ : Type} {base : Store} {outcome : EStateM.Result Fault Store α}
  {means : Store → α → β → Prop} {expected : Except Fault β}

theorem of_kept (kept : base.KeptIn before) (agrees : Agrees before means outcome expected) :
    Agrees base means outcome expected := by
  cases agrees with
  | ok later is => exact .ok (kept.trans later) is
  | error later => exact .error (kept.trans later)

theorem imp {others : Store → α → β → Prop} (agrees : Agrees base means outcome expected)
    (weaker : ∀ {after value result}, means after value result → others after value result) :
    Agrees base others outcome expected := by
  cases agrees with
  | ok kept is => exact .ok kept (weaker is)
  | error kept => exact .error kept

/-- Sequences agree if their steps do. -/
theorem bind {first : EStateM Fault Store α} {next : α → EStateM Fault Store γ}
    {expectedNext : β → Except Fault δ} {meansNext : Store → γ → δ → Prop}
    (start : Agrees base means (first before) expected)
    (step : ∀ {value after result}, base.KeptIn after → means after value result →
      Agrees base meansNext (next value after) (expectedNext result)) :
    Agrees base meansNext ((first >>= next) before) (expected >>= expectedNext) := by
  change Agrees base meansNext (EStateM.bind first next before) _
  unfold EStateM.bind
  generalize first before = outcome at start ⊢
  cases start with
  | ok kept is => exact step kept is
  | error kept => exact .error kept

end Agrees

/-- A merge in place takes the same names from different lists. -/
theorem merge_agrees (kept : base.KeptIn store) (distinct : addresses.Nodup)
    (newer : ∀ address ∈ addresses, base.size ≤ address) :
    Agrees base (fun _ order result => order = result) (store.merge addresses)
      (run (store.contents addresses)).toExcept := by
  induction store using merge.induct addresses with
  | case1 store none empty =>
    have complete : (run (store.contents addresses)).toExcept = .ok [] := by
      rw [run_of_none none, toExcept, isComplete, if_pos empty]
    rw [complete, merge_of_none none, if_pos empty]
    exact .ok kept rfl
  | case2 store none left =>
    have stuck : (run (store.contents addresses)).toExcept = .error .inconsistentHierarchy := by
      rw [run_of_none none, toExcept, isComplete, if_neg left]
    rw [stuck, merge_of_none none, if_neg left]
    exact .error kept
  | case3 store name chosen ih =>
    have rest := ih (kept.removeAll name newer)
    -- No address is given twice, so each list loses the name once.
    rw [contents_removeAll store name distinct] at rest
    rw [merge_of_some chosen, toExcept_run_of_some chosen]
    generalize (store.removeAll name addresses).merge addresses = outcome at rest ⊢
    generalize (run (advance (store.contents addresses) name)).toExcept = expected at rest ⊢
    cases rest with
    | ok later is => exact .ok later (congrArg (name :: ·) is)
    | error later => exact .error later

/-- An address stands for the list there, which is new. -/
def IsNew (base after : Store) (address : Nat) (list : List String) : Prop :=
  base.size ≤ address ∧ address < after.size ∧ after.read address = list

/-- Different addresses stand for the lists there. -/
structure AreNew (base after : Store) (addresses : List Nat) (lists : List (List String)) :
    Prop where
  distinct : addresses.Nodup
  newer : ∀ address ∈ addresses, base.size ≤ address
  inside : ∀ address ∈ addresses, address < after.size
  contents_eq : after.contents addresses = lists

theorem AreNew.cons {middle : Store} {address : Nat} {list : List String}
    (first : base.IsNew middle address list) (kept : middle.KeptIn after)
    (rest : middle.AreNew after addresses lists) (start : base.KeptIn middle) :
    base.AreNew after (address :: addresses) (list :: lists) := by
  obtain ⟨new, inside, is⟩ := first
  refine ⟨nodup_cons.mpr ⟨fun member => ?_, rest.distinct⟩, forall_mem_cons.mpr ⟨new, ?_⟩,
    forall_mem_cons.mpr ⟨Nat.lt_of_lt_of_le inside kept.1, rest.inside⟩, ?_⟩
  · have later := rest.newer address member
    omega
  · exact fun other later => Nat.le_trans start.1 (rest.newer other later)
  · rw [contents, map_cons, kept.2 address inside, is]
    exact congrArg (list :: ·) rest.contents_eq

/-- A further list after new ones. -/
theorem AreNew.concat (new : base.AreNew after addresses lists) (kept : base.KeptIn after)
    (list : List String) :
    base.AreNew (after.add list) (addresses ++ [after.size]) (lists ++ [list]) := by
  refine ⟨nodup_append.mpr ⟨new.distinct, nodup_singleton _, ?_⟩,
    forall_mem_append.mpr ⟨new.newer, forall_mem_singleton.mpr kept.1⟩,
    forall_mem_append.mpr ⟨fun address member => ?_, by simp⟩, ?_⟩
  · intro address member other isLast same
    have inside := new.inside address member
    simp only [mem_singleton] at isLast
    omega
  · rw [size_add]
    exact Nat.lt_succ_of_lt (new.inside address member)
  · have same : (after.add list).contents addresses = after.contents addresses :=
      map_congr_left fun address member =>
        (KeptIn.add after list).2 address (new.inside address member)
    rw [contents, map_append, map_singleton, read_add, ← new.contents_eq, ← same]
    rfl

theorem mapM_agrees (valid : Store → Prop)
    (keep : ∀ {before after}, valid before → before.KeptIn after → valid after)
    {f : String → EStateM Fault Store Nat} {expected : String → Except Fault (List String)}
    (each : ∀ name {store}, valid store → Agrees store store.IsNew (f name store) (expected name))
    (names : List String) (isValid : valid store) :
    Agrees store store.AreNew (names.mapM f store) (names.mapM expected) := by
  induction names generalizing store with
  | nil => exact .ok (.refl store) ⟨nodup_nil, by simp, by simp, rfl⟩
  | cons name names ih =>
    rw [mapM_cons, mapM_cons]
    refine (each name isValid).bind fun {address middle order} kept first => ?_
    refine .of_kept kept (.bind (ih (keep isValid kept)) fun later rest => ?_)
    exact .ok later (.cons first later rest kept)

/-- A store holds the bases at the addresses of a table. -/
def Holds (store : Store) (table : Table String Nat) (bases : Bases) : Prop :=
  table.map store.read = bases ∧ ∀ address ∈ table.values, address < store.size

namespace Holds

variable {store : Store} {table : Table String Nat} {bases : Bases}

theorem of_kept (held : store.Holds table bases) (kept : store.KeptIn after) :
    after.Holds table bases := by
  obtain ⟨rfl, inside⟩ := held
  refine ⟨?_, fun address member => Nat.lt_of_lt_of_le (inside address member) kept.1⟩
  refine congrArg Table.mk (map_congr_left fun entry member => ?_)
  rw [kept.2 entry.2 (inside _ (mem_map_of_mem member))]

end Holds

/-- In place, the order of a class is put into a new list. -/
theorem linearize_agrees {table : Table String Nat} {bases : Bases} (fuel : Nat) (name : String)
    {store : Store} (held : store.Holds table bases) :
    Agrees store store.IsNew (linearize table fuel name store)
      (Bases.linearizeWithin bases fuel name) := by
  induction fuel generalizing name store with
  | zero => exact .error (.refl store)
  | succ fuel ih =>
    have looked : bases.get? name = (table.get? name).map store.read := by
      rw [← held.1, Table.get?_map]
    rw [linearize, Bases.linearizeWithin, looked]
    cases known : table.get? name with
    | none => exact .error (.refl store)
    | some address =>
      have orders := mapM_agrees (fun store => store.Holds table bases) Holds.of_kept ih
        (store.read address) held
      simp only [readAt_bind, Option.map_some]
      refine .bind orders fun {addresses after lists} kept new => ?_
      -- The orders of the bases are new lists, so the bases can be read again for the copy.
      have same : after.read address = store.read address :=
        kept.2 address (held.2 address (mem_map_of_mem (Table.mem_of_get? known)))
      have all := new.concat kept (after.read address)
      have merged := merge_agrees (kept.trans (.add after (after.read address))) all.distinct
        all.newer
      rw [all.contents_eq, same] at merged
      simp only [readAt_bind, allocate_bind, same]
      refine .bind merged fun {order last result} later is => ?_
      subst is
      exact .ok (later.trans (.add last _)) ⟨later.1, by simp, read_add last _⟩

end Store

namespace Bases

/-- In a table of bases without cycles, the order of a class fails only because of a merge.
Otherwise it is a linearization of its ancestors. Computed in place it is the same, and the bases
stay as they are. -/
theorem linearize_keeps_precedence {bases : Bases} (acyclic : bases.Acyclic) (closed : bases.Closed)
    {name : String} (known : (bases.get? name).isSome = true) :
    (∀ {fault}, bases.linearize name = .error fault → fault = .inconsistentHierarchy) ∧
    (∀ {order}, bases.linearize name = .ok order → bases.IsLinearization name order) ∧
    ∀ {store : Store} {table : Table String Nat}, store.Holds table bases →
      store.Agrees (fun after address order => after.read address = order)
        (Store.linearize table (table.size + 1) name store) (bases.linearize name) := by
  refine ⟨linearizeWithin_eq_error acyclic closed [] known nodup_nil (nil_subset _)
    (fun _ member => absurd member not_mem_nil) (by simp), isLinearization acyclic, ?_⟩
  intro store table held
  have same : table.size = bases.size := by
    rw [← held.1]
    simp [Table.map, Table.size]
  have agrees := Store.linearize_agrees (table.size + 1) name held
  rw [same] at agrees ⊢
  exact agrees.imp fun new => new.2.2

/-- A class with two bases that have one base in common. -/
def diamond : Bases := ⟨[("A", []), ("B", ["A"]), ("C", ["A"]), ("D", ["B", "C"])]⟩

/-- There is no cycle if bases have a lower rank. -/
theorem acyclic_of_rank {bases : Bases} (rank : String → Nat)
    (lower : ∀ entry ∈ bases.entries, ∀ base ∈ entry.2, rank base < rank entry.1) :
    bases.Acyclic := by
  have ofBase {name base : String} (isBase : bases.IsBase name base) : rank base < rank name := by
    obtain ⟨parents, known, member⟩ := isBase
    exact lower _ (Table.mem_of_get? known) base member
  have ofAncestor {name other : String} (above : Relation.TransGen bases.IsBase name other) :
      rank other < rank name := by
    induction above with
    | single isBase => exact ofBase isBase
    | tail _ isBase ih => exact Nat.lt_trans (ofBase isBase) ih
  exact fun name above => Nat.lt_irrefl _ (ofAncestor above)

/-- The order of a diamond. -/
theorem diamond_linearization : diamond.Acyclic ∧ diamond.Closed ∧
    diamond.linearize "D" = .ok ["D", "B", "C", "A"] ∧
    diamond.IsLinearization "D" ["D", "B", "C", "A"] := by
  have acyclic : diamond.Acyclic :=
    acyclic_of_rank (fun name => if name = "A" then 0 else if name = "D" then 2 else 1) (by decide)
  have closed : diamond.Closed := by
    have each : ∀ entry ∈ diamond.entries, ∀ base ∈ entry.2, (diamond.get? base).isSome = true := by
      decide
    rintro name base ⟨parents, known, member⟩
    exact each _ (Table.mem_of_get? known) base member
  have done : diamond.linearize "D" = .ok ["D", "B", "C", "A"] := by
    decide +kernel
  exact ⟨acyclic, closed, done, (linearize_keeps_precedence acyclic closed (by decide)).2.1 done⟩

end Bases

end TypeInference
