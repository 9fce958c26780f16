/- Classes are placed in their graph one by one. The work ends if and only if every class
has a way to the root. -/

import TypeInference.Proofs.ClassEntries
import TypeInference.Proofs.ClassGraph
import TypeInference.Proofs.Precedence

namespace TypeInference

open List ClassGraph

/-- The classes that a graph can hold: the root, and each class if it can hold its bases. -/
inductive ClassTable.Grounded (table : ClassTable) : ClassKey → Prop where
  | root : Grounded table (.plain "object")
  | derived {key : ClassKey} {bases : List String} (entry : (key, bases) ∈ table.entries)
      (each : ∀ base ∈ bases, Grounded table (.plain base)) : Grounded table key

namespace ClassGraph

variable {table : ClassTable} (derived : ∀ entry ∈ table.entries, entry.2 ≠ [])
  {graph : ClassGraph} (sound : Sound table graph)
include derived sound

/-- If every class names a base, every class is attached. -/
theorem Sound.isAttached {index : Nat} (inside : index < graph.size) : graph.IsAttached index := by
  rcases Nat.eq_zero_or_pos index with root | positive
  · exact .inl root
  · obtain ⟨bases, placed⟩ := sound.placed index positive inside
    refine .inr fun none => ?_
    have each := placed.parents
    rw [none, forall₂_nil_right_iff] at each
    exact derived _ placed.entry each

theorem Sound.exists_find?_of_mem {key : ClassKey} (known : key ∈ graph.nodes.map (·.key)) :
    ∃ index, graph.find? key = some index := by
  obtain ⟨index, inside, rfl⟩ := mem_keys_iff.mp known
  exact sound.exists_find? inside (sound.isAttached derived inside)

/-- A class whose bases are there can be added. -/
theorem Sound.exists_add (key : ClassKey) {bases : List String}
    (ready : graph.hasBases bases) : ∃ next, graph.add key bases = .ok next := by
  have each : ∀ base ∈ bases, graph.find? (.plain base) =
      some ((graph.find? (.plain base)).getD 0) := by
    intro base member
    have known : .plain base ∈ graph.nodes.map (·.key) := by
      simpa [contains] using all_eq_true.mp ready base member
    obtain ⟨index, found⟩ := sound.exists_find?_of_mem derived known
    rw [found, Option.getD_some]
  refine ⟨_, add_eq_ok_iff.mpr ⟨bases.map fun base => (graph.find? (.plain base)).getD 0, ?_, rfl⟩⟩
  exact forall₂_map_right_iff.mpr (forall₂_same.mpr each)

end ClassGraph

/-- A graph with the classes that wait for a place. -/
structure Worklist where
  graph : ClassGraph
  waiting : List (ClassKey × List String)

namespace Worklist

variable {graph : ClassGraph} {work : Worklist} {waiting : List (ClassKey × List String)}
  {entry : ClassKey × List String} {first second : Nat}

def start (table : ClassTable) : Worklist := ⟨{}, table.entries⟩

/-- Places the first class if its bases are there, or lets it wait. -/
def step (work : Worklist) : Except Fault Worklist :=
  match work.waiting with
  | [] => .ok work
  | entry :: rest =>
    if work.graph.hasBases entry.2 then
      (work.graph.add entry.1 entry.2).map fun next => ⟨next, rest⟩
    else .ok ⟨work.graph, rest ++ [entry]⟩

def run : Nat → Worklist → Except Fault Worklist
  | 0, work => .ok work
  | steps + 1, work => step work >>= run steps

/-- After some steps no class waits. -/
def Ends (table : ClassTable) : Prop := ∃ steps graph, run steps (start table) = .ok ⟨graph, []⟩

theorem step_of_nil (graph : ClassGraph) : step ⟨graph, []⟩ = .ok ⟨graph, []⟩ := rfl

theorem step_of_ready (ready : graph.hasBases entry.2)
    (rest : List (ClassKey × List String)) :
    step ⟨graph, entry :: rest⟩ = (graph.add entry.1 entry.2).map fun next => ⟨next, rest⟩ := by
  simp only [step, if_pos ready]

theorem step_of_not_ready (notReady : ¬ graph.hasBases entry.2)
    (rest : List (ClassKey × List String)) :
    step ⟨graph, entry :: rest⟩ = .ok ⟨graph, rest ++ [entry]⟩ := by
  simp only [step, if_neg notReady]

theorem run_add (first second : Nat) (work : Worklist) :
    run (first + second) work = run first work >>= run second := by
  induction first generalizing work with
  | zero =>
    rw [Nat.zero_add]
    rfl
  | succ first ih =>
    rw [Nat.succ_add_eq_add_succ, Nat.add_succ, run, run, bind_assoc]
    exact congrArg _ (funext ih)

theorem run_of_nil (steps : Nat) (graph : ClassGraph) :
    run steps ⟨graph, []⟩ = .ok ⟨graph, []⟩ := by
  induction steps with
  | zero => rfl
  | succ steps ih =>
    exact ih

/-- No class that waits has its bases in the graph. -/
def IsStuck (work : Worklist) : Prop :=
  work.waiting ≠ [] ∧ ∀ entry ∈ work.waiting, ¬ work.graph.hasBases entry.2 = true

theorem IsStuck.step (stuck : work.IsStuck) : ∃ next, work.step = .ok next ∧ next.IsStuck := by
  obtain ⟨graph, waiting⟩ := work
  obtain ⟨some, none⟩ := stuck
  cases waiting with
  | nil => exact absurd rfl some
  | cons entry rest =>
    refine ⟨_, step_of_not_ready (none entry mem_cons_self) rest, by simp, ?_⟩
    intro other member
    exact none other (by simpa [or_comm] using member)

/-- From a stuck list on, classes wait for ever. -/
theorem IsStuck.run (stuck : work.IsStuck) (steps : Nat) :
    ∃ next, Worklist.run steps work = .ok next ∧ next.IsStuck := by
  induction steps generalizing work with
  | zero => exact ⟨work, rfl, stuck⟩
  | succ steps ih =>
    obtain ⟨middle, first, isStuck⟩ := stuck.step
    obtain ⟨next, rest, last⟩ := ih isStuck
    exact ⟨next, bind_eq_ok_iff.mpr ⟨middle, first, rest⟩, last⟩

/-- Two runs from one list meet. -/
theorem run_comm {left right : Worklist} (toLeft : run first work = .ok left)
    (toRight : run second work = .ok right) : run second left = run first right := by
  have forwards := run_add first second work
  have backwards := run_add second first work
  rw [toLeft] at forwards
  rw [toRight, Nat.add_comm, forwards] at backwards
  exact backwards

/-- A run that ends ends in one way. -/
theorem eq_of_run {other : ClassGraph} (left : run first work = .ok ⟨graph, []⟩)
    (right : run second work = .ok ⟨other, []⟩) : graph = other := by
  have same := run_comm left right
  rw [run_of_nil, run_of_nil] at same
  exact congrArg Worklist.graph (Except.ok.inj same)

theorem not_isStuck_of_run {stuck : Worklist} (left : run first work = .ok ⟨graph, []⟩)
    (right : run second work = .ok stuck) : ¬ stuck.IsStuck := by
  intro isStuck
  have same := run_comm left right
  obtain ⟨next, reached, some, -⟩ := isStuck.run first
  rw [run_of_nil, reached] at same
  exact some (congrArg Worklist.waiting (Except.ok.inj same)).symm

/-- One pass takes as many steps as classes wait. -/
theorem run_length (waiting later : List (ClassKey × List String)) (graph : ClassGraph) :
    run waiting.length ⟨graph, waiting ++ later⟩ = (graph.addReady waiting).map fun result =>
      ⟨result.1, later ++ result.2⟩ := by
  induction waiting generalizing graph later with
  | nil => simp [run, addReady, Except.map]
  | cons entry waiting ih =>
    rw [length_cons, cons_append, run, addReady]
    by_cases ready : graph.hasBases entry.2 = true
    · rw [step_of_ready ready, if_pos ready]
      cases graph.add entry.1 entry.2 with
      | error fault => rfl
      | ok next => exact ih later next
    · rw [step_of_not_ready ready, if_neg ready]
      show run waiting.length ⟨graph, waiting ++ later ++ [entry]⟩ = _
      rw [append_assoc, ih]
      cases graph.addReady waiting with
      | error fault => rfl
      | ok result => simp [Except.map, bind, Except.bind, pure, Except.pure]

theorem addReady_of_run {next : Worklist} (done : run waiting.length ⟨graph, waiting⟩ = .ok next) :
    graph.addReady waiting = .ok (next.graph, next.waiting) := by
  have pass := run_length waiting [] graph
  rw [append_nil, done] at pass
  cases result : graph.addReady waiting with
  | error fault => simp [result, Except.map] at pass
  | ok pair =>
    obtain rfl : next = ⟨pair.1, pair.2⟩ := by simpa [result, Except.map] using pass
    rfl

/-- A pass over a stuck list changes nothing. -/
theorem addReady_of_not_ready (none : ∀ entry ∈ waiting, ¬ graph.hasBases entry.2) :
    graph.addReady waiting = .ok (graph, waiting) := by
  induction waiting with
  | nil => rfl
  | cons entry waiting ih =>
    obtain ⟨head, tail⟩ := forall_mem_cons.mp none
    rw [addReady, if_neg head, ih tail]
    rfl

/-- A pass leaves fewer classes, or none of them was ready. -/
theorem length_of_addReady {rest : List (ClassKey × List String)} {next : ClassGraph}
    (done : graph.addReady waiting = .ok (next, rest)) : rest.length ≤ waiting.length ∧
      (rest.length = waiting.length → ∀ entry ∈ waiting, ¬ graph.hasBases entry.2) := by
  induction waiting generalizing graph rest with
  | nil =>
    obtain ⟨-, rfl⟩ := Prod.mk.inj (Except.ok.inj done)
    simp
  | cons entry waiting ih =>
    rw [addReady] at done
    by_cases ready : graph.hasBases entry.2 = true
    · rw [if_pos ready] at done
      obtain ⟨middle, -, later⟩ := bind_ok done
      have shorter := (ih later).1
      rw [length_cons]
      exact ⟨by omega, fun same => by omega⟩
    · rw [if_neg ready] at done
      obtain ⟨⟨middle, others⟩, later, finished⟩ := bind_ok done
      obtain ⟨rfl, rfl⟩ := Prod.mk.inj (pure_ok finished)
      obtain ⟨shorter, none⟩ := ih later
      rw [length_cons, length_cons]
      refine ⟨by omega, fun same => forall_mem_cons.mpr ⟨ready, none (by omega)⟩⟩

theorem IsStuck.addRounds (stuck : work.IsStuck) (rounds : Nat) :
    addRounds rounds work.graph work.waiting = .error .endless := by
  obtain ⟨graph, waiting⟩ := work
  obtain ⟨some, none⟩ := stuck
  cases waiting with
  | nil => exact absurd rfl some
  | cons entry waiting =>
    induction rounds with
    | zero => rfl
    | succ rounds ih =>
      rw [addRounds, addReady_of_not_ready none]
      · exact ih
      · simp

/-- Every class of the table is in the graph or waits. -/
structure Holds (table : ClassTable) (work : Worklist) : Prop where
  sound : ClassGraph.Sound table work.graph
  waiting : work.waiting ⊆ table.entries
  all : (work.graph.nodes.map (·.key) ++ work.waiting.map (·.1)).Perm
    (.plain "object" :: table.keys)

theorem holds_start (table : ClassTable) : (start table).Holds table :=
  ⟨sound_root, List.Subset.refl _, .refl _⟩

section Total

variable {table : ClassTable} (derived : ∀ entry ∈ table.entries, entry.2 ≠ [])
include derived

/-- One step does not fail and loses no class. -/
theorem Holds.step (holds : work.Holds table) :
    ∃ next, work.step = .ok next ∧ next.Holds table := by
  obtain ⟨graph, waiting⟩ := work
  obtain ⟨sound, known, all⟩ := holds
  cases waiting with
  | nil => exact ⟨_, step_of_nil graph, sound, known, all⟩
  | cons entry rest =>
    obtain ⟨head, tail⟩ := cons_subset.mp known
    by_cases ready : graph.hasBases entry.2 = true
    · obtain ⟨next, added⟩ := sound.exists_add derived entry.1 ready
      obtain ⟨soundNext, keys⟩ := sound.add head added
      refine ⟨⟨next, rest⟩, ?_, soundNext, tail, ?_⟩
      · rw [step_of_ready ready, added]
        rfl
      · simpa [keys] using all
    · refine ⟨_, step_of_not_ready ready rest, sound, ?_, ?_⟩
      · exact append_subset.mpr ⟨tail, by simpa using head⟩
      · refine (List.Perm.append_left _ ?_).trans all
        exact (perm_append_singleton entry rest).map _

theorem Holds.run (holds : work.Holds table) (steps : Nat) :
    ∃ next, Worklist.run steps work = .ok next ∧ next.Holds table := by
  induction steps generalizing work with
  | zero => exact ⟨work, rfl, holds⟩
  | succ steps ih =>
    obtain ⟨middle, first, kept⟩ := holds.step derived
    obtain ⟨next, rest, last⟩ := ih kept
    exact ⟨next, bind_eq_ok_iff.mpr ⟨middle, first, rest⟩, last⟩

/-- Rounds come to an end exactly as single steps do. -/
theorem Holds.addRounds (holds : work.Holds table) {rounds : Nat}
    (enough : work.waiting.length ≤ rounds) :
    (∃ steps graph, addRounds rounds work.graph work.waiting = .ok graph ∧
      Worklist.run steps work = .ok ⟨graph, []⟩) ∨
    ∃ steps stuck, addRounds rounds work.graph work.waiting = .error .endless ∧
      Worklist.run steps work = .ok stuck ∧ stuck.Holds table ∧ stuck.IsStuck := by
  induction rounds generalizing work with
  | zero =>
    obtain ⟨graph, waiting⟩ := work
    obtain rfl : waiting = [] := length_eq_zero_iff.mp (Nat.le_zero.mp enough)
    exact .inl ⟨0, graph, rfl, rfl⟩
  | succ rounds ih =>
    obtain ⟨graph, waiting⟩ := work
    cases waiting with
    | nil => exact .inl ⟨0, graph, rfl, rfl⟩
    | cons entry waiting =>
      obtain ⟨next, pass, kept⟩ := holds.run derived (entry :: waiting).length
      have ready := addReady_of_run pass
      obtain ⟨shorter, none⟩ := length_of_addReady ready
      by_cases same : next.waiting.length = (entry :: waiting).length
      · have stuck : IsStuck ⟨graph, entry :: waiting⟩ := ⟨by simp, none same⟩
        exact .inr ⟨0, _, stuck.addRounds _, rfl, holds, stuck⟩
      · have later : addRounds (rounds + 1) graph (entry :: waiting) =
            addRounds rounds next.graph next.waiting := by
          rw [addRounds, ready]
          · rfl
          · simp
        have fewer : next.waiting.length ≤ rounds := by
          simp only [length_cons] at enough shorter same
          omega
        have reaches {steps : Nat} {last : Worklist} (rest : Worklist.run steps next = .ok last) :
            Worklist.run ((entry :: waiting).length + steps) ⟨graph, entry :: waiting⟩ =
              .ok last := by
          rw [run_add]
          exact bind_eq_ok_iff.mpr ⟨next, pass, rest⟩
        rw [later]
        rcases ih kept fewer with ⟨steps, last, done, ends⟩ | ⟨steps, stuck, done, ends, is⟩
        · exact .inl ⟨_, last, done, reaches ends⟩
        · exact .inr ⟨_, stuck, done, reaches ends, is⟩

theorem ofTable_cases :
    (∃ steps graph, ofTable table = .ok graph ∧
      Worklist.run steps (start table) = .ok ⟨graph, []⟩) ∨
    ∃ steps stuck, ofTable table = .error .endless ∧
      Worklist.run steps (start table) = .ok stuck ∧ stuck.Holds table ∧ stuck.IsStuck :=
  (holds_start table).addRounds derived (Nat.le_refl _)

theorem ofTable_eq_ok_iff : ofTable table = .ok graph ↔
    ∃ steps, Worklist.run steps (start table) = .ok ⟨graph, []⟩ := by
  rcases ofTable_cases derived with ⟨steps, last, done, ends⟩ | ⟨steps, stuck, done, waits, -, is⟩
  · rw [done]
    constructor
    · rintro ⟨⟩
      exact ⟨steps, ends⟩
    · rintro ⟨others, reached⟩
      rw [eq_of_run ends reached]
  · rw [done]
    refine iff_of_false (by simp) ?_
    rintro ⟨others, reached⟩
    exact not_isStuck_of_run reached waits is

theorem ofTable_eq_error_iff : ofTable table = .error .endless ↔
    ∀ steps, ∃ work, Worklist.run steps (start table) = .ok work ∧ work.waiting ≠ [] := by
  constructor
  · intro failed steps
    obtain ⟨work, reached, -⟩ := (holds_start table).run derived steps
    obtain ⟨graph, waiting⟩ := work
    refine ⟨⟨graph, waiting⟩, reached, ?_⟩
    rintro rfl
    rw [(ofTable_eq_ok_iff derived).mpr ⟨steps, reached⟩] at failed
    simp at failed
  · intro waits
    rcases ofTable_cases derived with ⟨steps, last, -, ends⟩ | ⟨-, -, done, -⟩
    · obtain ⟨work, reached, some⟩ := waits steps
      obtain rfl := Except.ok.inj (ends.symm.trans reached)
      exact absurd rfl some
    · exact done

omit derived in
/-- The classes of a graph have a way to the root. -/
theorem grounded_of_sound (sound : ClassGraph.Sound table graph) {index : Nat}
    (inside : index < graph.size) : table.Grounded (graph.key index) := by
  induction index using Nat.strongRecOn with
  | ind index ih =>
    rcases Nat.eq_zero_or_pos index with rfl | positive
    · rw [sound.root.1]
      exact .root
    · obtain ⟨bases, placed⟩ := sound.placed index positive inside
      refine .derived placed.entry fun base member => ?_
      obtain ⟨parent, -, earlier, named, -⟩ := forall₂_exists_right placed.parents member
      exact named ▸ ih parent earlier (Nat.lt_trans earlier inside)

omit derived in
/-- A stuck list waits for classes without a way to the root. -/
theorem IsStuck.exists_not_grounded (distinct : (.plain "object" :: table.keys).Nodup)
    (holds : work.Holds table) (stuck : work.IsStuck) :
    ∃ key ∈ table.keys, ¬ table.Grounded key := by
  obtain ⟨notRoot, once⟩ := nodup_cons.mp distinct
  have placed {key : ClassKey} (grounded : table.Grounded key) :
      key ∈ work.graph.nodes.map (·.key) := by
    induction grounded with
    | root =>
      rcases mem_append.mp (holds.all.mem_iff.mpr mem_cons_self) with here | waits
      · exact here
      · exact absurd (map_subset _ holds.waiting waits) notRoot
    | @derived key bases entry each ih =>
      have known : key ∈ .plain "object" :: table.keys := mem_cons_of_mem _ (mem_map_of_mem entry)
      rcases mem_append.mp (holds.all.mem_iff.mpr known) with here | waits
      · exact here
      · obtain ⟨⟨same, others⟩, member, rfl⟩ := mem_map.mp waits
        obtain rfl := Table.eq_of_mem_entries once entry (holds.waiting member)
        refine absurd (all_eq_true.mpr fun base inside => ?_) (stuck.2 _ member)
        simpa [ClassGraph.contains] using ih base inside
  obtain ⟨entry, member⟩ := exists_mem_of_ne_nil _ stuck.1
  refine ⟨entry.1, mem_map_of_mem (holds.waiting member), fun grounded => ?_⟩
  have apart := disjoint_of_nodup_append (holds.all.nodup_iff.mpr distinct)
  exact apart (placed grounded) (mem_map_of_mem member)

theorem ends_iff_grounded (distinct : (.plain "object" :: table.keys).Nodup) :
    Ends table ↔ ∀ key ∈ table.keys, table.Grounded key := by
  constructor
  · rintro ⟨steps, graph, reached⟩ key member
    obtain ⟨work, same, holds⟩ := (holds_start table).run derived steps
    obtain rfl := Except.ok.inj (reached.symm.trans same)
    have inGraph : key ∈ graph.nodes.map (·.key) := by
      simpa using holds.all.mem_iff.mpr (mem_cons_of_mem _ member)
    obtain ⟨index, inside, rfl⟩ := mem_keys_iff.mp inGraph
    exact grounded_of_sound holds.sound inside
  · intro grounded
    rcases ofTable_cases derived with ⟨steps, graph, -, ends⟩ | ⟨-, stuck, -, -, holds, is⟩
    · exact ⟨steps, graph, ends⟩
    · obtain ⟨key, member, not⟩ := is.exists_not_grounded distinct holds
      exact absurd (grounded key member) not

end Total

end Worklist

end TypeInference
