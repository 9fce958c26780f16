/- The graph of a class table orders its classes as the table does. -/

import Mathlib.Data.List.Perm.Basic
import Mathlib.Logic.Relation
import TypeInference.Hierarchy.ClassGraph
import TypeInference.Proofs.Table
import TypeInference.Proofs.Traversal

namespace TypeInference

open List

variable {table : ClassTable} {key : ClassKey} {base : ClassKey}

namespace ClassTable

/-- One class names the other as a base. -/
def IsBase (table : ClassTable) (key base : ClassKey) : Prop :=
  ∃ bases name, (key, bases) ∈ table.entries ∧ name ∈ bases ∧ base = .plain name

/-- The second class is the first one or is reached from it over bases. -/
def HasAncestor (table : ClassTable) : ClassKey → ClassKey → Prop :=
  Relation.ReflTransGen table.IsBase

/-- The second class is reached over one base or more. -/
def HasProperAncestor (table : ClassTable) : ClassKey → ClassKey → Prop :=
  Relation.TransGen table.IsBase

theorem hasAncestor_iff :
    table.HasAncestor key base ↔ base = key ∨ table.HasProperAncestor key base :=
  Relation.reflTransGen_iff_eq_or_transGen

/-- Only a plain class has others below it. -/
theorem HasProperAncestor.eq_plain (above : table.HasProperAncestor key base) :
    ∃ name, base = .plain name := by
  rcases Relation.TransGen.tail'_iff.mp above with ⟨_, -, _, name, -, -, is⟩
  exact ⟨name, is⟩

end ClassTable

namespace ClassGraph

section Walk

variable {next : Nat → List Nat} {index other : Nat}

/-- If each step lowers a rank, a walk that goes deeper than it misses nothing. -/
theorem mem_walk_iff (rank : Nat → Nat) {depth : Nat}
    (falls : ∀ index, ∀ other ∈ next index, rank other < rank index)
    (enough : rank index < depth) : other ∈ walk next depth index ↔
      Relation.ReflTransGen (fun index other => other ∈ next index) index other := by
  induction depth generalizing index with
  | zero => exact absurd enough (Nat.not_lt_zero _)
  | succ depth ih =>
    rw [walk, mem_cons, mem_flatMap, Relation.ReflTransGen.cases_head_iff]
    refine or_congr eq_comm (exists_congr fun step => and_congr_right fun member => ih ?_)
    exact Nat.lt_of_lt_of_le (falls index step member) (Nat.le_of_lt_succ enough)

/-- The search stops at the first class of the walk that has the key. -/
theorem findFrom_eq (graph : ClassGraph) (key : ClassKey) (depth index : Nat) :
    graph.findFrom key depth index =
      (walk graph.children depth index).find? fun other => graph.key other == key := by
  induction depth generalizing index with
  | zero => rfl
  | succ depth ih =>
    rw [findFrom, walk, find?_cons, find?_flatMap, funext ih]
    cases graph.key index == key <;> rfl

end Walk

section Place

variable {nodes : List ClassNode} {graph : ClassGraph} {parents : List Nat}

/-- A class becomes a child of another as often as it names it. -/
theorem getElem?_foldl_attach (child index : Nat) :
    (parents.foldl (attach child) nodes)[index]? = nodes[index]?.map fun node =>
      { node with children := node.children ++ replicate (parents.count index) child } := by
  induction parents generalizing nodes with
  | nil => simp
  | cons parent parents ih =>
    rw [foldl_cons, ih, attach, getElem?_modify]
    cases nodes[index]? with
    | none => rfl
    | some node =>
      by_cases same : parent = index
      · simp [same, replicate_succ]
      · simp [same]

theorem length_foldl_attach (child : Nat) :
    (parents.foldl (attach child) nodes).length = nodes.length := by
  induction parents generalizing nodes with
  | nil => rfl
  | cons parent parents ih => rw [foldl_cons, ih, attach, length_modify]

theorem size_place : (graph.place key parents).size = graph.size + 1 := by
  rw [size, place, length_append, length_foldl_attach]
  rfl

/-- The classes before the new one only get children. -/
theorem node?_place (index : Nat) : (graph.place key parents).node? index =
    if index = graph.size then some { key := key, parents := parents }
    else (graph.node? index).map fun node =>
      { node with children := node.children ++ replicate (parents.count index) graph.size } := by
  rw [node?, place, getElem?_append, length_foldl_attach, getElem?_foldl_attach]
  rcases Nat.lt_trichotomy index graph.size with old | rfl | outside
  · rw [if_pos (show index < graph.nodes.length from old), if_neg (Nat.ne_of_lt old), node?]
  · simp [size]
  · have behind : ¬ index < graph.nodes.length := Nat.not_lt_of_gt outside
    rw [if_neg behind, if_neg (Nat.ne_of_gt outside), node?,
      getElem?_eq_none (Nat.le_of_not_lt behind)]
    exact getElem?_eq_none (Nat.le_sub_of_add_le' outside)

theorem keys_place :
    (graph.place key parents).nodes.map (·.key) = graph.nodes.map (·.key) ++ [key] := by
  rw [place, map_append]
  congr 1
  refine ext_getElem? fun index => ?_
  rw [getElem?_map, getElem?_foldl_attach, Option.map_map, getElem?_map]
  rfl

theorem key_place (index : Nat) : (graph.place key parents).key index =
    if index = graph.size then key else graph.key index := by
  rw [ClassGraph.key, node?_place]
  split
  · rfl
  · rw [Option.map_map]
    rfl

theorem parents_place (index : Nat) : (graph.place key parents).parents index =
    if index = graph.size then parents else graph.parents index := by
  rw [ClassGraph.parents, node?_place]
  split
  · rfl
  · rw [Option.map_map]
    rfl

theorem node?_eq_none {index : Nat} (outside : graph.size ≤ index) : graph.node? index = none :=
  getElem?_eq_none outside

theorem children_place (earlier : ∀ parent ∈ parents, parent < graph.size) (index : Nat) :
    (graph.place key parents).children index =
      graph.children index ++ replicate (parents.count index) graph.size := by
  have none (outside : graph.size ≤ index) : graph.children index = [] ∧
      parents.count index = 0 := by
    refine ⟨by rw [children, node?_eq_none outside]; rfl, count_eq_zero.mpr fun member => ?_⟩
    exact Nat.not_lt_of_le outside (earlier index member)
  rw [children, node?_place]
  by_cases last : index = graph.size
  · rw [if_pos last, (none (Nat.le_of_eq last.symm)).1, (none (Nat.le_of_eq last.symm)).2]
    rfl
  · rw [if_neg last]
    cases here : graph.node? index with
    | none =>
      rw [(none (getElem?_eq_none_iff.mp here)).1, (none (getElem?_eq_none_iff.mp here)).2]
      rfl
    | some node =>
      rw [children, here]
      rfl

end Place

variable {graph next : ClassGraph} {index other : Nat} {bases : List String}

theorem mem_keys_iff :
    key ∈ graph.nodes.map (·.key) ↔ ∃ index < graph.size, graph.key index = key := by
  simp only [mem_iff_getElem?, getElem?_map, ClassGraph.key, node?, Option.map_eq_some_iff]
  constructor
  · rintro ⟨index, node, here, rfl⟩
    exact ⟨index, (List.getElem?_eq_some_iff.mp here).1, by rw [here]; rfl⟩
  · rintro ⟨index, inside, rfl⟩
    exact ⟨index, _, getElem?_eq_getElem inside, by rw [getElem?_eq_getElem inside]; rfl⟩

/-- The root and each class that names a base are connected to the others. -/
def IsAttached (graph : ClassGraph) (index : Nat) : Prop := index = 0 ∨ graph.parents index ≠ []

/-- What a graph knows of a class besides the root. -/
structure Placed (table : ClassTable) (graph : ClassGraph) (index : Nat) (bases : List String) :
    Prop where
  entry : (graph.key index, bases) ∈ table.entries
  /-- Each base stands at an earlier place and is attached. -/
  parents : Forall₂ (fun base parent => parent < index ∧ graph.key parent = .plain base ∧
    graph.IsAttached parent) bases (graph.parents index)

/-- A root and classes of the table, each behind its bases and listed by them as a child. -/
structure Sound (table : ClassTable) (graph : ClassGraph) : Prop where
  positive : 0 < graph.size
  root : graph.key 0 = .plain "object" ∧ graph.parents 0 = []
  placed : ∀ index, 0 < index → index < graph.size → ∃ bases, Placed table graph index bases
  children : ∀ upper lower, (graph.children upper).count lower = (graph.parents lower).count upper

/-- Later classes change nothing for a class. -/
theorem Placed.place (placed : Placed table graph index bases) (inside : index < graph.size)
    (parents : List Nat) : Placed table (graph.place key parents) index bases := by
  have old {other : Nat} (earlier : other ≤ index) :
      (graph.place key parents).key other = graph.key other ∧
      (graph.place key parents).parents other = graph.parents other := by
    have different := Nat.ne_of_lt (Nat.lt_of_le_of_lt earlier inside)
    rw [key_place, parents_place, if_neg different, if_neg different]
    exact ⟨rfl, rfl⟩
  obtain ⟨isKey, areParents⟩ := old (Nat.le_refl index)
  refine ⟨isKey ▸ placed.entry, areParents ▸ placed.parents.imp ?_⟩
  rintro base parent ⟨earlier, named, attached⟩
  obtain ⟨isParent, areAbove⟩ := old (Nat.le_of_lt earlier)
  exact ⟨earlier, isParent.trans named, attached.imp_right fun some => areAbove ▸ some⟩

namespace Sound

variable (sound : Sound table graph)
include sound

theorem parent_lt (member : other ∈ graph.parents index) : other < index ∧ index < graph.size := by
  have inside : index < graph.size := by
    refine Nat.lt_of_not_le fun outside => ?_
    rw [parents, node?_eq_none outside] at member
    exact not_mem_nil member
  rcases Nat.eq_zero_or_pos index with rfl | positive
  · rw [sound.root.2] at member
    exact absurd member not_mem_nil
  · obtain ⟨bases, placed⟩ := sound.placed index positive inside
    obtain ⟨_, -, earlier, -⟩ := forall₂_exists_left placed.parents member
    exact ⟨earlier, inside⟩

theorem mem_children_iff : other ∈ graph.children index ↔ index ∈ graph.parents other := by
  rw [← count_pos_iff, sound.children, count_pos_iff]

theorem mem_above_iff_reaches (inside : index < graph.size) : other ∈ graph.above index ↔
    Relation.ReflTransGen (fun lower upper => upper ∈ graph.parents lower) index other := by
  rw [above, mem_eraseDups]
  exact mem_walk_iff id (fun _ _ member => (sound.parent_lt member).1) inside

/-- Children stand behind their parents, so the rank of a class is its distance from the end. -/
theorem mem_below_iff_reaches : other ∈ graph.below index ↔
    Relation.ReflTransGen (fun lower upper => upper ∈ graph.parents lower) other index := by
  rw [below, mem_eraseDups, ← Relation.reflTransGen_swap,
    mem_walk_iff fun index => graph.size - 1 - index]
  · simp only [sound.mem_children_iff]
  · intro index other member
    have bounds := sound.parent_lt (sound.mem_children_iff.mp member)
    omega
  · have positive := sound.positive
    omega

theorem mem_below_iff (inside : other < graph.size) :
    other ∈ graph.below index ↔ index ∈ graph.above other := by
  rw [sound.mem_below_iff_reaches, sound.mem_above_iff_reaches inside]

/-- Above a class are itself and what is above its parents. -/
theorem mem_above_step (inside : index < graph.size) :
    other ∈ graph.above index ↔ other = index ∨
      ∃ parent ∈ graph.parents index, parent < index ∧ other ∈ graph.above parent := by
  rw [sound.mem_above_iff_reaches inside, Relation.ReflTransGen.cases_head_iff]
  refine or_congr eq_comm (exists_congr fun parent => and_congr_right fun member => ?_)
  have earlier := (sound.parent_lt member).1
  rw [and_iff_right earlier, sound.mem_above_iff_reaches (Nat.lt_trans earlier inside)]

theorem lt_size_of_below (inside : index < graph.size) (below : other ∈ graph.below index) :
    other < graph.size := by
  rcases Relation.ReflTransGen.cases_head (sound.mem_below_iff_reaches.mp below) with
    rfl | ⟨parent, member, -⟩
  · exact inside
  · exact (sound.parent_lt member).2

/-- The classes connected to the root are the attached ones. -/
theorem mem_reachable_iff :
    index ∈ graph.reachable ↔ index < graph.size ∧ graph.IsAttached index := by
  constructor
  · intro reachable
    refine ⟨sound.lt_size_of_below sound.positive reachable, ?_⟩
    rcases Relation.ReflTransGen.cases_head (sound.mem_below_iff_reaches.mp reachable) with
      root | ⟨parent, member, -⟩
    · exact .inl root
    · exact .inr (ne_nil_of_mem member)
  · rintro ⟨inside, attached⟩
    refine sound.mem_below_iff_reaches.mpr ?_
    -- Parents stand at earlier places, so the induction is on the place.
    induction index using Nat.strongRecOn with
    | ind index ih =>
      rcases Nat.eq_zero_or_pos index with rfl | positive
      · exact .refl
      · obtain ⟨bases, placed⟩ := sound.placed index positive inside
        obtain ⟨parent, member⟩ :=
          exists_mem_of_ne_nil _ (attached.resolve_left (Nat.ne_of_gt positive))
        obtain ⟨_, -, earlier, -, known⟩ := forall₂_exists_left placed.parents member
        exact .head member (ih parent earlier (Nat.lt_trans earlier inside) known)

/-- What is found is an attached class of the key. -/
theorem of_find? (found : graph.find? key = some index) :
    index < graph.size ∧ graph.IsAttached index ∧ graph.key index = key := by
  rw [find?, findFrom_eq] at found
  have reachable := sound.mem_reachable_iff.mp (mem_eraseDups.mpr (mem_of_find?_eq_some found))
  exact ⟨reachable.1, reachable.2, by simpa using find?_some found⟩

theorem exists_find? (inside : index < graph.size) (attached : graph.IsAttached index) :
    ∃ other, graph.find? (graph.key index) = some other := by
  rw [← Option.isSome_iff_exists, find?, findFrom_eq, find?_isSome]
  exact ⟨index, mem_eraseDups.mp (sound.mem_reachable_iff.mpr ⟨inside, attached⟩),
    beq_self_eq_true _⟩

/-- A class whose bases are found is placed behind them. -/
theorem place {parents : List Nat} (entry : (key, bases) ∈ table.entries)
    (each : Forall₂ (fun base parent => graph.find? (.plain base) = some parent) bases parents) :
    Sound table (graph.place key parents) := by
  have earlier : ∀ parent ∈ parents, parent < graph.size := by
    intro parent member
    obtain ⟨base, -, found⟩ := forall₂_exists_left each member
    exact (sound.of_find? found).1
  have last : Placed table (graph.place key parents) graph.size bases := by
    refine ⟨by rwa [key_place, if_pos rfl], ?_⟩
    rw [parents_place, if_pos rfl]
    refine each.imp fun base parent found => ?_
    obtain ⟨before, attached, named⟩ := sound.of_find? found
    rw [IsAttached, key_place, parents_place, if_neg (Nat.ne_of_lt before),
      if_neg (Nat.ne_of_lt before)]
    exact ⟨before, named, attached⟩
  have notRoot := Nat.ne_of_lt sound.positive
  refine ⟨by rw [size_place]; exact Nat.succ_pos _, ?_, ?_, ?_⟩
  · rw [key_place, parents_place, if_neg notRoot, if_neg notRoot]
    exact sound.root
  · intro index positive inside
    rw [size_place] at inside
    rcases Nat.lt_succ_iff_lt_or_eq.mp inside with old | rfl
    · obtain ⟨bases, placed⟩ := sound.placed index positive old
      exact ⟨bases, placed.place old parents⟩
    · exact ⟨bases, last⟩
  · intro upper lower
    rw [children_place earlier, count_append, count_replicate, sound.children, parents_place]
    by_cases isLast : lower = graph.size
    · rw [isLast, if_pos rfl, ClassGraph.parents, node?_eq_none (Nat.le_refl _)]
      simp
    · simp [isLast, Ne.symm isLast]

end Sound

theorem sound_root : Sound table {} where
  positive := Nat.one_pos
  root := ⟨rfl, rfl⟩
  placed index positive inside := absurd inside (Nat.not_lt_of_le positive)
  children upper lower := by
    cases upper <;> cases lower <;> rfl

/-- A class is added when all its bases are found. -/
theorem add_eq_ok_iff :
    graph.add key bases = .ok next ↔ ∃ parents,
      Forall₂ (fun base parent => graph.find? (.plain base) = some parent) bases parents ∧
      next = graph.place key parents := by
  unfold add
  simp only [bind_eq_ok_iff, pure_eq_ok_iff, mapM_eq_ok_iff]
  refine exists_congr fun parents => and_congr ?_ eq_comm
  refine ⟨fun each => each.imp fun base parent is => ?_,
    fun each => each.imp fun base parent is => ?_⟩
  · grind
  · rw [is]

theorem Sound.add (sound : Sound table graph) (entry : (key, bases) ∈ table.entries)
    (added : graph.add key bases = .ok next) :
    Sound table next ∧ next.nodes.map (·.key) = graph.nodes.map (·.key) ++ [key] := by
  obtain ⟨parents, each, rfl⟩ := add_eq_ok_iff.mp added
  exact ⟨sound.place entry each, keys_place⟩

/-- One pass keeps all classes, in the graph or waiting. -/
theorem Sound.addReady {waiting : List (ClassKey × List String)} :
    ∀ {graph next : ClassGraph} {rest : List (ClassKey × List String)}, Sound table graph →
      waiting ⊆ table.entries → graph.addReady waiting = .ok (next, rest) →
      Sound table next ∧ rest ⊆ table.entries ∧
        (next.nodes.map (·.key) ++ rest.map (·.1)).Perm
          (graph.nodes.map (·.key) ++ waiting.map (·.1)) := by
  induction waiting with
  | nil =>
    intro graph next rest sound known done
    obtain ⟨rfl, rfl⟩ := Prod.mk.inj (Except.ok.inj done)
    exact ⟨sound, known, .refl _⟩
  | cons entry waiting ih =>
    intro graph next rest sound known done
    obtain ⟨head, tail⟩ := cons_subset.mp known
    unfold ClassGraph.addReady at done
    by_cases ready : graph.hasBases entry.2 = true
    · rw [if_pos ready] at done
      obtain ⟨middle, added, later⟩ := bind_ok done
      obtain ⟨soundMiddle, keys⟩ := sound.add head added
      obtain ⟨soundNext, knownRest, same⟩ := ih soundMiddle tail later
      refine ⟨soundNext, knownRest, same.trans ?_⟩
      simp [keys]
    · rw [if_neg ready] at done
      obtain ⟨⟨middle, others⟩, later, finished⟩ := bind_ok done
      obtain ⟨rfl, rfl⟩ := Prod.mk.inj (pure_ok finished)
      obtain ⟨soundNext, knownRest, same⟩ := ih sound tail later
      refine ⟨soundNext, cons_subset.mpr ⟨head, knownRest⟩, ?_⟩
      exact perm_middle.trans ((same.cons _).trans perm_middle.symm)

/-- The rounds end with all classes in the graph. -/
theorem Sound.addRounds {rounds : Nat} :
    ∀ {graph next : ClassGraph} {waiting : List (ClassKey × List String)}, Sound table graph →
      waiting ⊆ table.entries → addRounds rounds graph waiting = .ok next →
      Sound table next ∧
        (next.nodes.map (·.key)).Perm (graph.nodes.map (·.key) ++ waiting.map (·.1)) := by
  induction rounds with
  | zero =>
    intro graph next waiting sound known done
    cases waiting with
    | nil =>
      obtain rfl := Except.ok.inj done
      exact ⟨sound, by simp⟩
    | cons entry waiting => simp [ClassGraph.addRounds] at done
  | succ rounds ih =>
    intro graph next waiting sound known done
    cases waiting with
    | nil =>
      obtain rfl := Except.ok.inj done
      exact ⟨sound, by simp⟩
    | cons entry waiting =>
      obtain ⟨⟨middle, rest⟩, pass, later⟩ := bind_ok done
      obtain ⟨soundMiddle, knownRest, same⟩ := sound.addReady known pass
      obtain ⟨soundNext, all⟩ := ih soundMiddle knownRest later
      exact ⟨soundNext, all.trans same⟩

/-- The graph of a table is sound and holds its classes. -/
theorem ofTable_sound (built : ofTable table = .ok graph) :
    Sound table graph ∧ (graph.nodes.map (·.key)).Perm (.plain "object" :: table.keys) := by
  have all := sound_root.addRounds (List.Subset.refl table.entries) built
  exact ⟨all.1, by simpa [Table.keys] using all.2⟩

section Order

variable {table : ClassTable} {graph : ClassGraph} (built : ofTable table = .ok graph)
  (distinct : (.plain "object" :: table.keys).Nodup)
include built distinct

theorem key_injective {first second : Nat} (left : first < graph.size) (right : second < graph.size)
    (same : graph.key first = graph.key second) : first = second := by
  have nodup := ((ofTable_sound built).2.nodup_iff).mpr distinct
  have keyAt {index : Nat} (inside : index < graph.size) :
      (graph.nodes.map (·.key))[index]? = some (graph.key index) := by
    rw [getElem?_map, key, node?, getElem?_eq_getElem inside]
    rfl
  have bound : first < (graph.nodes.map (·.key)).length := by
    rwa [length_map]
  exact (getElem?_inj bound nodup).mp (by rw [keyAt left, keyAt right, same])

/-- The bases of a class stand at its parents. -/
theorem isBase_iff (inside : index < graph.size) :
    table.IsBase (graph.key index) base ↔
      ∃ parent ∈ graph.parents index, parent < index ∧ graph.key parent = base := by
  have sound := (ofTable_sound built).1
  rcases Nat.eq_zero_or_pos index with rfl | positive
  · -- The root is no class of the table, so nothing is a base of it.
    rw [sound.root.1, sound.root.2]
    constructor
    · rintro ⟨bases, name, entry, -, -⟩
      exact absurd (mem_map_of_mem entry) (nodup_cons.mp distinct).1
    · rintro ⟨parent, member, -⟩
      simp at member
  · obtain ⟨bases, placed⟩ := sound.placed index positive inside
    constructor
    · rintro ⟨others, name, entry, member, rfl⟩
      have same := Table.eq_of_mem_entries (nodup_cons.mp distinct).2 entry placed.entry
      obtain ⟨parent, known, earlier, named, -⟩ :=
        forall₂_exists_right placed.parents (same ▸ member)
      exact ⟨parent, known, earlier, named⟩
    · rintro ⟨parent, known, earlier, rfl⟩
      obtain ⟨name, member, -, named, -⟩ := forall₂_exists_left placed.parents known
      exact ⟨bases, name, placed.entry, member, named⟩

/-- The classes above a class are its ancestors in the table. -/
theorem mem_above_iff (inside : index < graph.size) :
    other ∈ graph.above index ↔
      other < graph.size ∧ table.HasAncestor (graph.key index) (graph.key other) := by
  -- Parents stand at earlier places, so the induction is on the place.
  induction index using Nat.strongRecOn with
  | ind index ih =>
    rw [(ofTable_sound built).1.mem_above_step inside]
    constructor
    · rintro (rfl | ⟨parent, member, earlier, above⟩)
      · exact ⟨inside, .refl⟩
      · obtain ⟨within, ancestor⟩ := (ih parent earlier (Nat.lt_trans earlier inside)).mp above
        exact ⟨within, .head ((isBase_iff built distinct inside).mpr
          ⟨parent, member, earlier, rfl⟩) ancestor⟩
    · rintro ⟨within, ancestor⟩
      rcases Relation.ReflTransGen.cases_head ancestor with same | ⟨base, isBase, rest⟩
      · exact .inl (key_injective built distinct within inside same.symm)
      · obtain ⟨parent, member, earlier, rfl⟩ := (isBase_iff built distinct inside).mp isBase
        exact .inr ⟨parent, member, earlier,
          (ih parent earlier (Nat.lt_trans earlier inside)).mpr ⟨within, rest⟩⟩

end Order

end ClassGraph

end TypeInference
