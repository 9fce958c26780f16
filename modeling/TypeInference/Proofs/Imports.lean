/- The nodes of a program are complete: with an import they have those of the module. -/

import TypeInference.Proofs.ConstraintFaults
import TypeInference.Proofs.NodeChanges

namespace TypeInference

open List Library

variable {name : String} {after : Sources} {nodes : List Node} {files : Files}

namespace Library

theorem keys_libraries : standard.libraries.keys = libraryDeclarations.map (·.1) := by
  decide +kernel

theorem isLibrary_eq_isSome (name : String) :
    isLibrary name = (standard.libraries.get? name).isSome := by
  rw [Bool.eq_iff_iff, Table.isSome_get?, Table.contains_iff, keys_libraries]
  simp [isLibrary]

/-- The name of a library has no parts. -/
theorem slash_not_mem (isLibrary : isLibrary name) : '/' ∉ name.toList := by
  obtain ⟨entry, member, same⟩ := any_eq_true.mp isLibrary
  obtain rfl := beq_iff_eq.mp same
  have none : libraryDeclarations.all (fun entry => !entry.1.toList.contains '/') = true := by
    decide +kernel
  simpa using all_eq_true.mp none entry member

theorem isLibrary_of_moduleName (isLibrary : isLibrary (Files.moduleName name)) :
    Library.isLibrary name := by
  have noSlash := slash_not_mem isLibrary
  rw [Files.moduleName, String.toList_ofList] at noSlash
  have same : name.toList.map (fun char => if char == '.' then '/' else char) = name.toList := by
    refine map_congr_left (fun char member => ?_) |>.trans (map_id _)
    by_cases dot : (char == '.') = true
    · refine absurd (mem_map.mpr ⟨char, member, ?_⟩) noSlash
      rw [if_pos dot]
    · rw [if_neg dot]
      rfl
  rwa [Files.moduleName, same, String.ofList_toList] at isLibrary

end Library

namespace Sources

variable {module : Module} {before : Sources} (sources : Sources)

/-- The name under which a module is read. -/
def keyOf (name : String) : String :=
  if isLibrary name then name else Files.moduleName name

/-- The module that an import finds, a read one or a library. -/
def find? (name : String) : Option Module :=
  (sources.modules.get? (keyOf name)).or (standard.libraries.get? name)

/-- The program and the files that have been read. -/
def roots (main : Module) : List Node :=
  .module main :: sources.modules.values.map .module

/-- Statements of the program and its files have own labels. -/
def IsLabelled (main : Module) : Prop :=
  Node.Labelled Library.nextLabel sources.nextLabel (sources.roots main)

/-- What reading keeps. -/
structure Extends (before after : Sources) : Prop where
  modules : ∀ {key module}, before.modules.get? key = some module →
    after.modules.get? key = some module
  libraries : ∀ {key}, isLibrary key = true →
    after.modules.get? key = before.modules.get? key
  followed : before.followed ⊆ after.followed
  labelled : ∀ {main}, before.IsLabelled main → after.IsLabelled main

namespace Extends

variable {first second third : Sources}

theorem refl (sources : Sources) : Extends sources sources :=
  ⟨id, fun _ => rfl, List.Subset.refl _, id⟩

theorem trans (left : Extends first second) (right : Extends second third) :
    Extends first third where
  modules known := right.modules (left.modules known)
  libraries isLibrary := (right.libraries isLibrary).trans (left.libraries isLibrary)
  followed := List.Subset.trans left.followed right.followed
  labelled before := right.labelled (left.labelled before)

/-- What an import has found, it finds later. -/
theorem find? (extends_ : Extends first second) (found : first.find? name = some module) :
    second.find? name = some module := by
  unfold Sources.find? at found ⊢
  rcases Option.or_eq_some_iff.mp found with read | ⟨unread, library⟩
  · rw [extends_.modules read, Option.some_or]
  · have isLibrary : isLibrary name = true := by
      rw [isLibrary_eq_isSome, library, Option.isSome_some]
    have same := extends_.libraries isLibrary
    rw [keyOf, if_pos isLibrary] at unread ⊢
    rw [same, unread, Option.none_or, library]

end Extends

theorem readFile_eq_ok (new : before.modules.get? name = none) (notLibrary : ¬ isLibrary name)
    (done : (readFile files name).run before = .ok (module, after)) :
    Extends before after ∧ after.modules.get? name = some module ∧
      after.followed = before.followed := by
  unfold readFile at done
  dsimp only at done
  split at done
  · cases done
  · next body _ =>
    obtain ⟨rfl, rfl⟩ := Prod.mk.inj (Except.ok.inj done)
    have labelled := Module.labelled_number (some (.file name)) body before.nextLabel
    refine ⟨⟨fun {key _} known => ?_, fun {key} isLibrary => ?_, List.Subset.refl _,
      fun isLabelled => (isLabelled.append labelled).of_stmts fun {stmt} member => ?_⟩,
      Table.get?_insert_self .., rfl⟩
    · have different : key ≠ name := by
        rintro rfl
        cases new.symm.trans known
      exact (Table.get?_insert_of_ne _ _ different).trans known
    · have different : key ≠ name := by
        rintro rfl
        exact notLibrary isLibrary
      exact Table.get?_insert_of_ne _ _ different
    · obtain ⟨root, isRoot, below⟩ := Node.mem_walkFrom_iff.mp member
      refine Node.mem_walkFrom_iff.mpr ⟨root, mem_append.mpr ?_, below⟩
      rcases mem_cons.mp isRoot with rfl | read
      · exact .inl mem_cons_self
      · obtain ⟨module, isValue, rfl⟩ := mem_map.mp read
        obtain ⟨entry, inside, rfl⟩ := mem_map.mp isValue
        rcases Table.mem_entries_insert inside with rfl | old
        · exact .inr mem_cons_self
        · exact .inl (mem_cons_of_mem _ (mem_map_of_mem (mem_map_of_mem old)))

/-- The module that is loaded is found from then on. -/
theorem load_eq_ok (done : (load files name).run before = .ok (module, after)) :
    Extends before after ∧ after.find? name = some module ∧
      after.followed = before.followed := by
  unfold load at done
  rw [StateT.run_bind, StateT.run_get, pure_bind] at done
  split at done
  · next known =>
    obtain ⟨rfl, rfl⟩ := Prod.mk.inj (Except.ok.inj done)
    exact ⟨.refl _, by rw [find?, keyOf, known, Option.some_or], rfl⟩
  · next unread =>
    split at done
    · next library =>
      obtain ⟨rfl, rfl⟩ := Prod.mk.inj (Except.ok.inj done)
      exact ⟨⟨id, fun _ => rfl, List.Subset.refl _, id⟩,
        Option.or_eq_some_iff.mpr (.inr ⟨unread, library⟩), rfl⟩
    · next none =>
      have notLibrary : ¬ isLibrary name = true := by
        simp [isLibrary_eq_isSome, none]
      rw [if_neg notLibrary] at unread
      rw [if_neg notLibrary] at done
      obtain ⟨extends_, read, followed⟩ :=
        readFile_eq_ok unread (mt isLibrary_of_moduleName notLibrary) done
      refine ⟨extends_, ?_, followed⟩
      rw [find?, keyOf, if_neg notLibrary, read, Option.some_or]

/-- An import finds a module all of whose nodes are given. -/
def Covers (nodes : List Node) (name : String) : Prop :=
  ∃ module, sources.find? name = some module ∧ (Node.module module).walk ⊆ nodes

theorem Covers.mono {more : List Node} (covers : before.Covers nodes name)
    (extends_ : Extends before after) (subset : nodes ⊆ more) : after.Covers more name := by
  obtain ⟨module, found, inside⟩ := covers
  exact ⟨module, extends_.find? found, List.Subset.trans inside subset⟩

/-- Nodes collected with what they import, or what came earlier. -/
structure Collects (isPlaced : Module → Prop) (before after : Sources) (nodes : List Node) :
    Prop where
  extends_ : Extends before after
  closed : ∀ node ∈ nodes, node.walk ⊆ nodes
  plain : plainImports nodes ⊆ after.followed
  followed : ∀ entry ∈ after.followed, entry ∈ before.followed ∨ after.Covers nodes entry.2
  names : ∀ name, some name ∈ fromImports nodes → after.Covers nodes name
  placed : (∀ {name module}, after.find? name = some module → isPlaced module) →
    ∀ node ∈ nodes, ∃ module, isPlaced module ∧ node ∈ (Node.module module).walk

namespace Collects

variable {first second third : Sources} {nodes others : List Node} {isPlaced : Module → Prop}

theorem refl (sources : Sources) : Collects isPlaced sources sources [] where
  extends_ := .refl _
  closed _ none := nomatch none
  plain _ none := nomatch none
  followed _ := .inl
  names _ none := nomatch none
  placed _ _ none := nomatch none

theorem append (left : Collects isPlaced first second nodes)
    (right : Collects isPlaced second third others) :
    Collects isPlaced first third (nodes ++ others) where
  extends_ := left.extends_.trans right.extends_
  closed node member := by
    rcases mem_append.mp member with here | there
    · exact List.Subset.trans (left.closed node here) (subset_append_left _ _)
    · exact List.Subset.trans (right.closed node there) (subset_append_right _ _)
  plain entry member := by
    rw [plainImports, flatMap_append] at member
    rcases mem_append.mp member with here | there
    · exact right.extends_.followed (left.plain here)
    · exact right.plain there
  followed entry member := by
    rcases right.followed entry member with old | new
    · exact (left.followed entry old).imp_right
        fun covers => covers.mono right.extends_ (subset_append_left _ _)
    · exact .inr (new.mono (.refl _) (subset_append_right _ _))
  names name member := by
    rw [fromImports, filterMap_append] at member
    rcases mem_append.mp member with here | there
    · exact (left.names name here).mono right.extends_ (subset_append_left _ _)
    · exact (right.names name there).mono (.refl _) (subset_append_right _ _)
  placed found node member := by
    rcases mem_append.mp member with here | there
    · exact left.placed (fun before => found (right.extends_.find? before)) node here
    · exact right.placed found node there

/-- A module comes with its own nodes. -/
theorem cons (rest : Collects isPlaced first second others)
    (plain : plainImports (Node.module module).walk ⊆ second.followed)
    (names : ∀ name, some name ∈ fromImports (Node.module module).walk → second.Covers others name)
    (own : isPlaced module ∨ ∃ name, first.find? name = some module) :
    Collects isPlaced first second ((Node.module module).walk ++ others) where
  extends_ := rest.extends_
  closed node member := by
    rcases mem_append.mp member with here | there
    · exact List.Subset.trans (Node.walk_subset here) (subset_append_left _ _)
    · exact List.Subset.trans (rest.closed node there) (subset_append_right _ _)
  plain entry member := by
    rw [plainImports, flatMap_append] at member
    rcases mem_append.mp member with here | there
    · exact plain here
    · exact rest.plain there
  followed entry member := by
    refine (rest.followed entry member).imp_right fun covers => ?_
    exact covers.mono (.refl _) (subset_append_right _ _)
  names name member := by
    rw [fromImports, filterMap_append] at member
    rcases mem_append.mp member with here | there
    · exact (names name here).mono (.refl _) (subset_append_right _ _)
    · exact (rest.names name there).mono (.refl _) (subset_append_right _ _)
  placed found node member := by
    rcases mem_append.mp member with here | there
    · refine ⟨module, own.elim id fun ⟨_, before⟩ => ?_, here⟩
      exact found (rest.extends_.find? before)
    · exact rest.placed found node there

end Collects

theorem run_bind_ok {α β : Type} {act : Reading α} {next : α → Reading β} {result : β}
    (done : (act >>= next).run before = .ok (result, after)) :
    ∃ value middle, act.run before = .ok (value, middle) ∧
      (next value).run middle = .ok (result, after) := by
  rwa [StateT.run_bind, bind_eq_ok_iff, Prod.exists] at done

section Steps

variable {files : Files} {isPlaced : Module → Prop}

/-- A traversal collects what its steps collect. -/
theorem flatMapM_collects {α : Type} {step : α → Reading (List Node)}
    (reached : α → Sources → List Node → Prop)
    (keep : ∀ {value before after nodes more}, reached value before nodes → Extends before after →
      nodes ⊆ more → reached value after more) {values : List α}
    (each : ∀ value ∈ values, ∀ {before after nodes},
      (step value).run before = .ok (nodes, after) →
      Collects isPlaced before after nodes ∧ reached value after nodes)
    (done : (values.flatMapM step).run before = .ok (nodes, after)) :
    Collects isPlaced before after nodes ∧ ∀ value ∈ values, reached value after nodes := by
  induction values generalizing before nodes with
  | nil =>
    obtain ⟨rfl, rfl⟩ := Prod.mk.inj (Except.ok.inj done)
    exact ⟨.refl _, forall_mem_nil _⟩
  | cons value values ih =>
    rw [flatMapM_cons] at done
    obtain ⟨here, middle, first, done⟩ := run_bind_ok done
    obtain ⟨there, _, rest, done⟩ := run_bind_ok done
    obtain ⟨rfl, rfl⟩ := Prod.mk.inj (Except.ok.inj done)
    obtain ⟨collects, reaches⟩ := each value mem_cons_self first
    obtain ⟨others, reachOthers⟩ :=
      ih (fun other member => each other (mem_cons_of_mem _ member)) rest
    refine ⟨collects.append others, fun other member => ?_⟩
    rcases mem_cons.mp member with rfl | later
    · exact keep reaches others.extends_ (subset_append_left _ _)
    · exact keep (reachOthers other later) (.refl _) (subset_append_right _ _)

/-- Walks that collect the nodes of their modules. -/
def Walks (isPlaced : Module → Prop) (walk : Module → Reading (List Node)) : Prop :=
  ∀ {module before after nodes}, (isPlaced module ∨ ∃ name, before.find? name = some module) →
    (walk module).run before = .ok (nodes, after) →
    Collects isPlaced before after nodes ∧ (Node.module module).walk ⊆ nodes

variable {walk : Module → Reading (List Node)}

/-- The import of a module counts as followed then. -/
theorem collects_of_plain (walks : Walks isPlaced walk) {entry : (Nat × Nat) × String}
    (done : (do
      if (← get).followed.contains entry then pure []
      else
        let imported ← load files entry.2
        modify fun sources => { sources with followed := entry :: sources.followed }
        walk imported : Reading (List Node)).run before = .ok (nodes, after)) :
    Collects isPlaced before after nodes ∧ entry ∈ after.followed := by
  obtain ⟨sources, _, got, done⟩ := run_bind_ok done
  obtain ⟨rfl, rfl⟩ := Prod.mk.inj (Except.ok.inj got)
  split at done
  · next known =>
    obtain ⟨rfl, rfl⟩ := Prod.mk.inj (Except.ok.inj done)
    exact ⟨.refl _, contains_iff_mem.mp known⟩
  · obtain ⟨module, middle, loaded, done⟩ := run_bind_ok done
    obtain ⟨⟨⟩, marked, noted, done⟩ := run_bind_ok done
    obtain rfl := (Prod.mk.inj (Except.ok.inj noted)).2
    obtain ⟨extends_, found, same⟩ := load_eq_ok loaded
    let entered : Sources := { middle with followed := entry :: middle.followed }
    have marks : Extends middle entered := ⟨id, fun _ => rfl, subset_cons_self _ _, id⟩
    have before_ := extends_.trans marks
    obtain ⟨collects, own⟩ := walks (.inr ⟨_, marks.find? found⟩) done
    refine ⟨⟨before_.trans collects.extends_, collects.closed, collects.plain, ?_, collects.names,
      collects.placed⟩,
      collects.extends_.followed mem_cons_self⟩
    intro other member
    rcases collects.followed other member with old | new
    · rcases mem_cons.mp old with rfl | older
      · exact .inr ⟨module, collects.extends_.find? (marks.find? found), own⟩
      · exact .inl (same ▸ older)
    · exact .inr new

/-- The module of imported names is walked each time. -/
theorem collects_of_names (walks : Walks isPlaced walk)
    (done : (load files name >>= walk).run before = .ok (nodes, after)) :
    Collects isPlaced before after nodes ∧ after.Covers nodes name := by
  obtain ⟨module, middle, loaded, done⟩ := run_bind_ok done
  obtain ⟨extends_, found, same⟩ := load_eq_ok loaded
  obtain ⟨collects, own⟩ := walks (.inr ⟨_, found⟩) done
  refine ⟨⟨extends_.trans collects.extends_, collects.closed, collects.plain, ?_, collects.names,
    collects.placed⟩,
    module, collects.extends_.find? found, own⟩
  rw [← same]
  exact collects.followed

/-- A walk collects its module and all that it imports. -/
theorem walks_walk (isPlaced : Module → Prop) (files : Files) (fuel : Nat)
    (active : List (Nat × Nat)) : Walks isPlaced (Sources.walk files fuel active) := by
  induction fuel generalizing active with
  | zero => exact fun _ done => nomatch done
  | succ fuel ih =>
    intro module before after nodes own done
    obtain ⟨sources, _, got, done⟩ := run_bind_ok done
    obtain ⟨rfl, rfl⟩ := Prod.mk.inj (Except.ok.inj got)
    dsimp only at done
    split at done
    · cases done
    obtain ⟨plainNodes, middle, plain, done⟩ := run_bind_ok done
    obtain ⟨otherNodes, last, others, done⟩ := run_bind_ok done
    obtain ⟨rfl, rfl⟩ := Prod.mk.inj (Except.ok.inj done)
    have followed : Collects isPlaced before middle plainNodes ∧
        ∀ entry ∈ plainImports (Node.module module).walk, entry ∈ middle.followed := by
      refine flatMapM_collects (fun entry sources _ => entry ∈ sources.followed)
        (fun known extends_ _ => extends_.followed known) (fun entry _ _ _ _ ran => ?_) plain
      exact collects_of_plain (ih _) ran
    have named : Collects isPlaced middle last otherNodes ∧
        ∀ entry ∈ fromImports (Node.module module).walk, ∀ name, entry = some name →
          last.Covers otherNodes name := by
      refine flatMapM_collects (fun entry sources nodes => ∀ name, entry = some name →
          sources.Covers nodes name)
        (fun covers extends_ subset name is => (covers name is).mono extends_ subset)
        (fun entry _ _ _ _ ran => ?_) others
      cases entry with
      | none => cases ran
      | some name =>
        obtain ⟨collects, covers⟩ := collects_of_names (ih _) ran
        exact ⟨collects, fun other is => Option.some.inj is ▸ covers⟩
    have rest := followed.1.append named.1
    rw [append_assoc]
    refine ⟨rest.cons (fun entry member => ?_) (fun name member => ?_) own, subset_append_left _ _⟩
    · exact named.1.extends_.followed (followed.2 entry member)
    · exact (named.2 _ member name rfl).mono (.refl _) (subset_append_right _ _)

/-- What a node imports is imported by its list. -/
theorem Collects.imports (collects : Collects isPlaced before after nodes)
    (none : before.followed = [])
    {node : Node} (member : node ∈ nodes) (imported : name ∈ node.imports) :
    after.Covers nodes name := by
  unfold Node.imports at imported
  split at imported
  · next site names =>
    obtain ⟨item, inside, rfl⟩ := mem_map.mp imported
    obtain ⟨index, small, rfl⟩ := mem_iff_getElem.mp inside
    have plain : ((site.label, index), names[index].name) ∈ plainImports nodes := by
      refine mem_flatMap.mpr ⟨_, member, mem_map.mpr ⟨(names[index], index), ?_, rfl⟩⟩
      exact mk_mem_zipIdx_iff_getElem?.mpr (getElem?_eq_getElem small)
    rcases collects.followed _ (collects.plain plain) with old | covers
    · simp [none] at old
    · exact covers
  · next site moduleName names level =>
    split at imported
    · cases imported
    · next notTyping =>
      obtain rfl := mem_singleton.mp imported
      refine collects.names _ (mem_filterMap.mpr ⟨_, member, ?_⟩)
      simpa using notTyping
  · cases imported

end Steps

end Sources

/-- The nodes are complete, but for a program named like a library. -/
structure Program.IsClosed (program : Program) (name : Option (String × String)) : Prop where
  main : (Node.module program.main).walk ⊆ program.nodes
  closed : ∀ node ∈ program.nodes, node.walk ⊆ program.nodes
  imports : ∀ node ∈ program.nodes, ∀ name ∈ node.imports, program.sources.Covers program.nodes name
  /-- All nodes are of libraries, the program or its files. -/
  placed : ∀ node ∈ program.nodes,
    (∃ module ∈ standard.libraries.values, node ∈ (Node.module module).walk) ∨
      node ∈ Node.walkFrom (program.sources.roots program.main)
  labelled : program.sources.IsLabelled program.main
  libraries : ∀ {key}, isLibrary key = true → (∀ path, name ≠ some (key, path)) →
    program.sources.modules.get? key = none

theorem Program.isClosed_of_walk {fuel : Nat} {main : Module} {start : Sources}
    {name : Option (String × String)}
    (done : (Sources.walk files fuel [] main).run start = .ok (nodes, after))
    (isLabelled : start.IsLabelled main) (none : start.followed = [])
    (libraries : ∀ {key}, isLibrary key → (∀ path, name ≠ some (key, path)) →
      start.modules.get? key = .none) : IsClosed ⟨main, after, nodes⟩ name := by
  obtain ⟨collects, own⟩ := Sources.walks_walk (fun module =>
    module = main ∨ ∃ name, after.find? name = some module) files fuel [] (.inl (.inl rfl)) done
  refine ⟨own, collects.closed, fun node member _ => collects.imports none member,
    fun node member => ?_, collects.extends_.labelled isLabelled, fun isLibrary different => ?_⟩
  · have here {module : Module} (below : node ∈ (Node.module module).walk)
        (isRoot : .module module ∈ after.roots main) : node ∈ Node.walkFrom (after.roots main) :=
      Node.mem_walkFrom_iff.mpr ⟨_, isRoot, Node.mem_walk_iff.mp below⟩
    obtain ⟨module, rfl | ⟨name, found⟩, inside⟩ :=
      collects.placed (fun found => .inr ⟨_, found⟩) node member
    · exact .inr (here inside mem_cons_self)
    · rcases Option.or_eq_some_iff.mp found with read | ⟨-, library⟩
      · exact .inr (here inside (mem_cons_of_mem _
          (mem_map_of_mem (mem_map_of_mem (Table.mem_of_get? read)))))
      · exact .inl ⟨module, mem_map_of_mem (Table.mem_of_get? library), inside⟩
  · exact (collects.extends_.libraries isLibrary).trans (libraries isLibrary different)

theorem Program.isClosed_of_read {body : List Stmt} {name : Option (String × String)}
    {program : Program} (done : read files body name = .ok program) : program.IsClosed name := by
  have labelled := Module.labelled_number (some .program) body nextLabel
  obtain ⟨⟨nodes, sources⟩, walked, done⟩ := bind_ok done
  obtain rfl := pure_ok done
  cases name with
  | none => exact isClosed_of_walk walked labelled rfl fun _ _ => rfl
  | some known =>
    refine isClosed_of_walk walked (labelled.of_stmts fun {stmt} member => ?_) rfl
      fun {key} _ different => ?_
    · let main := Node.module ((Module.number (some .program) body).run nextLabel).1
      have twice : .stmt stmt ∈ Node.walkFrom ([main] ++ [main]) := member
      exact (Node.mem_walkFrom_append.mp twice).elim id id
    · have other : key ≠ known.1 := by
        rintro rfl
        exact different known.2 rfl
      exact Table.get?_insert_of_ne .empty _ other

end TypeInference
