/- The names that a new scope starts with, and where definitions stand. -/

import TypeInference.Inference.Module
import TypeInference.Proofs.NodeChanges
import TypeInference.Proofs.SessionGrowth
import TypeInference.Proofs.Table

namespace TypeInference

open List

section

variable {body : List Stmt}

namespace Stmt

/-- The functions defined right among some statements. -/
def functionNames (body : List Stmt) : List String := (body.filterMap functionDef?).map (·.name)

/-- The classes defined right among some statements. -/
def classNames (body : List Stmt) : List String := (body.filterMap classDef?).map (·.name)

theorem mem_functionNames {f : FunctionDef} (member : .functionDef f ∈ body) :
    f.name ∈ functionNames body :=
  mem_map_of_mem (mem_filterMap.mpr ⟨.functionDef f, member, rfl⟩)

theorem mem_classNames {c : ClassDef} (member : .classDef c ∈ body) : c.name ∈ classNames body :=
  mem_map_of_mem (mem_filterMap.mpr ⟨.classDef c, member, rfl⟩)

end Stmt

/-- The names that a scope starts with. Classes have to be known. -/
def Theory.announced (theory : Theory) (body : List Stmt) : List String :=
  (Stmt.classNames body).filter theory.classNames.contains ++ Stmt.functionNames body

namespace Scope

/-- Names that are bound one after the other. -/
theorem foldl_bind {α : Type} (key : α → String) (type : α → Meaning) (values : List α)
    (start : Scope) : ∃ types,
    values.foldl (fun (scope : Scope) value => scope.bind (key value) (type value)) start =
        { start with types := types } ∧
      (∀ name, types.contains name ↔ start.types.contains name ∨ name ∈ values.map key) ∧
      (start.types.keys.Nodup → types.keys.Nodup) := by
  induction values generalizing start with
  | nil => exact ⟨start.types, by cases start; rfl, by simp, id⟩
  | cons value values ih =>
    obtain ⟨types, is, names, distinct⟩ := ih (start.bind (key value) (type value))
    refine ⟨types, is, fun name => ?_, fun before => distinct (Table.nodup_keys_insert before _ _)⟩
    rw [names, map_cons, mem_cons]
    change (start.types.insert _ _).contains name = true ∨ _ ↔ _
    rw [Table.contains_insert]
    tauto

end Scope

namespace Infer

/-- Functions bound in turn, each to a constant of its own. -/
theorem run_foldlM_bind (functions : List FunctionDef) (start : Scope) (session : Session) :
    ∃ types log, (functions.foldlM (fun (scope : Scope) f => do
        pure (scope.bind f.name (.term (← fresh "func")))) start : Infer Scope).run session =
          (.ok { start with types := types }, { session with log := log }) ∧
      session.log ≤ log ∧
      (∀ name, name ∉ functions.map (·.name) → types.get? name = start.types.get? name) ∧
      (∀ name ∈ functions.map (·.name), ∃ number, session.log.count < number ∧
        number ≤ log.count ∧
        types.get? name = some (.term (.const ("func" ++ "_" ++ toString number)))) ∧
      (start.types.keys.Nodup → types.keys.Nodup) := by
  induction functions generalizing start session with
  | nil =>
    exact ⟨start.types, session.log, by cases start; rfl, le_rfl, fun _ _ => rfl, by simp, id⟩
  | cons f functions ih =>
    let bound := start.bind f.name (.term (session.log.fresh "func").1)
    let next : Session := { session with log := (session.log.fresh "func").2 }
    obtain ⟨types, log, done, grown, others, own, distinct⟩ := ih bound next
    have counted : session.log.count + 1 ≤ log.count := grown.count
    refine ⟨types, log, done, (session.log.le_fresh "func" rfl).trans grown, ?_, ?_,
      fun before => distinct (Table.nodup_keys_insert before _ _)⟩
    · intro name absent
      rw [map_cons, mem_cons, not_or] at absent
      rw [others name absent.2]
      exact Table.get?_insert_of_ne _ _ absent.1
    · intro name member
      by_cases later : name ∈ functions.map (·.name)
      · obtain ⟨number, above, below, is⟩ := own name later
        exact ⟨number, Nat.lt_of_succ_lt above, below, is⟩
      · have isName : name = f.name := by simpa [later] using member
        refine ⟨session.log.count + 1, Nat.lt_succ_self _, counted, ?_⟩
        rw [others name later, isName]
        exact Table.get?_insert_self _ _ _

/-- What a new scope is, and how far the log has come with it. -/
structure Opens (session : Session) (name : String) (isClass isFunction : Bool) (body : List Stmt)
    (scope : Scope) (log : Log) : Prop where
  narrowed : scope.narrowed = {}
  grown : session.log ≤ log
  contains_iff : ∀ {name}, scope.types.contains name = true ↔ name ∈ session.theory.announced body
  constant : ∀ {name}, name ∈ Stmt.functionNames body → ∃ number, session.log.count < number ∧
    number ≤ log.count ∧
    scope.types.get? name = some (.term (.const ("func" ++ "_" ++ toString number)))
  isClass : scope.isClass = isClass
  isFunction : scope.isFunction = isFunction
  body : scope.body = body
  distinct : scope.types.keys.Nodup

/-- A new scope can be made, and only the log changes. -/
theorem exists_run_newScope_opens (session : Session) (name : String) (isClass isFunction : Bool)
    (lines : Table String Nat) (body : List Stmt) : ∃ scope log,
    (newScope name isClass isFunction lines body).run session =
        (.ok scope, { session with log := log }) ∧
      Opens session name isClass isFunction body scope log := by
  let start : Scope := { name, isClass, isFunction, lines := Scope.linesOf lines body, body }
  let classes := (body.filterMap Stmt.classDef?).filter
    fun c => session.theory.classNames.contains c.name
  obtain ⟨classTypes, bound, classes_, distinct⟩ := Scope.foldl_bind (·.name)
    (fun c => session.theory.classObject c.name) classes start
  obtain ⟨types, log, done, grown, others, own, still⟩ := run_foldlM_bind
    (body.filterMap Stmt.functionDef?) { start with types := classTypes } session
  have run : (newScope name isClass isFunction lines body).run session =
      (.ok { start with types := types }, { session with log := log }) := by
    change (List.foldlM _ (List.foldl _ start classes) _ : Infer Scope).run session = _
    rw [bound]
    exact done
  refine ⟨_, log, run, rfl, grown, fun {name} => ?_, fun member => own _ member, rfl, rfl, rfl,
    still (distinct nodup_nil)⟩
  have areClasses : name ∈ classes.map (·.name) ↔
      name ∈ (Stmt.classNames body).filter session.theory.classNames.contains := by
    rw [Stmt.classNames, filter_map]
    rfl
  rw [Theory.announced, mem_append, ← areClasses]
  change types.contains name = true ↔ _ ∨ name ∈ (body.filterMap Stmt.functionDef?).map (·.name)
  by_cases isFunction : name ∈ (body.filterMap Stmt.functionDef?).map (·.name)
  · obtain ⟨number, -, -, is⟩ := own name isFunction
    have : types.contains name = true := by rw [← Table.isSome_get?, is]; rfl
    simp only [this, isFunction, or_true]
  · have same : types.contains name = classTypes.contains name := by
      rw [← Table.isSome_get?, ← Table.isSome_get?, others name isFunction]
    have none : start.types.contains name = false := rfl
    rw [same, classes_ name, none]
    simp only [isFunction, or_false, Bool.false_eq_true, false_or]

/-- The scope that a run of `newScope` gives. -/
theorem run_newScope_eq_ok {session after : Session} {name : String} {isClass isFunction : Bool}
    {lines : Table String Nat} {scope : Scope}
    (done : (newScope name isClass isFunction lines body).run session = (.ok scope, after)) :
    ∃ log, after = { session with log := log } ∧
      Opens session name isClass isFunction body scope log := by
  obtain ⟨other, log, run, opens⟩ := exists_run_newScope_opens session name isClass isFunction lines
    body
  obtain ⟨isScope, isAfter⟩ := Prod.mk.inj (run.symm.trans done)
  obtain rfl := Except.ok.inj isScope
  exact ⟨log, isAfter.symm, opens⟩

/-- A scope below the current one comes last. -/
theorem run_openScope_eq_ok {session after : Session} {name : String} {isClass isFunction : Bool}
    {index : Nat}
    (done : (openScope body name isClass isFunction).run session = (.ok index, after)) :
    index = session.here.children.length ∧ ∃ scope log,
      after = { session with log := log, here := session.here.addChild scope } ∧
      Opens session name isClass isFunction body scope log := by
  rw [openScope, run_get_bind] at done
  obtain ⟨scope, mid, opened, rest⟩ := run_bind_ok done
  obtain ⟨log, rfl, opens⟩ := run_newScope_eq_ok opened
  obtain ⟨isIndex, isAfter⟩ := Prod.mk.inj rest
  exact ⟨(Except.ok.inj isIndex).symm, scope, log, isAfter.symm, opens⟩

end Infer

namespace Session

variable (theory : Theory) (axioms : Axioms) (program : Program)

/-- Inference starts in a new scope for the program. -/
theorem exists_ofProgram_eq : ∃ scope log,
    ofProgram theory axioms program =
        { blank theory axioms program with here := scope, log := log } ∧
      Infer.Opens (blank theory axioms program) "" false false
        (theory.survey.expand program.main.body) scope log := by
  obtain ⟨scope, log, done, opens⟩ := Infer.exists_run_newScope_opens (blank theory axioms program)
    "" false false {} (theory.survey.expand program.main.body)
  refine ⟨scope, log, ?_, opens⟩
  rw [ofProgram, done]

end Session

end

variable {known : List String} {body : List Stmt} {name : String}

namespace Stmt

variable {stmt : Stmt}

/-- The names defined right among some statements. -/
def definedNames (body : List Stmt) : List String := classNames body ++ functionNames body

mutual

/-- Whether definitions stand where their names are known. Functions and classes make known their
own definitions, both branches of a statement those of the first, and a handler with a name those of
the tried block. Within a function, nothing around it is relied on. -/
def isAnnounced (known : List String) : Stmt → Bool
  | .functionDef ⟨_, name, _, body, _, _, _⟩ =>
    known.contains name && areAnnounced (definedNames body) body
  | .classDef ⟨_, name, _, _, body, _⟩ =>
    known.contains name && areAnnounced (definedNames body ++ known) body
  | .ifElse _ _ body orelse | .whileLoop _ _ body orelse | .forLoop _ _ _ _ body orelse =>
    areAnnounced (definedNames body ++ known) body &&
      areAnnounced (definedNames body ++ known) orelse
  | .withBlock _ _ _ body => areAnnounced known body
  | .tryBlock _ body handlers orelse final =>
    areAnnounced known body && areAnnounced known orelse && areAnnounced known final &&
      areHandlersAnnounced (definedNames body ++ known) known handlers
  | _ => true

def areAnnounced (known : List String) : List Stmt → Bool
  | [] => true
  | stmt :: stmts => isAnnounced known stmt && areAnnounced known stmts

def areHandlersAnnounced (named unnamed : List String) : List Handler → Bool
  | [] => true
  | ⟨_, _, name, body⟩ :: handlers =>
    areAnnounced (if name.isSome then named else unnamed) body &&
      areHandlersAnnounced named unnamed handlers

end

theorem areAnnounced_iff {stmts : List Stmt} :
    areAnnounced known stmts ↔ ∀ stmt ∈ stmts, stmt.isAnnounced known := by
  induction stmts with
  | nil => simp [areAnnounced]
  | cons stmt stmts ih => simp [areAnnounced, ih]

theorem areHandlersAnnounced_iff {named unnamed : List String} {handlers : List Handler} :
    areHandlersAnnounced named unnamed handlers ↔ ∀ handler ∈ handlers,
      areAnnounced (if handler.name.isSome then named else unnamed) handler.body := by
  induction handlers with
  | nil => simp [areHandlersAnnounced]
  | cons handler handlers ih =>
    cases handler
    simp [areHandlersAnnounced, ih]

/-- The name that a statement itself defines. -/
def ownNames (stmt : Stmt) : List String := definedNames [stmt]

theorem definedNames_append (first second : List Stmt) (name : String) :
    name ∈ definedNames (first ++ second) ↔
      name ∈ definedNames first ∨ name ∈ definedNames second := by
  simp only [definedNames, classNames, functionNames, filterMap_append, map_append, mem_append]
  tauto

theorem mem_definedNames_iff : name ∈ definedNames body ↔ ∃ stmt ∈ body, name ∈ stmt.ownNames := by
  induction body with
  | nil => simp [definedNames, classNames, functionNames]
  | cons stmt body ih =>
    rw [← singleton_append, definedNames_append, ih]
    simp [ownNames]

theorem ownNames_eq_of_head {other : Stmt} (same : other.head = stmt.head) :
    other.ownNames = stmt.ownNames := by
  have head (stmt : Stmt) : stmt.head.ownNames = stmt.ownNames := by cases stmt <;> rfl
  rw [← head, same, head]

/-- A definition is announced, unless a class is not known. -/
theorem mem_announced {theory : Theory} (member : stmt ∈ body)
    (isClass : ∀ c, stmt = .classDef c → c.name ∈ theory.classNames)
    (isOwn : name ∈ stmt.ownNames) : name ∈ theory.announced body := by
  cases stmt with
  | classDef c =>
    obtain rfl := mem_singleton.mp isOwn
    exact mem_append_left _ (mem_filter.mpr
      ⟨mem_classNames member, contains_iff_mem.mpr (isClass c rfl)⟩)
  | functionDef f =>
    obtain rfl := mem_singleton.mp isOwn
    exact mem_append_right _ (mem_functionNames member)
  | _ => cases isOwn

section Mono

theorem contains_mono {more : List String} (subset : known ⊆ more)
    (inside : known.contains name) : more.contains name :=
  contains_iff_mem.mpr (subset (contains_iff_mem.mp inside))

theorem append_subset_append {more : List String} (front : List String) (subset : known ⊆ more) :
    front ++ known ⊆ front ++ more :=
  append_subset.mpr ⟨subset_append_left _ _, subset_append_of_subset_right _ subset⟩

mutual

/-- More may be known than is needed. -/
theorem isAnnounced_mono : (stmt : Stmt) → {known more : List String} → known ⊆ more →
    stmt.isAnnounced known → stmt.isAnnounced more
  | .functionDef ⟨_, _, _, _, _, _, _⟩, _, _, subset, announced => by
    simp only [isAnnounced, Bool.and_eq_true] at announced ⊢
    exact ⟨contains_mono subset announced.1, announced.2⟩
  | .classDef ⟨_, _, _, _, body, _⟩, _, _, subset, announced => by
    simp only [isAnnounced, Bool.and_eq_true] at announced ⊢
    exact ⟨contains_mono subset announced.1,
      areAnnounced_mono body (append_subset_append _ subset) announced.2⟩
  | .ifElse _ _ body orelse, _, _, subset, announced
  | .whileLoop _ _ body orelse, _, _, subset, announced
  | .forLoop _ _ _ _ body orelse, _, _, subset, announced => by
    simp only [isAnnounced, Bool.and_eq_true] at announced ⊢
    exact ⟨areAnnounced_mono body (append_subset_append _ subset) announced.1,
      areAnnounced_mono orelse (append_subset_append _ subset) announced.2⟩
  | .withBlock _ _ _ body, _, _, subset, announced => by
    simp only [isAnnounced] at announced ⊢
    exact areAnnounced_mono body subset announced
  | .tryBlock _ body handlers orelse final, _, _, subset, announced => by
    simp only [isAnnounced, Bool.and_eq_true] at announced ⊢
    exact ⟨⟨⟨areAnnounced_mono body subset announced.1.1.1,
      areAnnounced_mono orelse subset announced.1.1.2⟩,
      areAnnounced_mono final subset announced.1.2⟩,
      areHandlersAnnounced_mono handlers (append_subset_append _ subset) subset announced.2⟩
  | .assign .., _, _, _, _ | .augAssign .., _, _, _, _ | .annAssign .., _, _, _, _
  | .returnValue .., _, _, _, _ | .delete .., _, _, _, _ | .raise .., _, _, _, _
  | .importModules .., _, _, _, _ | .importFrom .., _, _, _, _ | .expr .., _, _, _, _
  | .pass .., _, _, _, _ | .other .., _, _, _, _ => rfl

theorem areAnnounced_mono : (stmts : List Stmt) → {known more : List String} → known ⊆ more →
    areAnnounced known stmts → areAnnounced more stmts
  | [], _, _, _, _ => rfl
  | stmt :: stmts, _, _, subset, announced => by
    simp only [areAnnounced, Bool.and_eq_true] at announced ⊢
    exact ⟨isAnnounced_mono stmt subset announced.1, areAnnounced_mono stmts subset announced.2⟩

theorem areHandlersAnnounced_mono : (handlers : List Handler) →
    {named unnamed moreNamed moreUnnamed : List String} → named ⊆ moreNamed →
    unnamed ⊆ moreUnnamed → areHandlersAnnounced named unnamed handlers →
    areHandlersAnnounced moreNamed moreUnnamed handlers
  | [], _, _, _, _, _, _, _ => rfl
  | ⟨_, _, name, body⟩ :: handlers, _, _, _, _, subset, subsetUnnamed, announced => by
    simp only [areHandlersAnnounced, Bool.and_eq_true] at announced ⊢
    refine ⟨areAnnounced_mono body ?_ announced.1,
      areHandlersAnnounced_mono handlers subset subsetUnnamed announced.2⟩
    split
    · exact subset
    · exact subsetUnnamed

end

end Mono

section Changes

variable {change : Stmt → List Stmt}

/-- One statement with the same head is made of each, and names stay known. -/
structure KeepsPlaces (change : Stmt → List Stmt) : Prop where
  single : ∀ stmt, ∃ result, change stmt = [result] ∧ result.head = stmt.head
  announced : ∀ {known stmt}, stmt.isAnnounced known = true →
    areAnnounced known (change stmt) = true

/-- The names that are defined stay the same. -/
theorem mem_definedNames_mapListM
    (single : ∀ stmt, ∃ result, change stmt = [result] ∧ result.head = stmt.head)
    (stmts : List Stmt) :
    name ∈ definedNames (Id.run (mapListM (fun stmt => pure (change stmt)) stmts)) ↔
      name ∈ definedNames stmts := by
  induction stmts with
  | nil => rfl
  | cons stmt stmts ih =>
    obtain ⟨result, is, same⟩ := exists_mapM single stmt
    change name ∈ definedNames (Id.run (stmt.mapM _) ++ Id.run (mapListM _ stmts)) ↔
      name ∈ definedNames ([stmt] ++ stmts)
    rw [definedNames_append, definedNames_append, ih, is]
    change name ∈ result.ownNames ∨ _ ↔ name ∈ stmt.ownNames ∨ _
    rw [ownNames_eq_of_head same]

theorem definedNames_subset_mapListM (keeps : KeepsPlaces change) (body : List Stmt)
    (known : List String) : definedNames body ++ known ⊆
      definedNames (Id.run (mapListM (fun stmt => pure (change stmt)) body)) ++ known := by
  intro name member
  rw [mem_append, mem_definedNames_mapListM keeps.single body, ← mem_append]
  exact member

mutual

theorem isAnnounced_mapM (keeps : KeepsPlaces change) : (stmt : Stmt) → {known : List String} →
    stmt.isAnnounced known →
    areAnnounced known (Id.run (stmt.mapM fun stmt => pure (change stmt)))
  | .functionDef ⟨_, _, _, body, _, _, _⟩, known, announced => by
    obtain ⟨isKnown, inside⟩ := Bool.and_eq_true_iff.mp announced
    refine keeps.announced (Bool.and_eq_true_iff.mpr ⟨isKnown, ?_⟩)
    refine areAnnounced_mono _ ?_ (areAnnounced_mapListM keeps body inside)
    exact fun name => (mem_definedNames_mapListM keeps.single body).mpr
  | .classDef ⟨_, _, _, _, body, _⟩, known, announced => by
    obtain ⟨isKnown, inside⟩ := Bool.and_eq_true_iff.mp announced
    refine keeps.announced (Bool.and_eq_true_iff.mpr ⟨isKnown, ?_⟩)
    exact areAnnounced_mono _ (definedNames_subset_mapListM keeps body known)
      (areAnnounced_mapListM keeps body inside)
  | .ifElse _ _ body orelse, known, announced
  | .whileLoop _ _ body orelse, known, announced
  | .forLoop _ _ _ _ body orelse, known, announced => by
    obtain ⟨inBody, inElse⟩ := Bool.and_eq_true_iff.mp announced
    have subset := definedNames_subset_mapListM keeps body known
    exact keeps.announced (Bool.and_eq_true_iff.mpr
      ⟨areAnnounced_mono _ subset (areAnnounced_mapListM keeps body inBody),
        areAnnounced_mono _ subset (areAnnounced_mapListM keeps orelse inElse)⟩)
  | .withBlock _ _ _ body, _, announced =>
    keeps.announced (areAnnounced_mapListM keeps body announced)
  | .tryBlock _ body handlers orelse final, known, announced => by
    obtain ⟨blocks, handled⟩ := Bool.and_eq_true_iff.mp announced
    obtain ⟨blocks, inFinal⟩ := Bool.and_eq_true_iff.mp blocks
    obtain ⟨inBody, inElse⟩ := Bool.and_eq_true_iff.mp blocks
    refine keeps.announced (Bool.and_eq_true_iff.mpr ⟨Bool.and_eq_true_iff.mpr
      ⟨Bool.and_eq_true_iff.mpr ⟨areAnnounced_mapListM keeps body inBody,
        areAnnounced_mapListM keeps orelse inElse⟩, areAnnounced_mapListM keeps final inFinal⟩, ?_⟩)
    exact areHandlersAnnounced_mono _ (definedNames_subset_mapListM keeps body known)
      (List.Subset.refl _) (areHandlersAnnounced_mapHandlersM keeps handlers handled)
  | .assign .., _, announced | .augAssign .., _, announced | .annAssign .., _, announced
  | .returnValue .., _, announced | .delete .., _, announced | .raise .., _, announced
  | .importModules .., _, announced | .importFrom .., _, announced | .expr .., _, announced
  | .pass .., _, announced | .other .., _, announced => keeps.announced announced

theorem areAnnounced_mapListM (keeps : KeepsPlaces change) : (stmts : List Stmt) →
    {known : List String} → areAnnounced known stmts →
    areAnnounced known (Id.run (mapListM (fun stmt => pure (change stmt)) stmts))
  | [], _, _ => rfl
  | stmt :: stmts, known, announced => by
    obtain ⟨first, rest⟩ := Bool.and_eq_true_iff.mp announced
    refine areAnnounced_iff.mpr fun result member => ?_
    rcases mem_append.mp member with early | late
    · exact areAnnounced_iff.mp (isAnnounced_mapM keeps stmt first) result early
    · exact areAnnounced_iff.mp (areAnnounced_mapListM keeps stmts rest) result late

theorem areHandlersAnnounced_mapHandlersM (keeps : KeepsPlaces change) :
    (handlers : List Handler) → {named unnamed : List String} →
    areHandlersAnnounced named unnamed handlers → areHandlersAnnounced named unnamed
      (Id.run (mapHandlersM (fun stmt => pure (change stmt)) handlers))
  | [], _, _, _ => rfl
  | ⟨_, _, name, body⟩ :: handlers, _, _, announced => by
    obtain ⟨first, rest⟩ := Bool.and_eq_true_iff.mp announced
    exact Bool.and_eq_true_iff.mpr ⟨areAnnounced_mapListM keeps body first,
      areHandlersAnnounced_mapHandlersM keeps handlers rest⟩

end

end Changes

end Stmt

namespace Survey

variable {additions : Table Nat (List Stmt)}

open Stmt

/-- The names defined among some statements stay the same. -/
theorem mem_definedNames_expandTo (depth : Nat) :
    name ∈ definedNames (expandTo additions depth body) ↔ name ∈ definedNames body := by
  cases depth with
  | zero => rfl
  | succ depth =>
    refine mem_definedNames_mapListM (fun stmt => ?_) body
    cases stmt <;> exact ⟨_, rfl, rfl⟩

theorem areAnnounced_expandWith {additions : ClassDef → List Stmt}
    (added : ∀ c, ∀ stmt ∈ additions c, stmt.isAnnounced stmt.ownNames)
    (announced : areAnnounced known body) :
    areAnnounced known (expandWith additions body) := by
  refine areAnnounced_mapListM ⟨fun stmt => ?_, fun {known stmt} announced => ?_⟩ body announced
  · cases stmt <;> exact ⟨_, rfl, rfl⟩
  · cases stmt with
    | classDef c =>
      have given := added c
      obtain ⟨site, name, bases, keywords, body, decorators⟩ := c
      obtain ⟨isKnown, inside⟩ := Bool.and_eq_true_iff.mp announced
      refine Bool.and_eq_true_iff.mpr ⟨Bool.and_eq_true_iff.mpr ⟨isKnown, ?_⟩, rfl⟩
      refine areAnnounced_iff.mpr fun stmt member => ?_
      rcases mem_append.mp member with own | new
      · refine isAnnounced_mono stmt ?_ (areAnnounced_iff.mp inside stmt own)
        intro name known
        rw [mem_append, definedNames_append]
        rcases mem_append.mp known with defined | around
        · exact .inl (.inl defined)
        · exact .inr around
      · refine isAnnounced_mono stmt (fun name isOwn => ?_) (given stmt new)
        exact mem_append_left _ (mem_definedNames_iff.mpr ⟨stmt, member, isOwn⟩)
    | _ => exact areAnnounced_iff.mpr fun result member => mem_singleton.mp member ▸ announced

/-- Additions that need only their own names keep definitions known. -/
theorem areAnnounced_expandTo (added : ∀ label, ∀ stmt ∈ (additions.get? label).getD [],
      stmt.isAnnounced stmt.ownNames) (depth : Nat)
    (announced : areAnnounced known body) :
    areAnnounced known (expandTo additions depth body) := by
  induction depth generalizing known body with
  | zero => exact announced
  | succ depth ih =>
    refine areAnnounced_expandWith (fun c result member => ?_) announced
    obtain ⟨stmt, isAddition, expanded⟩ := mem_expandTo_iff.mp member
    rw [ownNames_eq_of_head (head_of_mem_expandTo expanded)]
    have alone : areAnnounced stmt.ownNames [stmt] = true :=
      areAnnounced_iff.mpr fun other same =>
        mem_singleton.mp same ▸ added _ stmt isAddition
    exact areAnnounced_iff.mp (ih alone) result expanded

end Survey

end TypeInference
