/- The inference of modules and programs goes by its limits. -/

import TypeInference.Proofs.InferredClasses
import TypeInference.Proofs.KnownNames

namespace TypeInference

open List Selection

variable {limits : Limits} {deletes known : String → Prop} {stmts body : List Stmt}

namespace Limits

/-- Statements may be inferred where some names are known. -/
structure Admits (limits : Limits) (deletes known : String → Prop) (stmts : List Stmt) : Prop where
  covers : ∀ stmt ∈ stmts, limits.Covers (.stmt stmt)
  deleted : ∀ stmt ∈ stmts, (Node.stmt stmt).DeletesOnly deletes
  announces : limits.Announces deletes known stmts

theorem admits_of_covers [lenient : limits.IsLenient]
    (covers : ∀ stmt ∈ stmts, limits.Covers (.stmt stmt)) :
    limits.Admits (fun _ => True) known stmts :=
  ⟨covers, fun _ _ _ _ _ _ => trivial, .inl lenient⟩

theorem Admits.lawful {importer : Importer} [Infer.KeepsScopes importer]
    (imports : ∀ name, limits.imported name → (importer name).FailsWithin limits)
    (admits : limits.Admits deletes known stmts) :
    limits.law.Admits importer deletes (fun _ => known) stmts where
  suits stmt member inner inside := by
    have fits := admits.covers stmt member inner inside
    refine ⟨?_, fun name isImported _ _ => ?_, admits.deleted stmt member inner inside⟩
    · rintro ⟨_, rfl⟩
      exact fits
    · exact Infer.finds_of_scopes (imports name (fits.imports name isImported)) fun done =>
      ⟨Infer.KeepsScopes.here done, Infer.KeepsScopes.outer done⟩
  announces := by
    rintro ⟨_, rfl⟩
    exact admits.announces

/-- What holds of a selection. Only allowed names become used. -/
def Selects (limits : Limits) (body : List Stmt) (holds : Stmt → Prop) : Prop :=
  ∀ {names : List String} {selection : Selection}, (∀ name ∈ names, limits.named name) →
    ofBody (limits.theory.survey.expand body) names false = .ok selection →
    (∀ stmt, .stmt stmt ∈ selection.nodes → holds stmt) ∧
    ∀ name ∈ selection.names, limits.named name

/-- What is selected may be inferred in a scope for all. -/
def Declares (limits : Limits) (body : List Stmt) : Prop :=
  ∃ deletes, limits.Selects body fun stmt =>
    limits.Admits deletes (· ∈ limits.theory.announced body) [stmt]

theorem Declares.of_covers [limits.IsLenient]
    (selects : limits.Selects body fun stmt => limits.Covers (.stmt stmt)) :
    limits.Declares body := by
  refine ⟨fun _ => True, fun named done => ?_⟩
  exact (selects named done).imp_left fun each stmt member =>
    admits_of_covers (forall_mem_singleton.mpr (each stmt member))

/-- All may be inferred that an inference comes to. -/
structure IsComplete (limits : Limits) : Prop where
  functions : limits.Declares Library.standard.functions.body
  methods : ∀ entry ∈ Library.standard.methods.entries, limits.Declares entry.2.body
  libraries : ∀ {name module}, limits.imported name →
    Library.standard.libraries.get? name = some module → limits.Declares module.body
  files : ∀ {name module}, limits.imported name → Library.standard.libraries.get? name = none →
    limits.sources.modules.get? (Files.moduleName name) = some module →
    ∃ deletes, limits.Admits deletes
      (· ∈ limits.theory.announced (limits.theory.survey.expand module.body))
      (limits.theory.survey.expand module.body)

end Limits

instance (mentioned : List String) (selection : Selection) (stmt : Stmt) :
    FailsWith limits.Accepts (addImport mentioned selection stmt) := by
  unfold addImport
  split
  · split
    · infer_instance
    · split
      · infer_instance
      · split <;> infer_instance
  · infer_instance

instance (body : List Stmt) (names : List String) (allClasses : Bool) :
    FailsWith limits.Accepts (ofBody body names allClasses) := by
  unfold ofBody
  dsimp only
  infer_instance

namespace Infer

variable {importer : Importer} {holds : Stmt → Prop}

theorem failsWithin_selectDeclarations (selects : limits.Selects body holds) :
    (selectDeclarations body).FailsWithin limits := by
  refine .get_bind fun session before => .bind_of_ok inferInstance fun _ selection _ _ done => ?_
  rw [before.theory] at done
  have names := (selects before.names (Prod.mk.inj done).1).2
  have noted : (set { session with names := selection.names } : Infer PUnit).FailsWithin limits :=
    ⟨fun _ => ⟨before.theory, before.sources, names⟩⟩
  infer_instance

theorem holds_of_run_selectDeclarations (selects : limits.Selects body holds)
    {session after : Session} (before : limits.Holds session)
    (done : (selectDeclarations body).run session = (.ok stmts, after)) :
    ∀ stmt ∈ stmts, holds stmt := by
  obtain ⟨selection, selected, isSelected, -⟩ := run_selectDeclarations_eq_ok done
  rw [before.theory] at selected
  exact fun stmt member => (selects before.names selected).1 stmt (isSelected stmt member)

/-- More names are known with the types of a scope. -/
theorem obeys_unionTypes (known : Known) (types : Table String Meaning) : (modify fun session =>
    { session with here := { session.here with types := session.here.types.union types } } :
    Infer PUnit).Obeys limits.law (.free deletes known) where
  holds := by
    refine finds_of_within (failsWithin_modify (fun _ => rfl) (fun _ => rfl) fun _ => rfl) ?_
    rintro session _ _ - ⟨⟩
    exact ⟨⟨rfl, rfl, fun _ contained => Table.contains_union contained types,
        fun unbound => absurd trivial unbound,
        fun distinct => Table.nodup_keys_union distinct types⟩,
      forall₂_same.mpr fun _ _ => .refl _,
      fun {_ child} isChild => ⟨child, isChild, fun _ => rfl, .refl child⟩⟩

/-- A module of its own starts with the names of its scope. -/
theorem failsWithin_withRoot {home : Option ModuleKey} {start : Scope} {act : Infer Unit}
    (plain : start.isClass = false)
    (starts : ∀ name, known name → start.types.contains name)
    (obeys : act.Obeys limits.law (.free deletes fun _ => known)) :
    (withRoot home start act).FailsWithin limits where
  run {session} before := by
    let root : Session := { session.keepRoot with here := start, outer := [], home := home }
    have started : limits.Holds root :=
      ⟨(holds_keepRoot before).theory, (holds_keepRoot before).sources,
        (holds_keepRoot before).names⟩
    have scopes : root.keepRoot.here = start ∧ root.keepRoot.outer = [] := by
      unfold Session.keepRoot
      split <;> exact ⟨rfl, rfl⟩
    have knows : limits.Knows (.free deletes fun _ => known) root.keepRoot := by
      refine ⟨holds_keepRoot started, fun _ member => absurd member not_mem_nil,
        fun isKnown _ => ?_, fun member => absurd member not_mem_nil⟩
      rw [Session.chain, scopes.1]
      exact Chain.isSome_find?_of_contains (by rw [plain]; rfl) (starts _ isKnown)
    let back (after : Session) : Session :=
      { after.keepRoot with here := session.here, outer := session.outer, home := session.home }
    refine (obeys.holds _ knows).map back fun after kept => ?_
    have done := holds_keepRoot kept.holds
    exact ⟨done.theory, done.sources, done.names⟩

section Modules

variable [KeepsScopes importer]
  (imports : ∀ name, limits.imported name → (importer name).FailsWithin limits)

include imports

theorem obeys_declaration (owner : Option String) {stmt : Stmt}
    (admits : limits.Admits deletes known [stmt]) :
    (declaration importer owner stmt).Obeys limits.law (.free deletes fun _ => known) := by
  have kept (owner name : String) (signature : Signature) : (modify fun session =>
      { session with here := session.here.addMethod owner name signature } :
      Infer PUnit).Obeys limits.law (.free deletes fun _ => known) :=
    obeys_notes (fun _ => ⟨rfl, rfl, rfl, rfl, rfl, rfl, rfl, rfl⟩)
      (fun session => session.le_of_scopes _ _) fun _ => rfl
  have := stmt.obeys_infer (admits.lawful imports)
  unfold declaration
  split <;> infer_instance

/-- Selected declarations in a new scope for all of them. -/
theorem failsWithin_selected (owner : Option String) (home : Option ModuleKey)
    (selected : ∀ stmt ∈ stmts, limits.Admits deletes (· ∈ limits.theory.announced body) [stmt])
    {session after : Session} {start : Scope} (before : limits.Holds session)
    (done : (newScope "" false false {} body).run session = (.ok start, after)) :
    (withRoot home start (stmts.forM (declaration importer owner))).FailsWithin limits := by
  obtain ⟨_, -, opens⟩ := run_newScope_eq_ok done
  have obeys : (stmts.forM (declaration importer owner)).Obeys limits.law
      (.free deletes fun _ => (· ∈ limits.theory.announced body)) :=
    .forM_of_mem fun stmt member => obeys_declaration imports owner (selected stmt member)
  exact failsWithin_withRoot opens.isClass
    (fun name => before.theory ▸ opens.contains_iff.mpr) obeys

theorem failsWithin_declaredScope (name : String) (owner : Option String)
    (declares : limits.Declares body) :
    (declaredScope importer name owner body).FailsWithin limits := by
  have kept (scope : Scope) : (modify fun session =>
      { session with declared := session.declared.insert name scope } :
      Infer PUnit).FailsWithin limits :=
    failsWithin_modify (fun _ => rfl) (fun _ => rfl) fun _ => rfl
  obtain ⟨_, selects⟩ := declares
  refine .andThen inferInstance fun session => ?_
  split
  · infer_instance
  · refine .bind_of_ok (failsWithin_selectDeclarations selects) fun _ stmts _ before done => ?_
    have selected := holds_of_run_selectDeclarations selects before done
    refine .bind_of_ok inferInstance fun _ start _ before done => ?_
    have := failsWithin_selected imports owner none selected before done
    infer_instance

theorem failsWithin_library (key : ModuleKey) (declares : limits.Declares body) :
    (library importer key body).FailsWithin limits := by
  obtain ⟨_, selects⟩ := declares
  refine .bind_of_ok (failsWithin_selectDeclarations selects) fun _ stmts _ before done => ?_
  have selected := holds_of_run_selectDeclarations selects before done
  refine .bind_of_ok inferInstance fun _ start _ before done => ?_
  have := failsWithin_selected imports none (some key) selected before done
  infer_instance

/-- What is declared only adds to the names that are known. -/
theorem obeys_declarations (complete : limits.IsComplete) :
    (declarations importer).Obeys limits.law (.free deletes fun _ => known) := by
  have declared (name : String) (owner : Option String) {body : List Stmt}
      (declares : limits.Declares body) : (declaredScope importer name owner body).Obeys limits.law
        (.free deletes fun _ => known) :=
    ⟨finds_of_scopes (failsWithin_declaredScope imports name owner declares)
      scopes_of_run_declaredScope⟩
  have (scope : Scope) := @obeys_unionTypes limits deletes (fun _ => known) scope.types
  have (scope : Scope) : (modify fun session =>
      { session with here := { session.here with
        methods := session.here.methods.union scope.methods } } : Infer PUnit).Obeys limits.law
        (.free deletes fun _ => known) :=
    obeys_notes (fun _ => ⟨rfl, rfl, rfl, rfl, rfl, rfl, rfl, rfl⟩)
      (fun session => session.le_of_scopes _ _) fun _ => rfl
  refine .andThen (declared "" none complete.functions) fun scope => ?_
  refine .andThen inferInstance fun _ => .forM_of_mem fun entry member => ?_
  exact .andThen (declared entry.1 (some entry.1) (complete.methods entry member))
    fun scope => inferInstance

theorem obeys_body (admits : limits.Admits deletes known body) :
    (body.forM fun stmt => do let _ ← stmt.infer importer : Infer Unit).Obeys limits.law
      (.free deletes fun _ => known) := by
  refine .forM_of_mem fun stmt member => ?_
  have := stmt.obeys_infer ((admits.lawful imports).subset (forall_mem_singleton.mpr member))
  infer_instance

theorem failsWithin_file (complete : limits.IsComplete) (name : String) (key : ModuleKey)
    (admits : limits.Admits deletes
      (· ∈ limits.theory.announced (limits.theory.survey.expand body))
      (limits.theory.survey.expand body)) : (file importer name key body).FailsWithin limits := by
  have homes (classNames : List String) : (modify fun session =>
      { session with classHomes := classNames.foldl (fun table className =>
        table.insert className name) session.classHomes } : Infer PUnit).FailsWithin limits :=
    failsWithin_modify (fun _ => rfl) (fun _ => rfl) fun _ => rfl
  refine .andThen inferInstance fun _ => .get_bind fun session before => ?_
  rw [before.theory]
  refine .bind_of_ok inferInstance fun _ start _ before done => ?_
  obtain ⟨_, -, opens⟩ := run_newScope_eq_ok done
  have starts : ∀ name ∈ limits.theory.announced (limits.theory.survey.expand body),
      start.types.contains name = true := by
    intro name announced
    rw [opens.contains_iff, before.theory]
    exact announced
  have := @failsWithin_withRoot _ _ _ (some key) _ _ opens.isClass starts
    (.andThen (obeys_declarations imports complete) fun _ => obeys_body imports admits)
  infer_instance

end Modules

/-- A module that may be imported goes by the limits. -/
theorem failsWithin_moduleTo (complete : limits.IsComplete) (depth : Nat) (name : String)
    (imported : limits.imported name) : (moduleTo depth name).FailsWithin limits := by
  induction depth generalizing name with
  | zero => exact inferInstanceAs (FailsWithin (throw .circular : Infer ModuleKey) limits)
  | succ depth ih =>
    refine .get_bind fun session before => ?_
    dsimp only
    generalize (if Library.isLibrary name then ModuleKey.library name
      else .file (Files.moduleName name)) = key
    split
    · infer_instance
    · split
      · next module isLibrary =>
        have := failsWithin_library ih key (complete.libraries imported isLibrary)
        infer_instance
      · next module notLibrary isFile =>
        rw [before.sources] at isFile
        obtain ⟨_, admits⟩ := complete.files imported notLibrary isFile
        have := failsWithin_file ih complete name key admits
        infer_instance
      · infer_instance

theorem failsWithin_importer (complete : limits.IsComplete) (name : String)
    (imported : limits.imported name) : (Infer.importer name).FailsWithin limits := by
  have (depth : Nat) := failsWithin_moduleTo complete depth name imported
  unfold Infer.importer
  infer_instance

end Infer

namespace Session

variable {theory : Theory} {axioms : Axioms} {program : Program}

theorem ofProgram_holds (isTheory : theory = limits.theory)
    (areSources : program.sources = limits.sources)
    (named : ∀ name ∈ theory.survey.usedNames, limits.named name) :
    limits.Holds (ofProgram theory axioms program) := by
  obtain ⟨scope, log, is, -⟩ := exists_ofProgram_eq theory axioms program
  rw [is]
  exact ⟨isTheory, areSources, named⟩

/-- A whole inference fails only within the limits. -/
theorem accepts_of_infer {fault : Fault} (complete : limits.IsComplete)
    (holds : limits.Holds (ofProgram theory axioms program)) (admits : limits.Admits deletes
      (· ∈ theory.announced (theory.survey.expand program.main.body))
      (theory.survey.expand program.main.body))
    (failed : (ofProgram theory axioms program).infer.1 = .error fault) : limits.Accepts fault := by
  have imports := Infer.failsWithin_importer complete
  obtain ⟨scope, log, is, opens⟩ := exists_ofProgram_eq theory axioms program
  obtain ⟨-, -, -, -, isBody⟩ := ofProgram_start theory axioms program
  have start : limits.Knows (.free deletes
      fun _ => (· ∈ theory.announced (theory.survey.expand program.main.body)))
      (ofProgram theory axioms program) := by
    refine ⟨holds, fun _ member => absurd member not_mem_nil, fun announced _ => ?_,
      fun member => absurd member not_mem_nil⟩
    rw [is]
    exact Chain.isSome_find?_of_contains (by rw [opens.isClass]; rfl)
      (opens.contains_iff.mpr announced)
  have declared := (Infer.obeys_declarations imports complete).holds _ start
  rw [infer, run_bind] at failed
  rcases result : (Infer.declarations Infer.importer).run (ofProgram theory axioms program) with
    ⟨other | ⟨⟩, after⟩ <;> rw [result] at declared failed
  · exact EndsWell.fault declared failed
  · dsimp only at failed
    rw [run_get_bind, Infer.body_of_run_declarations result, isBody] at failed
    exact ((Infer.obeys_body imports admits).holds _
      (start.of_within declared.within declared.holds)).fault failed

end Session

/-- A program with all that its inference starts from. -/
structure Prepared where
  program : Program
  survey : Survey
  theory : Theory
  axioms : Axioms

namespace Prepared

/-- Prepares a program with the default settings. -/
def ofBody (body : List Stmt) (name : Option (String × String)) (funcParams : TypeParams) :
    Except Fault Prepared := do
  let program ← Program.read {} body name
  let survey ← Survey.ofProgram {} none program funcParams {}
  let theory ← Theory.ofSurvey {} survey
  pure ⟨program, survey, theory, ← Axioms.ofTheory theory⟩

def infer (prepared : Prepared) : Except Fault Unit :=
  (Session.ofProgram prepared.theory prepared.axioms prepared.program).infer.1

theorem ofBody_eq_ok {name : Option (String × String)} {funcParams : TypeParams}
    {prepared : Prepared} (done : ofBody body name funcParams = .ok prepared) :
    Program.read {} body name = .ok prepared.program ∧
      Survey.ofProgram {} none prepared.program funcParams {} = .ok prepared.survey ∧
      Theory.ofSurvey {} prepared.survey = .ok prepared.theory := by
  obtain ⟨_, read, done⟩ := bind_ok done
  obtain ⟨_, surveyed, done⟩ := bind_ok done
  obtain ⟨_, built, done⟩ := bind_ok done
  obtain ⟨_, -, rfl⟩ := map_ok done
  exact ⟨read, surveyed, built⟩

end Prepared

end TypeInference
