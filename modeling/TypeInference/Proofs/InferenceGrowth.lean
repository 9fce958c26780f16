/- Inference only adds to its session, and keeps the classes that it has checked. -/

import TypeInference.Proofs.StatementSteps

namespace TypeInference

open List Grows

namespace Infer

variable {facts : ClassFacts} {session after : Session} {attr base : String}
  {steps : List (Stmt × Infer Meaning)}

variable {α : Type} {next : Term → Infer Unit}

theorem run_theory_bind (next : Theory → Infer α) :
    (theory >>= next).run session = (next session.theory).run session := rfl

/-- The shape of a method that a step goes on with. -/
theorem exists_shape_of_run {className : String} {next : MethodShape → Infer Unit}
    (done : (methodShape className attr >>= next).run session = (.ok (), after)) :
    ∃ shape, session.theory.method? className attr = some shape ∧
      (next shape).run session = (.ok (), after) := by
  obtain ⟨shape, mid, isShape, rest⟩ := run_bind_ok done
  rw [methodShape, run_theory_bind] at isShape
  split at isShape
  · next found known =>
    obtain ⟨rfl, rfl⟩ := run_pure_ok isShape
    exact ⟨found, known, rest⟩
  · exact absurd isShape run_throw_ne_ok

/-- The part of a type that a step goes on with. -/
theorem run_of_access {accessor : String} {whole : Term}
    (done : (access accessor whole >>= next).run session = (.ok (), after)) :
    (next (.get accessor whole)).run session = (.ok (), after) := by
  obtain ⟨part, mid, isPart, rest⟩ := run_bind_ok done
  obtain ⟨isOk, rfl⟩ := Prod.mk.inj isPart
  unfold TypeSort.get at isOk
  split at isOk
  · obtain rfl := Except.ok.inj isOk
    exact rest
  · cases isOk

theorem mem_of_run_assert {message : String} {parts : List Formula}
    (done : (assert message parts).run session = (.ok (), after)) :
    ⟨message, parts⟩ ∈ after.log.hard := by
  obtain rfl := (Prod.mk.inj done).2
  exact Array.mem_push_self

/-- An inferred method is compared with that of a base. -/
theorem overrides_of_run (done : (overriding facts attr base).run session = (.ok (), after)) :
    facts.Overrides session.theory after.log attr base := by
  obtain ⟨baseShape, given, rest⟩ := exists_shape_of_run done
  obtain ⟨shape, own, compared⟩ := exists_shape_of_run rest
  intro _ _ isShape isBaseShape ownReceiver receiver
  obtain rfl := Option.some.inj (own.symm.trans isShape)
  obtain rfl := Option.some.inj (given.symm.trans isBaseShape)
  have notStatic : ¬ (baseShape.isStatic || shape.isStatic) = true := by
    simp [ownReceiver, receiver]
  dsimp only at compared
  split at compared
  · next isStatic => exact absurd isStatic notStatic
  split at compared
  · exact absurd compared run_throw_bind_ne_ok
  split at compared
  · exact absurd compared run_throw_bind_ne_ok
  obtain ⟨⟨⟩, mid, args, results⟩ := run_bind_ok compared
  constructor
  · intro index within
    have listed : index ∈ List.range (baseShape.args - 1) := mem_range.mpr (by omega)
    obtain ⟨start, finish, step, -, left⟩ := exists_run_forM args listed
    have asserted := run_of_access (run_of_access step)
    exact Log.mem_of_le (left.trans (le results)).log (mem_of_run_assert asserted)
  · obtain ⟨⟨⟩, _, asserted, preferred⟩ := run_bind_ok (run_of_access (run_of_access results))
    exact Log.mem_of_le (le preferred).log (mem_of_run_assert asserted)

/-- The type of a known attribute that a step goes on with. -/
theorem run_of_knownAttr (done : (knownAttr base attr >>= next).run session = (.ok (), after)) :
    (next (.classAttr base attr)).run session = (.ok (), after) := by
  obtain ⟨type, mid, isType, rest⟩ := run_bind_ok done
  rw [knownAttr, run_theory_bind] at isType
  split at isType
  · obtain ⟨rfl, rfl⟩ := run_pure_ok isType
    exact rest
  · exact absurd isType run_throw_ne_ok

/-- An inherited method has the type of its origin. -/
theorem inheritance_of_run (done : (memberOrigin facts attr).run session = (.ok (), after))
    (notInit : attr ≠ "__init__") (isMethod : facts.methods.contains attr) {origin : String}
    (inherited : facts.inherited.get? attr = some origin) :
    facts.inheritance attr origin ∈ after.log.hard := by
  have known : facts.inherited.contains attr = true := by
    rw [← Table.isSome_get?, inherited]
    rfl
  have notOwn : ¬ (attr == "__init__" || facts.isOwnMethod attr) = true := by
    unfold ClassFacts.isOwnMethod
    split <;> simp [notInit, known]
  unfold memberOrigin at done
  rw [if_neg notOwn, if_pos isMethod, inherited] at done
  obtain ⟨⟨⟩, mid, asserted, rest⟩ := run_bind_ok (run_of_knownAttr done)
  exact Log.mem_of_le (le rest).log (mem_of_run_assert asserted)

/-- A method is compared with those of all bases. -/
theorem overrides_of_run_forM
    (done : (facts.bases.forM fun base => do
      if ((← theory).method? base attr).isSome then overriding facts attr base).run session =
        (.ok (), after))
    (isBase : base ∈ facts.bases) (hasMethod : (session.theory.method? base attr).isSome) :
    facts.Overrides session.theory after.log attr base := by
  obtain ⟨start, finish, step, reached, left⟩ := exists_run_forM done isBase
  rw [← reached.theory] at hasMethod ⊢
  rw [run_theory_bind, if_pos hasMethod] at step
  exact (overrides_of_run step).mono left.log

theorem checksMember_of_run (done : (classMember facts attr).run session = (.ok (), after)) :
    facts.ChecksMember session.theory after.log attr := by
  obtain ⟨⟨⟩, mid, origin, rest⟩ := run_bind_ok done
  constructor
  · intro notInit isMethod _ inherited
    have left : mid ≤ after := by
      split at rest
      · exact le rest
      · dsimp only at rest
        split at rest <;> exact le rest
    exact Log.mem_of_le left.log (inheritance_of_run origin notInit isMethod inherited)
  · intro notInit own bound base isBase hasMethod
    obtain ⟨type, isBound⟩ : ∃ type, facts.bound.get? attr = some type := by
      rw [← Option.isSome_iff_exists, Table.isSome_get?, bound]
    have compares : (!facts.inherited.contains attr && attr != "__init__") = true := by
      simp [own, notInit]
    have sameTheory := (le origin).theory
    rw [isBound] at rest
    dsimp only at rest
    rw [← sameTheory] at hasMethod ⊢
    split at rest
    · rw [if_pos compares] at rest
      exact overrides_of_run_forM rest isBase hasMethod
    · obtain ⟨_, _, formula, rest⟩ := run_bind_ok rest
      obtain ⟨⟨⟩, stated, asserted, rest⟩ := run_bind_ok rest
      have reached := (le formula).trans (le asserted)
      rw [if_pos compares] at rest
      rw [← reached.theory] at hasMethod ⊢
      exact overrides_of_run_forM rest isBase hasMethod

/-- A class with all members inferred is checked. -/
theorem isChecked_of_run {attrs : List String}
    (known : session.theory.survey.instanceAttrs.get? facts.name = some attrs)
    (methods : session.theory.survey.methods.get? facts.name = some facts.methods)
    (inherited : session.theory.survey.inheritance.supers.get? facts.name = some facts.inherited)
    (done : (attrs.forM (classMember facts)).run session = (.ok (), after)) :
    facts.IsChecked session.theory after.log := by
  refine ⟨methods, inherited, fun {member} isAttr => ?_⟩
  have listed : member ∈ attrs := by simpa [Theory.hasInstanceAttr, known] using isAttr
  obtain ⟨start, finish, step, reached, left⟩ := exists_run_forM done listed
  have checked := (checksMember_of_run step).mono left.log
  rwa [reached.theory] at checked

/-- A class that is checked is kept. -/
theorem run_defineClass_eq_ok {object : Meaning}
    (done : (defineClass facts object).run session = (.ok (), after))
    (checked : facts.IsChecked session.theory session.log) :
    session ≤ after ∧ (facts, object) ∈ after.classes := by
  obtain ⟨type, _, isType, rest⟩ := run_bind_ok done
  obtain ⟨term, _, isTerm, rest⟩ := run_bind_ok rest
  have reached := (le isType).trans (le isTerm)
  obtain ⟨mid, stated, kept⟩ : ∃ mid, session ≤ mid ∧
      { mid with classes := mid.classes ++ [(facts, object)] } = after := by
    split at rest
    · exact ⟨_, reached, (Prod.mk.inj rest).2⟩
    · obtain ⟨_, _, formula, rest⟩ := run_bind_ok rest
      obtain ⟨⟨⟩, _, asserted, rest⟩ := run_bind_ok rest
      exact ⟨_, reached.trans ((le formula).trans (le asserted)), (Prod.mk.inj rest).2⟩
  subst kept
  refine ⟨⟨stated.theory, stated.sources, stated.method, stated.log, stated.declared,
    fun entry member => ?_, fun entry member => ?_⟩, mem_append_right _ mem_cons_self⟩
  · exact mem_append_left _ (stated.classes entry member)
  · rcases mem_append.mp member with early | new
    · exact stated.checked entry early
    · obtain rfl := mem_singleton.mp new
      right
      have later := checked.mono stated.log
      rwa [← stated.theory] at later

/-- The bases of a class that a step goes on with. -/
theorem run_of_baseNames {bases : List Expr} {next : List String → Infer α} {value : α}
    (done : (baseNames bases >>= next).run session = (.ok value, after)) :
    (next ((bases.filterMap Expr.id?).filter (· != "object")).eraseDups).run session =
      (.ok value, after) := by
  obtain ⟨names, mid, areNames, rest⟩ := run_bind_ok done
  obtain ⟨named, areNamed, rfl⟩ := run_map_ok areNames
  have same := run_flatMapM_eq_ok (fun base => (base.id?.filter (· != "object")).toList) ?_ areNamed
  · obtain ⟨rfl, rfl⟩ := same
    rwa [filter_filterMap, filterMap_eq_flatMap_toList]
  · intro base names before after done
    unfold baseName at done
    split at done
    · obtain ⟨rfl, rfl⟩ := run_pure_ok done
      exact ⟨rfl, rfl⟩
    · exact absurd done run_throw_ne_ok
    · obtain ⟨rfl, rfl⟩ := run_pure_ok done
      exact ⟨rfl, rfl⟩
    · next id _ other =>
      rw [run_theory_bind] at done
      split at done
      · exact absurd done run_throw_bind_ne_ok
      · obtain ⟨rfl, rfl⟩ := run_pure_ok done
        have isName : (id != "object") = true := by simpa using other
        simp [Expr.id?, Option.filter, isName]
    · exact absurd done run_throw_ne_ok

instance (c : ClassDef) : Grows (openClass c) := by
  unfold openClass
  infer_instance

/-- The members of a class are inferred in its scope. -/
theorem grows_members (grows : ∀ entry ∈ steps, Grows entry.2) (inherited : Table String String)
    (scope : Nat) :
    Grows (inChild scope (steps.forM fun (member, step) => do
      if !isLeftOut inherited member then let _ ← step)) := by
  have each : ∀ entry ∈ steps, Grows (do if !isLeftOut inherited entry.1 then let _ ← entry.2) := by
    intro entry member
    have := grows entry member
    infer_instance
  have loop : Grows (steps.forM fun entry => do
      if !isLeftOut inherited entry.1 then let _ ← entry.2) :=
    fun start => .forM_of_mem fun entry member => each entry member start
  exact inferInstanceAs (Grows (inChild scope _))

/-- A class definition that is inferred is kept. -/
theorem run_classDef_eq_ok {c : ClassDef} {value : Meaning}
    (grows : ∀ entry ∈ steps, Grows entry.2)
    (done : (classDef c steps).run session = (.ok value, after)) :
    session ≤ after ∧ ∃ facts object, (facts, object) ∈ after.classes ∧ facts.name = c.name ∧
      facts.method = session.method ∧ facts.bases = (Inheritance.parents c).eraseDups := by
  obtain ⟨scope, _, opened, rest⟩ := run_bind_ok done
  obtain ⟨object, start, found, rest⟩ := run_bind_ok rest
  have reached := (le opened).trans (le found)
  rw [run_theory_bind] at rest
  dsimp only at rest
  split at rest
  · next attrs methods inherited isAttrs isMethods isInherited =>
    obtain ⟨⟨⟩, inside, inferred, rest⟩ := run_bind_ok rest
    have rest := run_of_baseNames rest
    rw [run_get_bind] at rest
    obtain ⟨bound, before, isBound, rest⟩ := run_bind_ok rest
    obtain ⟨⟨⟩, checked, members, rest⟩ := run_bind_ok rest
    obtain ⟨⟨⟩, _, defined, last⟩ := run_bind_ok rest
    have grown : start ≤ before :=
      (@Grows.le _ _ _ _ _ (grows_members grows inherited scope) _ _ _ inferred).trans (le isBound)
    rw [← grown.theory] at isAttrs isMethods isInherited
    have isChecked := isChecked_of_run isAttrs isMethods isInherited members
    rw [← (le members).theory] at isChecked
    obtain ⟨kept, isKept⟩ := run_defineClass_eq_ok defined isChecked
    obtain ⟨-, rfl⟩ := run_pure_ok last
    have sameMethod : inside.method = session.method :=
      (le isBound).method.symm.trans (grown.method.trans reached.method)
    exact ⟨reached.trans (grown.trans ((le members).trans kept)), _, object, isKept, rfl,
      sameMethod, rfl⟩
  · exact absurd rest run_throw_ne_ok

end Infer

/-- Classes are kept when they have been checked. -/
instance : Law.growth.KeepsClasses where
  classDef _ each := ⟨of_le fun done =>
    (Infer.run_classDef_eq_ok (fun entry member => (each entry member).holds) done).1⟩

namespace Stmt

variable {importer : Importer} (imports : ∀ name, Grows (importer name))

include imports

theorem suitsAll_growth (node : Node) : Law.growth.SuitsAll importer (fun _ => True) node :=
  fun _ _ => ⟨fun limits => limits.2.elim, fun name _ _ _ => imports name, fun _ _ => trivial⟩

theorem grows_inferEach (stmts : List Stmt) : ∀ step ∈ inferEach importer stmts, Grows step := by
  have each := @obeysEach_inferEach _ _ (fun _ => True) _ stmts (fun _ _ => False)
    (Law.admits_of_suits fun _ _ => suitsAll_growth imports _)
  exact fun step member => (each.each step member).holds

theorem grows_infer (stmt : Stmt) : Grows (infer importer stmt) :=
  grows_inferEach imports [stmt] _ List.mem_cons_self

end Stmt

namespace Infer

section Modules

variable (importer : Importer) [imports : ∀ name, Grows (importer name)]

instance (stmt : Stmt) : Grows (stmt.infer importer) := stmt.grows_infer imports

instance (owner : Option String) (stmt : Stmt) : Grows (declaration importer owner stmt) := by
  have kept (owner name : String) (signature : Signature) : Grows (modify fun session =>
      { session with here := session.here.addMethod owner name signature } : Infer PUnit) :=
    modify fun session => session.le_of_scopes _ _
  unfold declaration
  split <;> infer_instance

/-- The selected statements. Only the used names change. -/
theorem run_selectDeclarations_eq_ok {body stmts : List Stmt} {session after : Session}
    (done : (selectDeclarations body).run session = (.ok stmts, after)) :
    ∃ selection, Selection.ofBody (session.theory.survey.expand body) session.names false =
        .ok selection ∧
      (∀ stmt ∈ stmts, .stmt stmt ∈ selection.nodes) ∧
      after = { session with names := selection.names } := by
  rw [selectDeclarations, run_get_bind] at done
  obtain ⟨selection, mid, selected, rest⟩ := run_bind_ok done
  obtain ⟨⟨⟩, noted, isNoted, last⟩ := run_bind_ok rest
  obtain rfl := (Prod.mk.inj isNoted).2
  obtain ⟨rfl, rfl⟩ := run_pure_ok last
  refine ⟨selection, (Prod.mk.inj selected).1, fun stmt member => ?_, rfl⟩
  obtain ⟨declared, isDeclared, found⟩ := List.mem_filterMap.mp member
  cases declared with
  | stmt value => exact Option.some.inj found ▸ isDeclared
  | library name => cases found

instance (body : List Stmt) : Grows (selectDeclarations body) := by
  refine of_le fun done => ?_
  obtain ⟨_, -, -, rfl⟩ := run_selectDeclarations_eq_ok done
  exact Session.le_of_classes_eq rfl rfl le_rfl rfl

/-- The scope of declared functions is kept under a new name. -/
instance (name : String) (owner : Option String) (body : List Stmt) :
    Grows (declaredScope importer name owner body) := by
  refine of_le fun {session scope after} done => ?_
  rw [declaredScope, run_get_bind] at done
  split at done
  · exact le done
  · next new =>
    obtain ⟨stmts, selected, isSelected, rest⟩ := run_bind_ok done
    obtain ⟨start, opened, isStart, rest⟩ := run_bind_ok rest
    obtain ⟨⟨⟩, _, noted, rest⟩ := run_bind_ok rest
    obtain rfl := (Prod.mk.inj noted).2
    obtain ⟨_, inferred, isScope, rest⟩ := run_bind_ok rest
    obtain ⟨⟨⟩, _, kept, last⟩ := run_bind_ok rest
    obtain rfl := (Prod.mk.inj kept).2
    obtain ⟨rfl, rfl⟩ := run_pure_ok last
    have reached : session ≤ opened := (le isSelected).trans (le isStart)
    have inside : ({ opened with declared := opened.declared.insert name start } : Session) ≤
      inferred := le isScope
    have later := Session.le_forget_declared inside
    have grown := (Session.le_forget_declared reached).trans later
    refine ⟨grown.theory, grown.sources, grown.method, grown.log, fun {other _} known => ?_,
      grown.classes, grown.checked⟩
    have differs : other ≠ name := by
      rintro rfl
      exact nomatch new.symm.trans known
    have early := reached.declared known
    rw [← Table.get?_insert_of_ne _ _ differs] at early
    exact (Table.get?_insert_of_ne _ _ differs).trans (inside.declared early)

instance : Grows (declarations importer) := by
  have functions (scope : Scope) : Grows (modify fun session =>
      { session with here := { session.here with
        types := session.here.types.union scope.types } } : Infer PUnit) :=
    modify fun session => session.le_of_scopes _ _
  have methods (scope : Scope) : Grows (modify fun session =>
      { session with here := { session.here with
        methods := session.here.methods.union scope.methods } } : Infer PUnit) :=
    modify fun session => session.le_of_scopes _ _
  unfold declarations
  dsimp only
  infer_instance

instance (key : ModuleKey) (body : List Stmt) : Grows (library importer key body) := by
  unfold library
  infer_instance

instance (name : String) (key : ModuleKey) (body : List Stmt) :
    Grows (file importer name key body) := by
  have homes (classNames : List String) : Grows (modify fun session =>
      { session with classHomes := classNames.foldl (fun table className =>
        table.insert className name) session.classHomes } : Infer PUnit) :=
    modify fun session => Session.le_of_classes_eq rfl rfl le_rfl rfl
  unfold file
  exact andThen (homes _) fun _ => inferInstance

end Modules

theorem grows_moduleTo (depth : Nat) (name : String) : Grows (moduleTo depth name) := by
  induction depth generalizing name with
  | zero => exact inferInstanceAs (Grows (throw _ : Infer ModuleKey))
  | succ depth ih =>
    refine andThen inferInstance fun session => ?_
    dsimp only
    -- Whether there is such a library is not asked here.
    generalize (if Library.isLibrary name then ModuleKey.library name
      else .file (Files.moduleName name)) = key
    split
    · infer_instance
    · split <;> infer_instance

instance (name : String) : Grows (importer name) := by
  have := grows_moduleTo
  unfold importer
  infer_instance

end Infer

end TypeInference
