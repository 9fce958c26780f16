/- The inference of statements obeys all laws. -/

import TypeInference.Proofs.ExpressionSteps

namespace TypeInference

open List Stmt

variable {body part : List Stmt}

/-- The names that a statement deletes itself. -/
def Node.deleted : Node → List String
  | .stmt (.delete _ targets) => Expr.deletedAll targets
  | _ => []

/-- No statement at or below a node deletes other names. -/
abbrev Node.DeletesOnly (deletes : String → Prop) (node : Node) : Prop :=
  node.All fun inner => ∀ name ∈ inner.deleted, deletes name

/-- A node that may be inferred itself. -/
structure Law.Suits (law : Law) (importer : Importer) (deletes : String → Prop) (node : Node) :
    Prop where
  fits : ∀ limits : law.Limit, limits.1.Fits node
  imports : ∀ name ∈ node.imports, ∀ grants : Grants, grants.notes →
    law.holds (importer name) grants
  deletes : ∀ name ∈ node.deleted, deletes name

/-- A node that may be inferred with all that is below it. -/
abbrev Law.SuitsAll (law : Law) (importer : Importer) (deletes : String → Prop) (node : Node) :
    Prop :=
  node.All (law.Suits importer deletes)

variable {importer : Importer} {deletes : String → Prop} {node : Node}

theorem Law.SuitsAll.covers {law : Law} (suits : law.SuitsAll importer deletes node) :
    law.Covers node :=
  ⟨fun limits inner inside => (suits inner inside).fits limits⟩

theorem Node.DeletesOnly.suits (only : node.DeletesOnly deletes) :
    (Law.composed importer).SuitsAll importer deletes node :=
  fun inner inside => ⟨fun limits => limits.2.elim, fun name _ _ may => .imports may name,
    only inner inside⟩

instance (limits : Limits) (value : ConstantValue) : FailsWith limits.Accepts value.negate := by
  unfold ConstantValue.negate
  split <;> infer_instance

theorem Expr.failsWith_constantInt {limits : Limits} :
    (e : Expr) → FailsWith limits.Accepts e.constantInt
  | .unary _ .minus operand => by
    have : FailsWith limits.Accepts operand.constantInt := failsWith_constantInt operand
    unfold constantInt
    infer_instance
  | .unary _ .plus _ | .unary _ .not _ | .unary _ .invert _ | .name .. | .tuple .. | .list ..
  | .set .. | .dict .. | .binary .. | .boolean .. | .conditional .. | .compare .. | .call ..
  | .access .. | .subscript .. | .slice .. | .lambda .. | .comprehension ..
  | .dictComprehension .. | .joined .. | .formatted .. | .await .. | .yield .. | .yieldFrom ..
  | .starred .. | .named .. => .ok _
  | .literal _ value => by
    cases value <;> exact .ok _

namespace Infer

variable {law : Law} {grants : Grants} {names : Known}

-- Some rules take many steps one after the other.
set_option synthInstance.maxSize 512

section Blocks

variable (home : Option ModuleKey) (line : Nat) (body : List Stmt)

instance (steps : List (Infer Meaning)) [ObeysEach steps law grants] :
    (block line steps).Obeys law grants := by
  unfold block blockStep
  infer_instance

instance (test : Expr) : (narrowingOf home test).Obeys law grants := by
  unfold narrowingOf
  split <;> infer_instance

instance (types : Table String Meaning) (except : Option String) :
    (keepTypes line types except).Obeys law grants := by
  unfold keepTypes
  infer_instance

instance (sameType : Bool) (first second : Meaning) (joined : Term) :
    (branchParts sameType first second joined).Obeys law grants := by
  unfold branchParts
  infer_instance

instance (second : Table String Meaning) (entry : String × Meaning)
    [∀ name, grants.Binds name] : (joinEntry line second entry).Obeys law grants := by
  unfold joinEntry
  split <;> infer_instance

instance (test : Infer (Option Narrowing)) [∀ first second names,
      test.Obeys law ((grants.opening first names).opening second names)]
    (bodySteps elseSteps : List (Infer Meaning)) (names : Known) [grants.Opens body false names]
    [ObeysEach bodySteps law (grants.inside names)] [ObeysEach elseSteps law (grants.inside names)]
    [∀ name, grants.Binds name] [grants.Notes] :
    (branch line body test bodySteps elseSteps).Obeys law grants := by
  simp only [branch, halfBranch, startBranch, narrowFirst, joinScopes, bind_assoc, pure_bind]
  refine @openScope_bind _ _ _ _ _ _ _ names _ fun first => ?_
  refine @openScope_bind _ _ _ _ _ _ _ names _ fun second => ?_
  refine .andThen inferInstance fun narrowing => ?_
  split
  · refine .andThen inferInstance fun _ => ?_
    infer_instance
  · infer_instance

instance (test : Expr) [law.Covers (.expr test)] : (branchTest home test).Obeys law grants := by
  unfold branchTest
  infer_instance

instance (items : List WithItem) [∀ name, grants.Binds name]
    [covers : ∀ item : { item // item ∈ items }, law.Covers (.withItem item.1)] :
    (withItems home items).Obeys law grants := by
  unfold withItems
  refine .forM_of_mem fun item member => ?_
  have whole := covers ⟨item, member⟩
  obtain ⟨context, target⟩ := item
  cases target with
  | none => exact .pure _
  | some target =>
    have : law.Covers (.expr context) := whole.child mem_cons_self
    have : law.Covers (.expr target) := whole.child (mem_cons_of_mem _ mem_cons_self)
    infer_instance

/-- A named handler knows what the tried block defines. -/
theorem obeys_handler (result : Term) {step : HandlerStep} [grants.Opens body false names]
    (steps : ObeysEach step.steps law (if step.name.isSome then grants.inside names else grants)) :
    (handler home body result step).Obeys law grants := by
  unfold handler
  cases isName : step.name with
  | none =>
    rw [isName] at steps
    have : ObeysEach step.steps law grants := steps
    infer_instance
  | some name =>
    rw [isName] at steps
    have : ObeysEach step.steps law (grants.inside names) := steps
    infer_instance

/-- A try block obeys a law if its parts do. -/
theorem obeys_tryBlock (bodySteps elseSteps finalSteps : List (Infer Meaning))
    [ObeysEach bodySteps law grants] [ObeysEach elseSteps law grants]
    [ObeysEach finalSteps law grants] {handlers : List HandlerStep}
    [grants.Opens body false names] (each : ∀ step ∈ handlers, ObeysEach step.steps law
      (if step.name.isSome then grants.inside names else grants)) :
    (tryBlock home line body bodySteps elseSteps finalSteps handlers).Obeys law grants := by
  have handled (result : Term) :
      (handlers.forM (handler home body result)).Obeys law grants :=
    .forM_of_mem fun step member => obeys_handler home body result (each step member)
  unfold tryBlock
  infer_instance

end Blocks

instance (scope : HintScope) (target : Expr) (line : Nat) (args : List Expr)
    (keywords : List Keyword) [may : grants.Notes] :
    (declareTypeVar scope target line args keywords).Obeys law grants := by
  unfold declareTypeVar
  split
  · next name _ _ _ _ options =>
    refine .andThen (obeys_notes (fun _ => ?_) (fun session => ?_) fun _ => rfl) fun _ => ?_
    · exact ⟨rfl, rfl, rfl, rfl, rfl, rfl, rfl, rfl⟩
    · exact Session.le_of_classes_eq rfl rfl le_rfl rfl
    · refine .andThen inferInstance fun theory => ?_
      dsimp only
      split
      · split <;> infer_instance
      · infer_instance
  · infer_instance
  · infer_instance
  · infer_instance

section Functions

variable (f : FunctionDef)

instance (scope : HintScope) (param : Param) : (paramType scope param).Obeys law grants := by
  unfold paramType
  split <;> infer_instance

instance (limits : Limits) (params : List Meaning) (defaults index : Nat) :
    FailsWith limits.Accepts (defaultParam params defaults index) := by
  unfold defaultParam
  extract_lets start position
  split
  · infer_instance
  · split <;> infer_instance

instance (home : Option ModuleKey) (params : List Meaning) (defaults : List Expr)
    [covers : ∀ e : { e // e ∈ defaults }, law.Covers (.expr e.1)] :
    (defaultValues home params defaults).Obeys law grants := by
  unfold defaultValues
  refine .forM_of_mem fun entry member => ?_
  have := covers ⟨entry.1, fst_mem_of_mem_zipIdx member⟩
  dsimp only
  infer_instance

instance (hint : Expr) (body : Infer Term) [body.Obeys law grants] :
    (hintedResult f hint body).Obeys law grants := by
  unfold hintedResult
  refine .andThen inferInstance fun result => ?_
  refine .andThen inferInstance fun theory => ?_
  dsimp only
  split <;> infer_instance

instance (inherited : Bool) (body : Infer Term) [body.Obeys law grants] :
    (plainResult f inherited body).Obeys law grants := by
  unfold plainResult
  dsimp only
  split <;> infer_instance

instance (object : Meaning) (isMethod : Bool) (vars : List Term) (params : List Meaning)
    (result : Meaning) [law.Allows .function (·.maxFunc) params.length] :
    (define f object isMethod vars params result).Obeys law grants := by
  unfold define genericFunction
  dsimp only
  infer_instance

variable (steps : List (Infer Meaning)) {names : Known} [sees : grants.Opens f.body true names]
  [inside : ObeysEach steps law (grants.inside names)] [grants.Binds f.name]
  [may : grants.Notes] [law.Finds grants f.name]
  [allows : law.Allows .function (·.maxFunc) f.params.args.length]
  [covers : ∀ e : { e // e ∈ f.params.defaults }, law.Covers (.expr e.1)]

include may allows covers sees inside

instance (isMethod : Bool) : (functionBody f isMethod none steps).Obeys law grants := by
  have noted {grants : Grants} [may : grants.Notes] : (modify fun session =>
      { session with here := { session.here with
        functions := session.here.functions.insert f.name f } } :
      Infer PUnit).Obeys law grants :=
    obeys_notes (fun _ => ⟨rfl, rfl, rfl, rfl, rfl, rfl, rfl, rfl⟩)
      (fun session => session.le_of_scopes _ _) fun _ => rfl
  unfold functionBody isInherited
  dsimp only
  refine .andThen inferInstance fun theory => ?_
  refine .andThen inferInstance fun session => ?_
  refine @openScope_bind _ _ _ _ _ _ _ names _ fun scope => ?_
  refine .bind_of_ok inferInstance fun params done => ?_
  have := allows.of_mapM done
  refine .andThen inferInstance fun object => ?_
  refine .andThen inferInstance fun _ => ?_
  refine .andThen inferInstance fun inherited => ?_
  split
  · exact .pure _
  · refine .andThen noted fun _ => ?_
    refine .andThen inferInstance fun _ => ?_
    split <;> infer_instance

instance : (functionDef f steps).Obeys law grants := by
  unfold functionDef
  simp only [enterMethod_functionBody]
  infer_instance

end Functions

section Classes

instance (className method : String) : (methodShape className method).Obeys law grants := by
  unfold methodShape
  refine .andThen inferInstance fun theory => ?_
  split <;> infer_instance

instance (className attr : String) : (knownAttr className attr).Obeys law grants := by
  unfold knownAttr
  infer_instance

instance (accessor : String) (whole : Term) : (access accessor whole).Obeys law grants := by
  unfold access
  infer_instance

instance (bases : List Expr) : (baseNames bases).Obeys law grants := by
  have named : (bases.flatMapM baseName).Obeys law grants := by
    refine .flatMapM_of_mem fun base _ => ?_
    unfold baseName
    split <;> infer_instance
  unfold baseNames
  infer_instance

instance (className : String) : (instanceType className).Obeys law grants := by
  unfold instanceType
  refine .andThen inferInstance fun theory => ?_
  dsimp only
  split
  · infer_instance
  · split <;> infer_instance

instance (className attr : String) : (methodFunction className attr).Obeys law grants := by
  unfold methodFunction
  refine .andThen inferInstance fun theory => ?_
  split <;> infer_instance

variable (facts : ClassFacts)

instance (attr : String) : (receiver facts attr).Obeys law grants := by
  unfold receiver
  infer_instance

instance (attr base : String) : (overriding facts attr base).Obeys law grants := by
  unfold overriding
  infer_instance

instance (attr : String) : (memberOrigin facts attr).Obeys law grants := by
  unfold memberOrigin inheritedInitialiser
  dsimp only
  split
  · refine .andThen inferInstance fun _ => ?_
    split
    · split <;> infer_instance
    · infer_instance
  · split
    · split <;> infer_instance
    · infer_instance

instance (attr : String) : (classMember facts attr).Obeys law grants := by
  unfold classMember
  refine .andThen inferInstance fun _ => ?_
  split
  · infer_instance
  · dsimp only
    split <;> infer_instance

instance (object : Meaning) [notes : grants.Notes] [may : law.Defines] :
    (defineClass facts object).Obeys law grants := by
  have added : (modify fun session =>
      { session with classes := session.classes ++ [(facts, object)] } :
      Infer PUnit).Obeys law grants :=
    ⟨law.keeps notes.allowed may.allowed _⟩
  unfold defineClass
  refine .andThen inferInstance fun type => .andThen inferInstance fun term => ?_
  dsimp only
  split <;> infer_instance

/-- A class obeys a law if its body does. -/
theorem obeys_classDef (c : ClassDef) {steps : List (Stmt × Infer Meaning)} [grants.Notes]
    [law.Defines] [law.Finds grants c.name] [grants.Opens c.body false names]
    (each : ∀ entry ∈ steps, entry.2.Obeys law (grants.inside names)) :
    (classDef c steps).Obeys law grants := by
  have members (inherited : Table String String) :
      (steps.forM fun entry => do if !isLeftOut inherited entry.1 then let _ ← entry.2 :
        Infer PUnit).Obeys law (grants.inside names) := by
    refine .forM_of_mem fun entry member => ?_
    have := each entry member
    infer_instance
  refine @openClass_bind _ _ _ _ _ names _ fun scope => ?_
  refine .andThen inferInstance fun object => ?_
  refine .andThen inferInstance fun theory => ?_
  dsimp only
  split
  · next inherited _ _ _ =>
    refine .andThen ⟨law.enters mem_cons_self mem_cons_self (members inherited).holds⟩ fun _ => ?_
    infer_instance
  · infer_instance

end Classes

section Statements

variable (home : Option ModuleKey)

instance (importer : Importer) (names : List Alias) [grants.Notes] [∀ name, grants.Binds name]
    [imports : ∀ item : { item // item ∈ names }, (importer item.1.name).Obeys law grants] :
    (importModules importer names).Obeys law grants := by
  refine .forM_of_mem fun item member => ?_
  have := imports ⟨item, member⟩
  infer_instance

instance (importer : Importer) (moduleName : Option String) (names : List Alias) [grants.Notes]
    [∀ name, grants.Binds name]
    [imports : ∀ name : { name // moduleName = some name ∧ name ≠ "typing" },
      (importer name.1).Obeys law grants] :
    (importFrom importer moduleName names).Obeys law grants := by
  unfold importFrom importAll importName
  split
  · infer_instance
  · infer_instance
  · next name notTyping =>
    have := imports ⟨name, rfl, notTyping⟩
    refine .andThen inferInstance fun key => ?_
    refine .andThen inferInstance fun session => ?_
    dsimp only
    split <;> infer_instance

instance (stmt : Stmt) (targets : List Expr) (value : Expr) [may : grants.Notes]
    [∀ name, grants.Binds name] [covers : ∀ e : { e // e ∈ targets }, law.Covers (.expr e.1)]
    [law.Covers (.expr value)] :
    (assignment stmt home targets value).Obeys law grants := by
  have kept (type : Meaning) : (modify fun session => { session with here :=
      { session.here with assignments := session.here.assignments ++ [(stmt, type)] } } :
      Infer PUnit).Obeys law grants :=
    obeys_notes (fun _ => ⟨rfl, rfl, rfl, rfl, rfl, rfl, rfl, rfl⟩)
      (fun session => session.le_of_scopes _ _) fun _ => rfl
  unfold assignment
  split
  · infer_instance
  · refine .andThen inferInstance fun type => .forM_of_mem fun target member => ?_
    have := covers ⟨target, member⟩
    infer_instance

instance (type : Meaning) (value : ConstantValue) (line : Nat) :
    (fixedWidthConstant type value line).Obeys law grants := by
  unfold fixedWidthConstant
  split <;> infer_instance

instance (target hint : Expr) (value : Option Expr) (line : Nat) [∀ name, grants.Binds name]
    [law.Covers (.expr target)]
    [covers : ∀ e : { e // value = some e }, law.Covers (.expr e.1)] :
    (hintedAssignment home target hint value line).Obeys law grants := by
  unfold hintedAssignment finishAssignment
  refine .andThen inferInstance fun type => ?_
  dsimp only
  split
  · infer_instance
  · refine .andThen inferInstance fun _ => ?_
    split
    · infer_instance
    · next value =>
      have := covers ⟨value, rfl⟩
      have (limits : law.Limit) : FailsWith limits.1.Accepts value.constantInt :=
        value.failsWith_constantInt
      infer_instance

instance (exception : Option Expr)
    [covers : ∀ e : { e // exception = some e }, law.Covers (.expr e.1)] :
    (raise home exception).Obeys law grants := by
  unfold raise
  split
  · next args _ =>
    refine .forM_of_mem fun arg member => ?_
    have : law.Covers (.expr arg) := (covers ⟨_, rfl⟩).child
      (mem_cons_of_mem _ (mem_append_left _ (mem_map_of_mem member)))
    infer_instance
  · infer_instance

instance (act : Infer Unit) [act.Obeys law grants] : (noType act).Obeys law grants := by
  unfold noType
  infer_instance

end Statements

end Infer

/-- The name that a node itself defines. -/
def Node.defined : Node → List String
  | .stmt value => value.ownNames
  | _ => []

namespace Limits

variable {limits : Limits} {deletes known : String → Prop} {name : String}

/-- What is defined is not deleted, and classes are known. -/
structure Defines (limits : Limits) (deletes : String → Prop) (node : Node) : Prop where
  spared : ∀ name ∈ node.defined, ¬ deletes name
  isClass : ∀ c, node = .stmt (.classDef c) → c.name ∈ limits.theory.classNames

theorem Defines.announced (defines : ∀ stmt ∈ body, (Node.stmt stmt).All (limits.Defines deletes))
    (member : name ∈ definedNames body) : name ∈ limits.theory.announced body ∧ ¬ deletes name := by
  obtain ⟨stmt, inside, isOwn⟩ := mem_definedNames_iff.mp member
  have own := (Node.all_iff.mp (defines stmt inside)).1
  refine ⟨mem_announced inside (fun c isClass => ?_) isOwn, own.spared name isOwn⟩
  exact own.isClass c (congrArg Node.stmt isClass)

/-- Definitions may be unknown, or their names are known. -/
def Announces (limits : Limits) (deletes known : String → Prop) (stmts : List Stmt) : Prop :=
  limits.IsLenient ∨ (∀ stmt ∈ stmts, (Node.stmt stmt).All (limits.Defines deletes)) ∧
    ∃ names, areAnnounced names stmts = true ∧ ∀ name ∈ names, known name ∧ ¬ deletes name

namespace Announces

variable {stmt : Stmt}

theorem found (announces : limits.Announces deletes known [stmt])
    (needs : ∀ names, stmt.isAnnounced names → names.contains name) :
    limits.unknown name ∨ known name ∧ ¬ deletes name := by
  rcases announces with lenient | ⟨-, names, announced, isKnown⟩
  · exact .inl (lenient.unknown name)
  · have own := areAnnounced_iff.mp announced stmt (mem_singleton_self _)
    exact .inr (isKnown name (contains_iff_mem.mp (needs names own)))

/-- Statements that stand below a statement. -/
theorem below (announces : limits.Announces deletes known [stmt])
    (inside : ∀ inner ∈ part, (Node.stmt inner).walk ⊆ (Node.stmt stmt).walk)
    (announced : ∀ names, stmt.isAnnounced names → areAnnounced names part) :
    limits.Announces deletes known part := by
  rcases announces with lenient | ⟨defines, names, own, isKnown⟩
  · exact .inl lenient
  · exact .inr ⟨fun inner member node isBelow => defines stmt (mem_singleton_self _) node
      (inside inner member isBelow), names, announced names
        (areAnnounced_iff.mp own stmt (mem_singleton_self _)), isKnown⟩

/-- Statements below a statement, in a scope for some. -/
theorem within {known : Known} (announces : limits.Announces deletes (known limits.theory) [stmt])
    {isFunction : Bool}
    (inside : ∀ inner ∈ body ++ part, (Node.stmt inner).walk ⊆ (Node.stmt stmt).walk)
    (announced : ∀ names, stmt.isAnnounced names → areAnnounced
      (definedNames body ++ if isFunction then [] else names) part) :
    limits.Announces deletes (known.within body isFunction limits.theory) part := by
  rcases announces with lenient | ⟨defines, names, own, isKnown⟩
  · exact .inl lenient
  · have each : ∀ inner ∈ body ++ part, (Node.stmt inner).All (limits.Defines deletes) :=
      fun inner member node isBelow => defines stmt (mem_singleton_self _) node
        (inside inner member isBelow)
    refine .inr ⟨fun inner member => each inner (mem_append_right _ member), _,
      announced names (areAnnounced_iff.mp own stmt (mem_singleton_self _)),
      fun name member => ?_⟩
    rcases mem_append.mp member with isOwn | around
    · have inBody := fun inner member => each inner (mem_append_left _ member)
      exact (Defines.announced inBody isOwn).imp_left .inl
    · cases isFunction with
      | true => cases around
      | false => exact (isKnown name around).imp_left (.inr ⟨rfl, ·⟩)

end Announces

end Limits

/-- Statements that may be inferred where some names are known. -/
structure Law.Admits (law : Law) (importer : Importer) (deletes : String → Prop) (known : Known)
    (stmts : List Stmt) : Prop where
  suits : ∀ stmt ∈ stmts, law.SuitsAll importer deletes (.stmt stmt)
  announces : ∀ limits : law.Limit, limits.1.Announces deletes (known limits.1.theory) stmts

namespace Law

variable {law : Law} {importer : Importer} {deletes : String → Prop} {known : Known}
  {stmts : List Stmt} {stmt : Stmt}

theorem admits_of_suits [free : law.IsFree]
    (suits : ∀ stmt ∈ stmts, law.SuitsAll importer deletes (.stmt stmt)) :
    law.Admits importer deletes known stmts :=
  ⟨suits, fun limits => absurd limits.2 (free.free _)⟩

namespace Admits

theorem own (admits : law.Admits importer deletes known [stmt]) :
    law.SuitsAll importer deletes (.stmt stmt) := admits.suits stmt (mem_singleton_self _)

theorem subset (admits : law.Admits importer deletes known stmts)
    (inside : ∀ stmt ∈ part, stmt ∈ stmts) : law.Admits importer deletes known part where
  suits stmt member := admits.suits stmt (inside stmt member)
  announces limits := by
    refine (admits.announces limits).imp_right fun ⟨defines, names, announced, isKnown⟩ => ?_
    refine ⟨fun stmt member => defines stmt (inside stmt member), names, ?_, isKnown⟩
    exact areAnnounced_iff.mpr fun stmt member =>
      areAnnounced_iff.mp announced stmt (inside stmt member)

section

variable (admits : law.Admits importer deletes known [stmt])
include admits

theorem finds (name : String) (needs : ∀ names, stmt.isAnnounced names → names.contains name) :
    law.Finds (.free deletes known) name :=
  ⟨fun limits => (admits.announces limits).found needs⟩

theorem below (part : List Stmt)
    (announced : ∀ names, stmt.isAnnounced names → areAnnounced names part)
    (inside : ∀ inner ∈ part, .stmt inner ∈ (Node.stmt stmt).children := by
      simp +contextual [Node.children, Node.ofStmt, Node.ofStmts]) :
    law.Admits importer deletes known part where
  suits inner member := admits.own.child (inside inner member)
  announces limits := (admits.announces limits).below
    (fun inner member => Node.walk_subset (Node.mem_walk_child (inside inner member))) announced

theorem within (body part : List Stmt)
    (isFunction : Bool) (announced : ∀ names, stmt.isAnnounced names → areAnnounced
      (definedNames body ++ if isFunction then [] else names) part)
    (inside : ∀ inner ∈ body ++ part, .stmt inner ∈ (Node.stmt stmt).children := by
      simp +contextual [Node.children, Node.ofStmt, Node.ofStmts]) :
    law.Admits importer deletes (known.within body isFunction) part where
  suits inner member := admits.own.child (inside inner (mem_append_right _ member))
  announces limits := (admits.announces limits).within
    (fun inner member => Node.walk_subset (Node.mem_walk_child (inside inner member))) announced

end

/-- A named handler is in a scope for the tried block. -/
theorem handler {site : Site} {orelse final : List Stmt} {handlers : List Handler}
    (admits : law.Admits importer deletes known [.tryBlock site body handlers orelse final])
    {handler : Handler} (member : handler ∈ handlers) : law.Admits importer deletes
      (if handler.name.isSome then known.within body false else known) handler.body := by
  have isChild :
      .handler handler ∈ (Node.stmt (.tryBlock site body handlers orelse final)).children :=
    by simp [Node.children, Node.ofStmt, member]
  have inHandler : ∀ inner ∈ handler.body, .stmt inner ∈ (Node.handler handler).children :=
    fun inner inside => by
      cases handler
      exact mem_append_right _ (mem_map_of_mem inside)
  have inside : ∀ inner ∈ handler.body, (Node.stmt inner).walk ⊆
      (Node.stmt (.tryBlock site body handlers orelse final)).walk := fun inner member =>
    List.Subset.trans (Node.walk_subset (Node.mem_walk_child (inHandler inner member)))
      (Node.walk_subset (Node.mem_walk_child isChild))
  have inBody : ∀ inner ∈ body, (Node.stmt inner).walk ⊆
      (Node.stmt (.tryBlock site body handlers orelse final)).walk := fun inner member =>
    Node.walk_subset (Node.mem_walk_child (by
      simp [Node.children, Node.ofStmt, Node.ofStmts, member]))
  have announced (names : List String)
      (own : (tryBlock site body handlers orelse final).isAnnounced names = true) :=
    areHandlersAnnounced_iff.mp (Bool.and_eq_true_iff.mp own).2 handler member
  refine ⟨fun inner member => (admits.own.child isChild).child (inHandler inner member), ?_⟩
  intro limits
  cases isName : handler.name with
  | none =>
    refine (admits.announces limits).below inside fun names own => ?_
    simpa [isName] using announced names own
  | some name =>
    refine (admits.announces limits).within (forall_mem_append.mpr ⟨inBody, inside⟩) ?_
    intro names own
    simpa [isName] using announced names own

end Admits

/-- Class definitions obey the law if their members do. -/
class KeepsClasses (law : Law) : Prop where
  classDef : ∀ {deletes : String → Prop} {known : Known} {c : ClassDef}
    {steps : List (Stmt × Infer Meaning)}, law.Finds (.free deletes known) c.name →
    (∀ entry ∈ steps, entry.2.Obeys law
      ((Grants.free deletes known).inside (known.within c.body false))) →
      (Infer.classDef c steps).Obeys law (.free deletes known)

instance [law.Defines] : law.KeepsClasses := ⟨fun _ => Infer.obeys_classDef _⟩

end Law

namespace Stmt

variable {law : Law} {importer : Importer} {deletes : String → Prop} {known : Known}

/-- Whether no statements are inferred within. -/
def isSimple : Stmt → Bool
  | .functionDef _ | .classDef _ | .ifElse .. | .whileLoop .. | .forLoop .. | .withBlock ..
  | .tryBlock .. => false
  | _ => true

/-- Simple statements obey a law that suits them. -/
theorem obeys_of_isSimple : (stmt : Stmt) → stmt.isSimple →
    law.SuitsAll importer deletes (.stmt stmt) →
      (infer importer stmt).Obeys law (.free deletes known)
  | .assign _ targets value, _, suits => by
    have : law.Covers (.expr value) := suits.covers.child (mem_append_right _ mem_cons_self)
    have (e : { e // e ∈ targets }) : law.Covers (.expr e.1) :=
      suits.covers.child (mem_append_left _ (mem_map_of_mem e.2))
    unfold infer
    infer_instance
  | .augAssign _ target _ value, _, suits => by
    have : law.Covers (.expr target) := suits.covers.child mem_cons_self
    have : law.Covers (.expr value) := suits.covers.child (mem_cons_of_mem _ mem_cons_self)
    unfold infer Infer.augmentedAssignment
    infer_instance
  | .annAssign _ target _ value _, _, suits => by
    have : law.Covers (.expr target) := suits.covers.child mem_cons_self
    have (e : { e // value = some e }) : law.Covers (.expr e.1) := suits.covers.child
      (by simp [Node.children, Node.ofStmt, Node.ofOption, Node.ofExprs, e.2])
    unfold infer
    infer_instance
  | .returnValue _ none, _, _ | .pass _, _, _ | .other .., _, _ => by
    unfold infer
    infer_instance
  | .returnValue _ (some value), _, suits | .expr _ value, _, suits => by
    have : law.Covers (.expr value) := suits.covers.child mem_cons_self
    unfold infer
    infer_instance
  | .delete site targets, _, suits => by
    have : (Expr.deleteAll site.home site.lineNumber targets).Obeys law (.free deletes known) :=
      Expr.obeys_deleteAll site.home site.lineNumber targets (Node.all_iff.mp suits).1.deletes
        fun e member => suits.covers.child (mem_map_of_mem member)
    unfold infer
    infer_instance
  | .importModules _ names, _, suits => by
    have (item : { item // item ∈ names }) :
        (importer item.1.name).Obeys law (.free deletes known) :=
      ⟨(Node.all_iff.mp suits).1.imports item.1.name (mem_map_of_mem item.2) _ trivial⟩
    unfold infer
    infer_instance
  | .importFrom _ moduleName _ _, _, suits => by
    have (name : { name // moduleName = some name ∧ name ≠ "typing" }) :
        (importer name.1).Obeys law (.free deletes known) :=
      ⟨(Node.all_iff.mp suits).1.imports name.1 (by simp [Node.imports, name.2]) _ trivial⟩
    unfold infer
    infer_instance
  | .raise _ exception _, _, suits => by
    have (e : { e // exception = some e }) : law.Covers (.expr e.1) := suits.covers.child
      (by simp [Node.children, Node.ofStmt, Node.ofOption, Node.ofExprs, e.2])
    unfold infer
    infer_instance

mutual

/-- A statement does only what those in it do. -/
theorem obeys_infer [law.KeepsClasses] : (stmt : Stmt) → {known : Known} →
    law.Admits importer deletes known [stmt] → (infer importer stmt).Obeys law (.free deletes known)
  | .ifElse _ test body orelse, _, admits | .whileLoop _ test body orelse, _, admits => by
    have : law.Covers (.expr test) := admits.own.covers.child mem_cons_self
    have := obeysEach_inferEach body (admits.within body body false
      fun _ own => (Bool.and_eq_true_iff.mp own).1)
    have := obeysEach_inferEach orelse (admits.within body orelse false
      fun _ own => (Bool.and_eq_true_iff.mp own).2)
    unfold infer
    infer_instance
  | .forLoop _ _ target source body orelse, _, admits => by
    have : law.Covers (.expr target) := admits.own.covers.child mem_cons_self
    have : law.Covers (.expr source) := admits.own.covers.child (mem_cons_of_mem _ mem_cons_self)
    have := obeysEach_inferEach body (admits.within body body false
      fun _ own => (Bool.and_eq_true_iff.mp own).1)
    have := obeysEach_inferEach orelse (admits.within body orelse false
      fun _ own => (Bool.and_eq_true_iff.mp own).2)
    unfold infer Infer.loopTarget
    infer_instance
  | .withBlock _ _ items body, _, admits => by
    have := obeysEach_inferEach body (admits.below body fun _ => id)
    have (item : { item // item ∈ items }) : law.Covers (.withItem item.1) :=
      admits.own.covers.child (mem_append_left _ (mem_map_of_mem item.2))
    unfold infer
    infer_instance
  | .tryBlock site body handlers orelse final, known, admits => by
    have blocks {names : List String}
        (own : (tryBlock site body handlers orelse final).isAnnounced names = true) :=
      Bool.and_eq_true_iff.mp (Bool.and_eq_true_iff.mp own).1
    have := obeysEach_inferEach body (admits.below body
      fun _ own => (Bool.and_eq_true_iff.mp (blocks own).1).1)
    have := obeysEach_inferEach orelse (admits.below orelse
      fun _ own => (Bool.and_eq_true_iff.mp (blocks own).1).2)
    have := obeysEach_inferEach final (admits.below final fun _ own => (blocks own).2)
    have handled := obeysEach_inferHandlers handlers fun _ member => admits.handler member
    have := Infer.obeys_tryBlock site.home site.lineNumber body (inferEach importer body)
      (inferEach importer orelse) (inferEach importer final) handled
    unfold infer
    infer_instance
  | .functionDef ⟨_, name, params, body, _, _, _⟩, _, admits => by
    have := obeysEach_inferEach body (admits.within body body true
      fun _ own => by simpa using (Bool.and_eq_true_iff.mp own).2)
    have := admits.finds name fun _ own => (Bool.and_eq_true_iff.mp own).1
    have : law.Allows .function (·.maxFunc) params.args.length :=
      ⟨fun limits => (admits.own.covers.fits limits).function rfl⟩
    have inputs : law.Covers (.params params) := admits.own.covers.child mem_cons_self
    have (e : { e // e ∈ params.defaults }) : law.Covers (.expr e.1) := by
      cases params
      exact inputs.child (mem_append_right _ (mem_map_of_mem e.2))
    unfold infer
    infer_instance
  | .classDef ⟨_, name, _, _, body, _⟩, _, admits => by
    have inferred := obeysEach_inferEach body (admits.within body body false
      fun _ own => (Bool.and_eq_true_iff.mp own).2)
    unfold infer
    exact Law.KeepsClasses.classDef
      (admits.finds name fun _ own => (Bool.and_eq_true_iff.mp own).1) (inferred.zip _ body)
  | .assign .., _, admits | .augAssign .., _, admits | .annAssign .., _, admits
  | .returnValue .., _, admits | .delete .., _, admits | .expr .., _, admits
  | .importModules .., _, admits | .importFrom .., _, admits | .raise .., _, admits
  | .pass .., _, admits | .other .., _, admits => obeys_of_isSimple _ rfl admits.own

/-- The statements of a body obey a law that admits them. -/
theorem obeysEach_inferEach [law.KeepsClasses] : (stmts : List Stmt) → {known : Known} →
    law.Admits importer deletes known stmts →
      Infer.ObeysEach (inferEach importer stmts) law (.free deletes known)
  | [], _, _ => .nil
  | stmt :: stmts, _, admits => .cons
      (obeys_infer stmt (admits.subset fun _ member => mem_singleton.mp member ▸ mem_cons_self))
      (obeysEach_inferEach stmts (admits.subset fun _ => mem_cons_of_mem stmt))

theorem obeysEach_inferHandlers [law.KeepsClasses] : (handlers : List Handler) →
    {named unnamed : Known} → (∀ handler ∈ handlers, law.Admits importer deletes
      (if handler.name.isSome then named else unnamed) handler.body) →
      ∀ step ∈ inferHandlers importer handlers, Infer.ObeysEach step.steps law
        (if step.name.isSome then (Grants.free deletes unnamed).inside named
          else .free deletes unnamed)
  | [], _, _, _ => forall_mem_nil _
  | ⟨_, _, name, body⟩ :: handlers, _, _, admits => by
    have own := obeysEach_inferEach body (admits _ mem_cons_self)
    refine forall_mem_cons.mpr ⟨?_, obeysEach_inferHandlers handlers fun other member =>
      admits other (mem_cons_of_mem _ member)⟩
    cases name <;> exact own

end

/-- Statements delete only what those in them delete. -/
theorem composedEach_inferEach (stmts : List Stmt)
    (only : ∀ stmt ∈ stmts, (Node.stmt stmt).DeletesOnly deletes) :
    Infer.ComposedEach importer (inferEach importer stmts) (.free deletes) :=
  (@obeysEach_inferEach _ _ deletes _ stmts (fun _ _ => False)
    (Law.admits_of_suits fun stmt member => (only stmt member).suits)).composed

end Stmt

end TypeInference
