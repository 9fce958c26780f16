/- The functions of a module that keep what they stand for beside the declared ones. -/

import Std.Data.String.ToNat
import TypeInference.Proofs.Branches
import TypeInference.Proofs.MeasuredArities

namespace TypeInference

open List Library Node

variable {stmt : Stmt} {f : FunctionDef} {session after : Session} {value : Meaning}
  {first : Nat} {scope : Scope}

namespace Stmt

/-- The names that a statement binds, if they can be read off. -/
def bound? : Stmt → Option (List String)
  | .functionDef f => some [f.name]
  | .classDef _ | .expr .. | .importFrom _ (some "typing") _ _
  | .assign _ (_ :: _) (.call _ (.name _ "TypeVar" _) _ _) => some []
  | .importFrom _ _ [⟨_, "*", _⟩] _ => none
  | .importFrom _ _ items _ => some (items.map fun item => item.asName.getD item.name)
  | _ => none

theorem bound?_eq_of_head {other : Stmt} (same : other.head = stmt.head) :
    other.bound? = stmt.bound? := by
  have head (stmt : Stmt) : stmt.head.bound? = stmt.bound? := by cases stmt <;> rfl
  rw [← head, same, head]

/-- A statement binds no other names than these. -/
theorem composed_of_bound? {importer : Importer} {deletes : String → Prop} {names : List String}
    (isBound : stmt.bound? = some names) (only : (Node.stmt stmt).DeletesOnly deletes) :
    (infer importer stmt).Composed importer ⟨(· ∈ names), deletes, True, []⟩ := by
  have : (⟨(· ∈ names), deletes, True, []⟩ : Rights).Notes := ⟨trivial⟩
  unfold bound? at isBound
  split at isBound
  · next f =>
    obtain rfl := Option.some.inj isBound
    obtain ⟨site, name, params, body, decorators, returns, synthetic⟩ := f
    have : (⟨(· ∈ [name]), deletes, True, []⟩ : Rights).Binds name := ⟨mem_singleton_self name⟩
    have : Infer.ComposedEach importer (inferEach importer body)
        (⟨(· ∈ [name]), deletes, True, []⟩ : Rights).inside :=
      composedEach_inferEach body fun stmt member => only.child
        (by simp [children, ofStmt, ofStmts, member])
    unfold infer
    infer_instance
  · next c =>
    obtain ⟨site, name, bases, keywords, body, decorators⟩ := c
    have inside := @composedEach_inferEach importer _ body fun stmt member => only.child
      (by simp [children, ofStmt, ofStmts, member])
    exact @Infer.Obeys.composed _ (.of ⟨(· ∈ names), deletes, True, []⟩) _ _
      (Infer.obeys_classDef _ fun entry member => ⟨inside.zip body entry member⟩)
  · unfold infer
    infer_instance
  · exact inferInstanceAs ((Infer.noType (pure ())).Composed importer _)
  · next site target _ line _ _ args keywords =>
    exact inferInstanceAs ((Infer.noType (Infer.declareTypeVar (.ofHome site.home) target
      (line.getD 0) args keywords)).Composed importer _)
  · cases isBound
  · next moduleName items _ notTyping notAll =>
    have each (scope : Scope) : (items.forM (Infer.importName scope)).Obeys (.composed importer)
        (.of ⟨(· ∈ names), deletes, True, []⟩) := by
      refine .forM_of_mem fun item member => ?_
      have : (⟨(· ∈ names), deletes, True, []⟩ : Rights).Binds (item.asName.getD item.name) :=
        ⟨Option.some.inj isBound ▸ mem_map_of_mem member⟩
      unfold Infer.importName
      infer_instance
    have imported : (Infer.importFrom importer moduleName items).Composed importer
        ⟨(· ∈ names), deletes, True, []⟩ := by
      unfold Infer.importFrom
      split
      · infer_instance
      · infer_instance
      · refine .andThen (.imports trivial _) fun key => .andThen inferInstance fun session => ?_
        split
        · next line asName => exact absurd rfl (notAll line asName)
        · exact (each _).composed
    unfold infer
    infer_instance
  · cases isBound

end Stmt

namespace Infer

variable {importer : Importer} [KeepsScopes importer] {deletes : String → Prop}
  {steps : List (Infer Meaning)}

/-- The name of an inferred function stands for what it stood for. -/
theorem types_of_run_functionBody {isMethod : Bool}
    (inside : ComposedEach importer steps (.free deletes)) (spared : ¬ deletes f.name)
    (done : (functionBody f isMethod none steps).run session = (.ok value, after)) :
    ∃ object, session.chain.find? f.name = some object ∧
      after.here.types.get? f.name = some object := by
  obtain ⟨_, _, isTheory, done⟩ := run_bind_ok done
  obtain rfl := (Prod.mk.inj isTheory).2
  rw [run_get_bind] at done
  obtain ⟨index, opened, isOpened, done⟩ := run_bind_ok done
  obtain ⟨rfl, scope, log, rfl, opens⟩ := run_openScope_eq_ok isOpened
  obtain ⟨params, given, isGiven, done⟩ := run_bind_ok done
  have : ComposedEach importer steps
      ((Rights.below deletes).opening session.here.children.length).inside := inside
  have exists_ : session.here.children.length < (session.here.addChild scope).children.length := by
    have longer : (session.here.addChild scope).children.length =
      session.here.children.length + 1 := length_append
    exact longer ▸ Nat.lt_succ_self _
  have begun : Session.Within ((Rights.below deletes).opening session.here.children.length) _
      given := @Composed.within importer _ _ _ _ _ inferInstance _ _
      (fun _ member => mem_singleton.mp member ▸ exists_) isGiven
  have found : given.chain.find? f.name = session.chain.find? f.name :=
    (Chain.findFrom_eq false (begun.chain_agrees id spared)).trans rfl
  obtain ⟨object, _, isObject, done⟩ := run_bind_ok done
  rw [findDefinition, run_get_bind] at isObject
  split at isObject
  · next type isType =>
    obtain ⟨rfl, rfl⟩ := run_pure_ok isObject
    obtain ⟨⟨⟩, _, isBound, done⟩ := run_bind_ok done
    obtain rfl := (Prod.mk.inj isBound).2
    refine ⟨type, found ▸ isType, ?_⟩
    have ended : Session.Within ((Rights.below deletes).opening session.here.children.length)
        { given with here := given.here.bind f.name type } after := by
      refine @Composed.within importer _ _ _ _ _ ?_ _ _
        (fun _ member => mem_singleton.mp member ▸ begun.lt_length exists_) done
      refine .andThen (by unfold isInherited; infer_instance) fun inherited => ?_
      split
      · infer_instance
      · refine .andThen (.notes trivial fun _ => ?_) fun _ => ?_
        · exact ⟨rfl, rfl, rfl, rfl, rfl, rfl, rfl, rfl⟩
        · split <;> infer_instance
    rw [ended.here.get?_eq id spared]
    exact Table.get?_insert_self _ _ _
  · exact absurd isObject run_throw_ne_ok

end Infer

/-- A definition binds its name to the signature, or to what it was. -/
theorem Stmt.types_of_run_infer {importer : Importer} [Infer.KeepsScopes importer]
    {deletes : String → Prop} (only : (Node.stmt (.functionDef f)).DeletesOnly deletes)
    (spared : ¬ deletes f.name)
    (done : (infer importer (.functionDef f)).run session = (.ok value, after)) :
    after.here.types.get? f.name = some (.signature f.signature) ∨
      ∃ object, session.chain.find? f.name = some object ∧
        after.here.types.get? f.name = some object := by
  obtain ⟨site, name, params, body, decorators, returns, synthetic⟩ := f
  unfold infer at done
  have inside : Infer.ComposedEach importer (inferEach importer body) (.free deletes) :=
    composedEach_inferEach body fun stmt member => only.child
      (by simp [children, ofStmt, ofStmts, member])
  rw [Infer.functionDef, run_get_bind] at done
  split at done
  · obtain ⟨⟨⟩, _, isBound, rest⟩ := run_bind_ok done
    obtain rfl := (Prod.mk.inj isBound).2
    obtain ⟨-, rfl⟩ := run_pure_ok rest
    exact .inl (Table.get?_insert_self _ _ _)
  · dsimp only at done
    rw [Infer.enterMethod_functionBody] at done
    obtain ⟨inner, run, rfl⟩ := Infer.run_withMethod_eq_ok done
    have bound := Infer.types_of_run_functionBody inside spared run
    exact .inr bound

theorem Node.deleted_head (value : Stmt) :
    (Node.stmt value.head).deleted = (Node.stmt value).deleted := by
  cases value <;> rfl

namespace Library

/-- A node that deletes nothing. Classes are those of every program. -/
def isFixed : Node → Bool
  | .stmt (.classDef c) => isRootLabel c.site.label && isRootName c.name
  | node => node.deleted.isEmpty

/-- The names of the declared functions. -/
def functionNames : List String := Stmt.functionNames standard.functions.body

/-- The names that are declared: functions, classes, and the class `IO`. -/
def declaredNames : List String :=
  standard.functions.body.flatMap fun stmt =>
    (stmt.classDef?.map (·.name)).toList ++ stmt.bound?.getD []

/-- A statement that binds known names, functions by definition only. -/
def bindsDeclared (stmt : Stmt) : Bool :=
  stmt.bound?.any (·.all fun name => stmt.functionDef?.isSome || !functionNames.contains name)

theorem declarations_areFixed :
    declarations.all (fun stmt => (Node.stmt stmt).walk.all isFixed) := by
  decide +kernel

theorem functions_bindDeclared : standard.functions.body.all bindsDeclared := by
  decide +kernel

theorem isFixed_iff {node : Node} : isFixed node ↔ node.deleted = [] ∧
    ∀ c, node = .stmt (.classDef c) →
      isRootLabel c.site.label ∧ isRootName c.name := by
  unfold isFixed
  split
  · next c =>
    rw [Bool.and_eq_true]
    exact ⟨fun root => ⟨rfl, fun d same => Stmt.classDef.inj (stmt.inj same) ▸ root⟩,
      fun fixed => fixed.2 c rfl⟩
  · next other =>
    rw [List.isEmpty_iff]
    exact ⟨fun none => ⟨none, fun c same => absurd same (other c)⟩, fun fixed => fixed.1⟩

theorem isLocal_isFixed : Node.IsLocal (isFixed · = true) where
  handler _ := rfl
  part _ := rfl
  head {first second} same fixed := by
    obtain ⟨none, root⟩ := isFixed_iff.mp fixed
    refine isFixed_iff.mpr ⟨?_, fun c isClass => ?_⟩
    · rw [← Node.deleted_head, same, Node.deleted_head]
      exact none
    · cases first with
      | classDef d =>
        obtain rfl := stmt.inj isClass
        have heads : Stmt.classDef { c with body := [] } = .classDef { d with body := [] } := same
        have inner := ClassDef.mk.inj (Stmt.classDef.inj heads)
        rw [inner.1, inner.2.1]
        exact root d rfl
      | _ =>
        obtain rfl := stmt.inj isClass
        cases same

end Library

/-- Functions are there with all additions. -/
theorem Survey.mem_functionNames_expandTo {additions : Table Nat (List Stmt)} (depth : Nat)
    {body : List Stmt} {name : String} (member : name ∈ Stmt.functionNames body) :
    name ∈ Stmt.functionNames (expandTo additions depth body) := by
  obtain ⟨f, isFunction, rfl⟩ := mem_map.mp member
  obtain ⟨stmt, inBody, is⟩ := mem_filterMap.mp isFunction
  cases stmt with
  | functionDef g =>
    obtain rfl := Option.some.inj is
    obtain ⟨_, expanded, same⟩ := exists_mem_expandTo depth inBody
    obtain ⟨h, rfl, sameName⟩ := Stmt.exists_function_of_head same
    exact sameName ▸ Stmt.mem_functionNames expanded
  | _ => cases is

/-- Declarations delete nothing, also with all additions. -/
theorem Survey.SparesRoots.isFixed_expand {survey : Survey} (spares : survey.SparesRoots)
    {result : Stmt} (isDeclared : stmt ∈ declarations)
    (expanded : result ∈ survey.expand [stmt]) :
    (Node.stmt result).All (isFixed · = true) :=
  spares.all_expandTo isLocal_isFixed
    (fun c fixed => ((isFixed_iff.mp fixed).2 c rfl).1)
    (fun c => c.all_defaultInitialiser rfl (fun _ => rfl) (fun _ => rfl) fun _ => rfl)
    (all_eq_true.mp (all_eq_true.mp declarations_areFixed stmt isDeclared)) expanded

/-- A declared name is a signature or a constant from a range. -/
def Meaning.IsDeclared (first last : Nat) (meaning : Meaning) : Prop :=
  (∃ signature, meaning = .signature signature) ∨
    ∃ number, first < number ∧ number ≤ last ∧
      meaning = .term (.const ("func" ++ "_" ++ toString number))

/-- A scope of the declared functions. -/
structure Scope.Declares (first last : Nat) (scope : Scope) : Prop where
  plain : scope.isClass = false
  distinct : scope.types.keys.Nodup
  functions : ∀ name ∈ functionNames, ∃ meaning,
    scope.types.get? name = some meaning ∧ meaning.IsDeclared first last
  names : ∀ {name}, scope.types.contains name = true → name ∈ declaredNames

theorem Scope.Declares.mono {last further : Nat} (declares : scope.Declares first last)
    (le : last ≤ further) :
    scope.Declares first further where
  plain := declares.plain
  distinct := declares.distinct
  functions name member := by
    obtain ⟨meaning, is, signed | ⟨number, above, below, isConst⟩⟩ := declares.functions name member
    · exact ⟨meaning, is, .inl signed⟩
    · exact ⟨meaning, is, .inr ⟨number, above, Nat.le_trans below le, isConst⟩⟩
  names := declares.names

namespace Library

variable {stmt : Stmt} {name : String}

theorem mem_declaredNames_of_bound {names : List String} (member : stmt ∈ standard.functions.body)
    (isBound : stmt.bound? = some names) (inside : name ∈ names) : name ∈ declaredNames := by
  refine mem_flatMap.mpr ⟨stmt, member, mem_append_right _ ?_⟩
  rw [isBound]
  exact inside

/-- A scope of declared functions starts with declared names. -/
theorem mem_declaredNames_of_announced {theory : Theory}
    (announced : name ∈ theory.announced standard.functions.body) : name ∈ declaredNames := by
  rcases mem_append.mp announced with isClass | isFunction
  · obtain ⟨c, member, rfl⟩ := mem_map.mp (mem_filter.mp isClass).1
    obtain ⟨stmt, inBody, is⟩ := mem_filterMap.mp member
    cases stmt with
    | classDef d =>
      obtain rfl := Option.some.inj is
      exact mem_flatMap.mpr ⟨.classDef d, inBody, mem_cons_self⟩
    | _ => cases is
  · obtain ⟨f, member, rfl⟩ := mem_map.mp isFunction
    obtain ⟨stmt, inBody, is⟩ := mem_filterMap.mp member
    cases stmt with
    | functionDef g =>
      obtain rfl := Option.some.inj is
      exact mem_declaredNames_of_bound inBody rfl mem_cons_self
    | _ => cases is

/-- A declaration binds names that can be read off it. -/
theorem exists_bound (member : stmt ∈ standard.functions.body) :
    ∃ names, stmt.bound? = some names ∧
      ∀ name ∈ names, name ∈ functionNames → ∃ f, stmt = .functionDef f ∧ f.name = name := by
  have binds := all_eq_true.mp functions_bindDeclared stmt member
  obtain ⟨names, isBound, each⟩ := (Option.any_eq_true _ _).mp binds
  refine ⟨names, isBound, fun name inside isFunction => ?_⟩
  have either := all_eq_true.mp each name inside
  rw [contains_iff_mem.mpr isFunction] at either
  cases stmt with
  | functionDef f =>
    obtain rfl := Option.some.inj isBound
    exact ⟨f, rfl, (mem_singleton.mp inside).symm⟩
  | _ => cases either

end Library

namespace Infer

variable {importer : Importer} [KeepsScopes importer] {first last : Nat}

/-- A declaration keeps the scope of declared functions. -/
theorem declares_of_run_infer {origin : Stmt} (member : origin ∈ standard.functions.body)
    (same : stmt.head = origin.head) (fixed : (Node.stmt stmt).All (isFixed · = true))
    (declares : session.here.Declares first last) (outer : session.outer = [])
    (done : (stmt.infer importer).run session = (.ok value, after)) :
    after.here.Declares first last ∧ after.outer = [] := by
  obtain ⟨names, isBound, own⟩ := exists_bound member
  have only : (Node.stmt stmt).DeletesOnly fun _ => False := by
    intro node inside name isDeleted
    rw [(isFixed_iff.mp (fixed node inside)).1] at isDeleted
    cases isDeleted
  have within := (Stmt.composed_of_bound? ((Stmt.bound?_eq_of_head same).trans isBound) only).within
    (forall_mem_nil _) done
  have noOuter : after.outer = [] := by
    have outer' := within.outer
    rw [outer] at outer'
    exact forall₂_nil_left_iff.mp outer'
  refine ⟨⟨within.here.isClass.trans declares.plain, within.here.distinct declares.distinct,
    fun name isFunction => ?_, fun {name} known => ?_⟩, noOuter⟩
  · by_cases bound : name ∈ names
    · obtain ⟨f, rfl, rfl⟩ := own name bound isFunction
      obtain ⟨g, rfl, isName⟩ := Stmt.exists_function_of_head same
      rw [← isName] at isFunction ⊢
      obtain ⟨meaning, isMeaning, isDeclared⟩ := declares.functions g.name isFunction
      rcases Stmt.types_of_run_infer only id done with signed | ⟨object, found, isObject⟩
      · exact ⟨_, signed, .inl ⟨_, rfl⟩⟩
      · rw [Session.chain, Chain.find?, Chain.findFrom, declares.plain, isMeaning] at found
        obtain rfl := Option.some.inj found
        exact ⟨meaning, isObject, isDeclared⟩
    · rw [within.here.get?_eq bound id]
      exact declares.functions name isFunction
  · by_cases bound : name ∈ names
    · exact mem_declaredNames_of_bound member isBound bound
    · exact declares.names (within.here.contains_before bound known)

/-- What is done within a module starts in its scope. -/
theorem run_withRoot_eq_ok {home : Option ModuleKey} {start final : Scope} {act : Infer Unit}
    (done : (withRoot home start act).run session = (.ok final, after)) :
    ∃ root inner, root.here = start ∧ root.outer = [] ∧ session ≤ root ∧
      act.run root = (.ok (), inner) ∧ final = inner.here := by
  let placed : Session := { session.keepRoot with here := start, outer := [], home := home }
  have scopes : placed.keepRoot.here = start ∧ placed.keepRoot.outer = [] := by
    unfold Session.keepRoot
    split <;> exact ⟨rfl, rfl⟩
  have isPlaced : session.keepRoot ≤ placed := Session.le_of_classes_eq rfl rfl le_rfl rfl
  have reached := (session.le_keepRoot.trans isPlaced).trans placed.le_keepRoot
  have isOk : (act.run placed.keepRoot).1.map (fun _ => (act.run placed.keepRoot).2.here) =
    .ok final := (Prod.mk.inj done).1
  cases result : (act.run placed.keepRoot).1 with
  | error fault => rw [result] at isOk; cases isOk
  | ok value =>
    rw [result] at isOk
    exact ⟨placed.keepRoot, _, scopes.1, scopes.2, reached, Prod.ext result rfl,
      (Except.ok.inj isOk).symm⟩

variable [∀ name, Grows (importer name)]

/-- The scope of the declared functions when first asked for. -/
theorem declares_of_run_declaredScope (spares : session.theory.survey.SparesRoots)
    (new : session.declared.get? "" = none)
    (done : (declaredScope importer "" none standard.functions.body).run session =
      (.ok scope, after)) :
    scope.Declares session.log.count after.log.count ∧ after.declared.get? "" = some scope := by
  rw [declaredScope, run_get_bind, new] at done
  obtain ⟨stmts, _, isSelected, done⟩ := run_bind_ok done
  obtain ⟨selection, selected, member, rfl⟩ := run_selectDeclarations_eq_ok isSelected
  obtain ⟨start, _, isStart, done⟩ := run_bind_ok done
  obtain ⟨log, rfl, opens⟩ := run_newScope_eq_ok isStart
  obtain ⟨⟨⟩, _, isNoted, done⟩ := run_bind_ok done
  obtain rfl := (Prod.mk.inj isNoted).2
  obtain ⟨final, left, isFinal, done⟩ := run_bind_ok done
  obtain ⟨⟨⟩, _, isKept, done⟩ := run_bind_ok done
  obtain rfl := (Prod.mk.inj isKept).2
  obtain ⟨rfl, rfl⟩ := run_pure_ok done
  refine ⟨?_, Table.get?_insert_self _ _ _⟩
  have grown : log.count ≤ left.log.count := (Grows.le isFinal).log.count
  obtain ⟨root, inner, rfl, isRoot, -, run, rfl⟩ := run_withRoot_eq_ok isFinal
  have started : root.here.Declares session.log.count log.count := by
    refine ⟨opens.isClass, opens.distinct, fun name isFunction => ?_, fun known =>
      mem_declaredNames_of_announced (opens.contains_iff.mp known)⟩
    obtain ⟨number, above, below, is⟩ := opens.constant isFunction
    exact ⟨_, is, .inr ⟨number, above, below, rfl⟩⟩
  have kept := run_forM_invariant (fun session : Session =>
    session.here.Declares _ log.count ∧ session.outer = []) run ⟨started, isRoot⟩ ?_
  · exact kept.1.mono grown
  · intro stmt isStmt before next holds step
    obtain ⟨origin, inBody, expanded⟩ := Survey.mem_expandTo_iff.mp
      ((Selection.isOf_of_ofBody selected).mem_body (member stmt isStmt))
    obtain ⟨value, _, inferred, last⟩ := run_bind_ok step
    obtain ⟨-, rfl⟩ := run_pure_ok last
    exact declares_of_run_infer inBody (Survey.head_of_mem_expandTo expanded)
      (spares.isFixed_expand (mem_append_left _ inBody) expanded) holds.1 holds.2 inferred

omit [KeepsScopes importer] in
/-- What is declared has precedence. -/
theorem types_of_run_declarations (done : (declarations importer).run session = (.ok (), after)) :
    ∃ functions mid, (declaredScope importer "" none standard.functions.body).run session =
        (.ok functions, mid) ∧ mid ≤ after ∧
      after.here.types = session.here.types.union functions.types := by
  unfold declarations at done
  obtain ⟨functions, mid, isFunctions, rest⟩ := run_bind_ok done
  obtain ⟨⟨⟩, _, noted, rest⟩ := run_bind_ok rest
  obtain rfl := (Prod.mk.inj noted).2
  have sameHere := (scopes_of_run_declaredScope isFunctions).1
  have ended := run_forM_invariant (fun state : Session => mid ≤ state ∧
    state.here.types = session.here.types.union functions.types) rest ?_ ?_
  · exact ⟨functions, mid, isFunctions, ended⟩
  · exact ⟨mid.le_of_scopes _ _, congrArg (·.types.union functions.types) sameHere⟩
  · intro entry _ before after kept step
    obtain ⟨scope, _, isScope, noted⟩ := run_bind_ok step
    obtain rfl := (Prod.mk.inj noted).2
    have same := congrArg Scope.types (scopes_of_run_declaredScope isScope).1
    exact ⟨(kept.1.trans (Grows.le isScope)).trans (Session.le_of_scopes _ _ _), same.trans kept.2⟩

end Infer

/-- What becomes of a function when declared ones are made known. -/
structure Scope.Yields (declared start final : Scope) (name : String) : Prop where
  /-- At first it stands for the constant of the definition. -/
  constant : ∃ number : Nat,
    start.types.get? name = some (.term (.const ("func" ++ "_" ++ toString number)))
  /-- What is declared has precedence over it. -/
  precedence : final.types.get? name = (declared.types.get? name).or (start.types.get? name)
  kept : name ∉ declaredNames →
    declared.types.get? name = none ∧ final.types.get? name = start.types.get? name
  lost : name ∈ functionNames → ∃ meaning, declared.types.get? name = some meaning ∧
    final.types.get? name = some meaning ∧ start.types.get? name ≠ some meaning

/-- A scope that is older or newer than the declared functions yields. -/
theorem Scope.Declares.yields {functions start final : Scope} {last : Nat}
    (declares : functions.Declares first last) {body : List Stmt} {log : Log}
    (opens : Infer.Opens session "" false false body start log)
    (apart : log.count ≤ first ∨ last ≤ session.log.count)
    (types : final.types = start.types.union functions.types) {name : String}
    (member : name ∈ Stmt.functionNames body) : functions.Yields start final name := by
  obtain ⟨number, above, below, isConstant⟩ := opens.constant member
  have precedence :
      final.types.get? name = (functions.types.get? name).or (start.types.get? name) := by
    rw [types, Table.get?_union _ declares.distinct]
  refine ⟨⟨number, isConstant⟩, precedence, fun free => ?_, fun isFunction => ?_⟩
  · have none : functions.types.get? name = none := by
      rw [← Option.not_isSome_iff_eq_none, Table.isSome_get?]
      exact fun known => free (declares.names known)
    exact ⟨none, by rw [precedence, none, Option.none_or]⟩
  · obtain ⟨meaning, is, isDeclared⟩ := declares.functions name isFunction
    refine ⟨meaning, is, by rw [precedence, is, Option.some_or], ?_⟩
    rw [isConstant]
    rintro ⟨⟩
    -- Constants with different numbers are different.
    obtain ⟨_, absent⟩ | ⟨other, above, below, same⟩ := isDeclared
    · cases absent
    · have isOther : number = other :=
        Nat.repr_injective ((String.append_right_inj _).mp (Term.const.inj (Meaning.term.inj same)))
      omega

section

variable {files : Files} {body : List Stmt} {name : Option (String × String)} {program : Program}
  {settings : Settings} {base : Option String} {funcParams classParams : TypeParams}
  {survey : Survey} {theory : Theory}

theorem Theory.sparesRoots (read : Program.read files body name = .ok program)
    (surveyed : Survey.ofProgram settings base program funcParams classParams = .ok survey)
    (built : Theory.ofSurvey settings survey = .ok theory) : theory.survey.SparesRoots := by
  obtain ⟨selection, selected, -, isMeasured⟩ := Survey.isMeasured_of_ofProgram surveyed
  obtain ⟨-, rfl, -⟩ := Theory.ofSurvey_eq_ok built
  exact fun root isRoot stmt member =>
    isMeasured.eq_of_rootAdditions (Program.isClosed_of_read read) selected isRoot member

/-- A function of the program is bound to the constant of its definition, in the program and in each
module that is imported later. If something is declared under its name, it is bound to that. -/
theorem functions_kept_unless_declared (read : Program.read files body name = .ok program)
    (surveyed : Survey.ofProgram settings base program funcParams classParams = .ok survey)
    (built : Theory.ofSurvey settings survey = .ok theory) (axioms : Axioms) {declared : Session}
    (isDeclared : (Session.ofProgram theory axioms program).declare = (.ok (), declared)) :
    ∃ functions, declared.declared.get? "" = some functions ∧
      (∀ name ∈ Stmt.functionNames program.main.body,
        functions.Yields (Session.ofProgram theory axioms program).here declared.here name) ∧
      ∀ {depth : Nat} {later opened after : Session} {key : ModuleKey} {body : List Stmt}
        {start final : Scope}, declared ≤ later →
        (Infer.newScope "" false false {} body).run later = (.ok start, opened) →
        (Infer.withRoot (some key) start (Infer.declarations (Infer.moduleTo depth))).run opened =
          (.ok final, after) →
        ∀ name ∈ Stmt.functionNames body, functions.Yields start final name := by
  obtain ⟨scope, log, isStart, opens⟩ := Session.exists_ofProgram_eq theory axioms program
  rw [isStart] at isDeclared ⊢
  obtain ⟨functions, mid, isFunctions, grown, types⟩ := Infer.types_of_run_declarations isDeclared
  obtain ⟨declares, made⟩ := Infer.declares_of_run_declaredScope
    (Theory.sparesRoots read surveyed built) rfl isFunctions
  refine ⟨functions, grown.declared made, fun name member => ?_, ?_⟩
  · exact declares.yields opens (.inl (Nat.le_refl _)) types
      (Survey.mem_functionNames_expandTo _ member)
  · intro depth later opened after key body start final reached isOpened isFinal name member
    obtain ⟨log, rfl, opensLater⟩ := Infer.run_newScope_eq_ok isOpened
    obtain ⟨root, inner, rfl, -, entered, run, rfl⟩ := Infer.run_withRoot_eq_ok isFinal
    have := Infer.grows_moduleTo depth
    have still := entered.declared (reached.declared (grown.declared made))
    -- The scope of the declared functions is made once.
    obtain ⟨found, _, isFound, -, types⟩ := Infer.types_of_run_declarations run
    rw [Infer.declaredScope, run_get_bind, still] at isFound
    obtain ⟨rfl, -⟩ := run_pure_ok isFound
    exact declares.yields opensLater (.inr (grown.trans reached).log.count) types member

end

/-- Makes the declared functions known in a new scope. -/
def Infer.openFile (depth : Nat) (key : ModuleKey) (body : List Stmt) : Infer (Scope × Scope) := do
  let start ← newScope "" false false {} body
  let final ← withRoot (some key) start (declarations (moduleTo depth))
  pure (start, final)

/-- A function `f` is kept, in the program and a module, but not `len`. -/
theorem defined_f_kept_and_len_lost : ∃ prepared declared, ∃ functions : Scope,
    ∃ start final after,
    Prepared.ofBody [Stmt.constantFunction "f", Stmt.constantFunction "len"] none {} =
      .ok prepared ∧
    prepared.start.declare = (.ok (), declared) ∧
    (Infer.openFile 1 (.file "m") [Stmt.constantFunction "f", Stmt.constantFunction "len"]).run
      declared = (.ok (start, final), after) ∧
    "f" ∉ Library.declaredNames ∧ "len" ∈ Library.functionNames ∧
    (∀ name ∈ ["f", "len"], functions.Yields prepared.start.here declared.here name) ∧
    ∀ name ∈ ["f", "len"], functions.Yields start final name := by
  have evaluated : ∃ prepared, Prepared.ofBody [Stmt.constantFunction "f",
      Stmt.constantFunction "len"] none {} = .ok prepared ∧
      Stmt.functionNames prepared.program.main.body = ["f", "len"] ∧
      ∃ declared, (Infer.declarations Infer.importer).run prepared.start = (.ok (), declared) ∧
      ∃ ends after, (Infer.openFile 1 (.file "m") [Stmt.constantFunction "f",
        Stmt.constantFunction "len"]).run declared = (.ok ends, after) ∧ True := by
    decide +kernel
  obtain ⟨prepared, done, names, declared, isDeclared, ⟨start, final⟩, after, isOpened, -⟩ :=
    evaluated
  obtain ⟨read, surveyed, built⟩ := Prepared.ofBody_eq_ok done
  obtain ⟨functions, -, own, later⟩ :=
    functions_kept_unless_declared read surveyed built prepared.axioms isDeclared
  rw [names] at own
  refine ⟨prepared, declared, functions, start, final, after, done, isDeclared, isOpened,
    by decide +kernel, by decide +kernel, own, ?_⟩
  obtain ⟨_, opened, isStart, rest⟩ := run_bind_ok isOpened
  obtain ⟨_, _, isFinal, same⟩ := run_bind_ok rest
  obtain ⟨isPair, -⟩ := run_pure_ok same
  obtain ⟨rfl, rfl⟩ := Prod.mk.inj isPair
  exact later le_rfl isStart isFinal

/-- A function that is named `len` is bound to the declared one. -/
theorem defined_len_not_kept : ∃ prepared declared,
    Prepared.ofBody [Stmt.constantFunction "len"] none {} = .ok prepared ∧
    prepared.start.declare = (.ok (), declared) ∧
    "len" ∈ Stmt.functionNames prepared.program.main.body ∧
    declared.here.types.get? "len" ≠ prepared.start.here.types.get? "len" := by
  have evaluated : ∃ prepared, Prepared.ofBody [Stmt.constantFunction "len"] none {} =
      .ok prepared ∧ "len" ∈ Stmt.functionNames prepared.program.main.body ∧
      ∃ declared, (Infer.declarations Infer.importer).run prepared.start = (.ok (), declared) ∧
        (declared.here.types.get? "len").bind Meaning.term? ≠
          (prepared.start.here.types.get? "len").bind Meaning.term? := by
    decide +kernel
  obtain ⟨prepared, done, own, declared, isDeclared, differs⟩ := evaluated
  exact ⟨prepared, declared, done, isDeclared, own,
    fun same => differs (congrArg (·.bind Meaning.term?) same)⟩

end TypeInference
