/- The state of an inference and its basic steps. -/

import TypeInference.Hint.Resolve
import TypeInference.Scope.Chain

namespace TypeInference

structure ClassFacts where
  name : String
  line : Nat
  /-- The method within which the class is defined. -/
  method : Term
  methods : Table String MethodShape
  /-- The inherited methods with the classes they come from. -/
  inherited : Table String String
  bases : List String
  bound : Table String Meaning

structure Session where
  theory : Theory
  sources : Sources := {}
  log : Log := {}
  method : Term := Term.noMethod
  here : Scope := {}
  outer : Chain := []
  home : Option ModuleKey := none
  modules : Table ModuleKey Scope := {}
  declared : Table String Scope := {}
  /-- The names that count as used in selections. -/
  names : List String := []
  vars : DeclaredVars := {}
  classes : List (ClassFacts × Meaning) := []
  /-- The modules that imported classes come from. -/
  classHomes : Table String String := {}

namespace Session

variable (session : Session)

/-- All scopes around, the innermost first. -/
def chain : Chain := session.here :: session.outer

def root : Scope := (session.outer.getLast?).getD session.here

/-- The scope of a module. That of the current one is the outermost. -/
def moduleScope (key : ModuleKey) : Scope :=
  if session.home == some key then session.root else (session.modules.get? key).getD {}

def enter (child : Scope) : Session :=
  { session with here := child, outer := session.here :: session.outer }

/-- Goes back to the scope around the current one. -/
def leave (index : Nat) : Session :=
  match session.outer with
  | [] => session
  | parent :: outer =>
    { session with
      here := { parent with children := parent.children.set index session.here }
      outer := outer }

/-- Keeps the scope of the current module for others to look at. -/
def keepRoot : Session :=
  match session.home with
  | none => session
  | some key => { session with modules := session.modules.insert key session.root }

end Session

/-- Inference keeps its state when it fails. -/
abbrev Infer := ExceptT Fault (StateM Session)

namespace Infer

def fresh (stem : String) (allowed : Log.isStem stem = true := by decide) : Infer Term :=
  modifyGet fun session =>
    let (constant, log) := session.log.fresh stem allowed
    (constant, { session with log := log })

def assert (message : String) (parts : List Formula) : Infer Unit :=
  modify fun session => { session with log := session.log.assert message parts }

/-- Preferences are left out if the settings say so. -/
def prefer (formula : Formula) (weight : Nat := 1) : Infer Unit :=
  modify fun session =>
    if session.theory.settings.softConstraints then
      { session with log := session.log.prefer weight formula }
    else session

def inLine (what : String) (line : Nat) : String := what ++ " in line " ++ toString line

def theory : Infer Theory := do pure (← get).theory

/-- The theory as seen from the current method. -/
def frame : Infer Frame := do
  let session ← get
  pure ⟨session.theory, session.method⟩

def subtype (sub sup : Term) : Infer Formula := do pure ((← frame).subtype sub sup)

def find (name : String) : Infer Meaning := do (← get).chain.find name

/-- What the name of a definition stands for, which has to be known. -/
def findDefinition (name : String) : Infer Meaning := do
  match (← get).chain.find? name with
  | some type => pure type
  | none => throw (.unknownDefinition name)

def bind (name : String) (type : Meaning) : Infer Unit :=
  modify fun session => { session with here := session.here.bind name type }

/-- Turns to a method, if there is one, and saves the one before. -/
def enterMethod (method : Option Term) : Infer (Option Term) :=
  match method with
  | none => pure none
  | some method => modifyGet fun session => (some session.method, { session with method := method })

def restoreMethod (saved : Option Term) : Infer Unit :=
  match saved with
  | none => pure ()
  | some method => modify fun session => { session with method := method }

theorem isStem_param : Log.isStem "func_arg" = true := by decide

theorem isStem_typeArg (index : Nat) : Log.isStem ("ta" ++ toString index) = true := by
  simp [Log.isStem, List.isPrefixOf]

def typeArgs : Infer (List Term) := do
  (List.range (← theory).survey.maxTypeArgs).mapM fun index =>
    fresh ("ta" ++ toString index) (isStem_typeArg index)

def newScope (name : String) (isClass isFunction : Bool) (lines : Table String Nat)
    (body : List Stmt) : Infer Scope := do
  let theory ← theory
  let classes := (body.filterMap Stmt.classDef?).filter fun c => theory.classNames.contains c.name
  let withClasses := classes.foldl (fun (scope : Scope) c =>
    scope.bind c.name (theory.classObject c.name))
    { name, isClass, isFunction, lines := Scope.linesOf lines body, body }
  (body.filterMap Stmt.functionDef?).foldlM (fun scope f => do
    pure (scope.bind f.name (.term (← fresh "func")))) withClasses

def addScope (child : Scope) : Infer Nat :=
  modifyGet fun session =>
    (session.here.children.length, { session with here := session.here.addChild child })

def openScope (body : List Stmt) (name : String := "") (isClass : Bool := false)
    (isFunction : Bool := false) : Infer Nat := do
  addScope (← newScope name isClass isFunction (← get).here.lines body)

def openClass (c : ClassDef) : Infer Nat := do
  let child ← newScope c.name true false (← get).here.lines c.body
  addScope { child with owner := some c.site.label }

def inChild {α : Type} (index : Nat) (act : Infer α) : Infer α := fun session =>
  match session.here.children[index]? with
  | none => act session
  | some child =>
    let (result, after) := act (session.enter child)
    (result, after.leave index)

def child (index : Nat) : Infer Scope := do
  pure (((← get).here.children[index]?).getD {})

/-- Works within a module of its own and gives its scope. -/
def withRoot (home : Option ModuleKey) (scope : Scope) (act : Infer Unit) : Infer Scope :=
  fun session =>
    let start := { session.keepRoot with here := scope, outer := [], home := home }
    let (result, after) := act start.keepRoot
    let done := after.keepRoot
    (result.map fun _ => after.here,
      { done with here := session.here, outer := session.outer, home := session.home })

def reading {α : Type} (act : Hint.Reading α) : Infer α := fun session =>
  let (result, progress) := act { log := session.log }
  (result, { session with log := progress.log })

def readHint (scope : HintScope) (hint : Hint) : Infer Meaning := do
  let session ← get
  reading (Hint.resolve ⟨session.theory, session.vars, scope⟩ .fixed hint)

def callSignature (signature : Signature) (args : List Term) (result : Term) :
    Infer (Option Formula) := do
  let session ← get
  reading (signature.callConstraint session.theory session.vars (args.map .term) (.term result))

end Infer

end TypeInference
