/- The command infers the types of a file and of those it imports, and writes them with hints. -/

import TypeInference.Command.Arguments
import TypeInference.Inference.Module
import TypeInference.Output.Typed

namespace TypeInference

namespace Command

/-- What a solver finds out about the constraints. -/
structure Solution where
  verdict : Verdict := .sat
  model : Model := {}
  /-- The positions of the assertions that do not hold. -/
  failed : List Nat := []
  /-- The positions of the assertions that the model says nothing of. -/
  unset : List Nat := []

abbrev Solver := Session → Solution

inductive Document where
  | module (body : List Stmt)
  | constraints (log : Log)
  | text (content : String)

/-- What a run leaves behind, even if it fails. -/
structure Outcome where
  settings : Settings := {}
  lines : List String := []
  files : Table String Document := {}

abbrev Run := ExceptT Fault (StateM Outcome)

namespace Run

def print (line : String) : Run Unit :=
  modify fun outcome => { outcome with lines := outcome.lines ++ [line] }

def write (path : String) (document : Document) : Run Unit :=
  modify fun outcome =>
    { outcome with files := outcome.files.insert (Path.normal path) document }

def turnOff (settings : List String) : Run Settings :=
  modifyGet fun outcome =>
    let settings := settings.foldl (fun settings name => settings.set name false) outcome.settings
    (settings, { outcome with settings := settings })

end Run

def logLevels : List String :=
  ["CRITICAL", "FATAL", "ERROR", "WARN", "WARNING", "INFO", "DEBUG", "NOTSET"]

/-- The log levels that show constraints. -/
def showsConstraints (level : String) : Bool := level == "DEBUG" || level == "NOTSET"

/-- The symbols whose names come from the program. -/
def symbols (theory : Theory) : List String :=
  let attributes (table : Table String (List String)) := table.values.flatten
  theory.sort.declared.flatMap (fun entry => entry.1 :: entry.2)
    ++ attributes theory.survey.instanceAttrs ++ attributes theory.survey.classAttrs
    ++ theory.methods.values

/-- Reports have one byte for each character. -/
def isWritable (symbol : String) : Bool := symbol.toList.all fun char => decide (char.toNat < 256)

/-- The file that is inferred, the folder that imports start from, and the name of its module. -/
structure Target where
  file : String
  base : String
  name : String

/-- The folder may be given after the file. -/
def Target.ofPaths (file : String) (others : List String) : Target where
  file := file
  base := match others with
    | base :: _ => Path.text base
    | [] => Path.parent file
  name := Path.stem file

/-- The inference of a program with all that it needs to be written. -/
structure Inferred where
  session : Session
  solution : Solution
  target : Target
  /-- The name of the program among its modules. -/
  mainName : String
  files : Files

def inferTarget (solve : Solver) (bodies : Table String (List Stmt)) (args : Arguments)
    (target : Target) : Run Inferred := do
  let files : Files := ⟨bodies, some target.base⟩
  let mainName := Files.moduleName target.name
  let path := files.pathOf mainName
  match files.get? path with
  | none => throw (.noModule mainName)
  | some body => do
    let settings ← Run.turnOff args.turnedOff
    let program ← Program.read files body (some (mainName, path))
    let survey ← Survey.ofProgram settings files.base program {} {}
    let theory ← Theory.ofSurvey settings survey
    if !(symbols theory).all isWritable then throw .unwritableSymbol
    let axioms ← Axioms.ofTheory theory
    let (result, session) := (Session.ofProgram theory axioms program).infer
    let _ ← result
    pure ⟨session, solve session, target, mainName, files⟩

structure Drafts where
  bodies : Table String (List Stmt)
  /-- The members that have been taken out of classes. -/
  removed : Table Nat (List Nat) := {}

namespace Drafts

def ofSession (session : Session) : Drafts :=
  { bodies := session.sources.modules.map fun module => session.theory.survey.expand module.body }

/-- Makes the changes for one module in all of them, since classes can share their members. -/
def add (drafts : Drafts) (session : Session) (name moduleName : String) (typed : Typed) :
    Drafts :=
  let edited := drafts.bodies.map typed.edits.apply
  let body := typed.declareTypeVars ((edited.get? name).getD [])
  let imports := Output.requiredImports session.classHomes moduleName typed.names body
  { bodies := edited.insert name (imports ++ body)
    removed := typed.edits.removed.entries.foldl (fun table (label, members) =>
      table.insert label ((table.get? label).getD [] ++ members)) drafts.removed }

def body (drafts : Drafts) (name : String) : List Stmt := (drafts.bodies.get? name).getD []

end Drafts

def outputDirectory (args : Arguments) (target : Target) : String :=
  Path.text (args.outputDirectory.getD (Path.join "inference_output" target.base))

def messages (log : Log) (isChosen : Nat → Bool) : List String :=
  (log.hard.toList.zipIdx.filter fun entry => isChosen entry.2).map fun entry => entry.1.message

variable (inferred : Inferred)

def reportCore (directory : String) (named : Bool) : Run Unit := do
  Run.print ("Writing unsat core to " ++ directory)
  if !named then throw .unsetReport
  let core := messages inferred.session.log inferred.solution.failed.contains
  Run.write (Path.join directory (inferred.target.name ++ "_unsat_core.txt"))
    (.text ("\n".intercalate core))

/-- Reports that there is no solution, and which assertions are given up. -/
def reportFailure (directory : String) (named : Bool) : Run Unit := do
  Run.print "Check: unsat"
  if (← get).settings.reportCore then reportCore inferred directory named
  Run.print "Solving relaxed model took  0s"
  let isGivenUp (position : Nat) : Bool :=
    inferred.solution.failed.contains position || inferred.solution.unset.contains position
  (messages inferred.session.log isGivenUp).forM fun message => do
    Run.print "Unsat:"
    Run.print message

def directoryExists (files : Files) (outcome : Outcome) (path : String) : Bool :=
  Path.normal path == "" || files.isDirectory path
    || outcome.files.keys.any fun file => Path.isAbove path file

/-- The file that the program is written to, in a new directory. -/
def programPath (args : Arguments) (directory : String) : Run String := do
  if args.overwrite then
    let path := Path.join inferred.target.base inferred.target.file
    if !directoryExists inferred.files (← get) (Path.parent path) then throw .noDirectory
    pure path
  else pure (Path.join directory (inferred.target.name ++ ".py"))

def importedModules (session : Session) : List (String × String × Scope) :=
  session.sources.paths.entries.filterMap fun (name, path) =>
    if Library.isLibrary name then none
    else (session.modules.get? (.file name)).map fun scope => (name, path, scope)

def writeImported (drafts : Drafts) : Run Unit := do
  let session := inferred.session
  let _ ← (importedModules session).foldlM (fun drafts (name, path, scope) => do
    let typed ← Typed.ofScope ⟨session.theory, inferred.solution.model, drafts.removed⟩ scope
    let drafts := drafts.add session name name typed
    Run.write (Path.join "inference_output" path) (.module (drafts.body name))
    pure drafts) drafts

def writeAll (args : Arguments) (typed : Typed) : Run Unit := do
  let session := inferred.session
  let target := inferred.target
  let directory := outputDirectory args target
  let named := showsConstraints args.logLevel
  if named then
    Run.write (Path.join directory (target.name ++ "_constraints_log.txt"))
      (.constraints session.log)
  if inferred.solution.verdict == .unsat then reportFailure inferred directory named
  let drafts := (Drafts.ofSession session).add session inferred.mainName target.name typed
  Run.write (← programPath inferred args directory) (.module (drafts.body inferred.mainName))
  writeImported inferred drafts

def run (solve : Solver) (bodies : Table String (List Stmt)) (words : List String) : Run Unit := do
  let args ← Arguments.ofWords words
  if !logLevels.contains args.logLevel then throw (.exit 1)
  match args.rest with
  | [] => pure ()
  | file :: others => do
    let inferred ← inferTarget solve bodies args (Target.ofPaths file others)
    let session := inferred.session
    let typed ← if inferred.solution.verdict == .unsat then pure {}
      else Typed.ofScope ⟨session.theory, inferred.solution.model, {}⟩ session.here
    writeAll inferred args typed

end Command

end TypeInference
