/- What a run of the command starts from and leaves behind, in lines of text. -/

import TypeInference.Command.Run
import TypeInference.Syntax.Reader
import TypeInference.Syntax.Text

namespace TypeInference

namespace Command

/-- The files of a directory, and the answers of a solver. -/
structure Workspace where
  files : Table String (List Stmt) := {}
  verdict : Verdict := .sat
  values : List (String × String) := []
  bounds : List (String × String) := []
  failed : List Nat := []
  unset : List Nat := []

namespace Workspace

/-- The first word of a line and the rest after it. -/
def splitWord (line : String) : String × String :=
  let word := line.toList.takeWhile (· != ' ')
  (String.ofList word, String.ofList (line.toList.drop (word.length + 1)))

variable (workspace : Workspace)

/-- Takes one line into account: a keyword and what it is about. -/
def add (line : String) : Workspace :=
  let (keyword, rest) := splitWord line
  let (subject, value) := splitWord rest
  match keyword with
  | "file" =>
    { workspace with files := workspace.files.insert subject (Tree.ofText value).toBody }
  | "verdict" => { workspace with verdict := (Verdict.ofText? subject).getD workspace.verdict }
  | "value" => { workspace with values := workspace.values ++ [(subject, value)] }
  | "bound" => { workspace with bounds := workspace.bounds ++ [(subject, value)] }
  | "failed" => { workspace with failed := workspace.failed ++ subject.toNat?.toList }
  | "unset" => { workspace with unset := workspace.unset ++ subject.toNat?.toList }
  | _ => workspace

def ofLines (lines : List String) : Workspace := lines.foldl add {}

def model (sort : TypeSort) : Model where
  values := .ofList (workspace.values.map fun (name, value) => (name, sort.readTerm value))
  bounds := .ofList (workspace.bounds.map fun (var, value) =>
    (sort.readTerm var, sort.readTerm value))

def solver : Solver := fun session =>
  { verdict := workspace.verdict
    model := workspace.model session.theory.sort
    failed := workspace.failed
    unset := workspace.unset }

end Workspace

def assertionText (assertion : Assertion) : String :=
  listText "assert" [(Formula.and assertion.parts).render]

def Document.lines : Document → List String
  | .module body => [(Module.toTree ⟨{}, body⟩).toText]
  | .constraints log => log.hard.toList.map assertionText
  | .text content => content.splitOn "\n"

/-- All that a run leaves behind: what it prints, then each file. -/
def Outcome.report (outcome : Outcome) : List String :=
  outcome.lines ++ outcome.files.entries.flatMap fun (path, document) =>
    ("file " ++ path) :: document.lines

def exitCode : Except Fault Unit → UInt32
  | .ok _ => 0
  | .error (.exit code) => code.toUInt32
  | .error _ => 1

end Command

end TypeInference
