/- The command. The files of the working directory and the answers of the solver come from standard
input, one a line. -/

import TypeInference.Command.Workspace

namespace TypeInference

namespace Command

partial def readLines (input : IO.FS.Stream) (lines : List String) : IO (List String) := do
  let line ← input.getLine
  if line.isEmpty then pure lines.reverse
  else readLines input ((line.dropEndWhile (· == '\n')).toString :: lines)

end Command

end TypeInference

open TypeInference.Command in
def main (words : List String) : IO UInt32 := do
  let workspace := Workspace.ofLines (← readLines (← IO.getStdin) [])
  let (result, outcome) := (run workspace.solver workspace.files words).run {}
  outcome.report.forM IO.println
  match result with
  | .error fault => IO.eprintln (fault.message.getD "the types cannot be inferred")
  | .ok _ => pure ()
  pure (exitCode result)
