import Offside.CommandLine.Basic

set_option autoImplicit false

/-! # The program

Connects the command to the arguments, the files and the streams of the process. -/

namespace Offside

/-- The text of the file at a path, if it can be read. -/
def readScript? (path : String) : IO (Option String) := do
  try
    return some (← IO.FS.readFile path)
  catch _ =>
    return none

/-- The answer to the arguments of the process. -/
def answerArguments (arguments : List String) : IO Response := do
  match Invocation.ofArguments arguments with
  | .error refusal => return .ofRefusal refusal
  | .ok i =>
    let directory ← IO.currentDir
    let path := Path.resolve directory.toString i.script
    return i.respond path (← readScript? path)

end Offside

/-- Answers on the standard streams and ends with the status of the answer. -/
def main (arguments : List String) : IO UInt32 := do
  let r ← Offside.answerArguments arguments
  IO.print r.stdout
  IO.eprint r.stderr
  return r.status.toUInt32
