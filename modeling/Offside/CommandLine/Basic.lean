import Offside.CommandLine.Arguments
import Offside.CommandLine.Path
import Offside.Session
import Offside.Text.LineBreaks

set_option autoImplicit false

/-! # The command

What the command answers to its arguments: the text for standard output, the text for standard error
and the exit status. `Invocation.respond` runs or lists a script whose text is known, and `respond`
starts from the arguments and a way to look up files.

With the level `DEBUG` the log is shown on standard error, before the error if there is one. Where a
limit was reached, the command breaks off instead of telling of an error. -/

namespace Offside

/-- What a command leaves behind. -/
structure Response where
  status : Nat
  stdout : String
  stderr : String
  /-- The limit at which the command broke off. What the surroundings say about it is not part of
  `stderr`. -/
  broken? : Option Limit
  deriving DecidableEq, Repr, Inhabited

namespace Response

/-- The line that tells how the command is used. -/
def usage : String := "usage: python -m mython [options] <script.my>\n"

/-- The text that explains the arguments. -/
def helpText : String :=
  usage ++
  "\n" ++
  "positional arguments:\n" ++
  "  script\n" ++
  "\n" ++
  "options:\n" ++
  "  -h, --help            show this help message and exit\n" ++
  "  --typed-returns       return values from methods unchanged instead of as\n" ++
  "                        their printed form\n" ++
  "  --tokens              print the token stream instead of running the script\n" ++
  "  --log-level \x7bDEBUG,INFO,WARNING,ERROR\x7d\n"

/-- The answer to arguments that do not lead to an invocation. -/
def ofRefusal : Invocation.Refusal → Response
  | .helpWanted => ⟨0, helpText, "", none⟩
  | .misused e => ⟨2, "", usage ++ "python -m mython: error: " ++ e.message ++ "\n", none⟩

/-- The answer when there is no script at a path. -/
def scriptMissing (path : String) : Response :=
  ⟨2, "", "mython: script not found: " ++ path ++ "\n", none⟩

end Response

namespace Invocation

/-- The lines of the log that are shown. -/
def logText (level : LogLevel) (log : Log) : String :=
  if level = .debug then String.join (log.toList.map fun r => r.render ++ "\n") else ""

/-- The line that tells of an error. -/
def diagnosisLine (d : Diagnosis) : String :=
  "mython: " ++ d.kind ++ ": " ++ d.message ++ "\n"

/-- The answer after an output, a log and possibly an error. -/
def conclude (i : Invocation) (output : String) (log : Log) (error? : Option Error) : Response :=
  match error? with
  | none => ⟨0, output, logText i.level log, none⟩
  | some e =>
    let told := (e.diagnosis?.map diagnosisLine).getD ""
    ⟨1, output, logText i.level log ++ told, e.limit?⟩

/-- The tokens of a listing, one on a line. -/
def tokenLines (l : Listing) : String :=
  String.join (l.entries.map fun e => e.1.text ++ "\n")

/-- Lists or runs the script with the text `source`, which stands at `path`. -/
def respondTo (i : Invocation) (path source : String) : Response :=
  let source := Text.unifyBreaks source
  if i.tokens then
    let l := tokenize source
    i.conclude (tokenLines l) l.log (l.error?.map .ofRead)
  else
    let options := { Options.standard with typedReturns := i.typedReturns }
    let (error?, s) := Session.initial.run options path source
    i.conclude s.state.output s.state.log error?

/-- Lists or runs the script at `path`, where there may be none. -/
def respond (i : Invocation) (path : String) (source? : Option String) : Response :=
  match source? with
  | none => .scriptMissing path
  | some source => i.respondTo path source

end Invocation

/-- The answer of the command in a directory, where `file?` gives the text of a file. -/
def respond (directory : String) (file? : String → Option String) (arguments : List String) :
    Response :=
  match Invocation.ofArguments arguments with
  | .error refusal => .ofRefusal refusal
  | .ok i =>
    let path := Path.resolve directory i.script
    i.respond path (file? path)

end Offside
