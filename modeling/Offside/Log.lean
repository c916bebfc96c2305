import Offside.Text.Quoted

set_option autoImplicit false

/-! # The log

What a run reports about itself besides its output. Each record belongs to one component; the
records of a run form one sequence, in the order in which things happened. -/

namespace Offside

/-- One thing worth reporting. -/
inductive LogRecord
  /-- A source is about to be read. -/
  | parsing (path : String)
  /-- The depth of the lines changed, both counted in spaces. -/
  | indentation (line before after : Nat)
  /-- A class was read to its end. -/
  | classDefined (name : String) (parent? : Option String) (methods : List String)
  /-- A program was read to its end. -/
  | parsed (statements : Nat)
  /-- A program with these classes is about to run. -/
  | running (classes : List String)
  /-- A method of an instance is about to run. -/
  | calling (className method : String) (arguments : Nat)
  /-- Reading or running ended with an error. -/
  | aborted (path message : String)
  deriving DecidableEq, Repr, Inhabited

/-- The records so far, in order. -/
abbrev Log := Array LogRecord

namespace LogRecord

/-- The component that reports. -/
def component : LogRecord → String
  | parsing _ | running _ | aborted _ _ => "mython.core"
  | indentation _ _ _ => "mython.lexer"
  | classDefined _ _ _ | parsed _ => "mython.parser"
  | calling _ _ _ => "mython.runtime"

/-- What is reported. -/
def text : LogRecord → String
  | parsing path => s!"parsing {path}"
  | indentation line before after => s!"line {line}: indentation {before} -> {after}"
  | classDefined name parent? methods =>
      let parent := parent?.getD ""
      s!"class {name}({parent}): {Text.quoteList methods}"
  | parsed statements => s!"parsed {statements} top-level statement(s)"
  | running classes => s!"running program with classes {Text.quoteList classes}"
  | calling className method arguments =>
      s!"calling {className}.{method} with {arguments} argument(s)"
  | aborted path message => s!"{path} aborted: {message}"

/-- A record as one line of the log. -/
def render (r : LogRecord) : String :=
  r.component ++ ": DEBUG: " ++ r.text

end LogRecord

end Offside
