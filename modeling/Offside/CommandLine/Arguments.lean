import Offside.Text.Digit
import Offside.Text.Quoted

set_option autoImplicit false

/-! # Arguments

The arguments of a command name one script and may hold options. An option is given by a beginning
of its name that no other option shares, and the value of an option either follows it or is joined
to it by `=`. After `--` nothing is an option.

Arguments are first told apart one by one (`Argument.ofText`) and then taken from left to right
(`Invocation.take`). -/

namespace Offside

/-! ## Options -/

/-- What can be asked for besides a script. -/
inductive Switch
  | help
  | typedReturns
  | tokens
  | logLevel
  deriving DecidableEq, Repr, Inhabited

namespace Switch

/-- How an option is called in messages. -/
def label : Switch → String
  | help => "-h/--help"
  | typedReturns => "--typed-returns"
  | tokens => "--tokens"
  | logLevel => "--log-level"

/-- The full spellings of the options. -/
def spellings : List (String × Switch) :=
  [("-h", help), ("--help", help), ("--typed-returns", typedReturns), ("--tokens", tokens),
   ("--log-level", logLevel)]

end Switch

/-- Which records are shown. -/
inductive LogLevel
  | debug
  | info
  | warning
  | error
  deriving DecidableEq, Repr, Inhabited

namespace LogLevel

/-- The name of a level. -/
def name : LogLevel → String
  | debug => "DEBUG"
  | info => "INFO"
  | warning => "WARNING"
  | error => "ERROR"

/-- All levels, from the one that shows most on. -/
def all : List LogLevel := [debug, info, warning, error]

/-- The level with a given name. -/
def ofName? (name : String) : Option LogLevel := all.find? fun l => l.name == name

end LogLevel

/-! ## Errors of usage -/

/-- Why arguments make no sense. -/
inductive UsageError
  | scriptMissing
  | unrecognized (arguments : List String)
  | ambiguous (argument : String) (spellings : List String)
  | valueIgnored (switch : Switch) (value : String)
  | valueMissing (switch : Switch)
  | invalidLevel (value : String)
  deriving DecidableEq, Repr, Inhabited

/-- The message of an error of usage. -/
def UsageError.message : UsageError → String
  | scriptMissing => "the following arguments are required: script"
  | unrecognized arguments => "unrecognized arguments: " ++ " ".intercalate arguments
  | ambiguous argument spellings =>
      s!"ambiguous option: {argument} could match " ++ ", ".intercalate spellings
  | valueIgnored switch value =>
      s!"argument {switch.label}: ignored explicit argument {Text.quote value}"
  | valueMissing switch => s!"argument {switch.label}: expected one argument"
  | invalidLevel value =>
      let levels := ", ".intercalate (LogLevel.all.map fun l => Text.quote l.name)
      s!"argument {Switch.logLevel.label}: invalid choice: {Text.quote value} " ++
        s!"(choose from {levels})"

/-! ## Single arguments -/

/-- What one argument is. -/
inductive Argument
  | plain (text : String)
  /-- The first `--`. -/
  | separator
  /-- An option, whether it was given by its one letter, and the value that was joined to it. -/
  | option (switch : Switch) (short : Bool) (value? : Option String)
  /-- What looks like an option and is none. -/
  | unknown (text : String)
  deriving DecidableEq, Repr, Inhabited

namespace Argument

/-- The text before the first equals sign, and the text after it if there is one. -/
def splitAssignment (text : String) : String × Option String :=
  let cs := text.toList
  let name := String.ofList (cs.takeWhile (· ≠ '='))
  match cs.dropWhile (· ≠ '=') with
  | [] => (name, none)
  | _ :: value => (name, some (String.ofList value))

/-- A text without the line break at its end, if there is one. -/
def dropLastBreak (cs : List Char) : List Char :=
  if cs.getLast? = some '\n' then cs.dropLast else cs

/-- Whether a text is a negative number, with or without a decimal point. A line break may follow
it. -/
def isNegativeNumber (text : String) : Bool :=
  match dropLastBreak text.toList with
  | '-' :: cs =>
    let whole := cs.takeWhile Text.isDigit
    match cs.dropWhile Text.isDigit with
    | [] => !whole.isEmpty
    | '.' :: decimals => !decimals.isEmpty && decimals.all Text.isDigit
    | _ => false
  | _ => false

/-- Whether an option is spelled with one letter. -/
def isShort (spelling : String) : Bool := spelling.length == 2

/-- The readings of a text as an abbreviated option, each with the full spelling. -/
def abbreviations (text : String) : List (String × Argument) :=
  if text.startsWith "--" then
    let (name, value?) := splitAssignment text
    (Switch.spellings.filter fun s => s.1.startsWith name).map fun (spelling, switch) =>
      (spelling, .option switch false value?)
  else
    Switch.spellings.filterMap fun (spelling, switch) =>
      if isShort spelling && text.startsWith spelling then
        some (spelling, .option switch true (some (String.ofList (text.toList.drop 2))))
      else none

/-- The option that is spelled in full in a text, with or without a value. -/
def inFull? (text : String) : Option Argument :=
  match Switch.spellings.lookup text with
  | some switch => some (.option switch (isShort text) none)
  | none =>
    match splitAssignment text with
    | (name, some value) =>
      (Switch.spellings.lookup name).map fun switch =>
        .option switch (isShort name) (some value)
    | (_, none) => none

/-- What an argument is that does not come behind `--`. -/
def ofText (text : String) : Except UsageError Argument :=
  if !text.startsWith "-" || text = "-" then .ok (.plain text)
  else
    match inFull? text with
    | some argument => .ok argument
    | none =>
      match abbreviations text with
      | [(_, argument)] => .ok argument
      | [] =>
        if isNegativeNumber text || text.contains ' ' then .ok (.plain text)
        else .ok (.unknown text)
      | several => .error (.ambiguous text (several.map Prod.fst))

/-- What all arguments are. -/
def ofTexts : List String → Except UsageError (List Argument)
  | [] => .ok []
  | text :: rest =>
    if text = "--" then .ok (.separator :: rest.map .plain)
    else do
      let first ← ofText text
      let others ← ofTexts rest
      return first :: others

end Argument

/-! ## Invocations -/

/-- What a list of arguments asks for. -/
structure Invocation where
  script : String
  typedReturns : Bool
  tokens : Bool
  level : LogLevel
  deriving DecidableEq, Repr, Inhabited

/-- The arguments taken so far. -/
structure Invocation.Draft where
  script? : Option String
  typedReturns : Bool
  tokens : Bool
  /-- The level, unless it was given as `--`, which is no value. -/
  level? : Option LogLevel
  /-- Arguments that mean nothing. -/
  extras : List String
  deriving DecidableEq, Repr, Inhabited

/-- Why arguments do not lead to an invocation. -/
inductive Invocation.Refusal
  | helpWanted
  | misused (e : UsageError)
  deriving DecidableEq, Repr, Inhabited

namespace Invocation

/-- Before any argument is taken. -/
def Draft.initial : Draft := ⟨none, false, false, some .warning, []⟩

/-- What is joined to `-h` in one argument: more letters, each of which must be `h`, and at least
one of them. -/
def helpTail : List Char → Refusal
  | [] => .misused (.valueIgnored .help "")
  | ['h'] => .helpWanted
  | 'h' :: rest => helpTail rest
  | value => .misused (.valueIgnored .help (String.ofList value))

/-- Takes an option without a value. -/
def takeSwitch (d : Draft) (switch : Switch) (short : Bool) (value? : Option String) :
    Except Refusal Draft :=
  match value? with
  | none =>
    match switch with
    | .help => .error .helpWanted
    | .typedReturns => .ok { d with typedReturns := true }
    | .tokens => .ok { d with tokens := true }
    | .logLevel => .error (.misused (.valueMissing .logLevel))
  | some value =>
    if short then .error (helpTail value.toList)
    else .error (.misused (.valueIgnored switch value))

/-- Takes the value of the option for the level. -/
def takeLevel (d : Draft) (value : String) : Except Refusal Draft :=
  if value = "--" then .ok { d with level? := none }
  else
    match LogLevel.ofName? value with
    | some level => .ok { d with level? := some level }
    | none => .error (.misused (.invalidLevel value))

/-- Takes an argument that means nothing. -/
def Draft.addExtra (d : Draft) (text : String) : Draft :=
  { d with extras := d.extras ++ [text] }

/-- Takes arguments from left to right. The first plain one is the script, with a `--` next to
it. -/
def take (d : Draft) : List Argument → Except Refusal Draft
  | [] => .ok d
  | .unknown text :: rest => take (d.addExtra text) rest
  | .separator :: rest =>
    match d.script? with
    | none => take d rest
    | some _ => take (d.addExtra "--") rest
  | .plain text :: .separator :: rest =>
    match d.script? with
    | none => take { d with script? := some text } rest
    | some _ => take ((d.addExtra text).addExtra "--") rest
  | .plain text :: rest =>
    match d.script? with
    | none => take { d with script? := some text } rest
    | some _ => take (d.addExtra text) rest
  | .option .logLevel _ (some value) :: rest => do
    take (← takeLevel d value) rest
  | .option .logLevel _ none :: .plain value :: rest => do
    take (← takeLevel d value) rest
  | .option switch short value? :: rest => do
    take (← takeSwitch d switch short value?) rest

/-- What a list of arguments asks for. -/
def ofArguments (texts : List String) : Except Refusal Invocation :=
  match Argument.ofTexts texts with
  | .error e => .error (.misused e)
  | .ok arguments => do
    let d ← take .initial arguments
    match d.script? with
    | none => .error (.misused .scriptMissing)
    | some script =>
      if d.extras ≠ [] then .error (.misused (.unrecognized d.extras))
      else
        match d.level? with
        | none => .error (.misused (.invalidLevel "--"))
        | some level => .ok ⟨script, d.typedReturns, d.tokens, level⟩

end Invocation

end Offside
