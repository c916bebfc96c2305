import Offside.Error
import Offside.Program.Basic
import Offside.TokenSupply

set_option autoImplicit false

/-! # Rules

A rule reads some tokens of a stream and yields a result, or fails with an error; in both cases the
stream stays where the rule left it. Besides the stream a rule sees the classes defined so far. Any
supply of tokens will do for a stream; `Parse` is a rule over a `TokenStream`.

Repetitions are bounded by a number that stands for the tokens still to come: since each round reads
a token, a bound of that size is never reached. -/

namespace Offside

/-- Where reading stands in a supply `σ`, and the classes defined so far. -/
structure RuleState (σ : Type) where
  stream : σ
  /-- The classes of this source, by name, in the order of their definition. -/
  classes : List (String × ClassRef)
  /-- All classes known, those of other sources among them. -/
  table : ClassTable
  deriving DecidableEq, Repr, Inhabited

/-- A rule that reads from a supply `σ` and yields an `α`. -/
abbrev Rule (σ α : Type) := ExceptT Error (StateM (RuleState σ)) α

/-- Where reading stands in a stream. -/
abbrev ParseState := RuleState TokenStream

/-- A rule that reads from a stream. -/
abbrev Parse (α : Type) := Rule TokenStream α

namespace Parse

variable {σ : Type} [TokenSupply σ]

/-! ## Single tokens -/

/-- The current token. -/
def current : Rule σ Token := do
  return TokenSupply.current (← get).stream

/-- Reads on to the next token. -/
def advance : Rule σ Unit :=
  ExceptT.mk fun st =>
    match TokenSupply.advance st.stream with
    | (.ok _, stream) => (.ok (), { st with stream })
    | (.error e, stream) => (.error (.ofRead e), { st with stream })

/-- Fails at the current token. -/
def fail {α : Type} (cause : SyntaxCause) : Rule σ α := do
  let stream := (← get).stream
  throw (.syntactic ⟨cause, TokenSupply.line stream, TokenSupply.current stream⟩)

/-- Reads the token `t` if it is the current one, and tells whether it was. -/
def accept (t : Token) : Rule σ Bool := do
  if (← current) = t then
    advance
    return true
  else return false

/-- Reads the token `t`, or fails for lack of it. -/
def require (t : Token) (cause : SyntaxCause) : Rule σ Unit := do
  if (← current) = t then advance else fail cause

/-- Reads a name, or fails for lack of one. -/
def requireName (cause : SyntaxCause) : Rule σ String := do
  match ← current with
  | .name name =>
    advance
    return name
  | _ => fail cause

/-- Whether the input is at its end. -/
def atEnd : Rule σ Bool := do
  return (← current) = .endOfInput

/-- Adds a record to the log. -/
def report (r : LogRecord) : Rule σ Unit :=
  modify fun st => { st with stream := TokenSupply.report st.stream r }

/-! ## Classes -/

/-- The class defined under a name. -/
def class? (name : String) : Rule σ (Option ClassRef) := do
  return (← get).classes.lookup name

/-- Defines a class without methods. -/
def defineClass (name : String) (parent? : Option ClassRef) : Rule σ ClassRef := do
  let c := (← get).table.next
  modify fun st =>
    { st with classes := st.classes ++ [(name, c)], table := st.table.add ⟨name, parent?, []⟩ }
  return c

/-- Gives a class its methods. -/
def setMethods (c : ClassRef) (methods : List Method) : Rule σ Unit :=
  modify fun st => { st with table := st.table.setMethods c methods }

/-- The name of a class. -/
def className (c : ClassRef) : Rule σ String := do
  return (← get).table.name c

/-! ## Repetition -/

/-- Items until `done` holds. -/
def many {α : Type} (done : Rule σ Bool) (item : Rule σ α) : Nat → Rule σ (List α)
  | 0 => throw (.limit .depth)
  | n + 1 => do
    if ← done then return []
    let first ← item
    let rest ← many done item n
    return first :: rest

/-- One item or more, with a comma after each but the last. -/
def commaSeparated {α : Type} (item : Rule σ α) : Nat → Rule σ (List α)
  | 0 => throw (.limit .depth)
  | n + 1 => do
    let first ← item
    if ← accept (.char ',') then
      let rest ← commaSeparated item n
      return first :: rest
    else return [first]

/-- The operands that follow `left`, joined to it from the left as the tokens between them say. -/
def chain (join? : Token → Option (Node → Node → Node)) (operand : Rule σ Node) :
    Nat → Node → Rule σ Node
  | 0, _ => throw (.limit .depth)
  | n + 1, left => do
    match join? (← current) with
    | none => return left
    | some join =>
      advance
      let right ← operand
      chain join? operand n (join left right)

/-- Operands joined from the left by the tokens between them. -/
def leftChain (join? : Token → Option (Node → Node → Node)) (operand : Rule σ Node) (n : Nat) :
    Rule σ Node := do
  let first ← operand
  chain join? operand n first

/-- An operand after any number of tokens `sign`, each of which changes what follows it. -/
def signed (sign : Token) (change : Node → Node) (operand : Rule σ Node) : Nat → Rule σ Node
  | 0 => throw (.limit .depth)
  | n + 1 => do
    if ← accept sign then
      let inner ← signed sign change operand n
      return change inner
    else operand

end Parse

end Offside
