import Offside.Scanner

set_option autoImplicit false

/-! # Streams of tokens

A `TokenStream` is a scanner together with its current token. `advance` reads the next one; a
failing read leaves the current token as it was and the scanner behind the fault, so that the stream
can be read on. `expect` only looks. `tokenize` lists all tokens of a source. -/

namespace Offside

/-- A scanner and the token that it produced last. -/
structure TokenStream where
  scanner : Scanner
  current : Token
  deriving DecidableEq, Repr, Inhabited

namespace TokenStream

/-- The stream at the first token of a source. -/
def ofString (source : String) : Except ReadError TokenStream :=
  match (Scanner.ofString source).read none with
  | (.ok t, scanner) => .ok ⟨scanner, t⟩
  | (.error e, _) => .error e

/-- The line on which the scanner stands, which is the one behind the current token. -/
def line (s : TokenStream) : Nat := s.scanner.line

/-- Adds a record to the log. -/
def report (s : TokenStream) (r : LogRecord) : TokenStream :=
  { s with scanner.log := s.scanner.log.push r }

/-- Moves to the next token. -/
def advance (s : TokenStream) : Except ReadError Token × TokenStream :=
  match s.scanner.read (some s.current) with
  | (.ok t, scanner) => (.ok t, ⟨scanner, t⟩)
  | (.error e, scanner) => (.error e, { s with scanner })

/-- The current token, if it is what was asked for. Otherwise the error tells what was, which takes
the written form of it. -/
def expect (s : TokenStream) (e : Expectation) : Except ReadError Token :=
  if e.holdsOf s.current then .ok s.current
  else if e.isWritable then .error (.lexical ⟨.unexpected e s.current, s.line⟩)
  else .error (.digits .writing)

/-- Moves to the next token and looks whether it is what was asked for. -/
def expectNext (s : TokenStream) (e : Expectation) : Except ReadError Token × TokenStream :=
  match s.advance with
  | (.ok _, s') => (s'.expect e, s')
  | (.error err, s') => (.error err, s')

/-- A failing move keeps the current token. -/
theorem current_of_advance_error {s s' : TokenStream} {e : ReadError}
    (h : s.advance = (.error e, s')) : s'.current = s.current := by
  unfold advance at h
  split at h
  · simp at h
  · obtain ⟨-, rfl⟩ := Prod.mk.inj h; rfl

/-- A move that succeeds makes its result the current token. -/
theorem current_of_advance_ok {s s' : TokenStream} {t : Token}
    (h : s.advance = (.ok t, s')) : s'.current = t := by
  unfold advance at h
  split at h
  · obtain ⟨ht, rfl⟩ := Prod.mk.inj h; exact Except.ok.inj ht
  · simp at h

end TokenStream

/-! ## Listings -/

/-- The tokens of a source, each with the line behind it, up to the end of the input or up to the
first error, and what was reported on the way. -/
structure Listing where
  entries : List (Token × Nat)
  error? : Option ReadError
  log : Log
  deriving DecidableEq, Repr, Inhabited

/-- The listing of at most `n` tokens from the current one on. -/
def TokenStream.listing (s : TokenStream) : Nat → Listing
  | 0 => ⟨[], none, s.scanner.log⟩
  | n + 1 =>
    let entry := (s.current, s.line)
    if s.current = .endOfInput then ⟨[entry], none, s.scanner.log⟩
    else
      match s.advance with
      | (.ok _, s') =>
        let rest := s'.listing n
        { rest with entries := entry :: rest.entries }
      | (.error e, s') => ⟨[entry], some e, s'.scanner.log⟩

/-- All tokens of a source. A text of `n` characters has at most `n + 2` tokens: each but the last
two uses up a character of its own. -/
def tokenize (source : String) : Listing :=
  match TokenStream.ofString source with
  | .ok s => s.listing (source.length + 2)
  | .error e => ⟨[], some e, #[]⟩

end Offside
