import Offside.Log
import Offside.Reader.Passages

set_option autoImplicit false

/-! # From text to tokens

A `Scanner` is a position in a text together with the depth of its lines. `Scanner.read` produces
the next token. The depth of a line is the number of its leading spaces; two spaces more than the
line before make one `indent`, two spaces less one `dedent`, and every such token is handed out by a
read of its own, so that steps of several levels wait in `pendingIndents` and `pendingDedents`.
Blank lines and comments make no tokens, and at the end of the input the line is ended and all
blocks are closed.

An error leaves the scanner behind the text that caused it, and reading can go on. -/

namespace Offside

/-- A position in a text, and what is known about its lines. -/
structure Scanner where
  reader : Reader
  /-- The leading spaces of the current line. -/
  depth : Nat
  /-- Steps in that are still to be handed out. -/
  pendingIndents : Nat
  /-- Steps out that are still to be handed out. -/
  pendingDedents : Nat
  /-- Whether the leading space of a line comes next. -/
  atLineStart : Bool
  /-- What was reported so far. -/
  log : Log
  deriving DecidableEq, Repr, Inhabited

namespace Scanner

/-- The spaces that make one step of indentation. -/
def indentWidth : Nat := 2

/-- The start of a text. -/
def ofString (source : String) : Scanner :=
  ⟨Reader.ofString source, 0, 0, 0, true, #[]⟩

/-- The number of the current line. -/
def line (s : Scanner) : Nat := s.reader.line

/-! ## The start of a line -/

/-- Moves the depth to `spaces`. The first step is handed out, the others wait. -/
def moveTo (s : Scanner) (spaces : Nat) : Option Token × Scanner :=
  let moved := { s with depth := spaces, log := s.log.push (.indentation s.line s.depth spaces) }
  if s.depth < spaces then
    (some .indent, { moved with pendingIndents := (spaces - s.depth) / indentWidth - 1 })
  else
    (some .dedent, { moved with pendingDedents := (s.depth - spaces) / indentWidth - 1 })

/-- Takes the leading space of a line. The result is the first step in or out, or nothing when the
line is as deep as the one before or the input ends. -/
def openLine (s : Scanner) : Except LexicalCause (Option Token) × Scanner :=
  match s.reader.lead 0 with
  | (.tab, reader) => (.error .tabInIndentation, { s with reader })
  | (.endOfInput, reader) => (.ok none, { s with reader, atLineStart := false })
  | (.text spaces, reader) =>
    let s := { s with reader, atLineStart := false }
    if spaces = s.depth then (.ok none, s)
    else if spaces % indentWidth ≠ s.depth % indentWidth then
      (.error (.unevenIndentation spaces s.depth), s)
    else
      let (step, moved) := s.moveTo spaces
      (.ok step, moved)

theorem atLineStart_moveTo (s : Scanner) (spaces : Nat) :
    (s.moveTo spaces).2.atLineStart = s.atLineStart := by
  unfold moveTo; split <;> rfl

theorem reader_moveTo (s : Scanner) (spaces : Nat) :
    (s.moveTo spaces).2.reader = s.reader := by
  unfold moveTo; split <;> rfl

/-- A line that could be opened has been opened, and no text was added. -/
theorem openLine_ok {s s' : Scanner} {step : Option Token}
    (h : s.openLine = (.ok step, s')) :
    s'.atLineStart = false ∧ s'.reader.size ≤ s.reader.size := by
  have hsize := s.reader.size_lead_le 0
  unfold openLine at h
  split at h
  · simp at h
  · next reader hlead =>
    rw [hlead] at hsize
    obtain ⟨-, rfl⟩ := Prod.mk.inj h
    exact ⟨rfl, hsize⟩
  · next spaces reader hlead =>
    rw [hlead] at hsize
    simp only at h
    split at h
    · obtain ⟨-, rfl⟩ := Prod.mk.inj h
      exact ⟨rfl, hsize⟩
    · split at h
      · simp at h
      · obtain ⟨-, rfl⟩ := Prod.mk.inj h
        exact ⟨by rw [atLineStart_moveTo], by rw [reader_moveTo]; exact hsize⟩

/-! ## Tokens on a line -/

/-- Takes the rest of a token that begins with the punctuation `c`. -/
def sign (s : Scanner) (c : Char) : Token × Scanner :=
  match s.reader.next? with
  | none => (.char c, s)
  | some (d, reader) =>
    match PairedSign.ofPair? c d with
    | some p => (.paired p, { s with reader })
    | none => (.char c, { s with reader := reader.giveBack d })

/-- Takes the rest of the word that begins with `c`. -/
def word (s : Scanner) (c : Char) : Except (ReadFault LexicalCause) Token × Scanner :=
  let (word, reader) := s.reader.restOfWord c.toString
  match Token.ofWord? word with
  | some t => (.ok t, { s with reader })
  | none => (.error (Token.faultOf word), { s with reader })

/-- Takes the rest of the token that begins with `c`. -/
def content (s : Scanner) (c : Char) : Except (ReadFault LexicalCause) Token × Scanner :=
  if c = '\'' || c = '"' then
    let (text, reader) := s.reader.quotedText c ""
    ((text.map .string).mapError .lexical, { s with reader })
  else if punctuation.contains c then
    let (t, s) := s.sign c
    (.ok t, s)
  else s.word c

/-! ## The end of the input -/

/-- The token after all text: the end of the last line, then a step out for every open block, then
the end. -/
def closing (s : Scanner) (previous? : Option Token) : Token × Scanner :=
  if previous?.any (!·.isLayout) then (.newline, s)
  else if s.depth = 0 then (.endOfInput, s)
  else (.dedent, { s with depth := 0, pendingDedents := s.depth / indentWidth - 1 })

/-! ## Reading -/

/-- Whether a line break after `previous?` ends a line with tokens on it. -/
def endsLine (previous? : Option Token) : Bool :=
  previous?.any (· != .newline)

/-- Produces the next token when no step is waiting, where `previous?` is the token before it. -/
def scan (s : Scanner) (previous? : Option Token) :
    Except (ReadFault LexicalCause) Token × Scanner :=
  if _h : s.atLineStart then
    match _ho : s.openLine with
    | (.error cause, s') => (.error (.lexical cause), s')
    | (.ok (some step), s') => (.ok step, s')
    | (.ok none, s') => s'.scan previous?
  else
    match _hv : s.reader.nextVisible? with
    | (none, reader) =>
      let (t, s') := { s with reader }.closing previous?
      (.ok t, s')
    | (some c, reader) =>
      if c = '#' then { s with reader := reader.skipComment }.scan previous?
      else if c = '\n' then
        if endsLine previous? then (.ok .newline, { s with reader, atLineStart := true })
        else { s with reader, atLineStart := true }.scan previous?
      else { s with reader }.content c
termination_by 2 * s.reader.size + s.atLineStart.toNat
decreasing_by
  · have := openLine_ok _ho
    simp only [this.1, _h, Bool.toNat_false, Bool.toNat_true]
    omega
  · have := Reader.size_lt_of_nextVisible? _hv
    have := reader.size_skipComment_le
    omega
  · have := Reader.size_lt_of_nextVisible? _hv
    simp only [Bool.toNat_true]
    omega

/-- Produces the next token, where `previous?` is the token before it. After the end there is only
the end. An error of the text carries the line on which the scanner stands. -/
def read (s : Scanner) (previous? : Option Token) : Except ReadError Token × Scanner :=
  if previous? = some .endOfInput then (.ok .endOfInput, s)
  else if s.pendingDedents ≠ 0 then
    (.ok .dedent, { s with pendingDedents := s.pendingDedents - 1 })
  else if s.pendingIndents ≠ 0 then
    (.ok .indent, { s with pendingIndents := s.pendingIndents - 1 })
  else
    match s.scan previous? with
    | (.ok t, s') => (.ok t, s')
    | (.error fault, s') => (.error (fault.onLine s'.line), s')

end Scanner

end Offside
