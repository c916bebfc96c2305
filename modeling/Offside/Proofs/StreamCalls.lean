import Offside.Proofs.ScanSteps

set_option autoImplicit false

/-! # Calls of a stream

What may be asked of a stream of tokens, in any order and also behind errors: its current token, the
next token, and whether one of them is what was expected. A call makes one read at most, and only a
read moves the stream; so what every read keeps holds after any sequence of calls. -/

namespace Offside

/-- What may be asked of a stream. -/
inductive StreamCall
  /-- The current token. -/
  | current
  /-- The next token. -/
  | advance
  /-- The current token, if it is as expected. -/
  | expect (e : Expectation)
  /-- The next token, if it is as expected. -/
  | expectNext (e : Expectation)
  deriving DecidableEq, Repr, Inhabited

namespace TokenStream

variable {s : TokenStream}

/-- What a call gives, and where it leaves the stream. -/
def call (s : TokenStream) : StreamCall → Except ReadError Token × TokenStream
  | .current => (.ok s.current, s)
  | .advance => s.advance
  | .expect e => (s.expect e, s)
  | .expectNext e => s.expectNext e

/-- The stream after calls. -/
def after (s : TokenStream) : List StreamCall → TokenStream
  | [] => s
  | c :: calls => (s.call c).2.after calls

/-- What the read of a call gives, if the call makes one. -/
def readBy? (s : TokenStream) : StreamCall → Option (Except ReadError Token)
  | .advance | .expectNext _ => some s.advance.1
  | .current | .expect _ => none

/-- What the reads of calls give. -/
def readsBy (s : TokenStream) : List StreamCall → List (Except ReadError Token)
  | [] => []
  | c :: calls => (s.readBy? c).toList ++ (s.call c).2.readsBy calls

/-- The reads of a stream from its start on: the first one gave its current token. -/
def reads (s : TokenStream) (calls : List StreamCall) : List (Except ReadError Token) :=
  .ok s.current :: s.readsBy calls

/-- The tokens that successful reads gave. -/
def handedOut (reads : List (Except ReadError Token)) : List Token :=
  reads.filterMap Except.toOption

theorem handedOut_concat (reads : List (Except ReadError Token))
    (r : Except ReadError Token) :
    handedOut (reads ++ [r]) = handedOut reads ++ r.toOption.toList := by
  rw [handedOut, List.filterMap_append, handedOut]
  cases r <;> rfl

/-! ## Reads -/

/-- A move is a read of the scanner, and a token that was read is the current one. -/
theorem advance_eq (s : TokenStream) :
    s.advance.1 = (s.scanner.read (some s.current)).1 ∧
      s.advance.2.scanner = (s.scanner.read (some s.current)).2 ∧
      some s.advance.2.current = s.advance.1.toOption.or (some s.current) := by
  unfold advance
  cases s.scanner.read (some s.current) with
  | mk r scanner => cases r <;> exact ⟨rfl, rfl, rfl⟩

/-- What a move does. -/
theorem reads_advance (heven : s.scanner.depth % 2 = 0) :
    s.scanner.Reads (some s.current) s.advance.1 s.advance.2.scanner := by
  obtain ⟨hresult, hscanner, -⟩ := s.advance_eq
  rw [hresult, hscanner]
  exact Scanner.reads_read heven _

/-- The first token of a source was read at its start. -/
theorem read_of_ofString {source : String} (hs : ofString source = .ok s) :
    (Scanner.ofString source).read none = (.ok s.current, s.scanner) := by
  unfold ofString at hs
  split at hs
  · rename_i t scanner hread
    obtain rfl := Except.ok.inj hs
    exact hread
  · simp at hs

/-- The stream moves by its reads only. -/
theorem call_snd (s : TokenStream) (c : StreamCall) :
    (s.call c).2 = match s.readBy? c with
      | some _ => s.advance.2
      | none => s := by
  cases c with
  | current => rfl
  | advance => rfl
  | expect e => rfl
  | expectNext e =>
    simp only [call, expectNext, readBy?]
    cases s.advance with
    | mk r s' => cases r <;> rfl

/-! ## What every read keeps -/

section

/- What is told of a scanner, of the token that it gave last and of the reads that were made. -/
variable {P : Scanner → Option Token → List (Except ReadError Token) → Prop}
  {source : String} {rs : List (Except ReadError Token)}

theorem invariant_readsBy
    (hread : ∀ s p rs, P s p rs →
      P (s.read p).2 ((s.read p).1.toOption.or p) (rs ++ [(s.read p).1]))
    (calls : List StreamCall) (h : P s.scanner (some s.current) rs) :
    P (s.after calls).scanner (some (s.after calls).current) (rs ++ s.readsBy calls) := by
  have hadvance : ∀ s : TokenStream, ∀ rs, P s.scanner (some s.current) rs →
      P s.advance.2.scanner (some s.advance.2.current) (rs ++ [s.advance.1]) := by
    intro s rs h
    obtain ⟨hresult, hscanner, hcurrent⟩ := s.advance_eq
    rw [hcurrent, hscanner, hresult]
    exact hread _ _ _ h
  induction calls generalizing s rs with
  | nil => simpa [after, readsBy] using h
  | cons c calls ih =>
    rw [after, readsBy, ← List.append_assoc]
    refine ih ?_
    rw [call_snd]
    cases c with
    | current => simpa [readBy?] using h
    | advance => exact hadvance s rs h
    | expect e => simpa [readBy?] using h
    | expectNext e => exact hadvance s rs h

/-- What holds at the start of a source and is kept by every read, failing or not, holds after any
calls of its stream. -/
theorem invariant_reads (hstart : P (Scanner.ofString source) none [])
    (hread : ∀ s p rs, P s p rs →
      P (s.read p).2 ((s.read p).1.toOption.or p) (rs ++ [(s.read p).1]))
    (hs : ofString source = .ok s) (calls : List StreamCall) :
    P (s.after calls).scanner (some (s.after calls).current) (s.reads calls) := by
  have hfirst := hread _ _ _ hstart
  rw [read_of_ofString hs] at hfirst
  exact invariant_readsBy hread calls hfirst

end

end TokenStream

end Offside
