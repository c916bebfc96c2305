import Mathlib.Data.List.Basic
import Offside.Proofs.StreamCalls

set_option autoImplicit false

/-! # The reader is a cursor

Between two calls of a stream its reader holds back one character at most, and that is the one the
text gave last. So what is still to come is the text behind a place of the source, and calls move
this place forward only, failing calls too. The line is the number of the line that the place is
on.

All that moves a reader is taking a character and giving back the one just taken. What is kept by
these two is kept by every passage, by every read and by every call. -/

namespace Offside

namespace Reader

variable {r r' r₁ : Reader} {c : Char} {text taken : List Char} {P : Reader → Prop}

/-- What is kept when a character is taken, and when that character is then given back. -/
structure Kept (P : Reader → Prop) : Prop where
  next {r r' : Reader} {c : Char} (h : P r) (hn : r.next? = some (c, r')) : P r'
  back {r r' : Reader} {c : Char} (h : P r) (hn : r.next? = some (c, r')) : P (r'.giveBack c)

namespace Kept

/-! ## Passages -/

theorem nextVisible? (hP : Kept P) (h : P r) : P r.nextVisible?.2 := by
  fun_induction Reader.nextVisible? r with
  | case1 r hn => exact h
  | case2 r c r' hn _ ih => exact ih (hP.next h hn)
  | case3 r c r' hn _ => exact hP.next h hn

theorem skipComment (hP : Kept P) (h : P r) : P r.skipComment := by
  fun_induction Reader.skipComment r with
  | case1 r hn => exact h
  | case2 r r' hn => exact hP.back h hn
  | case3 r c r' hn _ ih => exact ih (hP.next h hn)

theorem lead (hP : Kept P) (spaces : Nat) (h : P r) : P (r.lead spaces).2 := by
  fun_induction Reader.lead r spaces with
  | case1 r spaces hn => exact h
  | case2 r spaces r' hn ih => exact ih (hP.next h hn)
  | case3 r spaces r' hn _ ih => exact ih (hP.next h hn)
  | case4 r spaces r' hn _ _ ih => exact ih (hP.next h hn)
  | case5 r spaces r' hn _ _ _ ih => exact ih (hP.skipComment (hP.next h hn))
  | case6 r spaces r' hn => exact hP.next h hn
  | case7 r spaces c r' hn => exact hP.back h hn

theorem quotedText (hP : Kept P) (mark : Char) (text : String) (h : P r) :
    P (r.quotedText mark text).2 := by
  fun_induction Reader.quotedText r mark text with
  | case1 r text hn => exact h
  | case2 r text r₁ hn => exact hP.next h hn
  | case3 r text r₁ hn => exact hP.next h hn
  | case4 r text r₁ _ hn => exact hP.next h hn
  | case5 r text r₁ e r₂ hn₁ d _ hn _ _ ih => exact ih (hP.next (hP.next h hn) hn₁)
  | case6 r text r₁ e r₂ hn₁ _ hn => exact hP.next (hP.next h hn) hn₁
  | case7 r text c r₁ hn _ _ _ ih => exact ih (hP.next h hn)

theorem restOfWord (hP : Kept P) (word : String) (h : P r) : P (r.restOfWord word).2 := by
  fun_induction Reader.restOfWord r word with
  | case1 r word hn => exact h
  | case2 r word c r' hn _ => exact hP.back h hn
  | case3 r word c r' hn _ ih => exact ih (hP.next h hn)

/-! ## Reads -/

variable {s : Scanner}

theorem openLine (hP : Kept P) (h : P s.reader) : P s.openLine.2.reader := by
  have hlead := hP.lead 0 h
  cases hl : s.reader.lead 0 with
  | mk ending r =>
    rw [hl] at hlead
    simp only [Scanner.openLine, hl]
    cases ending with
    | tab => exact hlead
    | endOfInput => exact hlead
    | text spaces =>
      simp only
      split
      · exact hlead
      · split
        · exact hlead
        · rw [Scanner.reader_moveTo]
          exact hlead

theorem sign (hP : Kept P) (c : Char) (h : P s.reader) : P (s.sign c).2.reader := by
  cases hn : s.reader.next? with
  | none => simpa only [Scanner.sign, hn] using h
  | some p =>
    obtain ⟨d, r⟩ := p
    simp only [Scanner.sign, hn]
    cases PairedSign.ofPair? c d with
    | some p => exact hP.next h hn
    | none => exact hP.back h hn

theorem word (hP : Kept P) (c : Char) (h : P s.reader) : P (s.word c).2.reader := by
  have hword := hP.restOfWord c.toString h
  cases hw : s.reader.restOfWord c.toString with
  | mk word r =>
    rw [hw] at hword
    simp only [Scanner.word, hw]
    cases Token.ofWord? word with
    | some t => exact hword
    | none => exact hword

theorem content (hP : Kept P) (c : Char) (h : P s.reader) : P (s.content c).2.reader := by
  unfold Scanner.content
  split
  · exact hP.quotedText c "" h
  · split
    · exact hP.sign c h
    · exact hP.word c h

/-- The end of the input is told without the reader. -/
theorem closing (previous? : Option Token) (h : P s.reader) :
    P (s.closing previous?).2.reader := by
  unfold Scanner.closing
  split
  · exact h
  · split <;> exact h

theorem scan (hP : Kept P) (previous? : Option Token) (h : P s.reader) :
    P (s.scan previous?).2.reader := by
  fun_induction Scanner.scan s previous? with
  | case1 s _ cause s' ho =>
    have hopen := hP.openLine h
    rwa [ho] at hopen
  | case2 s _ step s' ho =>
    have hopen := hP.openLine h
    rwa [ho] at hopen
  | case3 s _ s' ho ih =>
    have hopen := hP.openLine h
    rw [ho] at hopen
    exact ih hopen
  | case4 s _ r hv t s' hc =>
    have hvisible := hP.nextVisible? h
    rw [hv] at hvisible
    have hclosing := closing (s := { s with reader := r }) previous? hvisible
    rwa [hc] at hclosing
  | case5 s _ r hv ih =>
    have hvisible := hP.nextVisible? h
    rw [hv] at hvisible
    exact ih (hP.skipComment hvisible)
  | case6 s _ r _ hv =>
    have hvisible := hP.nextVisible? h
    rwa [hv] at hvisible
  | case7 s _ r _ hv _ ih =>
    have hvisible := hP.nextVisible? h
    rw [hv] at hvisible
    exact ih hvisible
  | case8 s _ c r hv _ _ =>
    have hvisible := hP.nextVisible? h
    rw [hv] at hvisible
    exact hP.content c hvisible

/-- What is kept by the two moves of a reader is kept by every read, failing or not. -/
theorem read (hP : Kept P) (previous? : Option Token) (h : P s.reader) :
    P (s.read previous?).2.reader := by
  have hscan := hP.scan previous? h
  unfold Scanner.read
  split
  · exact h
  · split
    · exact h
    · split
      · exact h
      · cases hs : s.scan previous? with
        | mk result s' =>
          rw [hs] at hscan
          cases result <;> exact hscan

/-! ## Calls -/

/-- A call makes one read at most. -/
theorem call (hP : Kept P) {s : TokenStream} (c : StreamCall) (h : P s.scanner.reader) :
    P (s.call c).2.scanner.reader := by
  rw [TokenStream.call_snd]
  cases s.readBy? c with
  | none => exact h
  | some r =>
    obtain ⟨-, hscanner, -⟩ := s.advance_eq
    simp only
    rw [hscanner]
    exact hP.read _ h

/-- What holds at the start of a source holds after any calls of its stream. -/
theorem after (hP : Kept P) {source : String} {s : TokenStream}
    (hs : TokenStream.ofString source = .ok s) (calls : List StreamCall)
    (h : P (ofString source)) : P (s.after calls).scanner.reader :=
  TokenStream.invariant_reads (P := fun s _ _ => P s.reader) h (fun _ p _ => hP.read p) hs calls

end Kept

/-! ## Characters held back -/

/-- Where one character is held back at most, none is once a character has been taken. -/
theorem pushed_of_next? (hr : r.pushed.length ≤ 1) (h : r.next? = some (c, r')) :
    r'.pushed = [] := by
  rcases r with ⟨_ | ⟨d, _ | ⟨e, pushed⟩⟩, _ | ⟨f, stream⟩, line⟩ <;> simp_all [next?] <;>
    rw [← h.2]

/-- One character is held back at most. -/
theorem kept_pushed : Kept (·.pushed.length ≤ 1) where
  next hr hn := by
    rw [pushed_of_next? hr hn]
    exact Nat.zero_le 1
  back hr hn := by
    rw [giveBack, pushed_of_next? hr hn]
    exact Nat.le_refl 1

/-- What comes is behind what was taken, from whatever place on. -/
theorem kept_takes (r₀ : Reader) : Kept (∃ taken, r₀.Takes taken ·) where
  next := fun ⟨taken, h⟩ hn => ⟨taken ++ _, h.trans (.of_next? hn)⟩
  back := fun ⟨taken, h⟩ hn => ⟨taken ++ [], h.trans (.of_giveBack hn)⟩

/-! ## A place in a text -/

/-- The reader stands at a place of `text`. -/
structure CursorIn (text : List Char) (r : Reader) : Prop where
  /-- Of what the text gave, the last character may be held back. -/
  held : ∃ given, text = given ++ r.stream ∧
    (r.pushed = [] ∨ ∃ c, r.pushed = [c] ∧ given.getLast? = some c)
  /-- The line is the one behind what was taken. -/
  place : ∃ consumed, text = consumed ++ r.unread ∧ r.line = 1 + consumed.count '\n'

namespace CursorIn

theorem of_takes {source : String} (h : (ofString source).Takes taken r)
    (hr : r.pushed.length ≤ 1) : CursorIn source.toList r := by
  have hsource : source.toList = taken ++ r.unread := h.unread_eq
  refine ⟨?_, taken, hsource, h.line_eq⟩
  rcases r with ⟨_ | ⟨c, _ | ⟨d, pushed⟩⟩, stream, line⟩
  · exact ⟨taken, hsource, .inl rfl⟩
  · refine ⟨taken ++ [c], ?_, .inr ⟨c, rfl, List.getLast?_concat⟩⟩
    rw [hsource, List.append_assoc]
    rfl
  · simp at hr

/-- What is still to come stands at the end of the text. -/
theorem isSuffix (h : CursorIn text r) : r.unread <:+ text := by
  obtain ⟨consumed, htext, -⟩ := h.place
  exact ⟨consumed, htext.symm⟩

/-- There is no line behind the last one of the text. -/
theorem line_le (h : CursorIn text r) : r.line ≤ 1 + text.count '\n' := by
  obtain ⟨consumed, htext, hline⟩ := h.place
  rw [hline, htext, List.count_append]
  omega

end CursorIn

theorem Takes.isSuffix (h : r.Takes taken r') : r'.unread <:+ r.unread :=
  ⟨taken, h.unread_eq.symm⟩

theorem Takes.line_le (h : r.Takes taken r') : r.line ≤ r'.line := by
  rw [h.line_eq]
  exact Nat.le_add_right ..

end Reader

namespace TokenStream

open Reader

variable {source : String} {s : TokenStream}

/-- The first read of a source leaves its reader at a place of the source, failing or not. -/
theorem cursorIn_read (source : String) :
    ((Scanner.ofString source).read none).2.reader.CursorIn source.toList := by
  have hpushed := kept_pushed.read (s := .ofString source) none (Nat.zero_le 1)
  obtain ⟨taken, htakes⟩ :=
    (kept_takes (Reader.ofString source)).read (s := .ofString source) none ⟨[], .refl _⟩
  exact .of_takes htakes hpushed

theorem cursorIn_after (hs : ofString source = .ok s) (calls : List StreamCall) :
    (s.after calls).scanner.reader.CursorIn source.toList := by
  have hpushed := kept_pushed.after hs calls (Nat.zero_le 1)
  obtain ⟨taken, htakes⟩ := (kept_takes (Reader.ofString source)).after hs calls ⟨[], .refl _⟩
  exact .of_takes htakes hpushed

/-- Whatever was asked of the stream of a source, and whatever went wrong on the way: one character
at most is held back, and it is the last one that the text gave. What is still to come is a suffix
of the source, and the line is one more than the line breaks before it, so that no call leads beyond
the last line of the source. Every further call moves on to a suffix of what was to come, and to no
earlier line. The first read of a source, which makes the stream, leaves its reader so even where
it fails. -/
theorem reader_is_cursor (source : String) :
    ((Scanner.ofString source).read none).2.reader.CursorIn source.toList ∧
      ∀ s, ofString source = .ok s → ∀ calls,
        let r := (s.after calls).scanner.reader
        r.CursorIn source.toList ∧
          r.unread <:+ source.toList ∧
          r.line ≤ 1 + source.toList.count '\n' ∧
          ∀ call,
            let r' := ((s.after calls).call call).2.scanner.reader
            r'.unread <:+ r.unread ∧ r.line ≤ r'.line := by
  refine ⟨cursorIn_read source, fun s hs calls => ?_⟩
  have hcursor := cursorIn_after hs calls
  refine ⟨hcursor, hcursor.isSuffix, hcursor.line_le, fun call => ?_⟩
  obtain ⟨taken, htakes⟩ :=
    (kept_takes (s.after calls).scanner.reader).call call ⟨[], .refl _⟩
  exact ⟨htakes.isSuffix, htakes.line_le⟩

/-- The sign behind a word is held back. Behind the tab that the next line fails at, the rest of
that line is still to come. -/
theorem cursor_behind_tab :
    let s : TokenStream := ⟨⟨⟨['='], "1 # n\n\tb".toList, 1⟩, 0, 0, 0, false, #[]⟩, .name "a"⟩
    let calls : List StreamCall := List.replicate 4 .advance
    let r := (s.after calls).scanner.reader
    ofString "a=1 # n\n\tb" = .ok s ∧
      .error (.lexical ⟨.tabInIndentation, 2⟩) ∈ s.reads calls ∧
      r.unread = ['b'] ∧
      r.line = 2 ∧
      r.CursorIn "a=1 # n\n\tb".toList := by
  intro s calls r
  have hs : ofString "a=1 # n\n\tb" = .ok s := by decide +kernel
  have hcursor := (reader_is_cursor "a=1 # n\n\tb").2 s hs calls
  exact ⟨hs, by decide +kernel, by decide +kernel, by decide +kernel, hcursor.1⟩

end TokenStream

end Offside
