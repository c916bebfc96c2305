import Mathlib.Data.List.TakeWhile
import Offside.Proofs.Numerals
import Offside.Proofs.Reader
import Offside.Proofs.SourceLine
import Offside.Proofs.Yields

set_option autoImplicit false

/-! # A scanner inside a line

A scanner that stands inside a line yields the contents of the text up to the next line break, as
they are for the text on its own: nothing that follows the line changes its tokens. If the text has
a fault, the scanner yields the tokens before the fault and fails on this line, or on the next one
where a literal took the line break. -/

namespace Offside

open SourceLine (TextFault)

/-! ## Single tokens -/

namespace Reader

variable {r : Reader} {mark c : Char} {text rest : List Char} {line : Nat}

theorem push_ofList (taken : List Char) (c : Char) :
    (String.ofList taken).push c = String.ofList (taken ++ [c]) := by
  rw [← String.toList_inj]; simp

/-- A literal that the text closes is read as it is there. -/
theorem quotedText_of_literal {p : List Char × List Char}
    (hp : SourceLine.literal mark text = .ok p) (ht : '\n' ∉ text) (taken : List Char)
    (h : r.StandsAt (text ++ rest) line) :
    ∃ r', r.quotedText mark (String.ofList taken) = (.ok (String.ofList (taken ++ p.1)), r') ∧
      r'.StandsAt (p.2 ++ rest) line := by
  fun_induction SourceLine.literal mark text generalizing r taken p with
  | case1 => simp at hp
  | case2 text =>
    obtain rfl := Except.ok.inj hp
    have hne : mark ≠ '\n' := fun he => ht (he ▸ List.mem_cons_self ..)
    obtain ⟨r', hn, hr⟩ := h.next?_cons_of_ne hne
    exact ⟨r', by rw [quotedText_of_some _ _ hn, if_neg hne, if_pos rfl, List.append_nil], hr⟩
  | case3 => simp at hp
  | case4 e text d hd hm ih =>
    obtain ⟨q, hq, rfl⟩ := SourceLine.exists_of_map_eq_ok hp
    simp only [List.mem_cons, not_or] at ht
    obtain ⟨r₁, hn₁, hr₁⟩ := h.next?_cons_of_ne (by decide)
    obtain ⟨r₂, hn₂, hr₂⟩ := hr₁.next?_cons_of_ne (Ne.symm ht.2.1)
    obtain ⟨r', he, hr'⟩ := ih hq ht.2.2 (taken ++ [d]) hr₂
    refine ⟨r', ?_, hr'⟩
    rw [quotedText_of_some _ _ hn₁, if_neg (by decide), if_neg hm, if_pos rfl, hn₂]
    simp only [hd, push_ofList, he, List.append_assoc, List.singleton_append]
  | case5 => simp at hp
  | case6 c text hm hb ih =>
    obtain ⟨q, hq, rfl⟩ := SourceLine.exists_of_map_eq_ok hp
    simp only [List.mem_cons, not_or] at ht
    obtain ⟨r₁, hn₁, hr₁⟩ := h.next?_cons_of_ne (Ne.symm ht.1)
    obtain ⟨r', he, hr'⟩ := ih hq ht.2 (taken ++ [c]) hr₁
    refine ⟨r', ?_, hr'⟩
    rw [quotedText_of_some _ _ hn₁, if_neg (Ne.symm ht.1), if_neg hm, if_neg hb, push_ofList, he,
      List.append_assoc, List.singleton_append]

/-- A literal that the text does not close fails on its line, or behind the line break. -/
theorem quotedText_of_literal_error {f : TextFault} (hf : SourceLine.literal mark text = .error f)
    (ht : '\n' ∉ text) (hrest : AtBreak rest) (taken : String)
    (h : r.StandsAt (text ++ rest) line) :
    ∃ cause r', r.quotedText mark taken = (.error cause, r') ∧
      (ReadFault.lexical cause).onLine r'.line = f.error line (!rest.isEmpty) := by
  fun_induction SourceLine.literal mark text generalizing r taken f with
  | case1 =>
    -- the text ends inside the literal; the error is behind the line break, if there is one
    obtain rfl := Except.error.inj hf
    cases rest with
    | nil =>
      refine ⟨_, r, quotedText_of_none _ _ h.next?_nil, ?_⟩
      simp [TextFault.error, ReadFault.onLine, h.line_eq]
    | cons d rest =>
      obtain rfl : d = '\n' := hrest
      obtain ⟨r', hn, hr⟩ := h.next?_cons
      refine ⟨.unterminatedString, r', by rw [quotedText_of_some _ _ hn, if_pos rfl], ?_⟩
      simp [TextFault.error, ReadFault.onLine, hr.line_eq, lineAfter]
  | case2 => simp at hf
  | case3 hm =>
    -- a backslash at the end of the text is in front of the line break
    obtain rfl := Except.error.inj hf
    obtain ⟨r₁, hn₁, hr₁⟩ := h.next?_cons_of_ne (by decide)
    cases rest with
    | nil =>
      refine ⟨.unterminatedString, r₁, ?_, by simp [TextFault.error, ReadFault.onLine, hr₁.line_eq]⟩
      rw [quotedText_of_some _ _ hn₁, if_neg (by decide), if_neg hm, if_pos rfl, hr₁.next?_nil]
    | cons d rest =>
      obtain rfl : d = '\n' := hrest
      obtain ⟨r₂, hn₂, hr₂⟩ := hr₁.next?_cons
      refine ⟨.unknownEscape '\n', r₂, ?_, by simp [TextFault.error, ReadFault.onLine, hr₂.line_eq, lineAfter]⟩
      rw [quotedText_of_some _ _ hn₁, if_neg (by decide), if_neg hm, if_pos rfl, hn₂]
      rfl
  | case4 e text d hd hm ih =>
    simp only [List.mem_cons, not_or] at ht
    obtain ⟨r₁, hn₁, hr₁⟩ := h.next?_cons_of_ne (by decide)
    obtain ⟨r₂, hn₂, hr₂⟩ := hr₁.next?_cons_of_ne (Ne.symm ht.2.1)
    obtain ⟨cause, r', he, hr'⟩ :=
      ih (SourceLine.eq_error_of_map_eq_error hf) ht.2.2 (taken.push d) hr₂
    refine ⟨cause, r', ?_, hr'⟩
    rw [quotedText_of_some _ _ hn₁, if_neg (by decide), if_neg hm, if_pos rfl, hn₂]
    simp only [hd, he]
  | case5 e text hd hm =>
    obtain rfl := Except.error.inj hf
    simp only [List.mem_cons, not_or] at ht
    obtain ⟨r₁, hn₁, hr₁⟩ := h.next?_cons_of_ne (by decide)
    obtain ⟨r₂, hn₂, hr₂⟩ := hr₁.next?_cons_of_ne (Ne.symm ht.2.1)
    refine ⟨.unknownEscape e, r₂, ?_, by simp [TextFault.error, ReadFault.onLine, hr₂.line_eq]⟩
    rw [quotedText_of_some _ _ hn₁, if_neg (by decide), if_neg hm, if_pos rfl, hn₂]
    simp only [hd]
  | case6 c text hm hb ih =>
    simp only [List.mem_cons, not_or] at ht
    obtain ⟨r₁, hn₁, hr₁⟩ := h.next?_cons_of_ne (Ne.symm ht.1)
    obtain ⟨cause, r', he, hr'⟩ :=
      ih (SourceLine.eq_error_of_map_eq_error hf) ht.2 (taken.push c) hr₁
    refine ⟨cause, r', ?_, hr'⟩
    rw [quotedText_of_some _ _ hn₁, if_neg (Ne.symm ht.1), if_neg hm, if_neg hb, he]

end Reader

namespace Scanner

/-- The scanner stands before `text`, on line `line` of depth `depth`, and no step is waiting;
`start` tells whether it stands before the leading space of the line. -/
structure StandsAt (s : Scanner) (text : List Char) (line depth : Nat) (start : Bool) : Prop where
  reader : s.reader.StandsAt text line
  depth_eq : s.depth = depth
  indents_eq : s.pendingIndents = 0
  dedents_eq : s.pendingDedents = 0
  start_eq : s.atLineStart = start

theorem standsAt_ofString (source : String) :
    (ofString source).StandsAt source.toList 1 0 true :=
  ⟨Reader.standsAt_ofString source, rfl, rfl, rfl, rfl⟩

variable {s : Scanner} {c : Char} {text rest : List Char} {line depth : Nat} {start : Bool}

/-- Reading on moves the text and the line only. -/
theorem StandsAt.withReader {r : Reader} {text' : List Char} {line' : Nat}
    (h : s.StandsAt text line depth start) (hr : r.StandsAt text' line') :
    ({ s with reader := r } : Scanner).StandsAt text' line' depth start :=
  ⟨hr, h.depth_eq, h.indents_eq, h.dedents_eq, h.start_eq⟩

theorem sign_eq (ht : '\n' ∉ text) (hrest : Reader.AtBreak rest)
    (h : s.reader.StandsAt (text ++ rest) line) :
    ∃ r', s.sign c = ((SourceLine.sign c text).1, { s with reader := r' }) ∧
      r'.StandsAt ((SourceLine.sign c text).2 ++ rest) line := by
  cases text with
  | nil =>
    cases rest with
    | nil => exact ⟨s.reader, by simp [sign, h.next?_nil, SourceLine.sign], h⟩
    | cons d rest =>
      obtain rfl : d = '\n' := hrest
      obtain ⟨r', hn, hr⟩ := h.next?_cons
      refine ⟨r'.giveBack '\n', ?_, hr.giveBack⟩
      simp [sign, hn, PairedSign.ofPair?, SourceLine.sign]
  | cons d text =>
    simp only [List.mem_cons, not_or] at ht
    obtain ⟨r', hn, hr⟩ := h.next?_cons_of_ne (Ne.symm ht.1)
    cases hp : PairedSign.ofPair? c d with
    | some p => exact ⟨r', by simp [sign, hn, hp, SourceLine.sign], by simpa [SourceLine.sign, hp]⟩
    | none =>
      refine ⟨r'.giveBack d, by simp [sign, hn, hp, SourceLine.sign], ?_⟩
      simp only [SourceLine.sign, hp]
      exact Reader.StandsAt.giveBack (by rwa [Reader.lineAfter_of_ne line (Ne.symm ht.1)])

/-- The word behind `c` ends where the text leaves words, or with the line. -/
theorem restOfWord_eq (hrest : Reader.AtBreak rest) (h : s.reader.StandsAt (text ++ rest) line) :
    ∃ r', s.reader.restOfWord c.toString =
        (String.ofList (c :: text.takeWhile SourceLine.inWord), r') ∧
      r'.StandsAt (text.dropWhile SourceLine.inWord ++ rest) line := by
  have hw : ∀ d ∈ text.takeWhile SourceLine.inWord, Token.endsWord d = false := by
    intro d hd
    simpa [SourceLine.inWord] using List.mem_takeWhile_imp hd
  have hend : ∀ d ∈ (text.dropWhile SourceLine.inWord ++ rest).head?, Token.endsWord d = true := by
    intro d hd
    cases hdrop : text.dropWhile SourceLine.inWord with
    | nil =>
      rw [hdrop, List.nil_append] at hd
      cases rest with
      | nil => simp at hd
      | cons e rest =>
        obtain rfl : e = '\n' := hrest
        obtain rfl : '\n' = d := by simpa using hd
        decide
    | cons e after =>
      rw [hdrop] at hd
      obtain rfl : e = d := by simpa using hd
      have he := List.head?_dropWhile_not SourceLine.inWord text
      rw [hdrop] at he
      simpa [SourceLine.inWord] using he
  have hs : s.reader.StandsAt
      (text.takeWhile SourceLine.inWord ++ (text.dropWhile SourceLine.inWord ++ rest)) line := by
    rwa [← List.append_assoc, List.takeWhile_append_dropWhile]
  exact hs.restOfWord hw hend [c]

/-- A token is read as the text tells. -/
theorem content_of_lexeme {t : Token} {after : List Char}
    (hl : SourceLine.lexeme c text = .ok (t, after)) (ht : '\n' ∉ text)
    (hrest : Reader.AtBreak rest) (h : s.reader.StandsAt (text ++ rest) line) :
    ∃ r', s.content c = (.ok t, { s with reader := r' }) ∧ r'.StandsAt (after ++ rest) line := by
  unfold SourceLine.lexeme at hl
  split at hl
  · next hq =>
    obtain ⟨p, hp, he⟩ := SourceLine.exists_of_map_eq_ok hl
    obtain ⟨rfl, rfl⟩ := Prod.mk.inj he
    obtain ⟨r', hr, hr'⟩ := Reader.quotedText_of_literal hp ht [] h
    refine ⟨r', ?_, hr'⟩
    have hr : s.reader.quotedText c "" = (.ok (String.ofList p.1), r') := hr
    rw [content, if_pos hq, hr]
    rfl
  · next hq =>
    split at hl
    · next hpunct =>
      obtain ⟨r', hr, hr'⟩ := sign_eq (c := c) ht hrest h
      rw [Except.ok.inj hl] at hr hr'
      exact ⟨r', by rw [content, if_neg hq, if_pos hpunct, hr], hr'⟩
    · next hpunct =>
      simp only at hl
      split at hl
      · next t' hw =>
        obtain ⟨rfl, rfl⟩ := Prod.mk.inj (Except.ok.inj hl)
        obtain ⟨r', hr, hr'⟩ := restOfWord_eq (c := c) hrest h
        exact ⟨r', by simp only [content, if_neg hq, if_neg hpunct, word, hr, hw], hr'⟩
      · simp at hl

/-- A text that begins with a fault is refused for it. -/
theorem content_of_lexeme_error {f : TextFault} (hl : SourceLine.lexeme c text = .error f)
    (ht : '\n' ∉ text) (hrest : Reader.AtBreak rest)
    (h : s.reader.StandsAt (text ++ rest) line) :
    ∃ fault r', s.content c = (.error fault, { s with reader := r' }) ∧
      fault.onLine r'.line = f.error line (!rest.isEmpty) := by
  unfold SourceLine.lexeme at hl
  split at hl
  · next hq =>
    obtain ⟨cause, r', hr, hr'⟩ := Reader.quotedText_of_literal_error
      (SourceLine.eq_error_of_map_eq_error hl) ht hrest "" h
    exact ⟨_, r', by simp [content, hq, hr, Except.map, Except.mapError], hr'⟩
  · next hq =>
    split at hl
    · simp at hl
    · next hpunct =>
      simp only at hl
      split at hl
      · simp at hl
      · next hw =>
        obtain rfl := Except.error.inj hl
        obtain ⟨r', hr, hr'⟩ := restOfWord_eq (c := c) hrest h
        refine ⟨_, r', by simp only [content, if_neg hq, if_neg hpunct, word, hr, hw]; rfl, ?_⟩
        simp [TextFault.error, hr'.line_eq]

/-! ## Reads inside a line -/

variable {previous? : Option Token}

/-- Where no step is waiting, scanners with equal scans have equal reads. -/
theorem StandsAt.read_congr {s' : Scanner} {text' : List Char} {line' depth' : Nat} {start' : Bool}
    (h : s.StandsAt text line depth start) (h' : s'.StandsAt text' line' depth' start')
    (hp : previous? ≠ some .endOfInput) (hs : s.scan previous? = s'.scan previous?) :
    s.read previous? = s'.read previous? := by
  rw [read_eq_scan hp h.dedents_eq h.indents_eq, read_eq_scan hp h'.dedents_eq h'.indents_eq, hs]

theorem StandsAt.read_of_scan_ok {s' : Scanner} {t : Token} (h : s.StandsAt text line depth start)
    (hp : previous? ≠ some .endOfInput) (hs : s.scan previous? = (.ok t, s')) :
    s.read previous? = (.ok t, s') := by
  rw [read_eq_scan hp h.dedents_eq h.indents_eq, hs]

theorem StandsAt.read_of_scan_error {s' : Scanner} {fault : ReadFault LexicalCause}
    (h : s.StandsAt text line depth start) (hp : previous? ≠ some .endOfInput)
    (hs : s.scan previous? = (.error fault, s')) :
    s.read previous? = (.error (fault.onLine s'.line), s') := by
  rw [read_eq_scan hp h.dedents_eq h.indents_eq, hs]

theorem isBlank_newline : Reader.isBlank '\n' = false := by decide

/-- Blanks inside a line are passed over. -/
theorem StandsAt.read_blank (hc : Reader.isBlank c = true) (hp : previous? ≠ some .endOfInput)
    (h : s.StandsAt (c :: text) line depth false) :
    ∃ s' : Scanner, s.read previous? = s'.read previous? ∧ s'.StandsAt text line depth false := by
  have hne : c ≠ '\n' := by rintro rfl; simp [isBlank_newline] at hc
  obtain ⟨r', hn, hr⟩ := h.reader.next?_cons_of_ne hne
  have h' := h.withReader hr
  refine ⟨{ s with reader := r' }, h.read_congr h' hp ?_, h'⟩
  have hv : s.reader.nextVisible? = r'.nextVisible? := by
    rw [Reader.nextVisible?_of_some hn, if_pos hc]
  rw [scan_of_not_atLineStart h.start_eq, scan_of_not_atLineStart h'.start_eq, hv]

/-- A comment inside a line is passed over up to the end of the line. -/
theorem StandsAt.read_comment (ht : '\n' ∉ text) (hrest : Reader.AtBreak rest)
    (hp : previous? ≠ some .endOfInput) (h : s.StandsAt ('#' :: text ++ rest) line depth false) :
    ∃ s' : Scanner, s.read previous? = s'.read previous? ∧ s'.StandsAt rest line depth false := by
  obtain ⟨r', hn, hr⟩ := h.reader.next?_cons_of_ne (by decide)
  have h' := h.withReader (hr.skipComment ht hrest)
  refine ⟨{ s with reader := r'.skipComment }, h.read_congr h' hp ?_, h'⟩
  rw [scan_of_not_atLineStart h.start_eq, Reader.nextVisible?_of_some hn, if_neg (by decide)]
  simp only [if_pos]

/-- A token inside a line. -/
theorem StandsAt.read_lexeme {t : Token} {after : List Char}
    (hb : Reader.isBlank c = false) (hc : c ≠ '#') (hl : SourceLine.lexeme c text = .ok (t, after))
    (ht : '\n' ∉ c :: text) (hrest : Reader.AtBreak rest) (hp : previous? ≠ some .endOfInput)
    (h : s.StandsAt (c :: text ++ rest) line depth false) :
    ∃ s', s.read previous? = (.ok t, s') ∧ s'.StandsAt (after ++ rest) line depth false := by
  simp only [List.mem_cons, not_or] at ht
  obtain ⟨r₁, hn, hr₁⟩ := h.reader.next?_cons_of_ne (Ne.symm ht.1)
  obtain ⟨r', hread, hr'⟩ :=
    content_of_lexeme (s := { s with reader := r₁ }) hl ht.2 hrest hr₁
  refine ⟨{ s with reader := r' }, h.read_of_scan_ok hp ?_, h.withReader hr'⟩
  rw [scan_of_not_atLineStart h.start_eq, Reader.nextVisible?_of_some hn, if_neg (by simp [hb])]
  simp only [if_neg hc, if_neg (Ne.symm ht.1), hread]

/-- A fault inside a line. -/
theorem StandsAt.read_lexeme_error {f : TextFault} (hb : Reader.isBlank c = false) (hc : c ≠ '#')
    (hl : SourceLine.lexeme c text = .error f) (ht : '\n' ∉ c :: text)
    (hrest : Reader.AtBreak rest) (hp : previous? ≠ some .endOfInput)
    (h : s.StandsAt (c :: text ++ rest) line depth false) :
    ∃ s', s.read previous? = (.error (f.error line (!rest.isEmpty)), s') := by
  simp only [List.mem_cons, not_or] at ht
  obtain ⟨r₁, hn, hr₁⟩ := h.reader.next?_cons_of_ne (Ne.symm ht.1)
  obtain ⟨fault, r', hread, herror⟩ :=
    content_of_lexeme_error (s := { s with reader := r₁ }) hl ht.2 hrest hr₁
  have hscan : s.scan previous? = (.error fault, { s with reader := r' }) := by
    rw [scan_of_not_atLineStart h.start_eq, Reader.nextVisible?_of_some hn, if_neg (by simp [hb])]
    simp only [if_neg hc, if_neg (Ne.symm ht.1), hread]
  refine ⟨{ s with reader := r' }, ?_⟩
  rw [h.read_of_scan_error hp hscan]
  exact congrArg (fun e => (Except.error e, _)) herror

/-- The line break behind a token. -/
theorem StandsAt.read_break (hend : endsLine previous? = true) (hp : previous? ≠ some .endOfInput)
    (h : s.StandsAt ('\n' :: text) line depth false) :
    ∃ s', s.read previous? = (.ok .newline, s') ∧ s'.StandsAt text (line + 1) depth true := by
  obtain ⟨r', hn, hr⟩ := h.reader.next?_cons
  refine ⟨{ s with reader := r', atLineStart := true }, h.read_of_scan_ok hp ?_,
    hr, h.depth_eq, h.indents_eq, h.dedents_eq, rfl⟩
  rw [scan_of_not_atLineStart h.start_eq, Reader.nextVisible?_of_some hn, if_neg (by decide)]
  simp only [if_neg (show '\n' ≠ '#' by decide), if_pos, hend]

/-- The end of the input. -/
theorem StandsAt.read_end (hp : previous? ≠ some .endOfInput) (h : s.StandsAt [] line depth false) :
    s.read previous? = (.ok (s.closing previous?).1, (s.closing previous?).2) := by
  refine h.read_of_scan_ok hp ?_
  rw [scan_of_not_atLineStart h.start_eq, Reader.nextVisible?_of_none h.reader.next?_nil]

/-! ## The contents of a line -/

/-- What is read on a line is content without too many digits. -/
theorem isContent_of_lexeme {t : Token} {after : List Char}
    (h : SourceLine.lexeme c text = .ok (t, after)) : t.isContent = true ∧ t.isShort = true := by
  unfold SourceLine.lexeme at h
  split at h
  · obtain ⟨p, -, he⟩ := SourceLine.exists_of_map_eq_ok h
    obtain ⟨rfl, -⟩ := Prod.mk.inj he
    exact ⟨rfl, rfl⟩
  · split at h
    · rename_i hc
      obtain rfl : (SourceLine.sign c text).1 = t := by rw [Except.ok.inj h]
      unfold SourceLine.sign
      split
      · exact ⟨hc, rfl⟩
      · split
        · exact ⟨rfl, rfl⟩
        · exact ⟨hc, rfl⟩
    · simp only at h
      split at h
      · rename_i hw
        obtain ⟨rfl, -⟩ := Prod.mk.inj (Except.ok.inj h)
        exact ⟨Token.isContent_of_ofWord? hw, Token.isShort_of_ofWord? hw⟩
      · simp at h

theorem isContent_of_mem_contents {t : Token} (ht : t ∈ (SourceLine.contents text).1) :
    t.isContent = true ∧ t.isShort = true := by
  fun_induction SourceLine.contents text with
  | case1 => simp at ht
  | case2 c text hc ih => exact ih ht
  | case3 => simp at ht
  | case4 => simp at ht
  | case5 c text hc hn t' rest h ih =>
    rcases List.mem_cons.1 ht with rfl | ht
    · exact isContent_of_lexeme h
    · exact ih ht

/-- The tokens of a line mark neither lines nor blocks, nor the end. -/
theorem not_mark_of_mem_contents {t : Token} (ht : t ∈ (SourceLine.contents text).1) :
    t.isLayout = false ∧ t ≠ .endOfInput :=
  Token.not_mark_of_isContent (isContent_of_mem_contents ht).1

/-- A scanner inside a line yields the contents of its text, and then what it yields at the end of
the line. -/
theorem yields_of_contents {ts : List Token} {error? : Option ReadError}
    (hc : (SourceLine.contents text).2 = none) (ht : '\n' ∉ text) (hrest : Reader.AtBreak rest)
    (hp : previous? ≠ some .endOfInput) (h : s.StandsAt (text ++ rest) line depth false)
    (hnext : ∀ s' : Scanner, s'.StandsAt rest line depth false →
      s'.Yields ((SourceLine.contents text).1.getLast?.or previous?) ts error?) :
    s.Yields previous? ((SourceLine.contents text).1 ++ ts) error? := by
  fun_induction SourceLine.contents text generalizing s previous? with
  | case1 => exact hnext s h
  | case2 c text hb ih =>
    obtain ⟨s', hread, hs'⟩ := h.read_blank hb hp
    exact .of_read_eq hread (ih hc (fun hm => ht (List.mem_cons_of_mem _ hm)) hp hs' hnext)
  | case3 text hb =>
    obtain ⟨s', hread, hs'⟩ :=
      h.read_comment (fun hm => ht (List.mem_cons_of_mem _ hm)) hrest hp
    exact .of_read_eq hread (hnext s' hs')
  | case4 => simp at hc
  | case5 c text hb hn t after hl ih =>
    obtain ⟨s', hread, hs'⟩ := h.read_lexeme (by simpa using hb) hn hl ht hrest hp
    have hmark := (Token.not_mark_of_isContent (isContent_of_lexeme hl).1).2
    have hafter : '\n' ∉ after :=
      fun hm => ht (List.mem_cons_of_mem _ ((SourceLine.suffix_of_lexeme hl).subset hm))
    refine .reading hread hmark (ih hc hafter (by simpa using hmark) hs' ?_)
    intro s₂ hs₂
    have hlast := hnext s₂ hs₂
    rw [List.getLast?_cons] at hlast
    cases hl? : (SourceLine.contents after).1.getLast? with
    | none => simpa [hl?] using hlast
    | some u => simpa [hl?] using hlast

/-- A scanner inside a line whose text has a fault yields the tokens before the fault and fails. -/
theorem yields_of_contents_fault {f : TextFault} (hc : (SourceLine.contents text).2 = some f)
    (ht : '\n' ∉ text) (hrest : Reader.AtBreak rest) (hp : previous? ≠ some .endOfInput)
    (h : s.StandsAt (text ++ rest) line depth false) :
    s.Yields previous? (SourceLine.contents text).1 (some (f.error line (!rest.isEmpty))) := by
  fun_induction SourceLine.contents text generalizing s previous? with
  | case1 => simp at hc
  | case2 c text hb ih =>
    obtain ⟨s', hread, hs'⟩ := h.read_blank hb hp
    exact .of_read_eq hread (ih hc (fun hm => ht (List.mem_cons_of_mem _ hm)) hp hs')
  | case3 => simp at hc
  | case4 c text hb hn g hl =>
    obtain rfl := Option.some.inj hc
    obtain ⟨s', hread⟩ := h.read_lexeme_error (by simpa using hb) hn hl ht hrest hp
    exact .failing hread
  | case5 c text hb hn t after hl ih =>
    obtain ⟨s', hread, hs'⟩ := h.read_lexeme (by simpa using hb) hn hl ht hrest hp
    have hmark := (Token.not_mark_of_isContent (isContent_of_lexeme hl).1).2
    have hafter : '\n' ∉ after :=
      fun hm => ht (List.mem_cons_of_mem _ ((SourceLine.suffix_of_lexeme hl).subset hm))
    exact .reading hread hmark (ih hc hafter (by simpa using hmark) hs')

end Scanner

end Offside
