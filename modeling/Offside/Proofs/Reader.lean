import Offside.Reader.Passages

set_option autoImplicit false

/-! # Where a reader stands

A reader keeps the characters given back apart from the rest of its text, so two readers with the
same text still to come need not be equal. `Reader.StandsAt` tells a reader by what counts: the text
before it and the line it is on. Under this view every passage of `Reader` is told by the text that
it takes. -/

namespace Offside.Reader

/-- The reader stands before `text`, on line `line`. -/
structure StandsAt (r : Reader) (text : List Char) (line : Nat) : Prop where
  unread_eq : r.unread = text
  line_eq : r.line = line

/-- Nothing follows on the line: the text is empty or begins with a line break. -/
def AtBreak : List Char → Prop
  | [] => True
  | c :: _ => c = '\n'

theorem standsAt_ofString (s : String) : (ofString s).StandsAt s.toList 1 := ⟨rfl, rfl⟩

theorem lineAfter_of_ne {c : Char} (line : Nat) (h : c ≠ '\n') : lineAfter c line = line :=
  if_neg h

/-! ## One character of each passage -/

section

variable {r r' : Reader} {c : Char}

theorem nextVisible?_of_none (h : r.next? = none) : r.nextVisible? = (none, r) := by
  rw [nextVisible?]
  split <;> simp_all

theorem nextVisible?_of_some (h : r.next? = some (c, r')) :
    r.nextVisible? = if isBlank c then r'.nextVisible? else (some c, r') := by
  rw [nextVisible?]
  split <;> simp_all

theorem skipComment_of_none (h : r.next? = none) : r.skipComment = r := by
  rw [skipComment]
  split <;> simp_all

theorem skipComment_of_some (h : r.next? = some (c, r')) :
    r.skipComment = if c = '\n' then r'.giveBack c else r'.skipComment := by
  rw [skipComment]
  split <;> simp_all

theorem lead_of_none (spaces : Nat) (h : r.next? = none) : r.lead spaces = (.endOfInput, r) := by
  rw [lead]
  split <;> simp_all

theorem lead_of_some (spaces : Nat) (h : r.next? = some (c, r')) :
    r.lead spaces =
      if c = ' ' then r'.lead (spaces + 1)
      else if c = '\r' then r'.lead spaces
      else if c = '\n' then r'.lead 0
      else if c = '#' then r'.skipComment.lead spaces
      else if c = '\t' then (.tab, r')
      else (.text spaces, r'.giveBack c) := by
  rw [lead]
  split <;> simp_all

theorem restOfWord_of_none (word : String) (h : r.next? = none) :
    r.restOfWord word = (word, r) := by
  rw [restOfWord]
  split <;> simp_all

theorem restOfWord_of_some (word : String) (h : r.next? = some (c, r')) :
    r.restOfWord word =
      if Token.endsWord c then (word, r'.giveBack c) else r'.restOfWord (word.push c) := by
  rw [restOfWord]
  split <;> simp_all

theorem quotedText_of_none (mark : Char) (text : String) (h : r.next? = none) :
    r.quotedText mark text = (.error .unterminatedString, r) := by
  rw [quotedText]
  split <;> simp_all

theorem quotedText_of_some (mark : Char) (text : String) (h : r.next? = some (c, r')) :
    r.quotedText mark text =
      if c = '\n' then (.error .unterminatedString, r')
      else if c = mark then (.ok text, r')
      else if c = '\\' then
        match r'.next? with
        | none => (.error .unterminatedString, r')
        | some (e, r₂) =>
          match unescape? e with
          | some d => r₂.quotedText mark (text.push d)
          | none => (.error (.unknownEscape e), r₂)
      else r'.quotedText mark (text.push c) := by
  rw [quotedText]
  split
  · simp_all
  · next d r₁ he =>
    rw [h] at he
    obtain ⟨rfl, rfl⟩ := Prod.mk.inj (Option.some.inj he)
    split
    · rfl
    · split
      · rfl
      · split
        · split
          · next he₁ => simp only [he₁]
          · next he₁ => cases he₂ : unescape? _ <;> simp only [he₁, he₂]
        · rfl

end

/-! ## Under the view -/

section

variable {r : Reader} {c : Char} {text rest : List Char} {line : Nat}

theorem StandsAt.next?_nil (h : r.StandsAt [] line) : r.next? = none :=
  next?_eq_none_iff.2 h.unread_eq

theorem StandsAt.next?_cons (h : r.StandsAt (c :: text) line) :
    ∃ r', r.next? = some (c, r') ∧ r'.StandsAt text (lineAfter c line) := by
  cases hn : r.next? with
  | none =>
    have hu := next?_eq_none_iff.1 hn
    rw [h.unread_eq] at hu
    exact absurd hu (by simp)
  | some p =>
    obtain ⟨d, r'⟩ := p
    have hu := unread_of_next? hn
    rw [h.unread_eq, List.cons.injEq] at hu
    obtain ⟨rfl, hu⟩ := hu
    exact ⟨r', rfl, hu.symm, by rw [line_of_next? hn, h.line_eq]⟩

/-- A character other than a line break leaves the line as it is. -/
theorem StandsAt.next?_cons_of_ne (hc : c ≠ '\n') (h : r.StandsAt (c :: text) line) :
    ∃ r', r.next? = some (c, r') ∧ r'.StandsAt text line := by
  obtain ⟨r', hn, hr⟩ := h.next?_cons
  exact ⟨r', hn, lineAfter_of_ne line hc ▸ hr⟩

theorem StandsAt.giveBack (h : r.StandsAt text (lineAfter c line)) :
    (r.giveBack c).StandsAt (c :: text) line := by
  refine ⟨by rw [unread_giveBack, h.unread_eq], ?_⟩
  by_cases hc : c = '\n'
  · simp [Reader.giveBack, h.line_eq, lineAfter, hc]
  · simp [Reader.giveBack, h.line_eq, lineAfter, hc]

/-- A comment is passed over up to the line break behind it. -/
theorem StandsAt.skipComment {comment : List Char} (hc : '\n' ∉ comment) (hrest : AtBreak rest)
    (h : r.StandsAt (comment ++ rest) line) : r.skipComment.StandsAt rest line := by
  induction comment generalizing r with
  | nil =>
    cases rest with
    | nil => rwa [skipComment_of_none h.next?_nil]
    | cons d rest =>
      obtain ⟨r', hn, hr⟩ := h.next?_cons
      obtain rfl : d = '\n' := hrest
      rw [skipComment_of_some hn, if_pos rfl]
      exact hr.giveBack
  | cons d comment ih =>
    have hd : d ≠ '\n' := fun hd => hc (hd ▸ List.mem_cons_self ..)
    obtain ⟨r', hn, hr⟩ := h.next?_cons_of_ne hd
    rw [skipComment_of_some hn, if_neg hd]
    exact ih (fun hm => hc (List.mem_cons_of_mem _ hm)) hr

/-- A word is taken up to the character that ends it. -/
theorem StandsAt.restOfWord {word : List Char} (hw : ∀ c ∈ word, Token.endsWord c = false)
    (hrest : ∀ c ∈ rest.head?, Token.endsWord c = true) (taken : List Char)
    (h : r.StandsAt (word ++ rest) line) :
    ∃ r', r.restOfWord (String.ofList taken) = (String.ofList (taken ++ word), r') ∧
      r'.StandsAt rest line := by
  induction word generalizing r taken with
  | nil =>
    cases rest with
    | nil => exact ⟨r, by rw [restOfWord_of_none _ h.next?_nil, List.append_nil], h⟩
    | cons d rest =>
      obtain ⟨r', hn, hr⟩ := h.next?_cons
      refine ⟨r'.giveBack d, ?_, hr.giveBack⟩
      rw [restOfWord_of_some _ hn, if_pos (hrest d rfl), List.append_nil]
  | cons d word ih =>
    have hd : Token.endsWord d = false := hw d (List.mem_cons_self ..)
    have hne : d ≠ '\n' := by rintro rfl; exact absurd hd (by decide)
    obtain ⟨r', hn, hr⟩ := h.next?_cons_of_ne hne
    obtain ⟨r₂, hword, hr₂⟩ :=
      ih (fun c hm => hw c (List.mem_cons_of_mem _ hm)) (taken ++ [d]) hr
    refine ⟨r₂, ?_, hr₂⟩
    rw [restOfWord_of_some _ hn, if_neg (by simp [hd])]
    have hpush : (String.ofList taken).push d = String.ofList (taken ++ [d]) := by
      rw [← String.toList_inj]; simp
    rw [hpush, hword, List.append_assoc, List.singleton_append]

end

end Offside.Reader
