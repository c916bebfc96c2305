import Mathlib.Data.List.TakeWhile
import Offside.Proofs.LineContents
import Offside.Token.Spelling

set_option autoImplicit false

/-! # Reading what was written

Content tokens that are written with spaces in between are read back as they were. A space ends a
word, and it is no part of a sign, so each token can be read on its own: the longest word in front
of a space is the word that was written, and a sign of one character is not taken for one of two. -/

namespace Offside

/-! ## Words -/

/-- Only its own spelling is read as a reserved word. -/
theorem Keyword.eq_spelling {word : String} {k : Keyword} (h : ofSpelling? word = some k) :
    word = k.spelling := by
  have hk := List.find?_some h
  exact (beq_iff_eq.1 hk).symm

namespace Token

theorem isNameChar_of_isDigit {c : Char} (h : c.isDigit = true) : isNameChar c = true := by
  simp [isNameChar, Char.isAlphanum, h]

/-- The characters of names are ASCII characters, so what holds of all these can be looked up. -/
theorem of_isNameChar {P : Char → Prop} {c : Char}
    (hP : ∀ n < 128, isNameChar (Char.ofNat n) = true → P (Char.ofNat n))
    (h : isNameChar c = true) : P c := by
  have hbound : ∀ b : UInt32, c.val ≤ b → b.toNat < 128 → c.toNat < 128 :=
    fun b hle hb => Nat.lt_of_le_of_lt (UInt32.le_iff_toNat_le.1 hle) hb
  have hc : c.toNat < 128 := by
    -- the upper and the lower letters, the digits and the underscore
    have hranges : (decide ('A'.val ≤ c.val ∧ c.val ≤ 'Z'.val) ||
        'a'.val ≤ c.val && c.val ≤ 'z'.val || '0'.val ≤ c.val && c.val ≤ '9'.val ||
        c = '_') = true := h
    simp only [Bool.or_eq_true, Bool.and_eq_true, decide_eq_true_eq] at hranges
    rcases hranges with ((⟨-, hle⟩ | ⟨-, hle⟩) | ⟨-, hle⟩) | rfl
    · exact hbound _ hle (by decide)
    · exact hbound _ hle (by decide)
    · exact hbound _ hle (by decide)
    · decide
  have hPc := hP c.toNat hc
  rw [Char.ofNat_toNat] at hPc
  exact hPc h

/-- No character of a name ends a word. -/
theorem endsWord_of_isNameChar {c : Char} (h : isNameChar c = true) : endsWord c = false :=
  of_isNameChar (P := fun c => endsWord c = false) (by decide) h

/-- A name is made of the characters of names, and does not begin with a digit. -/
theorem exists_cons_of_isName {word : List Char} (h : isName word = true) :
    ∃ c more, word = c :: more ∧ c.isDigit = false ∧ ∀ d ∈ word, isNameChar d = true := by
  cases word with
  | nil => simp [isName] at h
  | cons c more =>
    simp only [isName, Bool.and_eq_true, List.all_eq_true] at h
    obtain ⟨hc, hmore⟩ := h
    have hchar : isNameChar c = true := by
      simp only [Bool.or_eq_true] at hc
      rcases hc with hc | hc <;> simp [isNameChar, Char.isAlphanum, hc]
    refine ⟨c, more, rfl, ?_, by simpa [hchar] using hmore⟩
    have hdigit : (c.isAlpha || c = '_') = true → c.isDigit = false :=
      of_isNameChar (P := fun c => (c.isAlpha || c = '_') = true → c.isDigit = false) (by decide)
        hchar
    exact hdigit hc

/-- What does not end a word can begin a token. -/
theorem begins_of_endsWord {c : Char} (h : endsWord c = false) :
    Reader.isBlank c = false ∧ c ≠ '#' ∧ (c = '\'' || c = '"') = false ∧
      punctuation.contains c = false := by
  simp only [endsWord, Bool.or_eq_false_iff] at h
  obtain ⟨⟨⟨⟨hspace, hpunctuation⟩, hcomment⟩, hsingle⟩, hdouble⟩ := h
  refine ⟨?_, by simpa using hcomment, by simp_all, hpunctuation⟩
  refine Bool.eq_false_iff.2 fun hblank => ?_
  simp only [Reader.isBlank, Bool.or_eq_true, decide_eq_true_eq] at hblank
  rcases hblank with (rfl | rfl) | rfl <;> exact absurd hspace (by decide)

/-- A token is written as a word, which stands for that token. -/
structure IsWord (t : Token) : Prop where
  ne_nil : t.spelling ≠ []
  chars : ∀ c ∈ t.spelling, isNameChar c = true
  ofWord?_eq : ofWord? (String.ofList t.spelling) = some t

/-- What a numeral stands for depends on its length. -/
theorem ofWord?_of_isNumeral {word : String} (h : isNumeral word.toList = true) :
    ofWord? word =
      if word.length ≤ Text.maxDigits then some (number (Nat.ofDigitChars 10 word.toList 0))
      else none := by
  have hkeyword : Keyword.ofSpelling? word = none := by
    cases hk : Keyword.ofSpelling? word with
    | none => rfl
    | some k =>
      -- no reserved word is made of digits
      have hno : isNumeral k.spelling.toList = false := by cases k <;> decide
      rw [← Keyword.eq_spelling hk, h] at hno
      simp at hno
  simp only [ofWord?, hkeyword, h, if_pos]

theorem isNumeral_toDigits (n : Nat) : isNumeral (Nat.toDigits 10 n) = true := by
  have hdigits : ∀ c ∈ Nat.toDigits 10 n, c.isDigit = true :=
    fun c hc => Nat.isDigit_of_mem_toDigits (by decide) (by decide) hc
  simpa [isNumeral, Nat.toDigits_ne_nil] using hdigits

theorem isWord_number {n : Nat} (h : Text.isWritable n = true) : (number n).IsWord := by
  have hnumeral := isNumeral_toDigits n
  have hdigits : ∀ c ∈ Nat.toDigits 10 n, c.isDigit = true := by
    simp only [isNumeral, Bool.and_eq_true, List.all_eq_true] at hnumeral
    exact hnumeral.2
  refine ⟨Nat.toDigits_ne_nil, fun c hc => isNameChar_of_isDigit (hdigits c hc), ?_⟩
  have hlength : (String.ofList (Nat.toDigits 10 n)).length ≤ Text.maxDigits := by
    simpa [Text.isWritable] using h
  rw [spelling, ofWord?_of_isNumeral (by rwa [String.toList_ofList]), if_pos hlength,
    String.toList_ofList, Nat.ofDigitChars_ten_toDigits]

theorem isWord_name {word : String} (h : (name word).isContent = true) : (name word).IsWord := by
  simp only [isContent, Bool.and_eq_true, Option.isNone_iff_eq_none] at h
  obtain ⟨hname, hkeyword⟩ := h
  obtain ⟨c, more, hword, hdigit, hchars⟩ := exists_cons_of_isName hname
  refine ⟨?_, hchars, ?_⟩
  · rw [spelling, hword]
    exact List.cons_ne_nil c more
  · have hnumeral : isNumeral word.toList = false := by simp [isNumeral, hword, hdigit]
    simp [spelling, ofWord?, hkeyword, hnumeral, hname]

theorem isWord_keyword (word : Keyword) : (keyword word).IsWord := by
  have hall : word.spelling.toList.all isNameChar = true := by cases word <;> decide
  refine ⟨by cases word <;> decide, List.all_eq_true.1 hall, ?_⟩
  rw [spelling, String.ofList_toList, ofWord?_spelling]

end Token

namespace SourceLine

/-- Nothing follows, or a space does. -/
def AtSpace : List Char → Prop
  | [] => True
  | c :: _ => c = ' '

variable {rest : List Char} {t : Token}

/-! ## Single tokens -/

/-- The token `t` is read off the front of a text, and `rest` follows it. -/
def BeginsWith (text : List Char) (t : Token) (rest : List Char) : Prop :=
  ∃ c more, text = c :: more ∧ Reader.isBlank c = false ∧ c ≠ '#' ∧ lexeme c more = .ok (t, rest)

/-- A word in front of a space is read whole. -/
theorem beginsWith_of_isWord (ht : t.IsWord) (hrest : AtSpace rest) :
    BeginsWith (t.spelling ++ rest) t rest := by
  obtain ⟨hne, hchars, hword⟩ := ht
  obtain ⟨c, more, hspelling⟩ := List.exists_cons_of_ne_nil hne
  rw [hspelling] at hchars hword ⊢
  have hends : ∀ d ∈ c :: more, Token.endsWord d = false :=
    fun d hd => Token.endsWord_of_isNameChar (hchars d hd)
  obtain ⟨hblank, hcomment, hquote, hpunctuation⟩ :=
    Token.begins_of_endsWord (hends c (List.mem_cons_self ..))
  have hmore : ∀ d ∈ more, inWord d = true := by
    intro d hd
    simp [inWord, hends d (List.mem_cons_of_mem c hd)]
  have htake : rest.takeWhile inWord = [] ∧ rest.dropWhile inWord = rest := by
    cases rest with
    | nil => exact ⟨rfl, rfl⟩
    | cons d rest =>
      obtain rfl : d = ' ' := hrest
      exact ⟨rfl, rfl⟩
  refine ⟨c, more ++ rest, rfl, hblank, hcomment, ?_⟩
  rw [lexeme, if_neg (Bool.eq_false_iff.1 hquote), if_neg (Bool.eq_false_iff.1 hpunctuation),
    List.takeWhile_append_of_pos hmore, List.dropWhile_append_of_pos hmore, htake.1,
    htake.2, List.append_nil]
  simp only [hword]

/-- A character that is escaped is read back as it was. -/
theorem literal_escape_append (c : Char) (text : List Char) :
    literal '"' (Token.escape c ++ text) = (literal '"' text).map fun p => (c :: p.1, p.2) := by
  unfold Token.escape
  by_cases hbackslash : c = '\\'
  · subst hbackslash
    rfl
  · by_cases hmark : c = '"'
    · subst hmark
      rfl
    · by_cases hbreak : c = '\n'
      · subst hbreak
        rfl
      · rw [if_neg hbackslash, if_neg hmark, if_neg hbreak, List.singleton_append, literal.eq_def]
        dsimp only
        rw [if_neg hmark, if_neg hbackslash]

theorem literal_escape (text rest : List Char) :
    literal '"' (text.flatMap Token.escape ++ '"' :: rest) = .ok (text, rest) := by
  induction text with
  | nil =>
    rw [List.flatMap_nil, List.nil_append, literal.eq_def]
    exact if_pos rfl
  | cons c text ih =>
    rw [List.flatMap_cons, List.append_assoc, literal_escape_append, ih]
    rfl

/-- What is written with a character of punctuation in front is read as a sign. -/
theorem beginsWith_of_sign {c : Char} {more : List Char} (hc : c ∈ punctuation)
    (hs : sign c more = (t, rest)) : BeginsWith (c :: more) t rest := by
  have hplain : punctuation.all (fun c => !Reader.isBlank c && !decide (c = '#') &&
      !(c = '\'' || c = '"')) = true := by decide
  have hc' := List.all_eq_true.1 hplain c hc
  simp only [Bool.and_eq_true, Bool.not_eq_true', decide_eq_false_iff_not] at hc'
  obtain ⟨⟨hblank, hcomment⟩, hquote⟩ := hc'
  refine ⟨c, more, rfl, hblank, hcomment, ?_⟩
  rw [lexeme, if_neg (Bool.eq_false_iff.1 hquote), if_pos (List.contains_iff_mem.2 hc), hs]

/-- A content token in front of a space is read back, unless it has too many digits. -/
theorem beginsWith_spelling (ht : t.isContent = true) (hshort : t.isShort = true)
    (hrest : AtSpace rest) : BeginsWith (t.spelling ++ rest) t rest := by
  cases t with
  | number value => exact beginsWith_of_isWord (Token.isWord_number hshort) hrest
  | name word => exact beginsWith_of_isWord (Token.isWord_name ht) hrest
  | keyword word => exact beginsWith_of_isWord (Token.isWord_keyword word) hrest
  | char c =>
    refine beginsWith_of_sign (List.contains_iff_mem.1 ht) ?_
    cases rest with
    | nil => rfl
    | cons d rest =>
      obtain rfl : d = ' ' := hrest
      rfl
  | string text =>
    refine ⟨'"', text.toList.flatMap Token.escape ++ '"' :: rest, ?_, by decide, by decide, ?_⟩
    · simp [Token.spelling]
    · rw [lexeme, if_pos (by decide), literal_escape]
      simp [Except.map]
  | paired sign =>
    refine beginsWith_of_sign (by cases sign <;> decide) ?_
    cases sign <;> rfl
  | newline | indent | dedent | endOfInput => simp [Token.isContent] at ht

/-- No token has a line break in its spelling. -/
theorem not_mem_spelling (ht : t.isContent = true) : '\n' ∉ t.spelling := by
  have hword : t.IsWord → '\n' ∉ t.spelling := fun h hmem => absurd (h.chars _ hmem) (by decide)
  cases t with
  | number value =>
    exact fun hmem => absurd (Nat.isDigit_of_mem_toDigits (by decide) (by decide) hmem) (by decide)
  | name word => exact hword (Token.isWord_name ht)
  | keyword word => exact hword (Token.isWord_keyword word)
  | char c =>
    rw [Token.spelling, List.mem_singleton]
    rintro rfl
    exact absurd ht (by decide)
  | string text =>
    have hescape : ∀ c, '\n' ∉ Token.escape c := by
      intro c
      unfold Token.escape
      split
      · decide
      · split
        · decide
        · split
          · decide
          · rename_i hc
            simpa using Ne.symm hc
    simp only [Token.spelling, List.mem_append, List.mem_cons, List.mem_flatMap, not_or]
    refine ⟨⟨by decide, ?_⟩, by decide⟩
    rintro ⟨c, -, hc⟩
    exact hescape c hc
  | paired sign => cases sign <;> decide
  | newline | indent | dedent | endOfInput => simp [Token.isContent] at ht

/-! ## Tokens on a line -/

theorem contents_of_beginsWith {text : List Char} (h : BeginsWith text t rest) :
    contents text = (t :: (contents rest).1, (contents rest).2) := by
  obtain ⟨c, more, rfl, hblank, hcomment, hlexeme⟩ := h
  exact contents_of_ok hblank hcomment hlexeme

/-- Behind the first of the tokens there is a space and the others, or nothing. -/
theorem exists_spellings_cons (t : Token) (ts : List Token) :
    ∃ rest, Token.spellings (t :: ts) = t.spelling ++ rest ∧ AtSpace rest ∧
      contents rest = contents (Token.spellings ts) ∧
      ∀ c ∈ rest, c = ' ' ∨ c ∈ Token.spellings ts := by
  cases ts with
  | nil =>
    refine ⟨[], ?_, trivial, ?_, by simp⟩
    · rw [Token.spellings, List.map_singleton, List.intercalate_singleton, List.append_nil]
    · rw [Token.spellings, List.map_nil, List.intercalate_nil]
  | cons u ts =>
    refine ⟨' ' :: Token.spellings (u :: ts), ?_, rfl, ?_, by simp⟩
    · simp [Token.spellings, List.intercalate_cons_cons]
    · rw [contents, if_pos (by decide)]

variable {ts : List Token}

/-- Content tokens are read back, unless one of them has too many digits. -/
theorem contents_spellings (h : ∀ t ∈ ts, t.isContent = true) (hshort : ∀ t ∈ ts, t.isShort = true) :
    contents (Token.spellings ts) = (ts, none) := by
  induction ts with
  | nil => rw [Token.spellings, List.map_nil, List.intercalate_nil, contents]
  | cons t ts ih =>
    obtain ⟨rest, hspellings, hspace, hrest, -⟩ := exists_spellings_cons t ts
    have hbegins := beginsWith_spelling (h t (List.mem_cons_self ..))
      (hshort t (List.mem_cons_self ..)) hspace
    rw [hspellings, contents_of_beginsWith hbegins, hrest,
      ih (fun u hu => h u (List.mem_cons_of_mem t hu))
        fun u hu => hshort u (List.mem_cons_of_mem t hu)]

theorem not_mem_spellings (h : ∀ t ∈ ts, t.isContent = true) : '\n' ∉ Token.spellings ts := by
  induction ts with
  | nil =>
    rw [Token.spellings, List.map_nil, List.intercalate_nil]
    exact List.not_mem_nil
  | cons t ts ih =>
    obtain ⟨rest, hspellings, -, -, hrest⟩ := exists_spellings_cons t ts
    rw [hspellings, List.mem_append, not_or]
    refine ⟨not_mem_spelling (h t (List.mem_cons_self ..)), fun hmem => ?_⟩
    rcases hrest _ hmem with hc | hc
    · exact absurd hc (by decide)
    · exact ih (fun u hu => h u (List.mem_cons_of_mem t hu)) hc

end SourceLine

end Offside
