import Offside.Proofs.ErrorLines
import Offside.Proofs.ListedPrograms
import Offside.Proofs.Spellings

set_option autoImplicit false

/-! # Numerals with too many digits

Every row of digits that is no longer than `Text.maxDigits` is read as a number. A longer one stands
for nothing, and yet it is no error of the text: the read fails for the number of its digits. This is
the only way in which reading a source meets the limit. -/

namespace Offside

/-- A numeral that stands for nothing has too many digits. -/
theorem Token.length_lt_of_ofWord?_eq_none {word : String} (h : isNumeral word.toList = true)
    (hnone : ofWord? word = none) : Text.maxDigits < word.length := by
  rw [ofWord?_of_isNumeral h] at hnone
  split at hnone
  · simp at hnone
  · omega

namespace SourceLine

variable {source : String} {line : SourceLine} {after : List SourceLine} {word : List Char}

/-! ## Sources that meet the limit -/

/-- Only a word that is a numeral is at fault for its digits. -/
theorem eq_badWord_of_error_eq_digits {f : Fault} {number : Nat} {hasBreak : Bool}
    {g : Text.DigitFault} (h : f.error number hasBreak = .digits g) :
    ∃ word : String, f = .text (.badWord word) ∧ Token.isNumeral word.toList = true ∧
      g = .reading word.length := by
  cases f with
  | tab | uneven => simp [Fault.error] at h
  | text f =>
    cases f with
    | badWord word =>
      cases hword : Token.faultOf word with
      | lexical cause => simp [Fault.error, TextFault.error, hword, ReadFault.onLine] at h
      | digits f =>
        obtain ⟨hnumeral, rfl⟩ := Token.faultOf_eq_digits_iff.1 hword
        obtain rfl : Text.DigitFault.reading word.length = g := by
          simpa [Fault.error, TextFault.error, hword, ReadFault.onLine] using h
        exact ⟨word, rfl, hnumeral, rfl⟩
    | unknownEscape => simp [Fault.error, TextFault.error] at h
    | openLiteral => cases hasBreak <;> simp [Fault.error, TextFault.error] at h

/-- What is wrong with a literal is no word. -/
theorem literal_ne_badWord (mark : Char) (text : List Char) (word : String) :
    literal mark text ≠ .error (.badWord word) := by
  fun_induction literal mark text with
  | case1 | case2 | case3 | case5 => simp
  | case4 _ _ _ _ _ ih | case6 _ _ _ _ ih => exact fun h => ih (eq_error_of_map_eq_error h)

/-- A word at fault stands for nothing, and it stands on the line. -/
theorem FaultAt.of_badWord {word : String} {rest : List Char}
    (h : line.FaultAt (.text (.badWord word)) rest) :
    Token.ofWord? word = none ∧ word.toList <+: rest := by
  cases h with
  | @text c rest _ _ _ _ hl =>
    unfold lexeme at hl
    split at hl
    · exact absurd (eq_error_of_map_eq_error hl) (literal_ne_badWord c rest word)
    · split at hl
      · simp at hl
      · simp only at hl
        split at hl
        · simp at hl
        · rename_i hnone
          obtain rfl := TextFault.badWord.inj (Except.error.inj hl)
          refine ⟨hnone, ?_⟩
          rw [String.toList_ofList, List.cons_prefix_cons]
          exact ⟨rfl, List.takeWhile_prefix _⟩

end SourceLine

open SourceLine

variable {source : String} {word : List Char} {after : List SourceLine}

/-- Where the listing of a source ends for the digits of a number, a numeral with too many of them
stands in the source. -/
theorem exists_longNumeral_of_tokenize {f : Text.DigitFault}
    (h : (tokenize source).error? = some (.digits f)) :
    ∃ word : List Char, Token.isNumeral word = true ∧ Text.maxDigits < word.length ∧
      word <:+: source.toList ∧ f = .reading word.length := by
  rw [(tokenize_eq_listing source).2] at h
  rcases clean_or_exists_fault 0 (ofSource source) with
    hclean | ⟨before, line, after, f', hlines, hbefore, hf⟩
  · rw [listing_of_clean 1 hclean] at h
    simp at h
  · rw [hlines, listing_of_fault 1 hbefore hf] at h
    obtain ⟨word, rfl, hnumeral, rfl⟩ := eq_badWord_of_error_eq_digits (Option.some.inj h)
    obtain ⟨front, c, rest, hline, hat⟩ := exists_faultAt hf
    obtain ⟨hnone, hprefix⟩ := hat.of_badWord
    have hsource : source.toList = ended before ++ (line ++ continued after) :=
      eq_of_splitOn_eq hlines
    refine ⟨word.toList, hnumeral, ?_, ?_, by rw [String.length_toList]⟩
    · rw [String.length_toList]
      exact Token.length_lt_of_ofWord?_eq_none hnumeral hnone
    · have hline' : word.toList <:+: line :=
        hprefix.isInfix.trans (hline ▸ (List.suffix_append front (c :: rest)).isInfix)
      rw [hsource]
      exact hline'.trans ⟨ended before, continued after, by simp⟩

/-- A numeral is a source of one line. -/
theorem SourceLine.ofSource_of_isNumeral (h : Token.isNumeral word = true) :
    ofSource (String.ofList word) = [word] := by
  rw [ofSource, String.toList_ofList,
    List.splitOn_eq_singleton (Token.notMem_of_isNumeral h rfl)]

/-- A line that is a numeral with too many digits is at fault for them, wherever it stands. -/
theorem SourceLine.fault?_of_longNumeral (hword : Token.isNumeral word = true)
    (hlength : Text.maxDigits < word.length) :
    SourceLine.fault? word 0 = some (.text (.badWord (String.ofList word))) ∧
      SourceLine.tokensBefore word 0 (.text (.badWord (String.ofList word))) = [] := by
  have hnone : Token.ofWord? (String.ofList word) = none := by
    rw [Token.ofWord?_of_isNumeral (by rwa [String.toList_ofList]), if_neg]
    rwa [String.length_ofList, Nat.not_le]
  simp only [Token.isNumeral, Bool.and_eq_true, List.all_eq_true] at hword
  obtain ⟨hne, hdigits⟩ := hword
  have hends : ∀ d ∈ word, Token.endsWord d = false :=
    fun d hd => Token.endsWord_of_isNameChar (Token.isNameChar_of_isDigit (hdigits d hd))
  obtain ⟨c, more, rfl⟩ := List.exists_cons_of_ne_nil (show word ≠ [] by simpa using hne)
  obtain ⟨hblank, hcomment, hquote, hpunctuation⟩ :=
    Token.begins_of_endsWord (hends c (List.mem_cons_self ..))
  have htake : more.takeWhile inWord = more := by
    rw [List.takeWhile_eq_self_iff]
    exact fun d hd => by simp [inWord, hends d (List.mem_cons_of_mem c hd)]
  have hlexeme : lexeme c more = .error (.badWord (String.ofList (c :: more))) := by
    rw [lexeme, if_neg (Bool.eq_false_iff.1 hquote), if_neg (Bool.eq_false_iff.1 hpunctuation),
      htake]
    simp only [hnone]
  have hcontents := contents_of_error hblank hcomment hlexeme
  simp only [Reader.isBlank, Bool.or_eq_false_iff, decide_eq_false_iff_not] at hblank
  obtain ⟨⟨hspace, htab⟩, hreturn⟩ := hblank
  have hlead : SourceLine.lead (c :: more) = [] ∧ SourceLine.text (c :: more) = c :: more := by
    simp [SourceLine.lead, SourceLine.text, isLead, hspace, hreturn]
  have hindent : SourceLine.indent (c :: more) = 0 := by
    rw [SourceLine.indent, hlead.1]
    rfl
  constructor
  · simp [SourceLine.fault?, SourceLine.hasTab, SourceLine.isBlank, hlead.2, hindent, htab,
      hcomment, hcontents]
  · simp [SourceLine.tokensBefore, steps, hlead.2, hindent, hcontents]

/-- A source whose first line is a numeral with too many digits has no tokens. -/
theorem tokenize_of_longNumeral (hlines : ofSource source = word :: after)
    (hword : Token.isNumeral word = true) (hlength : Text.maxDigits < word.length) :
    (tokenize source).entries = [] ∧
      (tokenize source).error? = some (.digits (.reading word.length)) := by
  obtain ⟨hfault, htokens⟩ := fault?_of_longNumeral hword hlength
  have hdigits : Token.faultOf (String.ofList word) = .digits (.reading word.length) :=
    Token.faultOf_eq_digits_iff.2 ⟨by rwa [String.toList_ofList], by rw [String.length_ofList]⟩
  obtain ⟨hlisted, herror⟩ := tokenize_eq_listing source
  rw [hlines, listing_cons_of_fault 1 hfault] at hlisted herror
  constructor
  · rw [htokens] at hlisted
    exact List.map_eq_nil_iff.1 hlisted
  · rw [herror]
    simp [Fault.error, TextFault.error, hdigits, ReadFault.onLine]

namespace Program

variable {known : ClassTable}

/-! ## Programs that are not read -/

/-- No program is read for an error of form, an error in the text, or the digits of a numeral that
stands in the source. -/
theorem failure_of_ofSource {err : Error} (h : (ofSource known source).1 = .error err) :
    (∃ e, err = .syntactic e) ∨ (∃ e, err = .lexical e) ∨
      ∃ word : List Char, Token.isNumeral word = true ∧ Text.maxDigits < word.length ∧
        word <:+: source.toList ∧ err = .limit (.digits (.reading word.length)) := by
  rcases cause_of_ofSource h with ⟨e, rfl, he⟩ | ⟨e, rfl⟩
  · cases e with
    | lexical e => exact .inr (.inl ⟨e, rfl⟩)
    | digits f =>
      obtain ⟨word, hnumeral, hlength, hsource, rfl⟩ := exists_longNumeral_of_tokenize he
      exact .inr (.inr ⟨word, hnumeral, hlength, hsource, rfl⟩)
  · exact .inl ⟨e, rfl⟩

/-- A source that is one numeral with too many digits is no program. -/
theorem ofSource_of_longNumeral (known : ClassTable) (hword : Token.isNumeral word = true)
    (hlength : Text.maxDigits < word.length) :
    (ofSource known (String.ofList word)).1 = .error (.limit (.digits (.reading word.length))) := by
  obtain ⟨hentries, herror⟩ :=
    tokenize_of_longNumeral (SourceLine.ofSource_of_isNumeral hword) hword hlength
  rw [ofSource_eq_ofListing_tokenize, hentries, herror]
  rfl

end Program

end Offside
