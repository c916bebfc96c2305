import Offside.Proofs.JoinedTokens
import Offside.Proofs.LongNumerals

set_option autoImplicit false

/-! # Layouts

A `Layout` is a well-formed sequence of tokens: lines with something on them, each behind its steps
in or out, and behind the last line the steps that close all blocks. Layouts are what is read from
sources: each has a text from which it is read, with two spaces for every block that is open and a
space between any two tokens, and every source that can be listed is read as a layout. Only where a
number has more than `Text.maxDigits` digits is a layout not read. -/

namespace Offside

/-- The tokens of a line with something on it. -/
structure TokenLine where
  /-- The steps in at its start. -/
  ins : Nat
  /-- The steps out at its start. -/
  outs : Nat
  contents : List Token
  one_way : ins = 0 ∨ outs = 0
  contents_ne_nil : contents ≠ []
  isContent : ∀ t ∈ contents, t.isContent = true

namespace TokenLine

/-- The steps, the contents and the end of a line. -/
def tokens (l : TokenLine) : List Token :=
  List.replicate l.ins .indent ++ List.replicate l.outs .dedent ++ l.contents ++ [.newline]

/-- The number of open blocks on a line, of which `level` are open before it. -/
def levelAfter (l : TokenLine) (level : Nat) : Nat := level + l.ins - l.outs

/-- A line as it is written when `level` blocks are open on it. -/
def text (l : TokenLine) (level : Nat) : List Char :=
  List.replicate (2 * level) ' ' ++ Token.spellings l.contents

/-- The tokens of lines and of the steps out behind them, up to the end of the input. -/
def tokensOf (outs : Nat) (lines : List TokenLine) : List Token :=
  lines.flatMap tokens ++ (List.replicate outs .dedent ++ [.endOfInput])

/-- Lines as they are written behind others, of which `level` blocks are open. -/
def textOf (level : Nat) : List TokenLine → List Char
  | [] => []
  | l :: lines => l.text (l.levelAfter level) ++ '\n' :: textOf (l.levelAfter level) lines

/-! ## Open blocks -/

/-- Behind `level` open blocks no line closes more than are open, and `outs` are open at the end. -/
def Fits (outs : Nat) : Nat → List TokenLine → Prop
  | level, [] => outs = level
  | level, l :: lines => l.outs ≤ level ∧ Fits outs (l.levelAfter level) lines

/-- No part of the tokens closes more blocks than are open, of which `level` are open before
them. -/
def Covers (level : Nat) (ts : List Token) : Prop :=
  ∀ before, before <+: ts → before.count .dedent ≤ level + before.count .indent

/-- No number on the line has too many digits. -/
def IsShort (l : TokenLine) : Prop := ∀ t ∈ l.contents, t.isShort = true

variable {level outs : Nat} {l : TokenLine} {lines : List TokenLine} {ts us : List Token}

theorem covers_append : Covers level (ts ++ us) ↔ Covers level ts ∧ ∀ before, before <+: us →
    ts.count .dedent + before.count .dedent ≤
      level + (ts.count .indent + before.count .indent) := by
  constructor
  · intro h
    refine ⟨fun before hb => h before (hb.trans (List.prefix_append ts us)), fun before hb => ?_⟩
    have hbefore := h (ts ++ before) ((List.prefix_append_right_inj ts).2 hb)
    rwa [List.count_append, List.count_append] at hbefore
  · rintro ⟨hts, hus⟩ before hb
    rcases List.prefix_or_prefix_of_prefix hb (List.prefix_append ts us) with hb' | ⟨more, rfl⟩
    · exact hts before hb'
    · rw [List.count_append, List.count_append]
      exact hus more ((List.prefix_append_right_inj ts).1 hb)

theorem count_tokens (l : TokenLine) :
    l.tokens.count .indent = l.ins ∧ l.tokens.count .dedent = l.outs := by
  have hstep : ∀ t : Token, t.isLayout = true → l.contents.count t = 0 := by
    intro t ht
    refine List.count_eq_zero.2 fun hmem => ?_
    have hlayout := (Token.not_mark_of_isContent (l.isContent t hmem)).1
    exact absurd (ht.symm.trans hlayout) (by decide)
  simp [tokens, List.count_append, List.count_replicate, hstep .indent rfl, hstep .dedent rfl]

/-- A line closes its blocks before its contents, and opens none before that. -/
theorem covers_tokens : Covers level l.tokens ↔ l.outs ≤ level := by
  constructor
  · intro h
    have hsteps := h (List.replicate l.ins .indent ++ List.replicate l.outs .dedent)
      (by rw [tokens, List.append_assoc]; exact List.prefix_append _ _)
    simp only [List.count_append, List.count_replicate] at hsteps
    rcases l.one_way with hins | houts
    · simpa [hins] using hsteps
    · rw [houts]
      exact Nat.zero_le _
  · intro h before hb
    have hcount := hb.sublist.count_le .dedent
    rw [(count_tokens l).2] at hcount
    omega

/-- Whether the steps fit can be told by counting them. -/
theorem fits_iff : Fits outs level lines ↔ Covers level (tokensOf outs lines) ∧
    (tokensOf outs lines).count .dedent = level + (tokensOf outs lines).count .indent := by
  induction lines generalizing level with
  | nil =>
    have hcount :
        (tokensOf outs []).count .indent = 0 ∧ (tokensOf outs []).count .dedent = outs := by
      simp [tokensOf, List.count_append, List.count_replicate]
    rw [hcount.1, hcount.2]
    refine ⟨fun h => ⟨fun before hb => ?_, h⟩, fun h => h.2⟩
    have hle := hb.sublist.count_le .dedent
    rw [hcount.2] at hle
    exact Nat.le_add_right_of_le (h ▸ hle)
  | cons l lines ih =>
    have hcons : tokensOf outs (l :: lines) = l.tokens ++ tokensOf outs lines := by
      simp [tokensOf]
    obtain ⟨hindent, hdedent⟩ := count_tokens l
    rw [hcons, covers_append, covers_tokens, Fits, ih, List.count_append, List.count_append,
      hindent, hdedent, levelAfter]
    constructor
    · rintro ⟨houts, hcovers, hcount⟩
      refine ⟨⟨houts, fun before hb => ?_⟩, by omega⟩
      have hle := hcovers before hb
      omega
    · rintro ⟨⟨houts, hcovers⟩, hcount⟩
      refine ⟨houts, fun before hb => ?_, by omega⟩
      have hle := hcovers before hb
      omega

/-! ## Lines as they are written -/

section

open SourceLine

theorem not_mem_text (l : TokenLine) (level : Nat) : '\n' ∉ l.text level := by
  rw [text, List.mem_append, not_or]
  refine ⟨fun hmem => ?_, not_mem_spellings l.isContent⟩
  exact absurd (List.mem_replicate.1 hmem).2 (by decide)

/-- Two spaces stand in front of the contents for each block that is open. -/
theorem lead_text (l : TokenLine) (hshort : l.IsShort) (level : Nat) :
    SourceLine.lead (l.text level) = List.replicate (2 * level) ' ' ∧
      SourceLine.text (l.text level) = Token.spellings l.contents ∧
      SourceLine.isBlank (l.text level) = false ∧ SourceLine.hasTab (l.text level) = false := by
  obtain ⟨t, ts, hts⟩ := List.exists_cons_of_ne_nil l.contents_ne_nil
  obtain ⟨rest, hspellings, hspace, -⟩ := exists_spellings_cons t ts
  have hmem : t ∈ l.contents := hts ▸ List.mem_cons_self ..
  obtain ⟨c, more, hc, hblank, hcomment, -⟩ :=
    beginsWith_spelling (l.isContent t hmem) (hshort t hmem) hspace
  rw [← hspellings, ← hts] at hc
  simp only [Reader.isBlank, Bool.or_eq_false_iff, decide_eq_false_iff_not] at hblank
  obtain ⟨⟨hspace, htab⟩, hreturn⟩ := hblank
  have hlead : ∀ d ∈ List.replicate (2 * level) ' ', isLead d = true := by
    intro d hd
    rw [(List.mem_replicate.1 hd).2]
    rfl
  have htake : (c :: more).takeWhile isLead = [] ∧ (c :: more).dropWhile isLead = c :: more := by
    simp [isLead, hspace, hreturn]
  have htext : SourceLine.text (l.text level) = c :: more := by
    rw [SourceLine.text, text, hc, List.dropWhile_append_of_pos hlead, htake.2]
  refine ⟨?_, by rw [htext, hc], ?_, ?_⟩
  · rw [SourceLine.lead, text, hc, List.takeWhile_append_of_pos hlead, htake.1, List.append_nil]
  · simpa [SourceLine.isBlank, htext] using hcomment
  · simpa [SourceLine.hasTab, htext] using htab

/-- A line that was written is read back, if it closes no more blocks than are open and no number on it
has too many digits. -/
theorem tokens_text (h : l.outs ≤ level) (hshort : l.IsShort) :
    SourceLine.fault? (l.text (l.levelAfter level)) (2 * level) = none ∧
      SourceLine.tokens (l.text (l.levelAfter level)) (2 * level) = l.tokens ∧
      SourceLine.depthAfter (l.text (l.levelAfter level)) (2 * level) = 2 * l.levelAfter level := by
  obtain ⟨hlead, htext, hblank, htab⟩ := l.lead_text hshort (l.levelAfter level)
  have hindent : SourceLine.indent (l.text (l.levelAfter level)) = 2 * l.levelAfter level := by
    rw [SourceLine.indent, hlead, List.count_replicate_self]
  have hcontents := contents_spellings l.isContent hshort
  have hone := l.one_way
  refine ⟨?_, ?_, by rw [depthAfter_of_not_isBlank _ hblank, hindent]⟩
  · rw [SourceLine.fault?, if_neg (by simp [htab]), if_neg (by simp [hblank]), if_neg (by omega),
      htext, hcontents]
    rfl
  · -- the steps from the one depth to the other are those of the line
    have hins : (2 * l.levelAfter level - 2 * level) / 2 = l.ins := by
      unfold levelAfter
      omega
    have houts : (2 * level - 2 * l.levelAfter level) / 2 = l.outs := by
      unfold levelAfter
      omega
    rw [tokens_of_not_isBlank _ hblank, steps, hindent, hins, houts, htext, hcontents]
    rfl

/-- Lines that were written are read back. -/
theorem listing_textOf (number : Nat) (h : Fits outs level lines)
    (hshort : ∀ l ∈ lines, l.IsShort) :
    SourceLine.listing number (2 * level) ((textOf level lines).splitOn '\n') =
      (tokensOf outs lines, none) := by
  induction lines generalizing number level with
  | nil =>
    obtain rfl : outs = level := h
    have hblank : SourceLine.isBlank [] = true := rfl
    rw [textOf, List.splitOn_nil, listing_cons_of_clean number rfl, tokens_of_isBlank _ hblank,
      depthAfter_of_isBlank _ hblank]
    simp [SourceLine.listing, tokensOf]
  | cons l lines ih =>
    obtain ⟨houts, hlines⟩ := h
    obtain ⟨hfault, htokens, hdepth⟩ := tokens_text houts (hshort l (List.mem_cons_self ..))
    rw [textOf, List.splitOn_append_cons_self_of_not_mem (l.not_mem_text _),
      listing_cons_of_clean number hfault, hdepth,
      ih _ hlines fun l hl => hshort l (List.mem_cons_of_mem _ hl), htokens]
    simp [tokensOf]

/-! ## Lines as they are read -/

/-- A line that was read without fault and is not blank has the tokens of a line. -/
theorem exists_tokens_eq {line : SourceLine} {depth : Nat} (hl : '\n' ∉ line)
    (hf : line.fault? depth = none) (hb : line.isBlank = false) :
    ∃ l : TokenLine, l.tokens = line.tokens depth ∧ l.IsShort ∧
      l.ins = (line.indent - depth) / 2 ∧ l.outs = (depth - line.indent) / 2 := by
  have hclean := mt fault?_ne_none_iff.2 (not_not.2 hf)
  rw [not_or, not_and, not_or] at hclean
  obtain ⟨htab, hline⟩ := hclean
  obtain ⟨heven, hcontents⟩ := hline hb
  let l : TokenLine :=
    { ins := (line.indent - depth) / 2
      outs := (depth - line.indent) / 2
      contents := (SourceLine.contents line.text).1
      one_way := by omega
      contents_ne_nil :=
        SourceLine.contents_ne_nil hl hb (Bool.eq_false_iff.2 htab) (not_not.1 hcontents)
      isContent := fun _ ht => (Scanner.isContent_of_mem_contents ht).1 }
  exact ⟨l, (tokens_of_not_isBlank depth hb).symm,
    fun _ ht => (Scanner.isContent_of_mem_contents ht).2, rfl, rfl⟩

/-- Lines that were read without fault have the tokens of lines whose steps fit, and no number among
them has too many digits. -/
theorem exists_lines {source : List SourceLine} {depth : Nat} (hl : ∀ line ∈ source, '\n' ∉ line)
    (hd : depth % 2 = 0) (hclean : Clean depth source) :
    ∃ lines : List TokenLine, lines.flatMap tokens = SourceLine.tokensOf depth source ∧
      (∀ l ∈ lines, l.IsShort) ∧ Fits (depthBehind depth source / 2) (depth / 2) lines := by
  induction source generalizing depth with
  | nil => exact ⟨[], rfl, by simp, rfl⟩
  | cons line source ih =>
    obtain ⟨hf, hsource⟩ := clean_cons.1 hclean
    have heven := (depthAfter_mod_two hf).trans hd
    obtain ⟨lines, htokens, hshort, hfits⟩ :=
      ih (fun line hmem => hl line (List.mem_cons_of_mem _ hmem)) heven hsource
    rw [SourceLine.tokensOf, depthBehind, ← htokens]
    cases hb : line.isBlank with
    | true =>
      rw [depthAfter_of_isBlank depth hb] at hfits
      rw [tokens_of_isBlank depth hb, depthAfter_of_isBlank depth hb]
      exact ⟨lines, rfl, hshort, hfits⟩
    | false =>
      obtain ⟨l, hline, hnumbers, hins, houts⟩ :=
        exists_tokens_eq (hl line (List.mem_cons_self ..)) hf hb
      rw [depthAfter_of_not_isBlank depth hb] at heven hfits
      rw [depthAfter_of_not_isBlank depth hb]
      refine ⟨l :: lines, by rw [List.flatMap_cons, hline], ?_, ?_, ?_⟩
      · simpa using ⟨hnumbers, hshort⟩
      · omega
      · have hlevel : l.levelAfter (depth / 2) = line.indent / 2 := by
          unfold levelAfter
          omega
        rwa [hlevel]

end

end TokenLine

/-! ## Layouts -/

/-- A well-formed sequence of tokens: lines and the steps out behind the last of them, where no part
from the start on has more steps out than steps in, and all tokens have as many. -/
structure Layout where
  lines : List TokenLine
  outs : Nat
  covers : TokenLine.Covers 0 (TokenLine.tokensOf outs lines)
  count_eq : (TokenLine.tokensOf outs lines).count .dedent =
    (TokenLine.tokensOf outs lines).count .indent

namespace Layout

open TokenLine

/-- The tokens up to the end of the input. -/
def tokens (l : Layout) : List Token := tokensOf l.outs l.lines

/-- The tokens as a source: each line on a line of its own, with two spaces for every open block. -/
def text (l : Layout) : String := String.ofList (textOf 0 l.lines)

theorem fits (l : Layout) : Fits l.outs 0 l.lines :=
  fits_iff.2 ⟨l.covers, by rw [l.count_eq, Nat.zero_add]⟩

/-- The layout of lines whose steps fit. -/
def ofFits (outs : Nat) (lines : List TokenLine) (h : Fits outs 0 lines) : Layout where
  lines := lines
  outs := outs
  covers := (fits_iff.1 h).1
  count_eq := by rw [(fits_iff.1 h).2, Nat.zero_add]

/-- No number of the layout has too many digits. -/
def IsShort (l : Layout) : Prop := ∀ n, .number n ∈ l.tokens → Text.isWritable n = true

theorem isShort_iff {l : Layout} : l.IsShort ↔ ∀ line ∈ l.lines, line.IsShort := by
  have hmem : ∀ n, .number n ∈ l.tokens ↔ ∃ line ∈ l.lines, .number n ∈ line.contents := by
    intro n
    simp [tokens, tokensOf, TokenLine.tokens]
  constructor
  · intro h line hline t ht
    rw [Token.isShort_iff]
    rintro n rfl
    exact h n ((hmem n).2 ⟨line, hline, ht⟩)
  · intro h n hn
    obtain ⟨line, hline, ht⟩ := (hmem n).1 hn
    exact h line hline _ ht

/-- A layout without too many digits is read from its text. -/
theorem tokenize_text {l : Layout} (h : l.IsShort) :
    (tokenize l.text).tokens = l.tokens ∧ (tokenize l.text).error? = none := by
  obtain ⟨htokens, herror⟩ := tokenize_eq_listing l.text
  have hlisting := listing_textOf 1 l.fits (isShort_iff.1 h)
  rw [SourceLine.ofSource, text, String.toList_ofList] at htokens herror
  rw [hlisting] at htokens herror
  exact ⟨htokens, herror⟩

/-- What is listed is a layout without too many digits. -/
theorem exists_tokens_eq_of_tokenize {source : String} (h : (tokenize source).error? = none) :
    ∃ l : Layout, l.IsShort ∧ (tokenize source).tokens = l.tokens := by
  have hclean := clean_of_tokenize h
  have hbreaks : ∀ line ∈ SourceLine.ofSource source, '\n' ∉ line :=
    fun _ hline => SourceLine.not_mem_of_mem_splitOn hline
  obtain ⟨lines, htokens, hshort, hfits⟩ := exists_lines hbreaks rfl hclean
  refine ⟨ofFits _ lines hfits, isShort_iff.2 hshort, ?_⟩
  rw [(tokenize_of_clean hclean).2, tokens, ofFits, tokensOf, htokens, SourceLine.tokensToEnd,
    List.append_assoc]

/-- Layouts are what can be read: each of them is read from its text if no number in it has too many
digits, and not otherwise, and every source that can be listed is read as such a layout. -/
theorem tokenized_exactly (l : Layout) (source : String) :
    ((tokenize l.text).tokens = l.tokens ∧ (tokenize l.text).error? = none ↔ l.IsShort) ∧
    ((tokenize source).error? = none →
      ∃ l' : Layout, l'.IsShort ∧ (tokenize source).tokens = l'.tokens) := by
  refine ⟨⟨?_, tokenize_text⟩, exists_tokens_eq_of_tokenize⟩
  rintro ⟨htokens, herror⟩ n hn
  obtain ⟨l', hshort, htokens'⟩ := exists_tokens_eq_of_tokenize herror
  rw [← htokens, htokens'] at hn
  exact hshort n hn

/-- The least number with too many digits is not read from the line on which it is written. -/
theorem not_tokenized_of_every_number :
    ¬ ∀ n : Nat, let source := String.ofList (Token.spelling (.number n) ++ ['\n'])
      (tokenize source).tokens = [.number n, .newline, .endOfInput] ∧
        (tokenize source).error? = none := by
  intro hall
  have hword := Token.isNumeral_toDigits (10 ^ Text.maxDigits)
  have hlength : Text.maxDigits < (Nat.toDigits 10 (10 ^ Text.maxDigits)).length := by
    rw [← Nat.not_le, Nat.length_toDigits_le_iff (by decide) (by decide)]
    exact Nat.lt_irrefl _
  have hlines : SourceLine.ofSource
      (String.ofList (Nat.toDigits 10 (10 ^ Text.maxDigits) ++ ['\n'])) =
        [Nat.toDigits 10 (10 ^ Text.maxDigits), []] := by
    rw [SourceLine.ofSource, String.toList_ofList, List.splitOn_append_cons_self_of_not_mem
      (Token.notMem_of_isNumeral hword rfl), List.splitOn_nil]
  obtain ⟨-, herror⟩ := hall (10 ^ Text.maxDigits)
  rw [Token.spelling, (tokenize_of_longNumeral hlines hword hlength).2] at herror
  simp at herror

/-- A block of one line, with a line break in its literal. -/
example :
    (ofFits 1 [⟨0, 0, [.keyword .ifWord, .name "x", .char ':'], .inl rfl, by decide, by decide⟩,
        ⟨1, 0, [.keyword .printWord, .string "a\n"], .inr rfl, by decide, by decide⟩]
      ⟨by decide, by decide, rfl⟩).text = "if x :\n  print \"a\\n\"\n" := by
  decide

end Layout

end Offside
