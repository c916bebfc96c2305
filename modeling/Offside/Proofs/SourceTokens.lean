import Mathlib.Data.List.Chain
import Offside.Proofs.LineListing
import Offside.Proofs.ProgramGrammar

set_option autoImplicit false

/-! # What the tokens of a source look like

Two facts about the tokens of a source that can be listed whole, which the rules rely on: the end of
the input stands at the end and nowhere else, and no block is empty. Both are read off the lines: a
line makes steps in or steps out, but not both, and ends behind them. -/

namespace Offside

/-! ## No empty blocks -/

/-- The second token does not close a block that the first one opens. -/
def Token.Apart (t u : Token) : Prop := t = .indent → u ≠ .dedent

theorem noEmptyBlock_of_isChain {ts : List Token} (h : ts.IsChain Token.Apart) :
    NoEmptyBlock ts := by
  intro hempty
  have hpair : [Token.indent, .dedent].IsChain Token.Apart := List.IsChain.infix h hempty
  exact List.isChain_pair.1 hpair rfl rfl

theorem isChain_of_forall_ne_indent {ts : List Token} (h : ∀ t ∈ ts, t ≠ .indent) :
    ts.IsChain Token.Apart := by
  have hpairs : ts.Pairwise Token.Apart :=
    List.pairwise_of_forall_mem_list fun t ht _ _ he => absurd he (h t ht)
  exact hpairs.isChain

theorem isChain_of_forall_ne_dedent {ts : List Token} (h : ∀ t ∈ ts, t ≠ .dedent) :
    ts.IsChain Token.Apart := by
  have hpairs : ts.Pairwise Token.Apart :=
    List.pairwise_of_forall_mem_list fun _ _ u hu _ => h u hu
  exact hpairs.isChain

namespace SourceLine

variable {t : Token} {line : SourceLine} {depth : Nat}

/-- The tokens of a line are its steps, its contents and its end. -/
theorem eq_of_mem_tokens (h : t ∈ line.tokens depth) :
    (t = .indent ∧ depth < line.indent) ∨ (t = .dedent ∧ line.indent < depth) ∨
      t ∈ (contents line.text).1 ∨ t = .newline := by
  cases hb : line.isBlank with
  | true =>
    rw [tokens_of_isBlank depth hb] at h
    exact absurd h List.not_mem_nil
  | false =>
    rw [tokens_of_not_isBlank depth hb, steps, List.mem_append, List.mem_append, List.mem_append,
      List.mem_replicate, List.mem_replicate, List.mem_singleton] at h
    rcases h with ((⟨hn, rfl⟩ | ⟨hn, rfl⟩) | h) | rfl
    · exact .inl ⟨rfl, by omega⟩
    · exact .inr (.inl ⟨rfl, by omega⟩)
    · exact .inr (.inr (.inl h))
    · exact .inr (.inr (.inr rfl))

/-- A line that steps in does not step out. -/
theorem isChain_tokens (line : SourceLine) (depth : Nat) :
    (line.tokens depth).IsChain Token.Apart := by
  rcases Nat.lt_or_ge depth line.indent with hd | hd
  · refine isChain_of_forall_ne_dedent fun t ht => ?_
    rcases eq_of_mem_tokens ht with ⟨rfl, -⟩ | ⟨-, hlt⟩ | hmem | rfl
    · simp
    · omega
    · rintro rfl
      exact absurd (Scanner.not_mark_of_mem_contents hmem).1 (by decide)
    · simp
  · refine isChain_of_forall_ne_indent fun t ht => ?_
    rcases eq_of_mem_tokens ht with ⟨-, hlt⟩ | ⟨rfl, -⟩ | hmem | rfl
    · omega
    · simp
    · rintro rfl
      exact absurd (Scanner.not_mark_of_mem_contents hmem).1 (by decide)
    · simp

/-- Behind a line anything may follow. -/
theorem ne_indent_of_mem_getLast? (h : t ∈ (line.tokens depth).getLast?) : t ≠ .indent := by
  cases hb : line.isBlank with
  | true => simp [tokens_of_isBlank depth hb] at h
  | false =>
    rw [tokens_of_not_isBlank depth hb, List.getLast?_concat] at h
    obtain rfl := Option.some.inj h
    simp

theorem isChain_tokensOf (lines : List SourceLine) (depth : Nat) {ts : List Token}
    (hts : ts.IsChain Token.Apart) : (tokensOf depth lines ++ ts).IsChain Token.Apart := by
  induction lines generalizing depth with
  | nil => exact hts
  | cons line lines ih =>
    rw [tokensOf, List.append_assoc]
    refine (isChain_tokens line depth).append (ih _) ?_
    intro t ht u _ he
    exact absurd he (ne_indent_of_mem_getLast? ht)

/-- No line makes the end of the input. -/
theorem not_mem_tokensOf (lines : List SourceLine) (depth : Nat) :
    .endOfInput ∉ tokensOf depth lines := by
  induction lines generalizing depth with
  | nil => exact List.not_mem_nil
  | cons line lines ih =>
    rw [tokensOf, List.mem_append, not_or]
    refine ⟨fun h => ?_, ih _⟩
    rcases eq_of_mem_tokens h with ⟨he, -⟩ | ⟨he, -⟩ | hmem | he
    · exact absurd he (by simp)
    · exact absurd he (by simp)
    · exact (Scanner.not_mark_of_mem_contents hmem).2 rfl
    · exact absurd he (by simp)

end SourceLine

/-! ## The tokens of a source -/

/-- A source that can be listed whole shows its tokens from its start on: the end of the input is
the last of them only, no block is empty, and there are at most two tokens more than characters. -/
theorem exists_tokens {source : String} (h : (tokenize source).error? = none) :
    ∃ (s : TokenStream) (ts : List Token),
      (tokenize source).tokens = ts ++ [Token.endOfInput] ∧
      TokenStream.ofString source = .ok s ∧ s.Shows (ts ++ [Token.endOfInput]) ∧
      .endOfInput ∉ ts ∧ NoEmptyBlock ts ∧ ts.length ≤ source.length + 1 := by
  obtain ⟨htokens, herror⟩ := tokenize_eq_listing source
  have hlength := SourceLine.length_listing_le source.toList 1 0
  rw [String.length_toList] at hlength
  obtain ⟨s, hs⟩ : ∃ s, TokenStream.ofString source = .ok s := by
    cases hs : TokenStream.ofString source with
    | ok s => exact ⟨s, rfl⟩
    | error e => simp [tokenize, hs] at h
  have hshows : s.Shows (tokenize source).tokens := by
    rw [tokenize, hs]
    exact s.shows_listing (source.length + 1)
  rcases SourceLine.clean_or_exists_fault 0 (SourceLine.ofSource source) with
    hclean | ⟨before, line, after, f, hlines, hbefore, hf⟩
  · have hlisting := SourceLine.listing_of_clean 1 hclean
    let lines := SourceLine.ofSource source
    let steps := List.replicate (SourceLine.depthBehind 0 lines / 2) Token.dedent
    have hts : (tokenize source).tokens =
        (SourceLine.tokensOf 0 lines ++ steps) ++ [Token.endOfInput] := by
      rw [htokens, hlisting, List.append_assoc]
    have hsteps : ∀ t ∈ steps, t = .dedent := fun t ht => (List.mem_replicate.1 ht).2
    refine ⟨s, SourceLine.tokensOf 0 lines ++ steps, hts, hs, hts ▸ hshows, ?_, ?_, ?_⟩
    · rw [List.mem_append, not_or]
      refine ⟨SourceLine.not_mem_tokensOf _ _, fun hmem => ?_⟩
      exact absurd (hsteps _ hmem) (by simp)
    · refine noEmptyBlock_of_isChain (SourceLine.isChain_tokensOf _ _ ?_)
      refine isChain_of_forall_ne_indent fun t ht => ?_
      rw [hsteps t ht]
      simp
    · have hlist : (SourceLine.listing 1 0 (source.toList.splitOn '\n')).1 =
          (SourceLine.tokensOf 0 lines ++ steps) ++ [Token.endOfInput] := htokens.symm.trans hts
      rw [hlist, List.length_append, List.length_singleton] at hlength
      omega
  -- a line with a fault would have ended the listing with an error
  · have hlisting : SourceLine.listing 1 0 (before ++ line :: after) = _ :=
      SourceLine.listing_of_fault 1 hbefore hf
    rw [← hlines] at hlisting
    rw [herror, hlisting] at h
    exact absurd h (by simp)

end Offside
