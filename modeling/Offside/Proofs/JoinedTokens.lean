import Offside.Proofs.StatementComplete
import Offside.Proofs.SourceTokens

set_option autoImplicit false

/-! # The tokens of two sources, one behind the other

Two sources with a line break between them have the lines of the first one and then those of the
second one. Where the first source ends with open blocks, they are closed by the same tokens,
whether its input ends there or a line without indent follows; and the first line of a program that
is not blank has no indent. So the tokens of a program behind a source are those that it has alone.
-/

namespace Offside

namespace SourceLine

variable {line : SourceLine} {lines lines' : List SourceLine} {depth depth' : Nat}

/-! ## Lines behind lines -/

theorem splitOn_append_break (text rest : List Char) :
    (text ++ '\n' :: rest).splitOn '\n' = text.splitOn '\n' ++ rest.splitOn '\n' := by
  induction text using Scanner.line_induction with
  | last line hl =>
    rw [List.splitOn_append_cons_self_of_not_mem hl, List.splitOn_eq_singleton hl,
      List.singleton_append]
  | more line text hl ih =>
    rw [List.append_assoc, List.cons_append, List.splitOn_append_cons_self_of_not_mem hl,
      List.splitOn_append_cons_self_of_not_mem hl, ih, List.cons_append]

theorem ofSource_append_break (source₁ source₂ : String) :
    ofSource (source₁ ++ "\n" ++ source₂) = ofSource source₁ ++ ofSource source₂ := by
  have hbreak : (source₁ ++ "\n" ++ source₂).toList = source₁.toList ++ '\n' :: source₂.toList := by
    simp
  rw [ofSource, hbreak]
  exact splitOn_append_break source₁.toList source₂.toList

theorem depthBehind_append :
    depthBehind depth (lines ++ lines') = depthBehind (depthBehind depth lines) lines' := by
  induction lines generalizing depth with
  | nil => rfl
  | cons line lines ih => exact ih

theorem tokensOf_append :
    tokensOf depth (lines ++ lines') =
      tokensOf depth lines ++ tokensOf (depthBehind depth lines) lines' := by
  induction lines generalizing depth with
  | nil => rfl
  | cons line lines ih =>
    rw [List.cons_append, tokensOf, ih, tokensOf, depthBehind, List.append_assoc]

theorem clean_append (h : Clean depth lines) (h' : Clean (depthBehind depth lines) lines') :
    Clean depth (lines ++ lines') := by
  induction lines generalizing depth with
  | nil => exact h'
  | cons line lines ih =>
    obtain ⟨hline, hlines⟩ := clean_cons.1 h
    exact clean_cons.2 ⟨hline, ih hlines h'⟩

/-! ## Only whole steps matter -/

theorem depthBehind_mod_two (h : Clean depth lines) : depthBehind depth lines % 2 = depth % 2 := by
  induction lines generalizing depth with
  | nil => rfl
  | cons line lines ih =>
    obtain ⟨hline, hlines⟩ := clean_cons.1 h
    rw [depthBehind, ih hlines, depthAfter_mod_two hline]

theorem fault?_eq_none_of_mod_two (hd : depth % 2 = depth' % 2) (h : line.fault? depth = none) :
    line.fault? depth' = none := by
  apply Classical.byContradiction
  intro hne
  rw [← ne_eq, fault?_ne_none_iff, ← hd] at hne
  exact fault?_ne_none_iff.2 hne h

theorem depthAfter_mod_two_congr (line : SourceLine) (hd : depth % 2 = depth' % 2) :
    line.depthAfter depth % 2 = line.depthAfter depth' % 2 := by
  cases hb : line.isBlank with
  | true => rwa [depthAfter_of_isBlank depth hb, depthAfter_of_isBlank depth' hb]
  | false => rw [depthAfter_of_not_isBlank depth hb, depthAfter_of_not_isBlank depth' hb]

/-- Lines without fault have none behind other lines whose indent is whole steps away. -/
theorem Clean.of_mod_two (hd : depth % 2 = depth' % 2) (h : Clean depth lines) :
    Clean depth' lines := by
  induction lines generalizing depth depth' with
  | nil => exact fun before line after hl => by simp at hl
  | cons line lines ih =>
    obtain ⟨hline, hlines⟩ := clean_cons.1 h
    exact clean_cons.2 ⟨fault?_eq_none_of_mod_two hd hline,
      ih (depthAfter_mod_two_congr line hd) hlines⟩

/-! ## Up to the end of the input -/

/-- The tokens of lines without fault, with the steps out behind the last one. -/
def tokensToEnd (depth : Nat) (lines : List SourceLine) : List Token :=
  tokensOf depth lines ++ List.replicate (depthBehind depth lines / 2) Token.dedent

theorem tokensToEnd_cons :
    tokensToEnd depth (line :: lines) =
      line.tokens depth ++ tokensToEnd (line.depthAfter depth) lines :=
  List.append_assoc ..

theorem tokensToEnd_append :
    tokensToEnd depth (lines ++ lines') =
      tokensOf depth lines ++ tokensToEnd (depthBehind depth lines) lines' := by
  rw [tokensToEnd, tokensOf_append, depthBehind_append, List.append_assoc, tokensToEnd]

theorem steps_zero (depth : Nat) : steps depth 0 = List.replicate (depth / 2) .dedent := by
  simp [steps]

/-- Lines of which the first one does not step in close the blocks that are open before them, and are
then as they are alone. -/
theorem tokensToEnd_of_flat (hclean : Clean 0 lines)
    (hflat : ∀ ts, tokensToEnd 0 lines ≠ .indent :: ts) :
    tokensToEnd depth lines = List.replicate (depth / 2) Token.dedent ++ tokensToEnd 0 lines := by
  induction lines with
  | nil => simp [tokensToEnd, tokensOf, depthBehind]
  | cons line lines ih =>
    obtain ⟨hline, hlines⟩ := clean_cons.1 hclean
    rw [tokensToEnd_cons] at hflat
    rw [tokensToEnd_cons, tokensToEnd_cons]
    cases hb : line.isBlank with
    | true =>
      rw [tokens_of_isBlank 0 hb, depthAfter_of_isBlank 0 hb, List.nil_append] at hflat
      rw [depthAfter_of_isBlank 0 hb] at hlines
      rw [tokens_of_isBlank depth hb, tokens_of_isBlank 0 hb, depthAfter_of_isBlank depth hb,
        depthAfter_of_isBlank 0 hb, List.nil_append, List.nil_append]
      exact ih hlines hflat
    | false =>
      -- a line with an indent would step in
      have hindent : line.indent = 0 := by
        have heven := depthAfter_mod_two hline
        rw [depthAfter_of_not_isBlank 0 hb] at heven
        apply Classical.byContradiction
        intro hne
        obtain ⟨k, hk⟩ : ∃ k, line.indent / 2 = k + 1 := ⟨line.indent / 2 - 1, by omega⟩
        rw [tokens_of_not_isBlank 0 hb, steps, Nat.sub_zero, hk, List.replicate_succ] at hflat
        exact hflat _ rfl
      rw [tokens_of_not_isBlank depth hb, tokens_of_not_isBlank 0 hb,
        depthAfter_of_not_isBlank depth hb, depthAfter_of_not_isBlank 0 hb, hindent, steps_zero,
        steps_zero]
      simp

end SourceLine

open SourceLine

variable {source source₁ source₂ : String}

/-- Lines without fault are a source that can be listed whole. -/
theorem tokenize_of_clean (h : Clean 0 (ofSource source)) :
    (tokenize source).error? = none ∧
      (tokenize source).tokens = tokensToEnd 0 (ofSource source) ++ [Token.endOfInput] := by
  obtain ⟨htokens, herror⟩ := tokenize_eq_listing source
  rw [listing_of_clean 1 h] at htokens herror
  rw [htokens, tokensToEnd, List.append_assoc]
  exact ⟨herror, rfl⟩

theorem clean_of_tokenize (h : (tokenize source).error? = none) : Clean 0 (ofSource source) := by
  rcases clean_or_exists_fault 0 (ofSource source) with
    hclean | ⟨before, line, after, f, hlines, hbefore, hf⟩
  · exact hclean
  · have herror := (tokenize_eq_listing source).2
    rw [hlines, listing_of_fault 1 hbefore hf, h] at herror
    simp at herror

/-- The tokens of two sources, one behind the other, where the second one does not step in first. -/
theorem tokenize_append_break {us vs : List Token} (h₁ : (tokenize source₁).error? = none)
    (h₂ : (tokenize source₂).error? = none)
    (hus : (tokenize source₁).tokens = us ++ [Token.endOfInput])
    (hvs : (tokenize source₂).tokens = vs ++ [Token.endOfInput])
    (hflat : ∀ ts, vs ≠ .indent :: ts) :
    (tokenize (source₁ ++ "\n" ++ source₂)).error? = none ∧
      (tokenize (source₁ ++ "\n" ++ source₂)).tokens = us ++ vs ++ [Token.endOfInput] := by
  have hclean₁ := clean_of_tokenize h₁
  have hclean₂ := clean_of_tokenize h₂
  have heven : depthBehind 0 (ofSource source₁) % 2 = 0 := depthBehind_mod_two hclean₁
  obtain rfl : us = tokensToEnd 0 (ofSource source₁) :=
    List.append_cancel_right (hus.symm.trans (tokenize_of_clean hclean₁).2)
  obtain rfl : vs = tokensToEnd 0 (ofSource source₂) :=
    List.append_cancel_right (hvs.symm.trans (tokenize_of_clean hclean₂).2)
  have hclean : Clean 0 (ofSource (source₁ ++ "\n" ++ source₂)) := by
    rw [ofSource_append_break]
    exact clean_append hclean₁ (hclean₂.of_mod_two heven.symm)
  obtain ⟨herror, htokens⟩ := tokenize_of_clean hclean
  rw [ofSource_append_break, tokensToEnd_append, tokensToEnd_of_flat hclean₂ hflat,
    ← List.append_assoc, ← tokensToEnd] at htokens
  exact ⟨herror, htokens⟩

end Offside
