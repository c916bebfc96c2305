import Mathlib.Data.List.Chain
import Offside.Proofs.LineByLine

set_option autoImplicit false

/-! # The listing of a source

What `tokenize` gives is the listing of the lines: the tokens of every line that is not blank, made
from the line and the indent before it alone, and a step out for every block that is open at the
end; or the tokens up to the first line with a fault, and the error there.

The bound of a listing is never met. A line has no more tokens than characters, if its steps in are
counted with its indent and those out with the indent before it. -/

namespace Offside

open SourceLine (Fault)

/-! ## One line, whatever follows it -/

namespace Scanner

variable {s : Scanner} {line : SourceLine} {rest : List Char} {number depth : Nat}
  {previous? : Option Token} {ts : List Token} {error? : Option ReadError}

/-- A line with a fault ends what is yielded. -/
theorem yields_of_fault {f : Fault} (hf : line.fault? depth = some f) (hl : '\n' ∉ line)
    (hrest : Reader.AtBreak rest) (hp : previous? ≠ some .endOfInput)
    (h : s.StandsAt (line ++ rest) number depth true) :
    s.Yields previous? (line.tokensBefore depth f) (some (f.error number (!rest.isEmpty))) := by
  unfold SourceLine.fault? at hf
  split at hf
  · rename_i ht
    obtain rfl := Option.some.inj hf
    obtain ⟨s', hread⟩ := h.read_tab ht hp
    exact .failing hread
  · rename_i ht
    split at hf
    · simp at hf
    · rename_i hb
      simp only [Bool.not_eq_true] at ht hb
      split at hf
      · rename_i hu
        obtain rfl := Option.some.inj hf
        obtain ⟨s', hread⟩ := h.read_uneven hl hb ht hu hp
        exact .failing hread
      · rename_i hu
        obtain ⟨g, hg, rfl⟩ := Option.map_eq_some_iff.1 hf
        refine yields_of_steps hl hb ht (not_not.1 hu) hp h ?_
        intro s' p hp' hs'
        exact yields_of_contents_fault hg (SourceLine.text_subset hl) hrest hp' hs'

/-- A line that is not blank yields its tokens up to its end, the last of which is not a mark. -/
theorem yields_of_clean (hf : line.fault? depth = none) (hb : line.isBlank = false)
    (hl : '\n' ∉ line) (hrest : Reader.AtBreak rest) (hp : previous? ≠ some .endOfInput)
    (h : s.StandsAt (line ++ rest) number depth true)
    (hnext : ∀ (s' : Scanner) (t : Token), t.isLayout = false → t ≠ .endOfInput →
      s'.StandsAt rest number line.indent false → s'.Yields (some t) ts error?) :
    s.Yields previous?
      (SourceLine.steps depth line.indent ++ ((SourceLine.contents line.text).1 ++ ts)) error? := by
  unfold SourceLine.fault? at hf
  split at hf
  · simp at hf
  · rename_i ht
    simp only [Bool.not_eq_true] at ht
    rw [if_neg (by simp [hb])] at hf
    split at hf
    · simp at hf
    · rename_i hu
      have hc := Option.map_eq_none_iff.1 hf
      refine yields_of_steps hl hb ht (not_not.1 hu) hp h ?_
      intro s' p hp' hs'
      refine yields_of_contents hc (SourceLine.text_subset hl) hrest hp' hs' ?_
      intro s₂ hs₂
      -- the line has contents, so what was read before it does not matter
      cases hlast : (SourceLine.contents line.text).1.getLast? with
      | none =>
        exact absurd (List.getLast?_eq_none_iff.1 hlast) (SourceLine.contents_ne_nil hl hb ht hc)
      | some t =>
        obtain ⟨hlayout, hend⟩ := not_mark_of_mem_contents (List.mem_of_getLast? hlast)
        exact hnext s₂ t hlayout hend hs₂

/-! ## The end of the input -/

/-- Behind a line all blocks are closed. -/
theorem yields_of_closing (hd : depth % 2 = 0) (hlayout : ∀ t ∈ previous?, t.isLayout = true)
    (h : s.StandsAt [] number depth false) :
    s.Yields previous? (List.replicate (depth / 2) Token.dedent ++ [Token.endOfInput]) none := by
  have hp : previous? ≠ some .endOfInput := fun he => absurd (hlayout _ he) (by decide)
  have hopen : (previous?.any (!·.isLayout)) = false := by
    cases previous? with
    | none => rfl
    | some t => simp [hlayout t rfl]
  have hread := h.read_end hp
  obtain rfl := h.depth_eq
  by_cases hz : s.depth = 0
  · rw [closing, hopen, if_neg (by decide), if_pos hz] at hread
    rw [hz]
    exact .ending hread
  · rw [closing, hopen, if_neg (by decide), if_neg hz] at hread
    obtain ⟨k, hk⟩ : ∃ k, s.depth / 2 = k + 1 := ⟨s.depth / 2 - 1, by omega⟩
    have hk' : s.depth / indentWidth - 1 = k := by rw [show indentWidth = 2 from rfl, hk]; rfl
    rw [hk'] at hread
    rw [hk, List.replicate_succ, List.cons_append]
    refine .reading hread (by simp) (yields_of_pendingDedents (by simp) fun p hp' => ?_)
    obtain rfl := or_self_iff.1 hp'
    have h' : ({ s with depth := 0, pendingDedents := 0 } : Scanner).StandsAt [] number 0 false :=
      ⟨h.reader, rfl, h.indents_eq, rfl, h.start_eq⟩
    exact .ending (h'.read_end (by simp))

/-! ## All lines -/

/-- A text is one line, or a line and a text behind it. -/
theorem line_induction {motive : List Char → Prop}
    (last : ∀ line : SourceLine, '\n' ∉ line → motive line)
    (more : ∀ (line : SourceLine) (rest : List Char), '\n' ∉ line → motive rest →
      motive (line ++ '\n' :: rest))
    (text : List Char) : motive text := by
  by_cases h : '\n' ∈ text
  · obtain ⟨line, rest, rfl, hl⟩ := List.eq_append_cons_of_mem h
    exact more line rest hl (line_induction last more rest)
  · exact last text h
termination_by text.length

/-- The last line with text on it is ended and all blocks are closed behind it. -/
theorem yields_of_last_line (hd : line.indent % 2 = 0) {t : Token} (ht : t.isLayout = false)
    (hend : t ≠ .endOfInput) (h : s.StandsAt [] number line.indent false) :
    s.Yields (some t)
      (.newline :: (List.replicate (line.indent / 2) Token.dedent ++ [Token.endOfInput])) none := by
  have hp : some t ≠ some .endOfInput := fun he => hend (Option.some.inj he)
  have hread := h.read_end hp
  rw [closing, if_pos (by simp [ht])] at hread
  refine .reading hread (by simp) (yields_of_closing hd ?_ h)
  intro u hu
  obtain rfl := Option.some.inj hu
  rfl

/-- From the start of a line on, a scanner yields the listing of the lines from there on. -/
theorem yields_listing (text : List Char) (hd : depth % 2 = 0)
    (hp : ∀ t ∈ previous?, t = .newline) (h : s.StandsAt text number depth true) :
    s.Yields previous? (SourceLine.listing number depth (text.splitOn '\n')).1
      (SourceLine.listing number depth (text.splitOn '\n')).2 := by
  induction text using line_induction generalizing s number depth previous? with
  | last line hl =>
    have hend : previous? ≠ some .endOfInput := fun he => absurd (hp _ he) (by decide)
    have hbreak : Reader.AtBreak [] := trivial
    have h' : s.StandsAt (line ++ []) number depth true := by rwa [List.append_nil]
    -- no line break is left, so the text is one line, and all blocks are closed behind it
    rw [List.splitOn_eq_singleton hl]
    cases hf : line.fault? depth with
    | some f =>
      rw [SourceLine.listing_cons_of_fault number hf]
      exact yields_of_fault hf hl hbreak hend h'
    | none =>
      have heven := SourceLine.depthAfter_mod_two hf
      rw [SourceLine.listing_cons_of_clean number hf]
      simp only [SourceLine.listing]
      cases hb : line.isBlank with
      | true =>
        obtain ⟨s', hread, hs'⟩ := h.read_last_blank_line hb hl hend
        rw [SourceLine.tokens_of_isBlank depth hb, SourceLine.depthAfter_of_isBlank depth hb]
        refine .of_read_eq hread (yields_of_closing hd ?_ hs')
        intro t ht
        rw [hp t ht]
        rfl
      | false =>
        rw [SourceLine.depthAfter_of_not_isBlank depth hb] at heven ⊢
        rw [SourceLine.tokens_of_not_isBlank depth hb, List.append_assoc, List.append_assoc]
        refine yields_of_clean hf hb hl hbreak hend h' ?_
        intro s' t ht htend hs'
        exact yields_of_last_line (heven.trans hd) ht htend hs'
  | more line rest hl ih =>
    have hend : previous? ≠ some .endOfInput := fun he => absurd (hp _ he) (by decide)
    have hbreak : Reader.AtBreak ('\n' :: rest) := rfl
    rw [List.splitOn_append_cons_self_of_not_mem hl]
    cases hf : line.fault? depth with
    | some f =>
      rw [SourceLine.listing_cons_of_fault number hf]
      have hmore : (rest.splitOn '\n').isEmpty = false := by
        rw [List.isEmpty_eq_false_iff]
        exact List.splitOn_ne_nil '\n' rest
      rw [hmore]
      exact yields_of_fault hf hl hbreak hend h
    | none =>
      have heven := (SourceLine.depthAfter_mod_two hf).trans hd
      rw [SourceLine.listing_cons_of_clean number hf]
      cases hb : line.isBlank with
      | true =>
        obtain ⟨s', hread, hs'⟩ := h.read_blank_line hb hl hend
        rw [SourceLine.depthAfter_of_isBlank depth hb, SourceLine.tokens_of_isBlank depth hb]
        exact .of_read_eq hread (ih hd hp hs')
      | false =>
        rw [SourceLine.depthAfter_of_not_isBlank depth hb] at heven ⊢
        rw [SourceLine.tokens_of_not_isBlank depth hb, List.append_assoc, List.append_assoc]
        refine yields_of_clean hf hb hl hbreak hend h ?_
        intro s' t ht htend hs'
        -- the line had tokens, so its line break is one too and puts the scanner at the next line
        have hnl : endsLine (some t) = true := by
          have hne : t ≠ .newline := by rintro rfl; simp [Token.isLayout] at ht
          simpa [endsLine] using hne
        obtain ⟨s₂, hread, hs₂⟩ := hs'.read_break hnl (by simpa using htend)
        refine .reading hread (by simp) (ih heven ?_ hs₂)
        intro u hu
        exact (Option.some.inj hu).symm

end Scanner

/-! ## The bound -/

namespace SourceLine

variable {line : SourceLine} {depth : Nat}

theorem length_steps (depth indent : Nat) :
    (steps depth indent).length = (indent - depth) / 2 + (depth - indent) / 2 := by
  simp [steps]

/-- The indent and the contents of a line share its characters. -/
theorem indent_add_length_contents_le (line : SourceLine) :
    line.indent + (contents line.text).1.length ≤ line.length := by
  have hindent : line.indent ≤ line.lead.length := List.count_le_length
  have hcontents := length_contents_le line.text
  have hsplit : line.lead.length + line.text.length = line.length := by
    rw [← List.length_append]
    exact congrArg List.length List.takeWhile_append_dropWhile
  omega

theorem length_tokensBefore_le (line : SourceLine) (depth : Nat) (f : Fault) :
    (line.tokensBefore depth f).length ≤ line.length + depth / 2 := by
  have hline := indent_add_length_contents_le line
  cases f with
  | tab => exact Nat.zero_le _
  | uneven => exact Nat.zero_le _
  | text f =>
    simp only [tokensBefore, List.length_append, length_steps]
    omega

/-- The tokens of a line, with the steps that lead out of it again. -/
theorem length_tokens_add_le (line : SourceLine) (depth : Nat) :
    (line.tokens depth).length + line.depthAfter depth / 2 ≤ line.length + depth / 2 + 1 := by
  have hline := indent_add_length_contents_le line
  cases hb : line.isBlank with
  | true =>
    rw [tokens_of_isBlank depth hb, depthAfter_of_isBlank depth hb, List.length_nil]
    omega
  | false =>
    rw [tokens_of_not_isBlank depth hb, depthAfter_of_not_isBlank depth hb]
    simp only [List.length_append, length_steps, List.length_singleton]
    omega

/-- Each line but the last has its line break for the end of the line, and two tokens are left for
the last line and the end of the input. -/
theorem length_listing_le (text : List Char) (number depth : Nat) :
    (listing number depth (text.splitOn '\n')).1.length ≤ text.length + depth / 2 + 2 := by
  induction text using Scanner.line_induction generalizing number depth with
  | last line hl =>
    rw [List.splitOn_eq_singleton hl]
    cases hf : line.fault? depth with
    | some f =>
      rw [listing_cons_of_fault number hf]
      exact Nat.le_add_right_of_le (length_tokensBefore_le line depth f)
    | none =>
      rw [listing_cons_of_clean number hf]
      have htokens := length_tokens_add_le line depth
      simp only [listing, List.length_append, List.length_replicate, List.length_singleton]
      omega
  | more line rest hl ih =>
    rw [List.splitOn_append_cons_self_of_not_mem hl, List.length_append, List.length_cons]
    cases hf : line.fault? depth with
    | some f =>
      rw [listing_cons_of_fault number hf]
      have htokens := length_tokensBefore_le line depth f
      dsimp only
      omega
    | none =>
      rw [listing_cons_of_clean number hf]
      have htokens := length_tokens_add_le line depth
      have hrest := ih (number + 1) (line.depthAfter depth)
      simp only [List.length_append]
      omega

end SourceLine

/-! ## The whole source -/

/-- The scanner of a source yields the listing of its lines. -/
theorem Scanner.yields_ofString (source : String) :
    (Scanner.ofString source).Yields none (SourceLine.listing 1 0 (SourceLine.ofSource source)).1
      (SourceLine.listing 1 0 (SourceLine.ofSource source)).2 :=
  yields_listing source.toList rfl (by simp) (standsAt_ofString source)

/-- What `tokenize` gives is the listing of the lines. -/
theorem tokenize_eq_listing (source : String) :
    (tokenize source).tokens =
        (SourceLine.listing 1 0 (SourceLine.ofSource source)).1 ∧
      (tokenize source).error? = (SourceLine.listing 1 0 (SourceLine.ofSource source)).2 := by
  refine tokenize_of_yields (Scanner.yields_ofString source) ?_
  have hlength := SourceLine.length_listing_le source.toList 1 0
  rwa [String.length_toList] at hlength

namespace SourceLine

/-- A line has no line break in it. -/
theorem not_mem_of_mem_splitOn {line : SourceLine} {text : List Char}
    (h : line ∈ text.splitOn '\n') : '\n' ∉ line := by
  induction text using Scanner.line_induction with
  | last l hl =>
    rw [List.splitOn_eq_singleton hl, List.mem_singleton] at h
    rwa [h]
  | more l rest hl ih =>
    rw [List.splitOn_append_cons_self_of_not_mem hl, List.mem_cons] at h
    rcases h with rfl | h
    · exact hl
    · exact ih h

/-- Lines are clean, or there is a first one with a fault. -/
theorem clean_or_exists_fault (depth : Nat) (lines : List SourceLine) :
    Clean depth lines ∨
      ∃ before line after f, lines = before ++ line :: after ∧ Clean depth before ∧
        line.fault? (depthBehind depth before) = some f := by
  induction lines generalizing depth with
  | nil => exact .inl fun before line after h => by simp at h
  | cons line lines ih =>
    cases hf : line.fault? depth with
    | some f =>
      exact .inr ⟨[], line, lines, f, rfl, fun before l after h => by simp at h, hf⟩
    | none =>
      rcases ih (line.depthAfter depth) with h | ⟨before, l, after, f, rfl, hb, hl⟩
      · exact .inl (clean_cons.2 ⟨hf, h⟩)
      · exact .inr ⟨line :: before, l, after, f, rfl, clean_cons.2 ⟨hf, hb⟩, hl⟩

end SourceLine

section

open SourceLine

/-- Text is read line by line. A source cannot be listed exactly if some line has a tab directly
behind its lead, or if some line that is not blank is an odd number of spaces away from the line
before or has a text that is not a sequence of tokens. The first such line is the one at which the
listing ends, behind the tokens before it. Otherwise every line that is not blank adds its steps,
its tokens, of which there is at least one, and a line end, and behind the last line all blocks are
closed. -/
theorem tokenize_line_by_line (source : String) :
    ((tokenize source).error? ≠ none ↔
      ∃ before line after, ofSource source = before ++ line :: after ∧
        (line.hasTab = true ∨ line.isBlank = false ∧
          (line.indent % 2 ≠ depthBehind 0 before % 2 ∨ (contents line.text).2 ≠ none))) ∧
    (∀ before line after f, ofSource source = before ++ line :: after → Clean 0 before →
      line.fault? (depthBehind 0 before) = some f →
      (tokenize source).tokens = tokensOf 0 before ++ line.tokensBefore (depthBehind 0 before) f ∧
        (tokenize source).error? = some (f.error (before.length + 1) (!after.isEmpty))) ∧
    ((tokenize source).error? = none →
      (tokenize source).tokens = tokensOf 0 (ofSource source) ++
        (List.replicate (depthBehind 0 (ofSource source) / 2) .dedent ++ [.endOfInput])) ∧
    ∀ line ∈ ofSource source, line.isBlank = false → line.hasTab = false →
      (contents line.text).2 = none → (contents line.text).1 ≠ [] := by
  obtain ⟨htokens, herror⟩ := tokenize_eq_listing source
  have hfault : ∀ before line after f, ofSource source = before ++ line :: after →
      Clean 0 before → line.fault? (depthBehind 0 before) = some f →
      (tokenize source).tokens = tokensOf 0 before ++ line.tokensBefore (depthBehind 0 before) f ∧
        (tokenize source).error? = some (f.error (before.length + 1) (!after.isEmpty)) := by
    intro before line after f hlines hbefore hf
    have hlisting : listing 1 0 (before ++ line :: after) = _ := listing_of_fault 1 hbefore hf
    rw [← hlines, Nat.add_comm 1] at hlisting
    exact ⟨htokens.trans (congrArg Prod.fst hlisting), herror.trans (congrArg Prod.snd hlisting)⟩
  have hclean : Clean 0 (ofSource source) → (tokenize source).error? = none ∧
      (tokenize source).tokens = tokensOf 0 (ofSource source) ++
        (List.replicate (depthBehind 0 (ofSource source) / 2) Token.dedent ++
          [Token.endOfInput]) := by
    intro h
    have hlisting := listing_of_clean 1 h
    exact ⟨herror.trans (congrArg Prod.snd hlisting), htokens.trans (congrArg Prod.fst hlisting)⟩
  refine ⟨⟨?_, ?_⟩, hfault, ?_, ?_⟩
  · intro he
    rcases clean_or_exists_fault 0 (ofSource source) with
      h | ⟨before, line, after, f, hlines, -, hf⟩
    · exact absurd (hclean h).1 he
    · exact ⟨before, line, after, hlines, fault?_ne_none_iff.1 (by simp [hf])⟩
  · rintro ⟨before, line, after, hlines, hf⟩
    rcases clean_or_exists_fault 0 (ofSource source) with
      h | ⟨before', line', after', f', hlines', hb', hf'⟩
    · exact absurd (h before line after hlines) (fault?_ne_none_iff.2 hf)
    · rw [(hfault before' line' after' f' hlines' hb' hf').2]
      simp
  · intro he
    rcases clean_or_exists_fault 0 (ofSource source) with
      h | ⟨before, line, after, f, hlines, hb, hf⟩
    · exact (hclean h).2
    · rw [(hfault before line after f hlines hb hf).2] at he
      simp at he
  · intro line hline
    exact contents_ne_nil (not_mem_of_mem_splitOn hline)

end

end Offside
