import Offside.Proofs.LineContents

set_option autoImplicit false

/-! # A source line by line

The listing of a source is put together from its lines. A line that is not blank makes the steps
from the indent before it to its own, its contents and the end of the line; behind the last line all
blocks are closed. The first line with a fault ends the listing.

The induction is on the lines: what a scanner yields from the start of a line on is what the lines
from there on make, where all that it remembers of the lines before is their depth. -/

namespace Offside

open SourceLine (TextFault Fault)

/-! ## The leading space of a line -/

namespace Reader

variable {r : Reader} {rest : List Char} {number : Nat}

/-- Leading space is counted. -/
theorem StandsAt.lead_append {space : List Char} (hs : ∀ c ∈ space, SourceLine.isLead c = true)
    (spaces : Nat) (h : r.StandsAt (space ++ rest) number) :
    ∃ r' : Reader, r.lead spaces = r'.lead (spaces + space.count ' ') ∧ r'.StandsAt rest number := by
  induction space generalizing r spaces with
  | nil => exact ⟨r, rfl, h⟩
  | cons c space ih =>
    have hc : c = ' ' ∨ c = '\r' := by
      simpa [SourceLine.isLead] using hs c (List.mem_cons_self ..)
    have hne : c ≠ '\n' := by rintro rfl; simp at hc
    obtain ⟨r₁, hn, hr₁⟩ := h.next?_cons_of_ne hne
    have hs' : ∀ c ∈ space, SourceLine.isLead c = true := fun c hm => hs c (List.mem_cons_of_mem _ hm)
    rcases hc with rfl | rfl
    · obtain ⟨r', hr, hr'⟩ := ih hs' (spaces + 1) hr₁
      refine ⟨r', ?_, hr'⟩
      rw [lead_of_some spaces hn, if_pos rfl, hr, List.count_cons_self]
      congr 1
      omega
    · obtain ⟨r', hr, hr'⟩ := ih hs' spaces hr₁
      refine ⟨r', ?_, hr'⟩
      rw [lead_of_some spaces hn, if_neg (by decide), if_pos rfl, hr,
        List.count_cons_of_ne (by decide)]

/-- A line is its leading space and its text. -/
theorem StandsAt.lead_line {line : SourceLine} (h : r.StandsAt (line ++ rest) number) :
    ∃ r' : Reader, r.lead 0 = r'.lead line.indent ∧ r'.StandsAt (line.text ++ rest) number := by
  have hsplit : line ++ rest = line.lead ++ (line.text ++ rest) := by
    rw [← List.append_assoc]
    exact congrArg (· ++ rest) List.takeWhile_append_dropWhile.symm
  rw [hsplit] at h
  obtain ⟨r', hr, hr'⟩ := h.lead_append (fun c hc => List.mem_takeWhile_imp hc) 0
  exact ⟨r', by rw [hr, Nat.zero_add]; rfl, hr'⟩

theorem StandsAt.lead_comment {comment : List Char} (spaces : Nat) (hc : '\n' ∉ comment)
    (hrest : AtBreak rest) (h : r.StandsAt ('#' :: comment ++ rest) number) :
    ∃ r' : Reader, r.lead spaces = r'.lead spaces ∧ r'.StandsAt rest number := by
  obtain ⟨r₁, hn, hr₁⟩ := h.next?_cons_of_ne (by decide)
  refine ⟨r₁.skipComment, ?_, hr₁.skipComment hc hrest⟩
  rw [lead_of_some spaces hn]
  simp

/-- A blank line is passed over up to its end. -/
theorem StandsAt.lead_blank {line : SourceLine} (hb : line.isBlank = true) (hl : '\n' ∉ line)
    (hrest : AtBreak rest) (h : r.StandsAt (line ++ rest) number) :
    ∃ (r' : Reader) (spaces : Nat), r.lead 0 = r'.lead spaces ∧ r'.StandsAt rest number := by
  obtain ⟨r₁, hr, hr₁⟩ := h.lead_line
  cases ht : line.text with
  | nil => exact ⟨r₁, line.indent, hr, by rwa [ht] at hr₁⟩
  | cons c comment =>
    obtain rfl : c = '#' := by simpa [SourceLine.isBlank, ht] using hb
    have hc : '\n' ∉ comment := by
      intro hm
      have hsuffix : line.text <:+ line := List.dropWhile_suffix _
      exact hl (hsuffix.subset (ht ▸ List.mem_cons_of_mem _ hm))
    rw [ht] at hr₁
    obtain ⟨r', hr₂, hr'⟩ := hr₁.lead_comment line.indent hc hrest
    exact ⟨r', line.indent, hr.trans hr₂, hr'⟩

end Reader

namespace SourceLine

theorem text_subset {line : SourceLine} (hl : '\n' ∉ line) : '\n' ∉ line.text :=
  fun hm => hl ((List.dropWhile_suffix _).subset hm)

/-- The text of a line that is not blank and has no tab begins with a visible character. -/
theorem text_of_not_isBlank {line : SourceLine} (hl : '\n' ∉ line) (hb : line.isBlank = false)
    (ht : line.hasTab = false) :
    ∃ c text, line.text = c :: text ∧ isLead c = false ∧ c ≠ '\n' ∧ c ≠ '#' ∧ c ≠ '\t' := by
  cases hc : line.text with
  | nil => simp [isBlank, hc] at hb
  | cons c text =>
    refine ⟨c, text, rfl, ?_, ?_, by simpa [isBlank, hc] using hb, by simpa [hasTab, hc] using ht⟩
    · have hd := List.head?_dropWhile_not isLead line
      rw [show line.dropWhile isLead = c :: text from hc] at hd
      simpa using hd
    · rintro rfl
      exact text_subset hl (hc ▸ List.mem_cons_self ..)

/-- A line that is not blank and has no fault makes at least one token of its own. -/
theorem contents_ne_nil {line : SourceLine} (hl : '\n' ∉ line) (hb : line.isBlank = false)
    (ht : line.hasTab = false) (hf : (contents line.text).2 = none) :
    (contents line.text).1 ≠ [] := by
  obtain ⟨c, text, hc, hlead, -, hcomment, htab⟩ := text_of_not_isBlank hl hb ht
  have hblank : Reader.isBlank c = false := by
    simp only [isLead, Bool.or_eq_false_iff, decide_eq_false_iff_not] at hlead
    simp [Reader.isBlank, hlead, htab]
  rw [hc] at hf ⊢
  cases hx : lexeme c text with
  | error f => rw [contents_of_error hblank hcomment hx] at hf; simp at hf
  | ok p =>
    obtain ⟨t, after⟩ := p
    rw [contents_of_ok hblank hcomment hx]
    simp

end SourceLine

/-! ## Reads at the start of a line -/

namespace Scanner

variable {s : Scanner} {line : SourceLine} {rest : List Char} {number depth : Nat}
  {previous? : Option Token}

/-- Where the leading space from here on is that from elsewhere on, so is the read. -/
theorem read_of_lead_eq {r : Reader} {text text' : List Char} {number' : Nat}
    (h : s.StandsAt text number depth true) (hr : r.StandsAt text' number')
    (hp : previous? ≠ some .endOfInput) (hlead : s.reader.lead 0 = r.lead 0) :
    s.read previous? = { s with reader := r }.read previous? := by
  have h' := h.withReader hr
  refine h.read_congr h' hp ?_
  have hopen : s.openLine = { s with reader := r }.openLine := by
    simp only [openLine, hlead]
  rw [scan_of_atLineStart h.start_eq, scan_of_atLineStart h'.start_eq, hopen]

/-- A blank line that others follow. -/
theorem StandsAt.read_blank_line (hb : line.isBlank = true) (hl : '\n' ∉ line)
    (hp : previous? ≠ some .endOfInput)
    (h : s.StandsAt (line ++ '\n' :: rest) number depth true) :
    ∃ s' : Scanner, s.read previous? = s'.read previous? ∧
      s'.StandsAt rest (number + 1) depth true := by
  obtain ⟨r₁, spaces, hlead, hr₁⟩ :=
    h.reader.lead_blank hb hl (show Reader.AtBreak ('\n' :: rest) from rfl)
  obtain ⟨r', hn, hr'⟩ := hr₁.next?_cons
  refine ⟨{ s with reader := r' }, read_of_lead_eq h hr' hp ?_, h.withReader hr'⟩
  rw [hlead, Reader.lead_of_some spaces hn]
  simp

/-- A blank line at the end of the input. -/
theorem StandsAt.read_last_blank_line (hb : line.isBlank = true) (hl : '\n' ∉ line)
    (hp : previous? ≠ some .endOfInput) (h : s.StandsAt line number depth true) :
    ∃ s' : Scanner, s.read previous? = s'.read previous? ∧ s'.StandsAt [] number depth false := by
  rw [← List.append_nil line] at h
  obtain ⟨r', spaces, hlead, hr'⟩ := h.reader.lead_blank hb hl (show Reader.AtBreak [] from trivial)
  rw [Reader.lead_of_none spaces hr'.next?_nil] at hlead
  have h' : ({ s with reader := r', atLineStart := false } : Scanner).StandsAt [] number depth false :=
    ⟨hr', h.depth_eq, h.indents_eq, h.dedents_eq, rfl⟩
  refine ⟨_, h.read_congr h' hp ?_, h'⟩
  rw [scan_of_atLineStart h.start_eq]
  simp only [openLine, hlead]

/-- A tab in the leading space. -/
theorem StandsAt.read_tab (ht : line.hasTab = true) (hp : previous? ≠ some .endOfInput)
    (h : s.StandsAt (line ++ rest) number depth true) :
    ∃ s', s.read previous? = (.error (.lexical ⟨.tabInIndentation, number⟩), s') := by
  obtain ⟨r₁, hlead, hr₁⟩ := h.reader.lead_line
  obtain ⟨text, htext⟩ : ∃ text, line.text = '\t' :: text := by
    cases hc : line.text with
    | nil => simp [SourceLine.hasTab, hc] at ht
    | cons c text => exact ⟨text, by simpa [SourceLine.hasTab, hc] using ht⟩
  rw [htext] at hr₁
  obtain ⟨r', hn, hr'⟩ := hr₁.next?_cons_of_ne (by decide)
  rw [Reader.lead_of_some _ hn] at hlead
  have hscan : s.scan previous? = (.error (.lexical .tabInIndentation), { s with reader := r' }) := by
    rw [scan_of_atLineStart h.start_eq]
    simp [openLine, hlead]
  refine ⟨{ s with reader := r' }, ?_⟩
  rw [h.read_of_scan_error hp hscan]
  simp [ReadFault.onLine, Scanner.line, hr'.line_eq]

/-- The leading space of a line with text on it is taken, and nothing else. -/
theorem StandsAt.lead_visible (hl : '\n' ∉ line) (hb : line.isBlank = false)
    (ht : line.hasTab = false) (h : s.StandsAt (line ++ rest) number depth true) :
    ∃ r, s.reader.lead 0 = (.text line.indent, r) ∧ r.StandsAt (line.text ++ rest) number := by
  obtain ⟨r₁, hlead, hr₁⟩ := h.reader.lead_line
  obtain ⟨c, text, hc, hspace, hbreak, hcomment, htab⟩ := SourceLine.text_of_not_isBlank hl hb ht
  rw [hc] at hr₁
  obtain ⟨r', hn, hr'⟩ := hr₁.next?_cons
  refine ⟨r'.giveBack c, ?_, by rw [hc]; exact hr'.giveBack⟩
  simp only [SourceLine.isLead, Bool.or_eq_false_iff, decide_eq_false_iff_not] at hspace
  rw [hlead, Reader.lead_of_some _ hn, if_neg hspace.1, if_neg hspace.2, if_neg hbreak,
    if_neg hcomment, if_neg htab]

/-- An indent an odd number of spaces away from the depth. -/
theorem StandsAt.read_uneven (hl : '\n' ∉ line) (hb : line.isBlank = false)
    (ht : line.hasTab = false) (hu : line.indent % 2 ≠ depth % 2)
    (hp : previous? ≠ some .endOfInput) (h : s.StandsAt (line ++ rest) number depth true) :
    ∃ s', s.read previous? = (.error (.lexical ⟨.unevenIndentation line.indent depth, number⟩), s') := by
  obtain ⟨r, hlead, hr⟩ := h.lead_visible hl hb ht
  obtain rfl := h.depth_eq
  have hscan : s.scan previous? = (.error (.lexical (.unevenIndentation line.indent s.depth)),
      { s with reader := r, atLineStart := false }) := by
    rw [scan_of_atLineStart h.start_eq, openLine_of_uneven hlead hu]
  refine ⟨{ s with reader := r, atLineStart := false }, ?_⟩
  rw [h.read_of_scan_error hp hscan]
  simp [ReadFault.onLine, Scanner.line, hr.line_eq]

/-- A line that is not blank and whose indent fits makes the steps to its indent first. -/
theorem yields_of_steps {ts : List Token} {error? : Option ReadError} (hl : '\n' ∉ line)
    (hb : line.isBlank = false) (ht : line.hasTab = false) (hu : line.indent % 2 = depth % 2)
    (hp : previous? ≠ some .endOfInput) (h : s.StandsAt (line ++ rest) number depth true)
    (hnext : ∀ (s' : Scanner) (p : Option Token), p ≠ some .endOfInput →
      s'.StandsAt (line.text ++ rest) number line.indent false → s'.Yields p ts error?) :
    s.Yields previous? (SourceLine.steps depth line.indent ++ ts) error? := by
  obtain ⟨r, hlead, hr⟩ := h.lead_visible hl hb ht
  obtain rfl := h.depth_eq
  unfold SourceLine.steps
  rcases Nat.lt_trichotomy s.depth line.indent with hd | hd | hd
  · -- the first step in is handed out by the read that takes the leading space, the others wait
    have hscan := openLine_of_deeper hlead hu hd
    obtain ⟨k, hk⟩ : ∃ k, (line.indent - s.depth) / 2 = k + 1 :=
      ⟨(line.indent - s.depth) / 2 - 1, by omega⟩
    rw [hk, Nat.sub_eq_zero_of_le (Nat.le_of_lt hd), Nat.zero_div, List.replicate_zero,
      List.append_nil, List.replicate_succ, List.cons_append]
    rw [hk, Nat.add_sub_cancel] at hscan
    refine .reading (h.read_of_scan_ok hp (by rw [scan_of_atLineStart h.start_eq, hscan]))
      (by simp) ?_
    refine yields_of_pendingIndents h.dedents_eq (by simp) ?_
    exact fun p hp => hnext _ p hp ⟨hr, rfl, rfl, h.dedents_eq, rfl⟩
  · -- no step: the same read goes on with the text of the line
    have h' : ({ s with reader := r, atLineStart := false } : Scanner).StandsAt
        (line.text ++ rest) number line.indent false :=
      ⟨hr, hd, h.indents_eq, h.dedents_eq, rfl⟩
    have hscan : s.scan previous? = { s with reader := r, atLineStart := false }.scan previous? := by
      rw [scan_of_atLineStart h.start_eq, openLine_of_eq hlead hd.symm]
    rw [hd, Nat.sub_self, Nat.zero_div, List.replicate_zero, List.replicate_zero, List.nil_append,
      List.nil_append]
    exact .of_read_eq (h.read_congr h' hp hscan) (hnext _ _ hp h')
  · -- steps out are handed out in the same way, also where no step in is waiting
    have hscan := openLine_of_shallower hlead hu hd
    obtain ⟨k, hk⟩ : ∃ k, (s.depth - line.indent) / 2 = k + 1 :=
      ⟨(s.depth - line.indent) / 2 - 1, by omega⟩
    rw [hk, Nat.sub_eq_zero_of_le (Nat.le_of_lt hd), Nat.zero_div, List.replicate_zero,
      List.nil_append, List.replicate_succ, List.cons_append]
    rw [hk, Nat.add_sub_cancel] at hscan
    refine .reading (h.read_of_scan_ok hp (by rw [scan_of_atLineStart h.start_eq, hscan]))
      (by simp) ?_
    refine yields_of_pendingDedents (by simp) fun p hp => ?_
    obtain rfl := or_self_iff.1 hp
    exact hnext _ _ (by simp) ⟨hr, rfl, h.indents_eq, rfl, rfl⟩

end Scanner

end Offside
