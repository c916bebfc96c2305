import Offside.Proofs.Balance

set_option autoImplicit false

/-! # Streams come to their end

A stream can be read on behind every error, and it does not go on for ever: each read is paid for by
a character, by a step that waits or by the depth, and one more is left for the break behind the
last line. So a text of `n` characters has at most `n + 1` reads, failing ones among them, before the end
of the input is handed out, and behind it there is nothing else. -/

namespace Offside

namespace Scanner

variable {s s' : Scanner} {taken : List Char} {previous? : Option Token}
  {r : Except ReadError Token} {t : Token}

/-! ## What is left to read -/

/-- One for the break behind the last line, which takes no text, as long as it may still come. -/
def endBreak (s : Scanner) (previous? : Option Token) : Nat :=
  if s.reader.unread = [] ∧ previous?.all Token.isLayout = true then 0 else 1

/-- A bound on the reads up to the end of the input. -/
def readsLeft (s : Scanner) (previous? : Option Token) : Nat :=
  s.reader.size + s.pendingIndents + s.pendingDedents + s.depth / 2 + s.endBreak previous?

theorem endBreak_le_one (s : Scanner) (previous? : Option Token) : s.endBreak previous? ≤ 1 := by
  unfold endBreak
  split <;> simp

theorem endBreak_of_unread (h : s.reader.unread ≠ []) : s.endBreak previous? = 1 :=
  if_neg fun he => h he.1

theorem endBreak_of_isLayout (h : s.reader.unread = []) (ht : t.isLayout = true) :
    s.endBreak (some t) = 0 :=
  if_pos ⟨h, ht⟩

theorem endBreak_of_open (h : previous?.any (!·.isLayout) = true) : s.endBreak previous? = 1 := by
  cases previous? with
  | none => simp at h
  | some t => simpa [endBreak] using fun _ => h

/-- Where text is taken it was there. -/
theorem unread_ne_nil (h : s.reader.Takes taken s'.reader) (hne : taken ≠ []) :
    s.reader.unread ≠ [] := by
  rw [h.unread_eq]
  exact List.append_ne_nil_of_left_ne_nil hne _

/-- Text that is passed pays for its read. -/
theorem Passes.readsLeft_lt (h : s.Passes taken s') (hne : taken ≠ []) (previous?' : Option Token) :
    s'.readsLeft previous?' < s.readsLeft previous? := by
  have hsize := h.takes.size_eq
  have hpos := List.length_pos_iff.2 hne
  have hbreak : s.endBreak previous? = 1 := endBreak_of_unread (unread_ne_nil h.takes hne)
  have hbreak' := s'.endBreak_le_one previous?'
  unfold readsLeft
  rw [h.depth_eq, h.indents_eq, h.dedents_eq]
  omega

/-- A step that waits has a read of its own. -/
theorem readsLeft_lt_of_waiting (hreader : s'.reader = s.reader) (hdepth : s'.depth = s.depth)
    (hwaiting : s'.pendingIndents + s'.pendingDedents < s.pendingIndents + s.pendingDedents)
    (ht : t.isLayout = true) : s'.readsLeft (some t) < s.readsLeft previous? := by
  have hbreak : s'.endBreak (some t) ≤ s.endBreak previous? := by
    by_cases hunread : s.reader.unread = []
    · rw [endBreak_of_isLayout (hreader ▸ hunread) ht]
      exact Nat.zero_le _
    · rw [endBreak_of_unread hunread]
      exact endBreak_le_one ..
  unfold readsLeft
  rw [hreader, hdepth]
  omega

/-- A scan that does not give the end of the input is paid for. -/
theorem Scans.readsLeft_lt (heven : s.depth % 2 = 0) (hindents : s.pendingIndents = 0)
    (hdedents : s.pendingDedents = 0) (h : s.Scans previous? (.ok t) s') (ht : t ≠ .endOfInput) :
    s'.readsLeft (some t) < s.readsLeft previous? := by
  cases h with
  | token hpass hne ht => exact hpass.readsLeft_lt hne _
  | stepIn htakes hdeeper heven' hle hindents' hdedents' =>
    -- the spaces of the line pay for the steps in and for the steps out that will close them
    have hsize := htakes.size_eq
    have hne := List.ne_nil_of_length_pos (Nat.lt_of_lt_of_le (Nat.zero_lt_of_lt hdeeper) hle)
    have hbreak : s.endBreak previous? = 1 := endBreak_of_unread (unread_ne_nil htakes hne)
    have hbreak' := s'.endBreak_le_one (some .indent)
    unfold readsLeft
    omega
  | stepOut htakes hunread hshallower heven' hindents' hdedents' =>
    -- the blocks that are closed pay for the steps out
    have hsize := htakes.size_eq
    have hbreak : s.endBreak previous? = 1 := by
      refine endBreak_of_unread ?_
      rw [htakes.unread_eq]
      exact List.append_ne_nil_of_right_ne_nil _ hunread
    have hbreak' := s'.endBreak_le_one (some .dedent)
    unfold readsLeft
    omega
  | lineEnd hpass hend hopen =>
    have hsize := hpass.takes.size_eq
    have hbreak := s.endBreak_of_open hopen
    have hbreak' := endBreak_of_isLayout (t := .newline) hend rfl
    unfold readsLeft
    rw [hpass.depth_eq, hpass.indents_eq, hpass.dedents_eq]
    omega
  | @blockEnd s₁ taken hpass hend hclosed hdepth =>
    have hsize := hpass.takes.size_eq
    have hindents' := hpass.indents_eq
    generalize hs' : { s₁ with depth := 0, pendingDedents := s.depth / 2 - 1 } = s'
    have hbreak' := endBreak_of_isLayout (t := .dedent) (s := s') (hs' ▸ hend) rfl
    unfold readsLeft
    subst hs'
    dsimp only at hbreak' ⊢
    omega
  | inputEnd hpass hdepth => exact absurd rfl ht

/-- Every read that does not give the end of the input is paid for, also if it fails. -/
theorem Reads.readsLeft_lt (heven : s.depth % 2 = 0) (h : s.Reads previous? r s')
    (hr : r ≠ .ok .endOfInput) :
    s'.readsLeft (r.toOption.or previous?) < s.readsLeft previous? := by
  cases h with
  | behindEnd hend => exact absurd rfl hr
  | waitingDedent hend hdedents =>
    exact readsLeft_lt_of_waiting rfl rfl (by simp only; omega) rfl
  | waitingIndent hend hdedents hindents =>
    exact readsLeft_lt_of_waiting rfl rfl (by simp only; omega) rfl
  | token hend hdedents hindents hscan =>
    exact hscan.readsLeft_lt heven hindents hdedents fun ht => hr (congrArg _ ht)
  | fault hend hpass hne => exact hpass.readsLeft_lt hne _

end Scanner

namespace TokenStream

open Scanner

variable {source : String} {s s' : TokenStream} {e : ReadError}

/-! ## Single calls -/

/-- A move that fails has taken what is wrong. -/
theorem exists_taken_of_advance_error (heven : s.scanner.depth % 2 = 0)
    (h : s.advance = (.error e, s')) :
    ∃ taken, taken ≠ [] ∧ s.scanner.reader.unread = taken ++ s'.scanner.reader.unread := by
  have hread := reads_advance heven
  rw [h] at hread
  dsimp only at hread
  cases hread with
  | fault hend hpass hne => exact ⟨_, hne, hpass.takes.unread_eq⟩

/-- The end of the input stays. -/
theorem advance_of_end (h : s.current = .endOfInput) : s.advance = (.ok .endOfInput, s) := by
  obtain ⟨scanner, current⟩ := s
  obtain rfl : current = .endOfInput := h
  rw [advance, Scanner.read, if_pos rfl]

theorem after_of_end (h : s.current = .endOfInput) (calls : List StreamCall) :
    s.after calls = s := by
  induction calls with
  | nil => rfl
  | cons c calls ih =>
    have hcall : (s.call c).2 = s := by
      rw [call_snd, advance_of_end h]
      split <;> rfl
    rw [after, hcall, ih]

/-! ## All calls -/

/-- Reads that have not given the end of the input are as many as there were to make, at most. -/
theorem length_reads_le (hs : ofString source = .ok s) (calls : List StreamCall) :
    ∀ before, before <+: s.reads calls → .ok .endOfInput ∉ before →
      before.length ≤ source.length + 1 := by
  -- what was read and what is left to read stay below the bound together
  have hinvariant := invariant_reads (P := fun s p rs => s.Balanced (handedOut rs) ∧
    (.ok .endOfInput ∉ rs → rs.length + s.readsLeft p ≤ source.length + 1) ∧
    ∀ before, before <+: rs → .ok .endOfInput ∉ before → before.length ≤ source.length + 1)
    ?_ ?_ hs calls
  · exact hinvariant.2.2
  · refine ⟨balanced_ofString source, fun _ => ?_, fun before hbefore _ => ?_⟩
    · have hbreak := (Scanner.ofString source).endBreak_le_one none
      have hsize : (Scanner.ofString source).reader.size = source.length := String.length_toList
      show 0 + ((Scanner.ofString source).reader.size + 0 + 0 + 0 / 2 + _) ≤ _
      omega
    · rw [List.prefix_nil.1 hbefore]
      exact Nat.zero_le _
  · intro s p rs ⟨hbalanced, hleft, hprefix⟩
    have hread := reads_read hbalanced.even p
    have hleft' : .ok .endOfInput ∉ rs ++ [(s.read p).1] →
        (rs ++ [(s.read p).1]).length +
          (s.read p).2.readsLeft ((s.read p).1.toOption.or p) ≤ source.length + 1 := by
      intro hmem
      rw [List.mem_append, not_or, List.mem_singleton] at hmem
      have hlt := hread.readsLeft_lt hbalanced.even (Ne.symm hmem.2)
      have hle := hleft hmem.1
      rw [List.length_append, List.length_singleton]
      omega
    refine ⟨handedOut_concat rs _ ▸ hbalanced.reads hread, hleft', fun before hbefore hmem => ?_⟩
    rcases List.prefix_concat_iff.1 hbefore with rfl | hbefore
    · exact Nat.le_of_add_right_le (hleft' hmem)
    · exact hprefix before hbefore hmem

/-- In every state that calls of a stream lead to, failing calls among them: a move that fails keeps
the current token and takes at least one character; looking changes nothing, and a move with an
expectation is a move and then a look, which keeps the new token if only the look fails; behind the
end of the input there is nothing but the end. Of the reads made for a text of `n` characters at
most `n + 2` come up to the first one that gives the end of the input. -/
theorem stream_recovers (source : String) (s₀ : TokenStream) (hs : ofString source = .ok s₀)
    (calls : List StreamCall) :
    let s := s₀.after calls
    (∀ e s', s.call .advance = (.error e, s') → s'.current = s.current ∧
      ∃ taken, taken ≠ [] ∧ s.scanner.reader.unread = taken ++ s'.scanner.reader.unread) ∧
    s.call .current = (.ok s.current, s) ∧
    (∀ x, (s.call (.expect x)).2 = s) ∧
    (∀ x, s.call (.expectNext x) = match s.call .advance with
      | (.ok _, s') => s'.call (.expect x)
      | (.error e, s') => (.error e, s')) ∧
    (∀ x t s', s.call .advance = (.ok t, s') → (s.call (.expectNext x)).2.current = t) ∧
    (s.current = .endOfInput → ∀ later,
      (s.after later).call .advance = (.ok .endOfInput, s.after later)) ∧
    ∀ before, before <+: s₀.reads calls → .ok .endOfInput ∉ before →
      before.length + 1 ≤ source.length + 2 := by
  intro s
  have heven := (balanced_after hs calls).1.even
  refine ⟨?_, rfl, fun _ => rfl, fun _ => rfl, ?_, ?_, ?_⟩
  · intro e s' h
    exact ⟨current_of_advance_error h, exists_taken_of_advance_error heven h⟩
  · intro x t s' h
    have hmove : (s.call (.expectNext x)).2 = s' := by
      change (s.expectNext x).2 = s'
      rw [expectNext, show s.advance = (.ok t, s') from h]
    rw [hmove]
    exact current_of_advance_ok h
  · intro hend later
    rw [after_of_end hend]
    exact advance_of_end hend
  · intro before hbefore hmem
    exact Nat.succ_le_succ (length_reads_le hs calls before hbefore hmem)

/-- A literal that is not closed takes the line break, and reading goes on behind it. -/
theorem reads_behind_open_literal :
    let s : TokenStream := ⟨⟨⟨[' '], "'ab\nif".toList, 1⟩, 0, 0, 0, false, #[]⟩, .name "x"⟩
    let calls : List StreamCall :=
      [.advance, .expect ⟨.newline, none⟩, .expectNext ⟨.newline, none⟩, .advance, .advance]
    ofString "x 'ab\nif" = .ok s ∧
      s.reads calls = [.ok (.name "x"), .error (.lexical ⟨.unterminatedString, 2⟩),
        .ok (.keyword .ifWord), .ok .newline, .ok .endOfInput] ∧
      (∀ later, ((s.after calls).after later).call .advance =
        (.ok .endOfInput, (s.after calls).after later)) ∧
      ∀ before, before <+: s.reads calls → .ok .endOfInput ∉ before →
        before.length + 1 ≤ "x 'ab\nif".length + 2 := by
  intro s calls
  have hs : ofString "x 'ab\nif" = .ok s := by decide +kernel
  obtain ⟨-, -, -, -, -, hend, hbound⟩ := stream_recovers _ s hs calls
  exact ⟨hs, by decide +kernel, hend (by decide +kernel), hbound⟩

end TokenStream

end Offside
