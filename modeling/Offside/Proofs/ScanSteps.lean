import Offside.Proofs.Passages
import Offside.Proofs.Yields
import Offside.Token.Spelling

set_option autoImplicit false

/-! # What a read does

`Scanner.Scans` and `Scanner.Reads` tell what a scan and a read can do to a scanner, one case for
each kind of step: which text is taken, and what becomes of the depth and of the steps that wait.
They hold of every scanner whose depth is made of whole steps, errors included; what is kept by
every read is then a matter of these cases alone. -/

namespace Offside.Scanner

variable {s s₁ s₂ s' : Scanner} {taken more : List Char} {previous? : Option Token}

/-! ## Text without steps -/

/-- Between the two positions `taken` was taken, and no step in or out was made. -/
structure Passes (s : Scanner) (taken : List Char) (s' : Scanner) : Prop where
  takes : s.reader.Takes taken s'.reader
  depth_eq : s'.depth = s.depth
  indents_eq : s'.pendingIndents = s.pendingIndents
  dedents_eq : s'.pendingDedents = s.pendingDedents

theorem Passes.trans (h₁ : s.Passes taken s₁) (h₂ : s₁.Passes more s₂) :
    s.Passes (taken ++ more) s₂ where
  takes := h₁.takes.trans h₂.takes
  depth_eq := h₂.depth_eq.trans h₁.depth_eq
  indents_eq := h₂.indents_eq.trans h₁.indents_eq
  dedents_eq := h₂.dedents_eq.trans h₁.dedents_eq

/-- What is passed by the reader alone. -/
theorem Passes.of_takes {r : Reader} (start : Bool) (h : s.reader.Takes taken r) :
    s.Passes taken { s with reader := r, atLineStart := start } :=
  ⟨h, rfl, rfl, rfl⟩

/-! ## Scans -/

/-- What a scan behind the token `previous?` gives, and where it leaves the scanner. -/
inductive Scans (s : Scanner) (previous? : Option Token) :
    Except (ReadFault LexicalCause) Token → Scanner → Prop
  /-- What is wrong with a text is taken with it. -/
  | fault {s' : Scanner} {taken : List Char} {fault : ReadFault LexicalCause}
      (hpass : s.Passes taken s') (hne : taken ≠ []) : Scans s previous? (.error fault) s'
  /-- A token on a line, or the break behind a line. -/
  | token {s' : Scanner} {taken : List Char} {t : Token} (hpass : s.Passes taken s')
      (hne : taken ≠ []) (ht : t.isContent = true ∨ t = .newline) : Scans s previous? (.ok t) s'
  /-- The first step into a deeper line. -/
  | stepIn {s' : Scanner} {taken : List Char} (htakes : s.reader.Takes taken s'.reader)
      (hdeeper : s.depth < s'.depth) (heven : s'.depth % 2 = 0) (hle : s'.depth ≤ taken.length)
      (hindents : s'.pendingIndents = (s'.depth - s.depth) / 2 - 1)
      (hdedents : s'.pendingDedents = s.pendingDedents) : Scans s previous? (.ok .indent) s'
  /-- The first step out to a line that is less deep. -/
  | stepOut {s' : Scanner} {taken : List Char} (htakes : s.reader.Takes taken s'.reader)
      (hunread : s'.reader.unread ≠ []) (hshallower : s'.depth < s.depth)
      (heven : s'.depth % 2 = 0) (hindents : s'.pendingIndents = s.pendingIndents)
      (hdedents : s'.pendingDedents = (s.depth - s'.depth) / 2 - 1) :
      Scans s previous? (.ok .dedent) s'
  /-- The end of the last line, when no break ends it. -/
  | lineEnd {s' : Scanner} {taken : List Char} (hpass : s.Passes taken s')
      (hend : s'.reader.unread = []) (hopen : previous?.any (!·.isLayout) = true) :
      Scans s previous? (.ok .newline) s'
  /-- The first step out at the end of the input. -/
  | blockEnd {s₁ : Scanner} {taken : List Char} (hpass : s.Passes taken s₁)
      (hend : s₁.reader.unread = []) (hclosed : previous?.any (!·.isLayout) = false)
      (hdepth : s.depth ≠ 0) :
      Scans s previous? (.ok .dedent) { s₁ with depth := 0, pendingDedents := s.depth / 2 - 1 }
  /-- The end of the input. -/
  | inputEnd {s' : Scanner} {taken : List Char} (hpass : s.Passes taken s') (hdepth : s.depth = 0) :
      Scans s previous? (.ok .endOfInput) s'

/-- What stands on a line and the break behind it are no steps, nor are they the end. -/
theorem ne_step {t : Token} (ht : t.isContent = true ∨ t = .newline) :
    t ≠ .indent ∧ t ≠ .dedent ∧ t ≠ .endOfInput := by
  rcases ht with ht | rfl
  · obtain ⟨hlayout, hend⟩ := Token.not_mark_of_isContent ht
    refine ⟨?_, ?_, hend⟩ <;> (rintro rfl; simp [Token.isLayout] at hlayout)
  · simp

/-- A scan may begin with text that it passes over. -/
theorem Scans.of_passes {result : Except (ReadFault LexicalCause) Token} (hpass : s.Passes taken s₁)
    (h : s₁.Scans previous? result s') : s.Scans previous? result s' := by
  cases h with
  | fault hpass' hne => exact .fault (hpass.trans hpass') (List.append_ne_nil_of_right_ne_nil _ hne)
  | token hpass' hne ht =>
    exact .token (hpass.trans hpass') (List.append_ne_nil_of_right_ne_nil _ hne) ht
  | @stepIn _ more htakes hdeeper heven hle hindents hdedents =>
    rw [hpass.depth_eq] at hdeeper hindents
    rw [hpass.dedents_eq] at hdedents
    have hle' : s'.depth ≤ (taken ++ more).length := by
      rw [List.length_append]
      omega
    exact .stepIn (hpass.takes.trans htakes) hdeeper heven hle' hindents hdedents
  | stepOut htakes hunread hshallower heven hindents hdedents =>
    rw [hpass.depth_eq] at hshallower hdedents
    rw [hpass.indents_eq] at hindents
    exact .stepOut (hpass.takes.trans htakes) hunread hshallower heven hindents hdedents
  | lineEnd hpass' hend hopen => exact .lineEnd (hpass.trans hpass') hend hopen
  | blockEnd hpass' hend hclosed hdepth =>
    rw [hpass.depth_eq] at hdepth ⊢
    exact .blockEnd (hpass.trans hpass') hend hclosed hdepth
  | inputEnd hpass' hdepth =>
    rw [hpass.depth_eq] at hdepth
    exact .inputEnd (hpass.trans hpass') hdepth

/-- How a line is opened: with a fault, with a step, or at the depth of the line before. -/
theorem scans_openLine (heven : s.depth % 2 = 0) (previous? : Option Token) :
    match s.openLine with
    | (.error cause, s') => s.Scans previous? (.error (.lexical cause)) s'
    | (.ok (some step), s') => s.Scans previous? (.ok step) s'
    | (.ok none, s') => ∃ taken, s.Passes taken s' := by
  obtain ⟨taken, htakes, hfits⟩ := s.reader.exists_takes_lead 0
  cases hlead : s.reader.lead 0 with
  | mk ending r =>
    rw [hlead] at htakes hfits
    cases ending with
    | tab =>
      simp only [openLine, hlead]
      exact .fault ⟨htakes, rfl, rfl, rfl⟩ hfits
    | endOfInput =>
      simp only [openLine, hlead]
      exact ⟨taken, .of_takes false htakes⟩
    | text spaces =>
      obtain ⟨hspaces, hunread⟩ := hfits
      rw [Nat.zero_add] at hspaces
      by_cases hu : spaces % 2 = s.depth % 2
      · rcases Nat.lt_trichotomy s.depth spaces with hd | hd | hd
        · rw [openLine_of_deeper hlead hu hd]
          exact .stepIn htakes hd (hu.trans heven) hspaces rfl rfl
        · rw [openLine_of_eq hlead hd.symm]
          exact ⟨taken, .of_takes false htakes⟩
        · rw [openLine_of_shallower hlead hu hd]
          exact .stepOut htakes hunread hd (hu.trans heven) rfl rfl
      · -- an odd number of spaces is not none
        rw [openLine_of_uneven hlead hu]
        refine .fault (.of_takes false htakes) ?_
        rintro rfl
        rw [List.length_nil] at hspaces
        omega

/-- The rest of a sign is passed, and the sign is content. -/
theorem exists_passes_sign {c : Char} (s : Scanner) (hc : punctuation.contains c = true) :
    ∃ taken, s.Passes taken (s.sign c).2 ∧ (s.sign c).1.isContent = true := by
  cases hn : s.reader.next? with
  | none =>
    simp only [sign, hn]
    exact ⟨[], .of_takes _ (.refl _), hc⟩
  | some p =>
    obtain ⟨d, r⟩ := p
    simp only [sign, hn]
    cases PairedSign.ofPair? c d with
    | some p => exact ⟨[d], .of_takes _ (.of_next? hn), rfl⟩
    | none => exact ⟨[], .of_takes _ (.of_giveBack hn), hc⟩

/-- The text of a token on a line, of which the first character was taken before. -/
theorem scans_content (hpass : s.Passes taken s₁) (hne : taken ≠ []) (c : Char)
    (previous? : Option Token) : s.Scans previous? (s₁.content c).1 (s₁.content c).2 := by
  have hmore : ∀ more, taken ++ more ≠ [] := fun _ => List.append_ne_nil_of_left_ne_nil hne _
  unfold content
  by_cases hquote : (c = '\'' || c = '"') = true
  · rw [if_pos hquote]
    obtain ⟨more, htakes⟩ := s₁.reader.exists_takes_quotedText c ""
    have hpass' := hpass.trans (.of_takes s₁.atLineStart htakes)
    cases hr : s₁.reader.quotedText c "" with
    | mk result r =>
      rw [hr] at hpass'
      cases result with
      | ok text => exact .token hpass' (hmore _) (.inl rfl)
      | error cause => exact .fault hpass' (hmore _)
  · rw [if_neg hquote]
    by_cases hc : punctuation.contains c = true
    · rw [if_pos hc]
      obtain ⟨more, hsign, hcontent⟩ := s₁.exists_passes_sign hc
      exact .token (hpass.trans hsign) (hmore _) (.inl hcontent)
    · rw [if_neg hc]
      obtain ⟨more, htakes⟩ := s₁.reader.exists_takes_restOfWord c.toString
      have hpass' := hpass.trans (.of_takes s₁.atLineStart htakes)
      unfold word
      cases hw : Token.ofWord? (s₁.reader.restOfWord c.toString).1 with
      | some t =>
        simp only [hw]
        exact .token hpass' (hmore _) (.inl (Token.isContent_of_ofWord? hw))
      | none =>
        simp only [hw]
        exact .fault hpass' (hmore _)

/-- What follows when all text has been passed. -/
theorem scans_closing (hpass : s.Passes taken s₁) (hend : s₁.reader.unread = [])
    (previous? : Option Token) :
    s.Scans previous? (.ok (s₁.closing previous?).1) (s₁.closing previous?).2 := by
  unfold closing
  by_cases hopen : previous?.any (!·.isLayout) = true
  · rw [if_pos hopen]
    exact .lineEnd hpass hend hopen
  · rw [if_neg hopen]
    by_cases hd : s₁.depth = 0
    · rw [if_pos hd]
      exact .inputEnd hpass (hpass.depth_eq ▸ hd)
    · rw [if_neg hd]
      rw [hpass.depth_eq] at hd ⊢
      exact .blockEnd hpass hend (Bool.not_eq_true _ ▸ hopen) hd

/-- The blanks in front of a character are passed with it. -/
theorem exists_passes_of_nextVisible? {c : Char} {r : Reader}
    (hv : s.reader.nextVisible? = (some c, r)) :
    ∃ taken, taken ≠ [] ∧ ∀ start, s.Passes taken { s with reader := r, atLineStart := start } := by
  obtain ⟨blanks, htakes, -⟩ := s.reader.exists_takes_nextVisible?
  rw [hv] at htakes
  exact ⟨blanks ++ [c], by simp, fun start => .of_takes start htakes⟩

/-- What a scan does. -/
theorem scans_scan (heven : s.depth % 2 = 0) (previous? : Option Token) :
    s.Scans previous? (s.scan previous?).1 (s.scan previous?).2 := by
  fun_induction scan s previous? with
  | case1 s hs cause s' ho =>
    have hopen := scans_openLine heven previous?
    rw [ho] at hopen
    exact hopen
  | case2 s hs step s' ho =>
    have hopen := scans_openLine heven previous?
    rw [ho] at hopen
    exact hopen
  | case3 s hs s' ho ih =>
    have hopen := scans_openLine heven previous?
    rw [ho] at hopen
    obtain ⟨taken, hpass⟩ := hopen
    exact .of_passes hpass (ih (by rw [hpass.depth_eq, heven]))
  | case4 s hs r hv t s' hc =>
    obtain ⟨blanks, htakes, -⟩ := s.reader.exists_takes_nextVisible?
    rw [hv] at htakes
    have hclosing := scans_closing (.of_takes s.atLineStart htakes)
      (Reader.unread_of_nextVisible? hv) previous?
    rwa [hc] at hclosing
  | case5 s hs r hv ih =>
    obtain ⟨taken, -, hpass⟩ := exists_passes_of_nextVisible? hv
    obtain ⟨comment, hcomment⟩ := r.exists_takes_skipComment
    exact .of_passes ((hpass s.atLineStart).trans (.of_takes s.atLineStart hcomment)) (ih heven)
  | case6 s hs r hend hv =>
    obtain ⟨taken, hne, hpass⟩ := exists_passes_of_nextVisible? hv
    exact .token (hpass true) hne (.inr rfl)
  | case7 s hs r hend hv hne ih =>
    obtain ⟨taken, -, hpass⟩ := exists_passes_of_nextVisible? hv
    exact .of_passes (hpass true) (ih heven)
  | case8 s hs c r hv hc hb =>
    obtain ⟨taken, hne, hpass⟩ := exists_passes_of_nextVisible? hv
    exact scans_content (hpass s.atLineStart) hne c previous?

/-! ## Reads -/

/-- What a read behind the token `previous?` gives, and where it leaves the scanner. -/
inductive Reads (s : Scanner) (previous? : Option Token) :
    Except ReadError Token → Scanner → Prop
  /-- Behind the end of the input there is only the end. -/
  | behindEnd (hend : previous? = some .endOfInput) : Reads s previous? (.ok .endOfInput) s
  /-- Steps out that wait are handed out first. -/
  | waitingDedent (hend : previous? ≠ some .endOfInput) (hdedents : s.pendingDedents ≠ 0) :
      Reads s previous? (.ok .dedent) { s with pendingDedents := s.pendingDedents - 1 }
  /-- Steps in that wait come before all text. -/
  | waitingIndent (hend : previous? ≠ some .endOfInput) (hdedents : s.pendingDedents = 0)
      (hindents : s.pendingIndents ≠ 0) :
      Reads s previous? (.ok .indent) { s with pendingIndents := s.pendingIndents - 1 }
  | token {s' : Scanner} {t : Token} (hend : previous? ≠ some .endOfInput)
      (hdedents : s.pendingDedents = 0) (hindents : s.pendingIndents = 0)
      (hscan : s.Scans previous? (.ok t) s') : Reads s previous? (.ok t) s'
  | fault {s' : Scanner} {fault : ReadFault LexicalCause} {taken : List Char}
      (hend : previous? ≠ some .endOfInput) (hpass : s.Passes taken s') (hne : taken ≠ []) :
      Reads s previous? (.error (fault.onLine s'.line)) s'

/-- What a read does. -/
theorem reads_read (heven : s.depth % 2 = 0) (previous? : Option Token) :
    s.Reads previous? (s.read previous?).1 (s.read previous?).2 := by
  by_cases hend : previous? = some .endOfInput
  · rw [read, if_pos hend]
    exact .behindEnd hend
  · by_cases hdedents : s.pendingDedents = 0
    · by_cases hindents : s.pendingIndents = 0
      · have hscan := scans_scan heven previous?
        rw [read_eq_scan hend hdedents hindents]
        cases hs : s.scan previous? with
        | mk result s' =>
          rw [hs] at hscan
          cases result with
          | ok t => exact .token hend hdedents hindents hscan
          | error cause =>
            cases hscan with
            | fault hpass hne => exact .fault hend hpass hne
      · rw [read_of_pendingIndents hend hdedents hindents]
        exact .waitingIndent hend hdedents hindents
    · rw [read_of_pendingDedents hend hdedents]
      exact .waitingDedent hend hdedents

end Offside.Scanner
