import Offside.Proofs.Yields

set_option autoImplicit false

/-! # What a stream shows and what is read from it

`Shows` looks ahead: it tells the first tokens of a stream. `Consumes` looks back: it tells the
tokens that were read between two positions of a stream. What was consumed is what was shown, and
reports in between change neither, since no read looks at the log. -/

namespace Offside

namespace Scanner

variable {s : Scanner}

/-! ## The log is only written -/

/-- The scanner with another log. -/
def withLog (s : Scanner) (log : Log) : Scanner := { s with log }

theorem openLine_withLog (s : Scanner) (log : Log) :
    ∃ log', (s.withLog log).openLine = (s.openLine.1, s.openLine.2.withLog log') := by
  cases hlead : s.reader.lead 0 with
  | mk ending r =>
    have hlead' : (s.withLog log).reader.lead 0 = (ending, r) := hlead
    cases ending with
    | tab => exact ⟨log, by simp [openLine, hlead, withLog]⟩
    | endOfInput => exact ⟨log, by simp [openLine, hlead, withLog]⟩
    | text spaces =>
      rcases Nat.lt_trichotomy s.depth spaces with hd | hd | hd
      · by_cases hu : spaces % 2 = s.depth % 2
        · exact ⟨_, by rw [openLine_of_deeper hlead hu hd, openLine_of_deeper hlead' hu hd]; rfl⟩
        · exact ⟨_, by rw [openLine_of_uneven hlead hu, openLine_of_uneven hlead' hu]; rfl⟩
      · exact ⟨log, by rw [openLine_of_eq hlead hd.symm, openLine_of_eq hlead' hd.symm]; rfl⟩
      · by_cases hu : spaces % 2 = s.depth % 2
        · exact ⟨_, by
            rw [openLine_of_shallower hlead hu hd, openLine_of_shallower hlead' hu hd]; rfl⟩
        · exact ⟨_, by rw [openLine_of_uneven hlead hu, openLine_of_uneven hlead' hu]; rfl⟩

theorem closing_withLog (s : Scanner) (log : Log) (previous? : Option Token) :
    (s.withLog log).closing previous? =
      ((s.closing previous?).1, (s.closing previous?).2.withLog log) := by
  unfold closing
  by_cases hp : (previous?.any (!·.isLayout)) = true
  · rw [if_pos hp, if_pos hp]
  · rw [if_neg hp, if_neg hp]
    by_cases hz : s.depth = 0
    · have hz' : (s.withLog log).depth = 0 := hz
      rw [if_pos hz, if_pos hz']
    · have hz' : (s.withLog log).depth ≠ 0 := hz
      rw [if_neg hz, if_neg hz']
      rfl

theorem content_withLog (s : Scanner) (log : Log) (c : Char) :
    (s.withLog log).content c = ((s.content c).1, (s.content c).2.withLog log) := by
  obtain ⟨reader, depth, indents, dedents, start, log₀⟩ := s
  simp only [content, withLog, sign, word]
  split
  · rfl
  · split
    · split
      · rfl
      · split <;> rfl
    · split <;> rfl

theorem scan_withLog (s : Scanner) (previous? : Option Token) (log : Log) :
    ∃ log', (s.withLog log).scan previous? =
      ((s.scan previous?).1, (s.scan previous?).2.withLog log') := by
  fun_induction scan s previous? generalizing log with
  | case1 s hs e s' ho =>
    obtain ⟨log', hopen⟩ := openLine_withLog s log
    rw [ho] at hopen
    exact ⟨log', by rw [scan_of_atLineStart (s := s.withLog log) hs, hopen]⟩
  | case2 s hs step s' ho =>
    obtain ⟨log', hopen⟩ := openLine_withLog s log
    rw [ho] at hopen
    exact ⟨log', by rw [scan_of_atLineStart (s := s.withLog log) hs, hopen]⟩
  | case3 s hs s' ho ih =>
    obtain ⟨log', hopen⟩ := openLine_withLog s log
    rw [ho] at hopen
    obtain ⟨log'', hscan⟩ := ih log'
    exact ⟨log'', by rw [scan_of_atLineStart (s := s.withLog log) hs, hopen]; exact hscan⟩
  | case4 s hs reader hv t s' hc =>
    have hstart : (s.withLog log).atLineStart = false := by simpa [withLog] using hs
    have hv' : (s.withLog log).reader.nextVisible? = (none, reader) := hv
    have hclosing := closing_withLog { s with reader } log previous?
    rw [hc] at hclosing
    refine ⟨log, ?_⟩
    rw [scan_of_not_atLineStart hstart, hv']
    exact congrArg (fun p => (Except.ok p.1, p.2)) hclosing
  | case5 s hs reader hv ih =>
    have hstart : (s.withLog log).atLineStart = false := by simpa [withLog] using hs
    have hv' : (s.withLog log).reader.nextVisible? = (some '#', reader) := hv
    obtain ⟨log', hscan⟩ := ih log
    exact ⟨log', by rw [scan_of_not_atLineStart hstart, hv']; exact hscan⟩
  | case6 s hs reader hend hv =>
    have hstart : (s.withLog log).atLineStart = false := by simpa [withLog] using hs
    have hv' : (s.withLog log).reader.nextVisible? = (some '\n', reader) := hv
    refine ⟨log, ?_⟩
    rw [scan_of_not_atLineStart hstart, hv']
    simp only [if_neg (show '\n' ≠ '#' by decide), if_pos hend]
    rfl
  | case7 s hs reader hend hv hne ih =>
    have hstart : (s.withLog log).atLineStart = false := by simpa [withLog] using hs
    have hv' : (s.withLog log).reader.nextVisible? = (some '\n', reader) := hv
    obtain ⟨log', hscan⟩ := ih log
    refine ⟨log', ?_⟩
    rw [scan_of_not_atLineStart hstart, hv']
    simp only [if_neg (show '\n' ≠ '#' by decide), if_neg hend]
    exact hscan
  | case8 s hs c reader hv hc hb =>
    have hstart : (s.withLog log).atLineStart = false := by simpa [withLog] using hs
    have hv' : (s.withLog log).reader.nextVisible? = (some c, reader) := hv
    refine ⟨log, ?_⟩
    rw [scan_of_not_atLineStart hstart, hv']
    simp only [if_neg hc, if_neg hb]
    exact content_withLog { s with reader } log c

/-- No read looks at the log. -/
theorem read_withLog (s : Scanner) (previous? : Option Token) (log : Log) :
    ∃ log', (s.withLog log).read previous? =
      ((s.read previous?).1, (s.read previous?).2.withLog log') := by
  by_cases hp : previous? = some .endOfInput
  · exact ⟨log, by rw [read, read, if_pos hp, if_pos hp]⟩
  · by_cases hd : s.pendingDedents = 0
    · by_cases hi : s.pendingIndents = 0
      · obtain ⟨log', hscan⟩ := scan_withLog s previous? log
        refine ⟨log', ?_⟩
        rw [read_eq_scan hp hd hi, read_eq_scan (s := s.withLog log) hp hd hi, hscan]
        cases hs : s.scan previous? with
        | mk result s' =>
          cases result with
          | ok t => rfl
          | error cause => rfl
      · refine ⟨log, ?_⟩
        rw [read_of_pendingIndents hp hd hi, read_of_pendingIndents (s := s.withLog log) hp hd hi]
        rfl
    · refine ⟨log, ?_⟩
      rw [read_of_pendingDedents hp hd, read_of_pendingDedents (s := s.withLog log) hp hd]
      rfl

end Scanner

namespace TokenStream

variable {s s₁ s₂ s' : TokenStream} {t : Token} {ts us : List Token}

/-- The stream with another log. -/
def withLog (s : TokenStream) (log : Log) : TokenStream := ⟨s.scanner.withLog log, s.current⟩

theorem advance_withLog (s : TokenStream) (log : Log) :
    ∃ log', (s.withLog log).advance = (s.advance.1, s.advance.2.withLog log') := by
  obtain ⟨log', hread⟩ := s.scanner.read_withLog (some s.current) log
  refine ⟨log', ?_⟩
  simp only [advance, withLog, hread]
  cases hs : s.scanner.read (some s.current) with
  | mk result scanner =>
    cases result with
    | ok t => rfl
    | error e => rfl

/-! ## Looking ahead -/

/-- The first tokens of the stream are these, the current one first. -/
inductive Shows : TokenStream → List Token → Prop
  | current {s : TokenStream} : Shows s [s.current]
  | advance {s s' : TokenStream} {t : Token} {ts : List Token} (hadvance : s.advance = (.ok t, s'))
      (hrest : Shows s' ts) : Shows s (s.current :: ts)

theorem Shows.current_eq (h : s.Shows (t :: ts)) : s.current = t := by
  cases h with
  | current => rfl
  | advance hadvance hrest => rfl

theorem Shows.ne_nil (h : s.Shows ts) : ts ≠ [] := by
  cases h with
  | current => simp
  | advance hadvance hrest => simp

/-- Where more than the current token is shown, the next read succeeds. -/
theorem Shows.exists_advance {u : Token} (h : s.Shows (t :: u :: ts)) :
    ∃ s', s.advance = (.ok u, s') ∧ s'.Shows (u :: ts) := by
  cases h with
  | @advance _ s' v _ hadvance hrest =>
    have hv := current_of_advance_ok hadvance
    rw [hrest.current_eq] at hv
    exact ⟨s', hv ▸ hadvance, hrest⟩

theorem Shows.withLog (log : Log) (h : s.Shows ts) : (s.withLog log).Shows ts := by
  induction h generalizing log with
  | @current s => exact .current (s := s.withLog log)
  | @advance s s' t ts hadvance hrest ih =>
    obtain ⟨log', hlog⟩ := s.advance_withLog log
    rw [hadvance] at hlog
    exact .advance (s := s.withLog log) hlog (ih log')

theorem shows_report_iff (r : LogRecord) : (s.report r).Shows ts ↔ s.Shows ts :=
  ⟨fun h => h.withLog s.scanner.log, fun h => h.withLog (s.scanner.log.push r)⟩

/-- A listing shows what it lists. -/
theorem shows_listing (s : TokenStream) (n : Nat) :
    s.Shows ((s.listing (n + 1)).tokens) := by
  induction n generalizing s with
  | zero =>
    rw [listing]
    split
    · exact .current
    · split
      · exact .current
      · exact .current
  | succ n ih =>
    rw [listing]
    split
    · exact .current
    · split
      · rename_i t s' hadvance
        exact .advance hadvance (ih s')
      · exact .current

/-- A stream that shows the end of the input is listed without an error. -/
theorem Shows.error?_listing (h : s.Shows (ts ++ [Token.endOfInput])) (hts : .endOfInput ∉ ts)
    (n : Nat) : (s.listing n).error? = none := by
  induction n generalizing s ts with
  | zero => rfl
  | succ n ih =>
    rw [listing]
    cases ts with
    | nil => simp [h.current_eq]
    | cons t ts =>
      obtain rfl := h.current_eq
      have hend : s.current ≠ .endOfInput := fun he => hts (he ▸ List.mem_cons_self ..)
      obtain ⟨u, us, hu⟩ := List.exists_cons_of_ne_nil (show ts ++ [Token.endOfInput] ≠ [] by simp)
      rw [List.cons_append, hu] at h
      obtain ⟨s', hadvance, hs'⟩ := h.exists_advance
      rw [if_neg hend, hadvance]
      rw [← hu] at hs'
      exact ih hs' fun hmem => hts (List.mem_cons_of_mem _ hmem)

/-! ## Looking back -/

/-- Between the two positions these tokens were read. The end of the input is never read past. -/
inductive Consumes : TokenStream → List Token → TokenStream → Prop
  | refl (s : TokenStream) : Consumes s [] s
  | advance {s s₁ s' : TokenStream} {t : Token} {us : List Token} (hend : s.current ≠ .endOfInput)
      (hadvance : s.advance = (.ok t, s₁)) (hrest : Consumes s₁ us s') :
      Consumes s (s.current :: us) s'
  | report {s s' : TokenStream} {us : List Token} (r : LogRecord)
      (hrest : Consumes (s.report r) us s') : Consumes s us s'

theorem Consumes.trans {vs : List Token} (h₁ : s.Consumes us s₁) (h₂ : s₁.Consumes vs s₂) :
    s.Consumes (us ++ vs) s₂ := by
  induction h₁ with
  | refl s => exact h₂
  | advance hend hadvance hrest ih => exact .advance hend hadvance (ih h₂)
  | report r hrest ih => exact .report r (ih h₂)

/-- The end of the input is not consumed. -/
theorem Consumes.not_mem (h : s.Consumes us s') : .endOfInput ∉ us := by
  induction h with
  | refl s => simp
  | advance hend hadvance hrest ih => simpa [hend.symm] using ih
  | report r hrest ih => exact ih

/-- What was consumed had been shown. -/
theorem Consumes.shows (h : s.Consumes us s') (hs : s'.Shows ts) : s.Shows (us ++ ts) := by
  induction h with
  | refl s => exact hs
  | advance hend hadvance hrest ih => exact .advance hadvance (ih hs)
  | report r hrest ih => exact (shows_report_iff r).1 (ih hs)

/-- A stream that shows the end of the input is consumed from its front, up to the end at most. -/
theorem Consumes.exists_rest (h : s.Consumes us s') (hs : s.Shows (ts ++ [Token.endOfInput]))
    (hts : .endOfInput ∉ ts) : ∃ vs, ts = us ++ vs ∧ s'.Shows (vs ++ [Token.endOfInput]) := by
  induction h generalizing ts with
  | refl s => exact ⟨ts, rfl, hs⟩
  | @advance s s₁ s' t us hend hadvance hrest ih =>
    cases ts with
    | nil => exact absurd hs.current_eq hend
    | cons u ts =>
      obtain rfl := hs.current_eq
      obtain ⟨v, ws, hv⟩ := List.exists_cons_of_ne_nil (show ts ++ [Token.endOfInput] ≠ [] by simp)
      rw [List.cons_append, hv] at hs
      obtain ⟨s₂, hadvance', hs₂⟩ := hs.exists_advance
      obtain rfl : s₁ = s₂ := congrArg Prod.snd (hadvance.symm.trans hadvance')
      rw [← hv] at hs₂
      obtain ⟨vs, rfl, hvs⟩ := ih hs₂ fun hmem => hts (List.mem_cons_of_mem _ hmem)
      exact ⟨vs, rfl, hvs⟩
  | report r hrest ih => exact ih ((shows_report_iff r).2 hs) hts

/-- A stream that shows the end of the input is read up to it without an error. -/
theorem Consumes.advance_ne_error {s'' : TokenStream} {e : ReadError} (h : s.Consumes us s')
    (hs : s.Shows (ts ++ [Token.endOfInput])) (hts : .endOfInput ∉ ts)
    (hend : s'.current ≠ .endOfInput) : s'.advance ≠ (.error e, s'') := by
  obtain ⟨vs, -, hvs⟩ := h.exists_rest hs hts
  cases vs with
  | nil => exact absurd hvs.current_eq hend
  | cons v vs =>
    obtain ⟨u, ws, hu⟩ := List.exists_cons_of_ne_nil (show vs ++ [Token.endOfInput] ≠ [] by simp)
    rw [List.cons_append, hu] at hvs
    obtain ⟨s₂, hadvance, -⟩ := hvs.exists_advance
    rw [hadvance]
    simp

/-- Where the end of the input is met, all tokens before it were consumed. -/
theorem Consumes.eq_of_current (h : s.Consumes us s') (hs : s.Shows (ts ++ [Token.endOfInput]))
    (hts : .endOfInput ∉ ts) (hend : s'.current = .endOfInput) : us = ts := by
  obtain ⟨vs, rfl, hvs⟩ := h.exists_rest hs hts
  cases vs with
  | nil => rw [List.append_nil]
  | cons v vs =>
    obtain rfl := hend.symm.trans hvs.current_eq
    exact absurd (List.mem_append_right us (List.mem_cons_self ..)) hts

end TokenStream

end Offside
