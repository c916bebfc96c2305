import Offside.TokenStream

set_option autoImplicit false

/-! # What a scanner yields

`Scanner.Yields` tells the tokens that the reads of a scanner give one after the other, up to the
end of the input or up to the first error. It is the meaning of a listing without its bound: a
listing that is long enough shows exactly these tokens. -/

namespace Offside

/-- From the scanner on, behind the token `previous?`, come the tokens `ts`; the last of them is the
end of the input, unless the error `error?` comes behind them. -/
inductive Scanner.Yields : Scanner → Option Token → List Token → Option ReadError → Prop
  | failing {s s' : Scanner} {previous? : Option Token} {e : ReadError}
      (hread : s.read previous? = (.error e, s')) : Yields s previous? [] (some e)
  | ending {s s' : Scanner} {previous? : Option Token}
      (hread : s.read previous? = (.ok .endOfInput, s')) : Yields s previous? [.endOfInput] none
  | reading {s s' : Scanner} {previous? : Option Token} {t : Token} {ts : List Token}
      {error? : Option ReadError} (hread : s.read previous? = (.ok t, s'))
      (ht : t ≠ .endOfInput) (hrest : Yields s' (some t) ts error?) :
      Yields s previous? (t :: ts) error?

namespace Scanner

section

variable {s s' : Scanner} {previous? : Option Token} {ts : List Token}
  {error? : Option ReadError}

/-- What a scanner yields depends on its next read only. -/
theorem Yields.of_read_eq (hread : s.read previous? = s'.read previous?)
    (h : s'.Yields previous? ts error?) : s.Yields previous? ts error? := by
  cases h with
  | failing hr => exact .failing (hread.trans hr)
  | ending hr => exact .ending (hread.trans hr)
  | reading hr ht hrest => exact .reading (hread.trans hr) ht hrest

/-- A scanner yields one sequence of tokens only. -/
theorem Yields.unique {us : List Token} {error?' : Option ReadError}
    (h : s.Yields previous? ts error?) (h' : s.Yields previous? us error?') :
    ts = us ∧ error? = error?' := by
  induction h generalizing us with
  | failing hread =>
    cases h' with
    | failing hread' => simp_all
    | ending hread' | reading hread' => simp [hread] at hread'
  | ending hread =>
    cases h' with
    | failing hread' => simp [hread] at hread'
    | ending hread' => exact ⟨rfl, rfl⟩
    | reading hread' ht' =>
      rw [hread] at hread'
      exact absurd (Except.ok.inj (Prod.mk.inj hread').1).symm ht'
  | reading hread ht hrest ih =>
    cases h' with
    | failing hread' => simp [hread] at hread'
    | ending hread' =>
      rw [hread] at hread'
      exact absurd (Except.ok.inj (Prod.mk.inj hread').1) ht
    | reading hread' ht' hrest' =>
      rw [hread] at hread'
      obtain ⟨hok, rfl⟩ := Prod.mk.inj hread'
      obtain rfl := Except.ok.inj hok
      obtain ⟨rfl, rfl⟩ := ih hrest'
      exact ⟨rfl, rfl⟩

/-! ## The order of a read -/

theorem read_of_pendingDedents (hp : previous? ≠ some .endOfInput) (h : s.pendingDedents ≠ 0) :
    s.read previous? = (.ok .dedent, { s with pendingDedents := s.pendingDedents - 1 }) := by
  rw [read, if_neg hp, if_pos h]

theorem read_of_pendingIndents (hp : previous? ≠ some .endOfInput) (hd : s.pendingDedents = 0)
    (h : s.pendingIndents ≠ 0) :
    s.read previous? = (.ok .indent, { s with pendingIndents := s.pendingIndents - 1 }) := by
  rw [read, if_neg hp, if_neg (by simp [hd]), if_pos h]

/-- Where no step is waiting, a read is a scan. -/
theorem read_eq_scan (hp : previous? ≠ some .endOfInput) (hd : s.pendingDedents = 0)
    (hi : s.pendingIndents = 0) :
    s.read previous? =
      match s.scan previous? with
      | (.ok t, s') => (.ok t, s')
      | (.error fault, s') => (.error (fault.onLine s'.line), s') := by
  rw [read, if_neg hp, if_neg (by simp [hd])]
  exact if_neg (by simp [hi])

/-- Steps out that are waiting come first. -/
theorem yields_of_pendingDedents (hp : previous? ≠ some .endOfInput)
    (h : ∀ p, p = previous? ∨ p = some .dedent →
      { s with pendingDedents := 0 }.Yields p ts error?) :
    s.Yields previous? (List.replicate s.pendingDedents Token.dedent ++ ts) error? := by
  generalize hk : s.pendingDedents = k
  induction k generalizing s previous? with
  | zero =>
    have hs : ({ s with pendingDedents := 0 } : Scanner) = s := by rw [← hk]
    exact hs ▸ h previous? (.inl rfl)
  | succ k ih =>
    refine .reading (read_of_pendingDedents hp (by omega)) (by simp) ?_
    exact ih (by simp) (fun p hp => h p (.inr (or_self_iff.1 hp))) (by simp [hk])

/-- Steps in that are waiting come first when no step out does. -/
theorem yields_of_pendingIndents (hd : s.pendingDedents = 0) (hp : previous? ≠ some .endOfInput)
    (h : ∀ p, p ≠ some .endOfInput → { s with pendingIndents := 0 }.Yields p ts error?) :
    s.Yields previous? (List.replicate s.pendingIndents Token.indent ++ ts) error? := by
  generalize hk : s.pendingIndents = k
  induction k generalizing s previous? with
  | zero =>
    have hs : ({ s with pendingIndents := 0 } : Scanner) = s := by rw [← hk]
    exact hs ▸ h previous? hp
  | succ k ih =>
    refine .reading (read_of_pendingIndents hp hd (by omega)) (by simp) ?_
    exact ih hd (by simp) (fun p hp => h p hp) (by simp [hk])

/-! ## The parts of a scan -/

theorem scan_of_atLineStart (h : s.atLineStart = true) :
    s.scan previous? =
      match s.openLine with
      | (.error cause, s') => (.error (.lexical cause), s')
      | (.ok (some step), s') => (.ok step, s')
      | (.ok none, s') => s'.scan previous? := by
  rw [scan, dif_pos h]
  split <;> simp_all

theorem scan_of_not_atLineStart (h : s.atLineStart = false) :
    s.scan previous? =
      match s.reader.nextVisible? with
      | (none, reader) =>
        (.ok ({ s with reader }.closing previous?).1, ({ s with reader }.closing previous?).2)
      | (some c, reader) =>
        if c = '#' then { s with reader := reader.skipComment }.scan previous?
        else if c = '\n' then
          if endsLine previous? then (.ok .newline, { s with reader, atLineStart := true })
          else { s with reader, atLineStart := true }.scan previous?
        else { s with reader }.content c := by
  rw [scan, dif_neg (by simp [h])]
  split <;> simp_all

/-! What the leading space of a line with text on it makes of the depth. -/

section

variable {r : Reader} {spaces : Nat}

theorem openLine_of_eq (hlead : s.reader.lead 0 = (.text spaces, r)) (hd : spaces = s.depth) :
    s.openLine = (.ok none, { s with reader := r, atLineStart := false }) := by
  simp only [openLine, hlead, if_pos hd]

theorem openLine_of_uneven (hlead : s.reader.lead 0 = (.text spaces, r))
    (hu : spaces % 2 ≠ s.depth % 2) :
    s.openLine =
      (.error (.unevenIndentation spaces s.depth), { s with reader := r, atLineStart := false }) := by
  have hd : spaces ≠ s.depth := by rintro rfl; exact hu rfl
  simp only [openLine, hlead, if_neg hd]
  exact if_pos hu

theorem openLine_of_deeper (hlead : s.reader.lead 0 = (.text spaces, r))
    (hu : spaces % 2 = s.depth % 2) (hd : s.depth < spaces) :
    s.openLine = (.ok (some .indent),
      { reader := r, depth := spaces, pendingIndents := (spaces - s.depth) / 2 - 1,
        pendingDedents := s.pendingDedents, atLineStart := false,
        log := s.log.push (.indentation r.line s.depth spaces) }) := by
  simp only [openLine, hlead, if_neg (Nat.ne_of_gt hd), indentWidth,
    if_neg (Decidable.not_not.2 hu), moveTo, if_pos hd]
  rfl

theorem openLine_of_shallower (hlead : s.reader.lead 0 = (.text spaces, r))
    (hu : spaces % 2 = s.depth % 2) (hd : spaces < s.depth) :
    s.openLine = (.ok (some .dedent),
      { reader := r, depth := spaces, pendingIndents := s.pendingIndents,
        pendingDedents := (s.depth - spaces) / 2 - 1, atLineStart := false,
        log := s.log.push (.indentation r.line s.depth spaces) }) := by
  simp only [openLine, hlead, if_neg (Nat.ne_of_lt hd), indentWidth,
    if_neg (Decidable.not_not.2 hu), moveTo, if_neg (Nat.lt_asymm hd)]
  rfl

end

end

end Scanner

/-! ## Listings -/

/-- The tokens of a listing. -/
def Listing.tokens (l : Listing) : List Token := l.entries.map Prod.fst

/-- A long enough listing of a stream shows its current token and what its scanner yields. -/
theorem TokenStream.listing_of_yields {s : TokenStream} {ts : List Token}
    {error? : Option ReadError} (hc : s.current ≠ .endOfInput)
    (h : s.scanner.Yields (some s.current) ts error?) {n : Nat} (hn : ts.length < n) :
    (s.listing n).tokens = s.current :: ts ∧ (s.listing n).error? = error? := by
  generalize hp : some s.current = previous? at h
  generalize hs : s.scanner = scanner at h
  induction h generalizing s n with
  | failing hread =>
    subst hp hs
    obtain ⟨m, rfl⟩ : ∃ m, n = m + 1 := ⟨n - 1, by omega⟩
    simp [listing, Listing.tokens, hc, advance, hread]
  | ending hread =>
    subst hp hs
    obtain ⟨m, rfl⟩ : ∃ m, n = m + 2 := ⟨n - 2, by simp at hn; omega⟩
    simp [listing, Listing.tokens, hc, advance, hread]
  | @reading _ s' _ t ts _ hread ht hrest ih =>
    subst hp hs
    obtain ⟨m, rfl⟩ : ∃ m, n = m + 1 := ⟨n - 1, by omega⟩
    have hm : ts.length < m := by simpa using hn
    obtain ⟨hentries, herror⟩ := ih (s := ⟨s', t⟩) ht hm rfl rfl
    simp [listing, Listing.tokens, hc, advance, hread, ← hentries, herror]

/-- The listing of a source shows what its scanner yields, if this is not longer than the bound. -/
theorem tokenize_of_yields {source : String} {ts : List Token} {error? : Option ReadError}
    (h : (Scanner.ofString source).Yields none ts error?) (hl : ts.length ≤ source.length + 2) :
    (tokenize source).tokens = ts ∧ (tokenize source).error? = error? := by
  cases h with
  | failing hread => simp [tokenize, Listing.tokens, TokenStream.ofString, hread]
  | ending hread =>
    simp [tokenize, Listing.tokens, TokenStream.ofString, hread, TokenStream.listing]
  | @reading _ s' _ t ts _ hread ht hrest =>
    simp only [tokenize, TokenStream.ofString, hread]
    exact TokenStream.listing_of_yields (s := ⟨s', t⟩) ht hrest (Nat.lt_of_succ_le hl)

end Offside
