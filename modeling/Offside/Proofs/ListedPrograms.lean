import Offside.Proofs.MatchingRules
import Offside.Proofs.Programs

set_option autoImplicit false

/-! # Programs from listings

A source is cut into tokens while it is read, and an error in its text is met only where a rule asks
for the token there. That makes no difference: the outcome is that of reading the listing of the
source, which was made before. So it depends on the listing alone, and the error at the end of a
listing is reported exactly if the tokens before it are not refused whatever comes behind them. -/

namespace Offside

/-! ## Streams and their listings -/

namespace TokenStream

/-- What is listed is what the stream gives, from its current token on. -/
inductive Lists : TokenStream → ListedTokens → Prop
  | ending {s : TokenStream} (hend : s.current = .endOfInput) :
      Lists s ⟨(s.current, s.line), [], none⟩
  | failing {s s' : TokenStream} {e : ReadError} (hend : s.current ≠ .endOfInput)
      (hadvance : s.advance = (.error e, s')) : Lists s ⟨(s.current, s.line), [], some e⟩
  | advancing {s s' : TokenStream} {t : Token} {next : Token × Nat} {rest : List (Token × Nat)}
      {error? : Option ReadError} (hend : s.current ≠ .endOfInput)
      (hadvance : s.advance = (.ok t, s')) (hrest : Lists s' ⟨next, rest, error?⟩) :
      Lists s ⟨(s.current, s.line), next :: rest, error?⟩

variable {s s' : TokenStream} {l : ListedTokens} {us : List Token}

theorem Lists.current_eq (h : s.Lists l) : l.current = (s.current, s.line) := by
  cases h <;> rfl

theorem Lists.withLog (log : Log) (h : s.Lists l) : (s.withLog log).Lists l := by
  induction h generalizing log with
  | @ending s hend => exact .ending (s := s.withLog log) hend
  | @failing s s' e hend hadvance =>
    obtain ⟨log', hlog⟩ := s.advance_withLog log
    rw [hadvance] at hlog
    exact .failing (s := s.withLog log) hend hlog
  | @advancing s s' t next rest error? hend hadvance hrest ih =>
    obtain ⟨log', hlog⟩ := s.advance_withLog log
    rw [hadvance] at hlog
    exact .advancing (s := s.withLog log) hend hlog (ih log')

theorem lists_report_iff (r : LogRecord) : (s.report r).Lists l ↔ s.Lists l :=
  ⟨fun h => h.withLog s.scanner.log, fun h => h.withLog (s.scanner.log.push r)⟩

/-- Where some of the tokens were consumed, the others are listed, with the same error behind them.
-/
theorem Lists.of_consumes (h : s.Lists l) (hs : s.Consumes us s') :
    ∃ l', s'.Lists l' ∧ l'.error? = l.error? ∧ us.length + l'.rest.length = l.rest.length := by
  induction hs generalizing l with
  | refl s => exact ⟨l, h, rfl, Nat.zero_add _⟩
  | advance hend hadvance hrest ih =>
    cases h with
    | ending hend' => exact absurd hend' hend
    | failing _ hadvance' => simp [hadvance] at hadvance'
    | advancing _ hadvance' hl =>
      obtain rfl := congrArg Prod.snd (hadvance.symm.trans hadvance')
      obtain ⟨l', hl', herror, hlength⟩ := ih hl
      refine ⟨l', hl', herror, ?_⟩
      simp only [List.length_cons] at hlength ⊢
      omega
  | report r hrest ih => exact ih ((lists_report_iff r).2 h)

/-- A read that fails does so with the error behind the list. -/
theorem Lists.error?_eq {e : ReadError} (h : s.Lists l) (hend : s.current ≠ .endOfInput)
    (hadvance : s.advance = (.error e, s')) : l.error? = some e := by
  cases h with
  | ending hend' => exact absurd hend' hend
  | failing _ hadvance' =>
    rw [hadvance] at hadvance'
    obtain ⟨he, -⟩ := Prod.mk.inj hadvance'
    exact congrArg some (Except.error.inj he.symm)
  | advancing _ hadvance' _ => simp [hadvance] at hadvance'

/-- A listing that was not cut short lists the stream. -/
theorem lists_listing {n : Nat}
    (h : (s.listing n).error? ≠ none ∨ .endOfInput ∈ (s.listing n).tokens) :
    ∃ first rest, (s.listing n).entries = first :: rest ∧
      s.Lists ⟨first, rest, (s.listing n).error?⟩ := by
  induction n generalizing s with
  | zero => simp [listing, Listing.tokens] at h
  | succ n ih =>
    rw [listing] at h ⊢
    by_cases hend : s.current = .endOfInput
    · rw [if_pos hend]
      exact ⟨_, [], rfl, .ending hend⟩
    · rw [if_neg hend] at h ⊢
      cases ha : s.advance with
      | mk r s' =>
        cases r with
        | error e => exact ⟨_, [], rfl, .failing hend ha⟩
        | ok t =>
          simp only [ha, Listing.tokens, List.map_cons, List.mem_cons, Ne.symm hend, false_or] at h
          obtain ⟨first, rest, hentries, hlists⟩ := ih h
          refine ⟨_, _, rfl, ?_⟩
          rw [hentries]
          exact .advancing hend ha hlists

theorem length_entries_listing_le (s : TokenStream) (n : Nat) :
    (s.listing n).entries.length ≤ n := by
  induction n generalizing s with
  | zero => exact Nat.le_refl 0
  | succ n ih =>
    rw [listing]
    split
    · exact Nat.succ_le_succ (Nat.zero_le n)
    · split
      · exact Nat.succ_le_succ (ih _)
      · exact Nat.succ_le_succ (Nat.zero_le n)

end TokenStream

open TokenStream

variable {known : ClassTable} {source : String} {s : TokenStream} {l : ListedTokens}
  {entries : List (Token × Nat)} {e : ReadError}

/-- A source with a first token is listed from there on. -/
theorem lists_of_ofString (hs : TokenStream.ofString source = .ok s) :
    ∃ first rest, (tokenize source).entries = first :: rest ∧
      s.Lists ⟨first, rest, (tokenize source).error?⟩ := by
  have hcomplete :
      (tokenize source).error? ≠ none ∨ .endOfInput ∈ (tokenize source).tokens := by
    by_cases h : (tokenize source).error? = none
    · obtain ⟨-, ts, htokens, -⟩ := exists_tokens h
      exact .inr (by simp [htokens])
    · exact .inl h
  simp only [tokenize, hs] at hcomplete ⊢
  exact lists_listing hcomplete

/-! ## Supplies that match -/

/-- A supply matches itself, where a higher bound than the first one may change the outcome. -/
def Matching.ofBound (σ : Type) [TokenSupply σ] : Matching σ σ where
  At := Eq
  Left _ _ := True
  Excused err := err = .limit .depth
  left_of_at _ := trivial
  current_eq h := congrArg _ h.symm
  line_eq h := congrArg _ h.symm
  at_report {_ _ r} _ h := congrArg (TokenSupply.report · r) h
  advance_of_ok h ha := ⟨_, h ▸ ha, rfl⟩
  advance_of_error h ha := .inr ⟨_, h ▸ ha, trivial⟩

/-- A stream matches what is listed of it. -/
def Matching.listed : Matching TokenStream ListedTokens where
  At := Lists
  Left _ _ := True
  Excused _ := False
  left_of_at _ := trivial
  current_eq h := congrArg Prod.fst h.current_eq
  line_eq h := congrArg Prod.snd h.current_eq
  at_report {_ _ r} _ h := (lists_report_iff r).2 h
  advance_of_ok {s l s' u} h ha := by
    change s.advance = _ at ha
    cases h with
    | ending hend =>
      -- behind the end there is only the end, and neither of the two moves
      obtain ⟨scanner, current⟩ := s
      obtain rfl : current = .endOfInput := hend
      obtain ⟨rfl, rfl⟩ : u = .endOfInput ∧ s' = ⟨scanner, .endOfInput⟩ := by
        simpa [advance, Scanner.read, eq_comm] using ha
      exact ⟨_, rfl, .ending rfl⟩
    | failing hend hadvance => simp [hadvance] at ha
    | advancing hend hadvance hrest =>
      rw [hadvance] at ha
      obtain ⟨hu, rfl⟩ := Prod.mk.inj ha
      obtain rfl := Except.ok.inj hu
      have hnext := congrArg Prod.fst hrest.current_eq
      refine ⟨_, ?_, hrest⟩
      rw [← current_of_advance_ok hadvance]
      exact Prod.ext (congrArg Except.ok hnext) rfl
  advance_of_error {s l s' e} h ha := by
    change s.advance = _ at ha
    cases h with
    | ending hend => simp [advance, Scanner.read, hend] at ha
    | failing hend hadvance =>
      rw [hadvance] at ha
      obtain rfl := Except.error.inj (Prod.mk.inj ha).1
      exact .inr ⟨_, rfl, trivial⟩
    | advancing hend hadvance hrest => simp [hadvance] at ha

/-- The second list goes on where the first one ends with the error `e`. -/
inductive ListedTokens.Continues (e : ReadError) : ListedTokens → ListedTokens → Prop
  | mk (current : Token × Nat) (rest more : List (Token × Nat)) (error? : Option ReadError) :
      Continues e ⟨current, rest, some e⟩ ⟨current, rest ++ more, error?⟩

/-- A list with an error at its end matches every list that goes on there, up to that error. -/
def Matching.longer (e : ReadError) : Matching ListedTokens ListedTokens where
  At := ListedTokens.Continues e
  Left _ _ := True
  Excused err := err = .ofRead e ∨ err = .limit .depth
  left_of_at _ := trivial
  current_eq h := by cases h; rfl
  line_eq h := by cases h; rfl
  at_report _ h := h
  advance_of_ok {l l' l₁ u} h ha := by
    obtain ⟨current, rest, more, error?⟩ := h
    cases rest with
    | nil => simp [TokenSupply.advance, ListedTokens.advance] at ha
    | cons next rest =>
      obtain ⟨hu, rfl⟩ := Prod.mk.inj ha
      exact ⟨_, Prod.ext hu rfl, .mk next rest more error?⟩
  advance_of_error {l l' l₁ err} h ha := by
    obtain ⟨current, rest, more, error?⟩ := h
    cases rest with
    | nil =>
      obtain rfl := Except.error.inj (Prod.mk.inj ha).1
      exact .inl (.inl rfl)
    | cons next rest => simp [TokenSupply.advance, ListedTokens.advance] at ha

namespace Program

open Parse

/-! ## The rules on a source and on its listing -/

/-- What the rules make of tokens that are listed. -/
theorem ofListing_cons (first : Token × Nat) (rest : List (Token × Nat))
    (error? : Option ReadError) :
    ofListing known (first :: rest) error? =
      match result (Parse.statements (listedBound (first :: rest)))
          (⟨⟨first, rest, error?⟩, [], known⟩ : RuleState ListedTokens) with
      | (.ok body, st) => .ok ⟨st.classes, st.table, body⟩
      | (.error e, _) => .error e := by
  simp only [ofListing, result]
  split
  · rename_i body st he
    rw [he]
  · rename_i e st he
    rw [he]

/-- What cannot be read behind a list is the error at its end. -/
theorem error?_eq_of_failsAhead (hl : s.Lists l) (h : FailsAhead s e) : l.error? = some e := by
  obtain ⟨us, s', s'', hus, hend, hadvance⟩ := h
  obtain ⟨l', hl', herror, -⟩ := hl.of_consumes hus
  exact herror ▸ hl'.error?_eq hend hadvance

/-- No more tokens are consumed than are listed, so the bound is not reached, and an error in the
text is the one behind the list. -/
theorem cause_of_result {n : Nat} {st : ParseState} {err : Error} (hl : s.Lists l)
    (hn : l.rest.length + 3 ≤ n)
    (h : result (Parse.statements n) ⟨s, [], known⟩ = (.error err, st)) :
    (∃ e, err = .ofRead e ∧ l.error? = some e) ∨ ∃ e, err = .syntactic e := by
  have hmeets := Meets.statements n ⟨s, [], known⟩
  unfold Meets at hmeets
  rw [h] at hmeets
  cases err with
  | syntactic e => exact .inr ⟨e, rfl⟩
  | lexical e => exact .inl ⟨.lexical e, rfl, error?_eq_of_failsAhead hl hmeets⟩
  | limit lim =>
    cases lim with
    | depth =>
      obtain ⟨us, s', hus, hdeep⟩ := hmeets
      obtain ⟨l', -, -, hlength⟩ := hl.of_consumes hus
      omega
    | digits f => exact .inl ⟨.digits f, rfl, error?_eq_of_failsAhead hl hmeets⟩
  | runtime e => exact hmeets.elim

theorem length_entries_tokenize_le (source : String) :
    (tokenize source).entries.length ≤ source.length + 2 := by
  unfold tokenize
  split
  · exact length_entries_listing_le _ _
  · exact Nat.zero_le _

/-- A source is read as its listing is. -/
theorem ofSource_eq_ofListing_tokenize (known : ClassTable) (source : String) :
    (ofSource known source).1 =
      ofListing known (tokenize source).entries (tokenize source).error? := by
  cases hs : TokenStream.ofString source with
  | error e => simp [ofSource, tokenize, hs, ofListing]
  | ok s =>
    obtain ⟨first, rest, hentries, hl⟩ := lists_of_ofString hs
    have hlength := length_entries_tokenize_le source
    rw [ofSource_of_ofString hs, hentries, ofListing_cons]
    rw [hentries, List.length_cons] at hlength
    -- the bound of the listing will do for the source, and within it both supplies do the same
    generalize hn₀ : listedBound (first :: rest) = n
    have hn : rest.length + 3 = n := hn₀
    have hle : n ≤ tokenBound source := by
      unfold tokenBound
      omega
    have hbound : (Matching.ofBound TokenStream).Agrees (Parse.statements n)
        (Parse.statements (tokenBound source)) := .statements (.inr ⟨hle, rfl⟩)
    have hlisted : Matching.listed.Agrees (Parse.statements n) (Parse.statements n) :=
      .statements (.refl n)
    cases hr : result (Parse.statements n) (⟨s, [], known⟩ : ParseState) with
    | mk r st =>
      cases r with
      | ok body =>
        obtain ⟨st₁, hsource, hst₁⟩ := hbound.of_ok (.start known rfl) hr
        obtain ⟨st₂, hlist, hst₂⟩ := hlisted.of_ok (.start known hl) hr
        simp only [hsource, hlist, hst₁.classes_eq, hst₁.table_eq, hst₂.classes_eq, hst₂.table_eq]
      | error err =>
        have hdeep : err ≠ .limit .depth := by
          rcases cause_of_result hl (Nat.le_of_eq hn) hr with ⟨e, rfl, -⟩ | ⟨e, rfl⟩ <;> simp
        obtain ⟨st₁, hsource, -⟩ := hbound.of_error (.start known rfl) hr hdeep
        obtain ⟨st₂, hlist, -⟩ := hlisted.of_error (.start known hl) hr id
        simp only [hsource, hlist]

/-! ## Errors behind a listing -/

/-- Why a source is not read. -/
theorem cause_of_ofSource {err : Error} (h : (ofSource known source).1 = .error err) :
    (∃ e, err = .ofRead e ∧ (tokenize source).error? = some e) ∨ ∃ e, err = .syntactic e := by
  cases hs : TokenStream.ofString source with
  | error e =>
    simp only [ofSource, hs] at h
    obtain rfl := Except.error.inj h
    exact .inl ⟨e, rfl, by simp [tokenize, hs]⟩
  | ok s =>
    obtain ⟨first, rest, hentries, hl⟩ := lists_of_ofString hs
    have hlength := length_entries_tokenize_le source
    rw [hentries, List.length_cons] at hlength
    rw [ofSource_of_ofString hs] at h
    split at h
    · simp at h
    · rename_i err' st hr
      obtain rfl := Except.error.inj h
      exact cause_of_result hl (by unfold tokenBound; dsimp only; omega) hr

/-- A list with an error at its end that is refused for its form is refused so whatever comes in
place of that error. -/
theorem ofListing_append {e' : SyntaxError} (h : ofListing known entries (some e) =
      .error (.syntactic e')) (more : List (Token × Nat)) (error? : Option ReadError) :
    ofListing known (entries ++ more) error? = .error (.syntactic e') := by
  cases entries with
  | nil => simp [ofListing] at h
  | cons first rest =>
    have hn : listedBound (first :: rest) ≤ listedBound (first :: (rest ++ more)) := by
      simp [listedBound]
    have hlonger : (Matching.longer e).Agrees (Parse.statements (listedBound (first :: rest)))
        (Parse.statements (listedBound (first :: (rest ++ more)))) :=
      .statements (.inr ⟨hn, .inr rfl⟩)
    rw [ofListing_cons] at h
    rw [List.cons_append, ofListing_cons]
    split at h
    · simp at h
    · rename_i err st hr
      obtain rfl := Except.error.inj h
      obtain ⟨st', hr', -⟩ := hlonger.of_error (.start known (.mk first rest more error?)) hr
        (by simp [Matching.longer, Ne.symm (Error.ofRead_ne_syntactic e e')])
      simp only [hr']

/-- The outcome for a source is that for its listing, so it is the same for all sources with this
listing. Reading ends with the error at the end of a listing exactly if the tokens before it are not
refused for their form whatever comes behind them. -/
theorem ofSource_eq_ofListing (known : ClassTable) (source : String) :
    (ofSource known source).1 =
        ofListing known (tokenize source).entries (tokenize source).error? ∧
    (∀ other, (tokenize other).entries = (tokenize source).entries →
      (tokenize other).error? = (tokenize source).error? →
      (ofSource known other).1 = (ofSource known source).1) ∧
    ∀ e, (tokenize source).error? = some e →
      ((ofSource known source).1 = .error (.ofRead e) ↔
        ¬ ∃ e', ∀ more error?,
          ofListing known ((tokenize source).entries ++ more) error? = .error (.syntactic e')) := by
  have hlisting := ofSource_eq_ofListing_tokenize known source
  refine ⟨hlisting, ?_, ?_⟩
  · intro other hentries herror
    rw [ofSource_eq_ofListing_tokenize, hentries, herror, hlisting]
  · intro e he
    rw [he] at hlisting
    constructor
    · rintro h ⟨e', hrefused⟩
      have hsame := hrefused [] (some e)
      rw [List.append_nil, ← hlisting, h] at hsame
      simp at hsame
    · intro hnone
      cases h : (ofSource known source).1 with
      | ok p => simp [(derives_of_ofSource h).1] at he
      | error err =>
        rcases cause_of_ofSource h with ⟨e₁, rfl, he₁⟩ | ⟨e', rfl⟩
        · rw [he] at he₁
          obtain rfl := Option.some.inj he₁
          rfl
        · exact absurd ⟨e', ofListing_append (hlisting.symm.trans h)⟩ hnone

/-- An error in the text behind an error of form is not met, also where the text is written in
another way, and behind half an assignment it is. -/
theorem ofSource_of_bad_words :
    (ofSource .empty "print  )\nx  =  ?  # a bad word\n").1 =
        (ofSource .empty "print )\nx = ?").1 ∧
      (ofSource .empty "print )\nx = ?").1 =
        .error (.syntactic ⟨.noExpression, 1, .char ')'⟩) ∧
      (ofSource .empty "x = ?\nprint )\n").1 = .error (.lexical ⟨.badWord "?", 1⟩) := by
  refine ⟨(ofSource_eq_ofListing .empty "print )\nx = ?").2.1 _ ?_ ?_, ?_, ?_⟩
  · decide +kernel
  · decide +kernel
  · rw [(ofSource_eq_ofListing .empty "print )\nx = ?").1]
    decide +kernel
  · refine ((ofSource_eq_ofListing .empty "x = ?\nprint )\n").2.2 (.lexical ⟨.badWord "?", 1⟩)
      (by decide +kernel)).2 ?_
    -- behind these tokens an expression is taken
    rintro ⟨e', h⟩
    let more : List (Token × Nat) := [(.number 1, 1), (.newline, 2), (.endOfInput, 2)]
    have htaken : (ofListing .empty ((tokenize "x = ?\nprint )\n").entries ++ more)
        none).toOption.isSome = true := by decide +kernel
    rw [h] at htaken
    simp [Except.toOption] at htaken

end Program

end Offside
