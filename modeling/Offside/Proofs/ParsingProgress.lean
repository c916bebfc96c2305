import Offside.Proofs.ListedPrograms
import Offside.Proofs.LongNumerals
import Offside.Proofs.RuleProgress
import Offside.Proofs.SpelledPaths

set_option autoImplicit false

/-! # Reading a source makes progress

A source is read by moving over its tokens. Each of them is passed once at most, in their order, and
the end of the input never. Every rule that yields a tree moves on, so no loop stays where it is; and
where a program is read, all tokens but the end were passed. -/

namespace Offside

/-! ## What was passed was listed -/

/-- The tokens of a list, without their lines. -/
def ListedTokens.tokens (l : ListedTokens) : List Token := l.current.1 :: l.rest.map Prod.fst

/-- What was consumed is what is listed, up to the token where the stream stands. -/
theorem TokenStream.Lists.tokens_eq {s s' : TokenStream} {l : ListedTokens} {us : List Token}
    (h : s.Lists l) (hs : s.Consumes us s') : ∃ more, l.tokens = us ++ s'.current :: more := by
  induction hs generalizing l with
  | refl s => exact ⟨l.rest.map Prod.fst, by rw [ListedTokens.tokens, h.current_eq]; rfl⟩
  | advance hend hadvance hrest ih =>
    cases h with
    | ending hend' => exact absurd hend' hend
    | failing _ hadvance' => simp [hadvance] at hadvance'
    | advancing _ hadvance' hl =>
      obtain rfl := congrArg Prod.snd (hadvance.symm.trans hadvance')
      obtain ⟨more, hmore⟩ := ih hl
      exact ⟨more, congrArg (_ :: ·) hmore⟩
  | report r hrest ih => exact ih ((lists_report_iff r).2 h)

/-- A stream that began at `s₀` matches its trail: where the end of the input was not passed, what was
passed is what was consumed, and behind a move that fails the token where it was made. -/
def Matching.recorded (s₀ : TokenStream) : Matching TokenStream (Trail TokenStream) where
  At s t := t.supply = s ∧ (.endOfInput ∉ t.passed → s₀.Consumes t.passed s)
  Left _ t := .endOfInput ∉ t.passed → ∃ us s, s₀.Consumes us s ∧ t.passed <+: us ++ [s.current]
  Excused _ := False
  left_of_at {s t} h hend := ⟨t.passed, s, h.2 hend, List.prefix_append _ _⟩
  current_eq h := congrArg TokenStream.current h.1
  line_eq h := congrArg TokenStream.line h.1
  at_report {s t r} _ h :=
    ⟨congrArg (TokenStream.report · r) h.1, fun hend =>
      List.append_nil t.passed ▸ (h.2 hend).trans (.report r (.refl _))⟩
  advance_of_ok {s t s' u} h ha := by
    obtain ⟨rfl, hpassed⟩ := h
    change t.supply.advance = _ at ha
    refine ⟨⟨s', t.passed ++ [t.supply.current]⟩, ?_, rfl, fun hend => ?_⟩
    · simp only [TokenSupply.advance, ha]
      rfl
    · rw [List.mem_append, not_or, List.mem_singleton] at hend
      exact (hpassed hend.1).trans (.advance (Ne.symm hend.2) ha (.refl _))
  advance_of_error {s t s' e} h ha := by
    obtain ⟨rfl, hpassed⟩ := h
    change t.supply.advance = _ at ha
    refine .inr ⟨⟨s', t.passed ++ [t.supply.current]⟩, ?_, fun hend => ?_⟩
    · simp only [TokenSupply.advance, ha]
      rfl
    · rw [List.mem_append, not_or] at hend
      exact ⟨t.passed, t.supply, hpassed hend.1, List.prefix_refl _⟩

open Parse

/-! ## Rules that move on -/

section

variable {σ α ρ : Type}

/-- Where the rule gives a result, it has moved on. -/
def Parse.Advances (p : Rule (Trail σ) α) : Prop :=
  ∀ st x st', result p st = (.ok x, st') → st.stream.position < st'.stream.position

/-- The loop is made of rounds, and each round that another one follows has moved on. -/
structure Parse.RoundsAdvance (loop : Nat → Rule (Trail σ) α) (round : ρ → Rule (Trail σ) (ρ ⊕ α))
    (start : ρ) : Prop where
  eq_rounds : ∀ n, loop n = rounds round n start
  onward : ∀ r st r' st', result (round r) st = (.ok (.inl r'), st') →
    st.stream.position < st'.stream.position

/-- The position is behind what was passed. -/
theorem Parse.Passes.position_le {p : Rule (Trail σ) α} {least : α → Nat} (h : Passes p least)
    {st st' : RuleState (Trail σ)} {x : α} (hp : result p st = (.ok x, st')) :
    st.stream.position + least x ≤ st'.stream.position := by
  obtain ⟨us, hpassed, -, hleast⟩ := h st
  rw [hp] at hpassed hleast
  rw [Trail.position, Trail.position, hpassed, List.length_append]
  exact Nat.add_le_add_left (hleast x rfl) _

theorem Parse.Passes.advances {p : Rule (Trail σ) α} (h : Passes p fun _ => 1) : Advances p :=
  fun _ _ _ hp => h.position_le hp

theorem Parse.RoundsAdvance.of_passes {loop : Nat → Rule (Trail σ) α}
    {round : ρ → Rule (Trail σ) (ρ ⊕ α)} {start : ρ} (heq : ∀ n, loop n = rounds round n start)
    (h : ∀ r, Passes (round r) Parse.onward) : RoundsAdvance loop round start :=
  ⟨heq, fun r _ _ _ hp => (h r).position_le hp⟩

end

namespace Program

variable {known : ClassTable} {source : String} {s : TokenStream}

/-! ## Sources -/

/-- Reads a source as `ofSource` does, and keeps the tokens that were current when the stream was
moved. -/
def recorded (known : ClassTable) (source : String) : Except Error Program × List Token :=
  match TokenStream.ofString source with
  | .error e => (.error (.ofRead e), [])
  | .ok s =>
    match result (Parse.statements (tokenBound source))
        (⟨⟨s, []⟩, [], known⟩ : RuleState (Trail TokenStream)) with
    | (.ok body, st) => (.ok ⟨st.classes, st.table, body⟩, st.stream.passed)
    | (.error e, st) => (.error e, st.stream.passed)

/-- The end of the input is not passed. -/
theorem not_mem_recorded (known : ClassTable) (source : String) :
    .endOfInput ∉ (recorded known source).2 := by
  unfold recorded
  split
  · exact List.not_mem_nil
  · rename_i s hs
    obtain ⟨us, hpassed, hend, -⟩ := Passes.statements (tokenBound source)
      (⟨⟨s, []⟩, [], known⟩ : RuleState (Trail TokenStream))
    rw [List.nil_append] at hpassed
    split
    · rename_i body st hr
      rw [hr] at hpassed
      rwa [hpassed]
    · rename_i e st hr
      rw [hr] at hpassed
      rwa [hpassed]

/-- The trail does not change what is read, and it follows the tokens of the source; where a program
is read, up to the end. -/
theorem recorded_eq (known : ClassTable) (source : String) :
    (recorded known source).1 = (ofSource known source).1 ∧
      (recorded known source).2 <+: (tokenize source).tokens ∧
      ∀ p, (ofSource known source).1 = .ok p →
        (tokenize source).tokens = (recorded known source).2 ++ [.endOfInput] := by
  have hend := not_mem_recorded known source
  cases hs : TokenStream.ofString source with
  | error e => simp [recorded, ofSource, hs]
  | ok s =>
    obtain ⟨first, rest, hentries, hl⟩ := lists_of_ofString hs
    have htokens : (tokenize source).tokens =
        (⟨first, rest, (tokenize source).error?⟩ : ListedTokens).tokens := by
      rw [Listing.tokens, hentries]
      rfl
    have hagrees : (Matching.recorded s).Agrees (Parse.statements (tokenBound source))
        (Parse.statements (tokenBound source)) := .statements (.refl _)
    have hstart : (Matching.recorded s).At s ⟨s, []⟩ := ⟨rfl, fun _ => .refl s⟩
    rw [ofSource_of_ofString hs]
    simp only [recorded, hs] at hend ⊢
    cases hr : result (Parse.statements (tokenBound source)) (⟨s, [], known⟩ : ParseState) with
    | mk r st =>
      cases r with
      | ok body =>
        obtain ⟨st', hr', hst⟩ := hagrees.of_ok (.start known hstart) hr
        simp only [hr'] at hend ⊢
        have hconsumes := hst.stream.2 hend
        obtain ⟨more, hmore⟩ := hl.tokens_eq hconsumes
        refine ⟨by rw [hst.classes_eq, hst.table_eq], ?_, fun p hp => ?_⟩
        · rw [htokens, hmore]
          exact List.prefix_append _ _
        · -- the rules leave off at the end of the input, which stands nowhere else
          have hcurrent := current_of_statements hr
          have hsource : (ofSource known source).1 = .ok p := by
            rw [ofSource_of_ofString hs, hr]
            exact hp
          obtain ⟨s', ts, hts, hs', hshows, hnot, -⟩ :=
            exists_tokens (derives_of_ofSource hsource).1
          obtain rfl := Except.ok.inj (hs.symm.trans hs')
          rw [hts, hconsumes.eq_of_current hshows hnot hcurrent]
      | error e =>
        obtain ⟨st', hr', hleft⟩ := hagrees.of_error (.start known hstart) hr id
        simp only [hr'] at hend ⊢
        obtain ⟨us, s₁, hconsumes, hprefix⟩ := hleft hend
        obtain ⟨more, hmore⟩ := hl.tokens_eq hconsumes
        refine ⟨trivial, ?_, by simp⟩
        rw [htokens, hmore, List.append_cons]
        exact hprefix.trans (List.prefix_append _ _)

/-- Reading a source ends with a program, an error of form or an error in the text, unless it breaks off
at a numeral with too many digits. It passes the tokens of the source in their order, each once at
most, and never the end of the input; where a program is read, it has passed all tokens but the end.
Each rule for a statement, a block, a class, a method, a line or an expression moves on or fails, so
each round of a loop over such a rule moves on: of the statements of a source, of a block, of the
methods of a class, of the arguments of a call, and of the operands of sums and of products. Every
path in a tree that is made has a name, and is written in the source. -/
theorem reading_progresses (known : ClassTable) (source : String) :
    let outcome := (ofSource known source).1
    let passed := (recorded known source).2
    ((∃ p, outcome = .ok p) ∨ (∃ e, outcome = .error (.syntactic e)) ∨
        (∃ e, outcome = .error (.lexical e)) ∨
        ∃ word : List Char, Token.isNumeral word = true ∧ Text.maxDigits < word.length ∧
          word <:+: source.toList ∧
          outcome = .error (.limit (.digits (.reading word.length)))) ∧
      ((recorded known source).1 = outcome ∧
        passed <+: (tokenize source).tokens ∧
        .endOfInput ∉ passed ∧
        ∀ p, outcome = .ok p → (tokenize source).tokens = passed ++ [.endOfInput] ∧
          ∀ q, p.Builds known (.path q) →
            q.names ≠ [] ∧ q.tokens <:+: (tokenize source).tokens) ∧
      (∀ n : Nat,
        Advances (Parse.statement n : Rule (Trail TokenStream) Node) ∧
        Advances (suite (Parse.statement n) n : Rule (Trail TokenStream) Node) ∧
        Advances (classDefinition (Parse.statement n) n : Rule (Trail TokenStream) Node) ∧
        Advances (method (Parse.statement n) n : Rule (Trail TokenStream) Method) ∧
        Advances (simpleStatement n : Rule (Trail TokenStream) Node) ∧
        Advances (expression n : Rule (Trail TokenStream) Node)) ∧
      ∀ (n : Nat) (left : Node),
        let statement : Rule (Trail TokenStream) Node := Parse.statement n
        let test : Rule (Trail TokenStream) Node := expression n
        RoundsAdvance (many atEnd statement) (manyRound atEnd statement) [] ∧
        RoundsAdvance (many (accept .dedent) statement) (manyRound (accept .dedent) statement) [] ∧
        RoundsAdvance (many (accept .dedent) (method statement n))
          (manyRound (accept .dedent) (method statement n)) [] ∧
        RoundsAdvance (commaSeparated test) (commaRound test) [] ∧
        RoundsAdvance (chain additive? (product test n) · left)
          (chainRound additive? (product test n)) left ∧
        RoundsAdvance (chain multiplicative? (unary test n) · left)
          (chainRound multiplicative? (unary test n)) left := by
  intro outcome passed
  obtain ⟨hsame, hprefix, hall⟩ := recorded_eq known source
  have hstatement := fun n => Passes.statement (σ := TokenStream) n
  have hexpression := fun n => Passes.expression (σ := TokenStream) n
  refine ⟨?_, ⟨hsame, hprefix, not_mem_recorded known source, fun p hp => ⟨hall p hp, ?_⟩⟩, ?_, ?_⟩
  · cases h : outcome with
    | ok p => exact .inl ⟨p, rfl⟩
    | error err => simpa using failure_of_ofSource h
  · exact fun q hq => ⟨List.cons_ne_nil _ _, infix_of_builds hp hq⟩
  · intro n
    exact ⟨(hstatement n).advances, (Passes.suite (hstatement n) n).advances,
      (Passes.classDefinition (hstatement n) n).advances,
      (Passes.method (hstatement n) n).advances, (Passes.simpleStatement n).advances,
      (hexpression n).advances⟩
  · intro n left statement test
    exact ⟨.of_passes (many_eq_rounds _ _) (.manyRound .atEnd (hstatement n)),
      .of_passes (many_eq_rounds _ _) (.manyRound .acceptDedent (hstatement n)),
      .of_passes (many_eq_rounds _ _) (.manyRound .acceptDedent (.method (hstatement n) n)),
      .of_passes (commaSeparated_eq_rounds _) (.commaRound (hexpression n)),
      .of_passes (chain_eq_rounds _ _ · left) (.chainRound rfl (.product (hexpression n) n)),
      .of_passes (chain_eq_rounds _ _ · left) (.chainRound rfl (.unary (hexpression n) n))⟩

/-- The path to the object of an assignment is written in front of the field, and all tokens but the
end are passed. Behind an unknown class nothing is passed. -/
theorem progress_of_assignment :
    let source := "a.b.c = 1"
    let p : Program :=
      ⟨[], .empty, [.assignField (.path ⟨"a", ["b"]⟩) "c" (.constant (.number 1))]⟩
    (ofSource .empty source).1 = .ok p ∧
      (tokenize source).tokens = (recorded .empty source).2 ++ [.endOfInput] ∧
      (⟨"a", ["b"]⟩ : DottedPath).tokens <:+: (tokenize source).tokens ∧
      (recorded .empty "B()\nprint 1").2 = [.name "B", .char '(', .char ')'] ∧
      (recorded .empty "B()\nprint 1").2 <+: (tokenize "B()\nprint 1").tokens := by
  intro source p
  have hp : (ofSource .empty source).1 = .ok p := by decide +kernel
  have hpath : p.Builds .empty (.path ⟨"a", ["b"]⟩) :=
    .inl (.head (m := .assignField (.path ⟨"a", ["b"]⟩) "c" (.constant (.number 1)))
      (List.mem_singleton.2 rfl) (.head (List.mem_cons_self ..) .refl))
  obtain ⟨htokens, hnames⟩ := (reading_progresses .empty source).2.1.2.2.2 p hp
  exact ⟨hp, htokens, (hnames _ hpath).2, by decide +kernel,
    (reading_progresses .empty "B()\nprint 1").2.1.2.1⟩

/-- A numeral of 4301 digits is read to none of the usual ends. -/
theorem not_read_to_end_of_every_source :
    ¬ ∀ source : String, let outcome := (ofSource .empty source).1
      (∃ p, outcome = .ok p) ∨ (∃ e, outcome = .error (.syntactic e)) ∨
        ∃ e, outcome = .error (.lexical e) := by
  intro hall
  obtain ⟨hword, hlength⟩ := Token.isNumeral_replicate_one
  have hlimit := ofSource_of_longNumeral .empty hword hlength
  have hend := hall (String.ofList (List.replicate 4301 '1'))
  rw [hlimit] at hend
  simp only [reduceCtorEq, Except.error.injEq, exists_false, or_self] at hend

end Program

end Offside
