import Offside.Proofs.LineContents

set_option autoImplicit false

/-! # String literals

Between its two marks a literal is a row of plain characters and of pairs, of a backslash and one of
six characters. It is read pair by pair: a mark that is the second one of a pair closes nothing, and a
backslash that is one begins no pair. So the row goes as far as it can, and what stands behind it in
the source tells how the literal ends. `LiteralEnd` has a rule for each of the ends. -/

namespace Offside

/-- The characters that make a pair with a backslash, each with what the pair stands for. -/
def escapePairs : List (Char × Char) :=
  [('n', '\n'), ('t', '\t'), ('r', '\r'), ('"', '"'), ('\\', '\\'), ('\'', '\'')]

/-- A row that can stand behind the mark `mark`, and the text that it stands for. -/
inductive LiteralBody (mark : Char) : List Char → List Char → Prop
  | nil : LiteralBody mark [] []
  | plain {c : Char} {body text : List Char} (hmark : c ≠ mark) (hslash : c ≠ '\\') (hbreak : c ≠ '\n')
    (h : LiteralBody mark body text) : LiteralBody mark (c :: body) (c :: text)
  | pair {e d : Char} {body text : List Char} (hpair : (e, d) ∈ escapePairs)
    (h : LiteralBody mark body text) : LiteralBody mark ('\\' :: e :: body) (d :: text)

/-- How a literal on line `line` ends, by what is behind a row that stands for `text`: its token or an
error, and what is still to be read then, with the line on which that begins. -/
inductive LiteralEnd (mark : Char) (line : Nat) (text : List Char) :
    List Char → Except ReadError Token → List Char → Nat → Prop
  /-- The mark closes the literal. -/
  | closed {rest : List Char} :
    LiteralEnd mark line text (mark :: rest) (.ok (.string (String.ofList text))) rest line
  /-- A backslash makes no pair with the character behind it, which may be a line break. -/
  | unknownEscape {e : Char} {rest : List Char} (he : ∀ d, (e, d) ∉ escapePairs) :
    LiteralEnd mark line text ('\\' :: e :: rest)
      (.error (.lexical ⟨.unknownEscape e, Reader.lineAfter e line⟩)) rest (Reader.lineAfter e line)
  /-- The line ends first. -/
  | lineBreak {rest : List Char} :
    LiteralEnd mark line text ('\n' :: rest) (.error (.lexical ⟨.unterminatedString, line + 1⟩))
      rest (line + 1)
  /-- The input ends first. -/
  | endOfInput :
    LiteralEnd mark line text [] (.error (.lexical ⟨.unterminatedString, line⟩)) [] line
  /-- The input ends between the characters of a pair. -/
  | cutPair :
    LiteralEnd mark line text ['\\'] (.error (.lexical ⟨.unterminatedString, line⟩)) [] line

/-! ## Pairs -/

namespace Reader

theorem unescape?_eq_some_iff {e d : Char} : unescape? e = some d ↔ (e, d) ∈ escapePairs := by
  simp only [unescape?, escapePairs, List.mem_cons, Prod.mk.injEq, List.not_mem_nil, or_false]
  grind

theorem unescape?_eq_none_iff {e : Char} : unescape? e = none ↔ ∀ d, (e, d) ∉ escapePairs := by
  simp only [← unescape?_eq_some_iff, Option.eq_none_iff_forall_ne_some, ne_eq]

end Reader

/-! ## Rows -/

/-- Every text has a row that stands for it, behind either mark. -/
theorem exists_literalBody {mark : Char} (hmark : mark = '\'' ∨ mark = '"') (text : List Char) :
    ∃ body, LiteralBody mark body text := by
  induction text with
  | nil => exact ⟨[], .nil⟩
  | cons d text ih =>
    obtain ⟨body, hbody⟩ := ih
    by_cases hpair : ∃ e, (e, d) ∈ escapePairs
    · obtain ⟨e, he⟩ := hpair
      exact ⟨_, .pair he hbody⟩
    · -- what may not be plain has a pair
      have hne : ∀ e c, (e, c) ∈ escapePairs → d ≠ c := by
        rintro e c he rfl
        exact hpair ⟨e, he⟩
      have hd : d ≠ mark := by
        rcases hmark with rfl | rfl
        · exact hne '\'' '\'' (by decide)
        · exact hne '"' '"' (by decide)
      exact ⟨_, .plain hd (hne '\\' '\\' (by decide)) (hne 'n' '\n' (by decide)) hbody⟩

/-- Every source begins with a row, behind which the literal ends. -/
theorem exists_literalEnd (mark : Char) (line : Nat) (source : List Char) :
    ∃ body text tail, source = body ++ tail ∧ LiteralBody mark body text ∧
      ∀ taken, ∃ result rest line', LiteralEnd mark line taken tail result rest line' := by
  fun_induction SourceLine.literal mark source with
  | case1 => exact ⟨[], [], [], rfl, .nil, fun _ => ⟨_, _, _, .endOfInput⟩⟩
  | case2 rest => exact ⟨[], [], _, rfl, .nil, fun _ => ⟨_, _, _, .closed⟩⟩
  | case3 => exact ⟨[], [], _, rfl, .nil, fun _ => ⟨_, _, _, .cutPair⟩⟩
  | case4 e source d hd _ ih =>
    obtain ⟨body, text, tail, rfl, hbody, hend⟩ := ih
    exact ⟨_, _, tail, rfl, .pair (Reader.unescape?_eq_some_iff.1 hd) hbody, hend⟩
  | case5 e rest he =>
    have hpair := Reader.unescape?_eq_none_iff.1 he
    exact ⟨[], [], _, rfl, .nil, fun _ => ⟨_, _, _, .unknownEscape hpair⟩⟩
  | case6 c source hmark hslash ih =>
    by_cases hbreak : c = '\n'
    · subst hbreak
      exact ⟨[], [], _, rfl, .nil, fun _ => ⟨_, _, _, .lineBreak⟩⟩
    · obtain ⟨body, text, tail, rfl, hbody, hend⟩ := ih
      exact ⟨_, _, tail, rfl, .plain hmark hslash hbreak hbody, hend⟩

/-! ## Reading -/

section

variable {mark : Char} {r : Reader} {body text tail rest : List Char} {line line' : Nat}
  {result : Except ReadError Token}

/-- A row is read up to its end. -/
theorem LiteralBody.quotedText (h : LiteralBody mark body text) (hmark : mark ≠ '\\')
    (taken : List Char) (hr : r.StandsAt (body ++ tail) line) :
    ∃ r' : Reader, r.quotedText mark (String.ofList taken) =
        r'.quotedText mark (String.ofList (taken ++ text)) ∧ r'.StandsAt tail line := by
  induction h generalizing r taken with
  | nil => exact ⟨r, by rw [List.append_nil], hr⟩
  | @plain c body text hc hslash hbreak _ ih =>
    obtain ⟨r₁, hn, hr₁⟩ := hr.next?_cons_of_ne hbreak
    obtain ⟨r', hread, hr'⟩ := ih (taken ++ [c]) hr₁
    refine ⟨r', ?_, hr'⟩
    rw [Reader.quotedText_of_some _ _ hn, if_neg hbreak, if_neg hc, if_neg hslash, Reader.push_ofList,
      hread, List.append_assoc, List.singleton_append]
  | @pair e d body text hpair _ ih =>
    have he : e ≠ '\n' := by
      rintro rfl
      simp [escapePairs] at hpair
    obtain ⟨r₁, hn₁, hr₁⟩ := hr.next?_cons_of_ne (by decide)
    obtain ⟨r₂, hn₂, hr₂⟩ := hr₁.next?_cons_of_ne he
    obtain ⟨r', hread, hr'⟩ := ih (taken ++ [d]) hr₂
    refine ⟨r', ?_, hr'⟩
    rw [Reader.quotedText_of_some _ _ hn₁, if_neg (by decide), if_neg hmark.symm, if_pos rfl, hn₂]
    simp only [Reader.unescape?_eq_some_iff.2 hpair, Reader.push_ofList, hread, List.append_assoc,
      List.singleton_append]

/-- Behind the row, the literal ends as its rule says. -/
theorem LiteralEnd.quotedText (h : LiteralEnd mark line text tail result rest line')
    (hslash : mark ≠ '\\') (hbreak : mark ≠ '\n') (hr : r.StandsAt tail line) :
    ∃ q r', r.quotedText mark (String.ofList text) = (q, r') ∧ r'.StandsAt rest line' ∧
      result = (q.map Token.string).mapError fun cause => .lexical ⟨cause, line'⟩ := by
  cases h with
  | closed =>
    obtain ⟨r', hn, hr'⟩ := hr.next?_cons_of_ne hbreak
    refine ⟨.ok (String.ofList text), r', ?_, hr', rfl⟩
    rw [Reader.quotedText_of_some _ _ hn, if_neg hbreak, if_pos rfl]
  | @unknownEscape e _ he =>
    obtain ⟨r₁, hn₁, hr₁⟩ := hr.next?_cons_of_ne (by decide)
    obtain ⟨r₂, hn₂, hr₂⟩ := hr₁.next?_cons
    refine ⟨.error (.unknownEscape e), r₂, ?_, hr₂, rfl⟩
    rw [Reader.quotedText_of_some _ _ hn₁, if_neg (by decide), if_neg hslash.symm, if_pos rfl, hn₂]
    simp only [Reader.unescape?_eq_none_iff.2 he]
  | lineBreak =>
    obtain ⟨r', hn, hr'⟩ := hr.next?_cons
    exact ⟨_, r', by rw [Reader.quotedText_of_some _ _ hn, if_pos rfl], hr', rfl⟩
  | endOfInput => exact ⟨_, r, Reader.quotedText_of_none _ _ hr.next?_nil, hr, rfl⟩
  | cutPair =>
    obtain ⟨r', hn, hr'⟩ := hr.next?_cons_of_ne (by decide)
    refine ⟨.error .unterminatedString, r', ?_, hr', rfl⟩
    rw [Reader.quotedText_of_some _ _ hn, if_neg (by decide), if_neg hslash.symm, if_pos rfl,
      hr'.next?_nil]

end

namespace Scanner

variable {s : Scanner} {mark : Char} {source : List Char} {line depth : Nat} {previous? : Option Token}

/-- A mark on a line begins a literal. -/
theorem StandsAt.read_mark (h : s.StandsAt (mark :: source) line depth false)
    (hmark : mark = '\'' ∨ mark = '"') (hp : previous? ≠ some .endOfInput) :
    ∃ r : Reader, r.StandsAt source line ∧
      s.read previous? = match r.quotedText mark "" with
        | (q, r') => ((q.map Token.string).mapError fun cause => .lexical ⟨cause, r'.line⟩,
            { s with reader := r' }) := by
  have hquote : (mark = '\'' || mark = '"') = true := by simpa using hmark
  have hbreak : mark ≠ '\n' := by rcases hmark with rfl | rfl <;> decide
  have hcomment : mark ≠ '#' := by rcases hmark with rfl | rfl <;> decide
  have hblank : Reader.isBlank mark = false := by rcases hmark with rfl | rfl <;> decide
  obtain ⟨r, hn, hr⟩ := h.reader.next?_cons_of_ne hbreak
  refine ⟨r, hr, ?_⟩
  rw [read_eq_scan hp h.dedents_eq h.indents_eq, scan_of_not_atLineStart h.start_eq,
    Reader.nextVisible?_of_some hn, hblank]
  simp only [Bool.false_eq_true, if_false, if_neg hcomment, if_neg hbreak, content, if_pos hquote]
  cases hread : r.quotedText mark "" with
  | mk q r' => cases q <;> rfl

/-- A literal is read up to the end of its row, and how it ends there is how the read ends. -/
theorem StandsAt.read_literal {body text tail rest : List Char}
    {result : Except ReadError Token} {line' : Nat}
    (h : s.StandsAt (mark :: (body ++ tail)) line depth false) (hmark : mark = '\'' ∨ mark = '"')
    (hp : previous? ≠ some .endOfInput) (hbody : LiteralBody mark body text)
    (hend : LiteralEnd mark line text tail result rest line') :
    (s.read previous?).1 = result ∧ (s.read previous?).2.StandsAt rest line' depth false := by
  have hslash : mark ≠ '\\' := by rcases hmark with rfl | rfl <;> decide
  have hbreak : mark ≠ '\n' := by rcases hmark with rfl | rfl <;> decide
  obtain ⟨r, hr, hread⟩ := h.read_mark hmark hp
  obtain ⟨r₁, hrow, hr₁⟩ := hbody.quotedText hslash [] hr
  obtain ⟨q, r', hq, hr', rfl⟩ := hend.quotedText hslash hbreak hr₁
  have hliteral : r.quotedText mark "" = (q, r') := hrow.trans hq
  rw [hread, hliteral]
  exact ⟨hr'.line_eq ▸ rfl, h.withReader hr'⟩

end Scanner

/-- Where a token begins with a single or a double quote, a row of plain characters and pairs is read,
and what stands behind it decides, as the rules for the end of a literal say. If it is the same quote,
the token is the text that the row stands for, and reading goes on behind the quote. Otherwise the
literal fails: for a backslash that makes no pair with the character behind it, or for the end of the
line or of the input. Nothing else can happen, since every source begins with a row that comes to one
of these ends. For every text there is a row that stands for it. -/
theorem literal_ends_behind_row (s : Scanner) (mark : Char) (source : List Char) (line depth : Nat)
    (previous? : Option Token) (hmark : mark = '\'' ∨ mark = '"')
    (h : s.StandsAt (mark :: source) line depth false) (hp : previous? ≠ some .endOfInput) :
    (∀ result rest line',
      (s.read previous?).1 = result ∧ (s.read previous?).2.StandsAt rest line' depth false ↔
        ∃ body text tail, source = body ++ tail ∧ LiteralBody mark body text ∧
          LiteralEnd mark line text tail result rest line') ∧
    (∃ rest line', (s.read previous?).2.StandsAt rest line' depth false) ∧
    LexicalCause.unterminatedString.text = "unterminated string literal" ∧
    (∀ e, (LexicalCause.unknownEscape e).text = "unknown escape sequence \\" ++ e.toString) ∧
    ∀ text, ∃ body, LiteralBody mark body text := by
  obtain ⟨body, text, tail, rfl, hbody, hends⟩ := exists_literalEnd mark line source
  obtain ⟨result₀, rest₀, line₀, hend⟩ := hends text
  obtain ⟨hresult, hstands⟩ := h.read_literal hmark hp hbody hend
  refine ⟨fun result rest line' => ?_, ⟨rest₀, line₀, hstands⟩, rfl, fun _ => rfl,
    exists_literalBody hmark⟩
  constructor
  · rintro ⟨hresult', hstands'⟩
    obtain rfl : result₀ = result := hresult.symm.trans hresult'
    obtain rfl : rest₀ = rest := hstands.reader.unread_eq.symm.trans hstands'.reader.unread_eq
    obtain rfl : line₀ = line' := hstands.reader.line_eq.symm.trans hstands'.reader.line_eq
    exact ⟨body, text, tail, rfl, hbody, hend⟩
  · rintro ⟨body', text', tail', hsource, hbody', hend'⟩
    exact (hsource ▸ h).read_literal hmark hp hbody' hend'

/-- The other quote is plain, an escaped quote closes nothing, and an escaped backslash escapes nothing.
A backslash in front of a line break is taken with it. -/
theorem literal_with_escaped_quote :
    let s : Scanner := { Scanner.ofString "\"'s\\\"\\\\\" + 1" with atLineStart := false }
    let s' : Scanner := { Scanner.ofString "'s\\\n'" with atLineStart := false }
    ((s.read none).1 = .ok (.string "'s\"\\") ∧ (s.read none).2.StandsAt " + 1".toList 1 0 false) ∧
      (s'.read none).1 = .error (.lexical ⟨.unknownEscape '\n', 2⟩) := by
  intro s s'
  have hs : s.StandsAt ('"' :: "'s\\\"\\\\\" + 1".toList) 1 0 false :=
    ⟨⟨rfl, rfl⟩, rfl, rfl, rfl, rfl⟩
  have hs' : s'.StandsAt ('\'' :: "s\\\n'".toList) 1 0 false := ⟨⟨rfl, rfl⟩, rfl, rfl, rfl, rfl⟩
  have hrow : LiteralBody '"' "'s\\\"\\\\".toList "'s\"\\".toList :=
    .plain (by decide) (by decide) (by decide) <| .plain (by decide) (by decide) (by decide) <|
      .pair (by decide) <| .pair (by decide) .nil
  have hrow' : LiteralBody '\'' "s".toList "s".toList :=
    .plain (by decide) (by decide) (by decide) .nil
  obtain ⟨hread, -⟩ := literal_ends_behind_row s '"' _ 1 0 none (.inr rfl) hs (by decide)
  obtain ⟨hread', -⟩ := literal_ends_behind_row s' '\'' _ 1 0 none (.inl rfl) hs' (by decide)
  refine ⟨(hread _ _ _).2 ⟨_, _, _, rfl, hrow, .closed⟩, ?_⟩
  have he : ∀ d, ('\n', d) ∉ escapePairs := by simp [escapePairs]
  exact ((hread' _ _ _).2 ⟨_, _, _, rfl, hrow', .unknownEscape he⟩).1

end Offside
