import Offside.Proofs.LineListing
import Offside.Proofs.StreamCalls

set_option autoImplicit false

/-! # The line of an error

A scanner that has given tokens only stops at the first line with a fault, and the error stands on
the line on which that begins which is wrong: on as many lines as there are line breaks in front of
it, and one. A literal that is not closed on its line is taken together with the line break, and then
the error stands one line further on. -/

namespace Offside

open SourceLine (Fault TextFault)

/-! ## Lines and their breaks -/

namespace SourceLine

variable {text : List Char} {before after lines : List SourceLine} {line : SourceLine}

/-- Lines, each with a break behind it. -/
def ended (lines : List SourceLine) : List Char := lines.flatMap fun line => line ++ ['\n']

/-- Lines, each with a break in front of it. -/
def continued (lines : List SourceLine) : List Char := lines.flatMap fun line => '\n' :: line

theorem continued_splitOn (text : List Char) : continued (text.splitOn '\n') = '\n' :: text := by
  induction text using Scanner.line_induction with
  | last line hline => simp [List.splitOn_eq_singleton hline, continued]
  | more line rest hline ih =>
    rw [List.splitOn_append_cons_self_of_not_mem hline, continued, List.flatMap_cons]
    rw [continued] at ih
    rw [ih, List.cons_append]

/-- A text is made of its lines. -/
theorem eq_of_splitOn_eq (h : text.splitOn '\n' = before ++ line :: after) :
    text = ended before ++ (line ++ continued after) := by
  induction before generalizing text with
  | nil =>
    have htext := continued_splitOn text
    rw [h, List.nil_append, continued, List.flatMap_cons] at htext
    exact (List.cons.inj htext).2.symm
  | cons first before ih =>
    induction text using Scanner.line_induction with
    | last l hl =>
      rw [List.splitOn_eq_singleton hl] at h
      simp at h
    | more l rest hl _ =>
      rw [List.splitOn_append_cons_self_of_not_mem hl, List.cons_append] at h
      obtain ⟨rfl, hrest⟩ := List.cons.inj h
      rw [ended, List.flatMap_cons, ← ended, List.append_assoc, ← ih hrest, List.append_assoc]
      rfl

/-- There are as many breaks as lines. -/
theorem count_ended (h : ∀ line ∈ lines, '\n' ∉ line) : (ended lines).count '\n' = lines.length := by
  induction lines with
  | nil => rfl
  | cons line lines ih =>
    have hline : line.count '\n' = 0 := List.count_eq_zero.2 (h line (List.mem_cons_self ..))
    have hlines := ih fun l hl => h l (List.mem_cons_of_mem _ hl)
    rw [ended] at hlines ⊢
    rw [List.flatMap_cons, List.count_append, List.count_append, hline, hlines, List.length_cons,
      List.count_singleton_self]
    omega

/-- In front of a place on a line there are as many breaks as lines. -/
theorem count_of_splitOn_eq {front rest : List Char}
    (h : text.splitOn '\n' = before ++ (front ++ rest) :: after) :
    (ended before ++ front).count '\n' = before.length := by
  have hbreaks : ∀ l ∈ before ++ (front ++ rest) :: after, '\n' ∉ l := fun l hl =>
    not_mem_of_mem_splitOn (h ▸ hl)
  have hfront : front.count '\n' = 0 :=
    List.count_eq_zero.2 fun hmem => hbreaks (front ++ rest) (by simp) (List.mem_append_left _ hmem)
  rw [List.count_append, hfront, count_ended fun l hl => hbreaks l (List.mem_append_left _ hl)]
  rfl

/-! ## Where a fault begins -/

/-- The text begins with blanks and tokens and goes on with `rest`. -/
inductive ReadsTo : List Char → List Char → Prop
  | here (text : List Char) : ReadsTo text text
  | blank {c : Char} {text rest : List Char} (hc : Reader.isBlank c = true)
    (h : ReadsTo text rest) : ReadsTo (c :: text) rest
  | token {c : Char} {text after rest : List Char} {t : Token} (hb : Reader.isBlank c = false)
    (hc : c ≠ '#') (hl : lexeme c text = .ok (t, after)) (h : ReadsTo after rest) :
    ReadsTo (c :: text) rest

theorem ReadsTo.suffix {rest : List Char} (h : ReadsTo text rest) : rest <:+ text := by
  induction h with
  | here text => exact List.suffix_refl _
  | blank hc h ih => exact ih.trans (List.suffix_cons ..)
  | token hb hc hl h ih => exact ih.trans ((suffix_of_lexeme hl).trans (List.suffix_cons ..))

/-- What is wrong with a line begins with the end `rest` of the line: with all of the line where its
leading space is wrong, with the mark of a literal or with the first character of a word. -/
inductive FaultAt (line : SourceLine) : Fault → List Char → Prop
  | tab (h : line.hasTab = true) : FaultAt line .tab line
  | uneven (depth : Nat) (h : line.indent % 2 ≠ depth % 2) :
    FaultAt line (.uneven line.indent depth) line
  | text {c : Char} {rest : List Char} {f : TextFault} (h : ReadsTo line.text (c :: rest))
    (hb : Reader.isBlank c = false) (hc : c ≠ '#') (hl : lexeme c rest = .error f) :
    FaultAt line (.text f) (c :: rest)

theorem exists_readsTo_of_contents {f : TextFault} (h : (contents text).2 = some f) :
    ∃ c rest, ReadsTo text (c :: rest) ∧ Reader.isBlank c = false ∧ c ≠ '#' ∧
      lexeme c rest = .error f := by
  fun_induction contents text with
  | case1 => simp at h
  | case2 c text hb ih =>
    obtain ⟨d, rest, hreads, hd⟩ := ih h
    exact ⟨d, rest, .blank hb hreads, hd⟩
  | case3 => simp at h
  | case4 c text hb hc f' hl =>
    obtain rfl := Option.some.inj h
    exact ⟨c, text, .here _, by simpa using hb, hc, hl⟩
  | case5 c text hb hc t after hl ih =>
    obtain ⟨d, rest, hreads, hd⟩ := ih h
    exact ⟨d, rest, .token (by simpa using hb) hc hl hreads, hd⟩

/-- Every fault begins somewhere on its line. -/
theorem exists_faultAt {depth : Nat} {f : Fault} (h : line.fault? depth = some f) :
    ∃ front c rest, line = front ++ c :: rest ∧ line.FaultAt f (c :: rest) := by
  have hwhole {f : Fault} (hline : line.text ≠ []) (hf : line.FaultAt f line) :
      ∃ front c rest, line = front ++ c :: rest ∧ line.FaultAt f (c :: rest) := by
    cases line with
    | nil => exact absurd rfl hline
    | cons c rest => exact ⟨[], c, rest, rfl, hf⟩
  unfold fault? at h
  split at h
  · rename_i htab
    obtain rfl := Option.some.inj h
    refine hwhole (fun htext => ?_) (.tab htab)
    simp [hasTab, htext] at htab
  · split at h
    · simp at h
    · rename_i hblank
      split at h
      · rename_i huneven
        obtain rfl := Option.some.inj h
        refine hwhole (fun htext => ?_) (.uneven depth huneven)
        simp [isBlank, htext] at hblank
      · obtain ⟨g, hg, rfl⟩ := Option.map_eq_some_iff.1 h
        obtain ⟨c, rest, hreads, hb, hc, hl⟩ := exists_readsTo_of_contents hg
        obtain ⟨front, hfront⟩ := hreads.suffix.trans (List.dropWhile_suffix isLead)
        exact ⟨front, c, rest, hfront.symm, .text hreads hb hc hl⟩

/-- The number of the line, unless a literal takes the break behind it. -/
theorem Fault.line_error {f : Fault} {number : Nat} {after : List SourceLine} {e : LexicalError}
    (h : f.error number (!after.isEmpty) = .lexical e) :
    e.line = number ↔ ∀ escaping, f = .text (.openLiteral escaping) → after = [] := by
  cases f with
  | tab | uneven =>
    obtain rfl := ReadFault.lexical.inj h
    simp
  | text f =>
    cases f with
    | badWord word =>
      rw [Fault.error, TextFault.error, Token.faultOf] at h
      split at h
      · simp [ReadFault.onLine] at h
      · obtain rfl := ReadFault.lexical.inj h
        simp
    | unknownEscape =>
      obtain rfl := ReadFault.lexical.inj h
      simp
    | openLiteral escaping =>
      cases after <;> obtain rfl := ReadFault.lexical.inj h <;> simp

end SourceLine

/-! ## Reads without an error -/

namespace Scanner

variable {source : String} {s s' : Scanner} {ts us : List Token} {e : ReadError}
  {error? : Option ReadError}

/-- Reads from the start of the source on gave these tokens and no error, and led to the scanner. -/
inductive Reached (source : String) : List Token → Scanner → Prop
  | start : Reached source [] (ofString source)
  | next {ts : List Token} {s s' : Scanner} {t : Token} (h : Reached source ts s)
    (hread : s.read ts.getLast? = (.ok t, s')) : Reached source (ts ++ [t]) s'

/-- Behind the end of the input there is only the end. -/
theorem Reached.getLast?_of_end (h : Reached source ts s) (hend : .endOfInput ∈ ts) :
    ts.getLast? = some .endOfInput := by
  induction h with
  | start => simp at hend
  | next h hread ih =>
    rw [List.getLast?_concat]
    rcases List.mem_append.1 hend with hend | hend
    · rw [ih hend, read, if_pos rfl] at hread
      exact congrArg some (Except.ok.inj (Prod.mk.inj hread).1).symm
    · exact congrArg some (List.mem_singleton.1 hend).symm

/-- What the scanner yields comes behind the tokens that led to it. -/
theorem Reached.yields (h : Reached source ts s) (hend : .endOfInput ∉ ts)
    (hs : s.Yields ts.getLast? us error?) : (ofString source).Yields none (ts ++ us) error? := by
  induction h generalizing us with
  | start => exact hs
  | next h hread ih =>
    rw [List.mem_append, not_or, List.mem_singleton] at hend
    rw [List.getLast?_concat] at hs
    rw [List.append_assoc]
    exact ih hend.1 (.reading hread (Ne.symm hend.2) hs)

/-- So an error behind them is the one at which the listing of the lines ends. -/
theorem Reached.listing_eq (h : Reached source ts s)
    (hread : s.read ts.getLast? = (.error e, s')) :
    SourceLine.listing 1 0 (SourceLine.ofSource source) = (ts, some e) := by
  have hend : .endOfInput ∉ ts := by
    intro hmem
    rw [h.getLast?_of_end hmem, read, if_pos rfl] at hread
    simp at hread
  obtain ⟨htokens, herror⟩ := (yields_ofString source).unique (h.yields hend (.failing hread))
  rw [List.append_nil] at htokens
  exact Prod.ext htokens herror

end Scanner

/-- As long as no call of a stream made a read that failed, the stream has been led to by reads without
an error. -/
theorem TokenStream.reached_after {source : String} {s : TokenStream} (hs : ofString source = .ok s)
    (calls : List StreamCall) (hok : ∀ r ∈ s.reads calls, ∃ t, r = .ok t) :
    Scanner.Reached source (handedOut (s.reads calls)) (s.after calls).scanner ∧
      (handedOut (s.reads calls)).getLast? = some (s.after calls).current := by
  refine invariant_reads (P := fun scanner previous? rs => (∀ r ∈ rs, ∃ t, r = .ok t) →
    Scanner.Reached source (handedOut rs) scanner ∧ (handedOut rs).getLast? = previous?)
    (fun _ => ⟨.start, rfl⟩) ?_ hs calls hok
  intro scanner previous? rs ih hrs
  obtain ⟨hreach, rfl⟩ := ih fun r hr => hrs r (List.mem_append_left _ hr)
  obtain ⟨t, ht⟩ := hrs _ (List.mem_append_right _ (List.mem_singleton_self _))
  rw [handedOut_concat, ht]
  exact ⟨hreach.next (Prod.ext ht rfl), List.getLast?_concat⟩

/-! ## The line of a read that fails -/

open SourceLine

/-- A read that fails with an error of the text, where all reads before it gave tokens, fails at the
first line with a fault, behind the tokens of the lines before and those that stand before the fault.
What is wrong begins with the character `c`, behind the text `upTo`. The error has the number of the
line of this character, one more than there are line breaks before it, except if what is wrong is a
literal that its line does not close and that is not on the last line: then it has the number of the
line behind. -/
theorem line_of_failing_read {source : String} {ts : List Token} {s s' : Scanner} {e : LexicalError}
    (hreach : Scanner.Reached source ts s) (hread : s.read ts.getLast? = (.error (.lexical e), s')) :
    ∃ before line after f upTo c rest,
      ofSource source = before ++ line :: after ∧ Clean 0 before ∧
      line.fault? (depthBehind 0 before) = some f ∧
      ts = tokensOf 0 before ++ line.tokensBefore (depthBehind 0 before) f ∧
      line.FaultAt f (c :: rest) ∧ source.toList = upTo ++ c :: rest ++ continued after ∧
      .lexical e = f.error (1 + upTo.count '\n') (!after.isEmpty) ∧
      (e.line = 1 + upTo.count '\n' ↔
        ∀ escaping, f = .text (.openLiteral escaping) → after = []) := by
  have hlisting := hreach.listing_eq hread
  rcases clean_or_exists_fault 0 (ofSource source) with
    hclean | ⟨before, line, after, f, hlines, hbefore, hf⟩
  · rw [listing_of_clean 1 hclean] at hlisting
    simp at hlisting
  · rw [hlines, listing_of_fault 1 hbefore hf] at hlisting
    obtain ⟨hts, he⟩ := Prod.mk.inj hlisting
    obtain ⟨front, c, rest, hline, hat⟩ := exists_faultAt hf
    have hcount : (ended before ++ front).count '\n' = before.length :=
      count_of_splitOn_eq (hline ▸ hlines)
    have htext : source.toList = ended before ++ front ++ c :: rest ++ continued after := by
      rw [eq_of_splitOn_eq hlines, hline]
      simp
    have he' : .lexical e = f.error (1 + (ended before ++ front).count '\n') (!after.isEmpty) := by
      rw [hcount]
      exact (Option.some.inj he).symm
    exact ⟨before, line, after, f, ended before ++ front, c, rest, hlines, hbefore, hf, hts.symm,
      hat, htext, he', Fault.line_error he'.symm⟩

/-- A literal behind a comment and an empty line, which the input does not close. -/
theorem line_of_open_literal_at_end :
    let source := "# one\n\n'a"
    ∃ s', (Scanner.ofString source).read none =
        (.error (.lexical ⟨.unterminatedString, 3⟩), s') ∧
      ∃ before line after f upTo c rest,
        ofSource source = before ++ line :: after ∧ Clean 0 before ∧
        line.fault? (depthBehind 0 before) = some f ∧
        [] = tokensOf 0 before ++ line.tokensBefore (depthBehind 0 before) f ∧
        line.FaultAt f (c :: rest) ∧ source.toList = upTo ++ c :: rest ++ continued after ∧
        .lexical ⟨.unterminatedString, 3⟩ = f.error (1 + upTo.count '\n') (!after.isEmpty) ∧
        (3 = 1 + upTo.count '\n' ↔
          ∀ escaping, f = .text (.openLiteral escaping) → after = []) := by
  intro source
  have hread : (Scanner.ofString source).read none =
      (.error (.lexical ⟨.unterminatedString, 3⟩), ⟨⟨[], [], 3⟩, 0, 0, 0, false, #[]⟩) := by
    decide +kernel
  exact ⟨_, hread, line_of_failing_read .start hread⟩

/-- A literal that its line does not close is an error on the next line, although its mark stands on the
first one. -/
theorem not_line_of_cut_literal :
    ¬ ∀ (source : String) (ts : List Token) (s s' : Scanner) (e : LexicalError)
      (before after : List SourceLine) (line : SourceLine) (f : Fault) (upTo rest : List Char)
      (c : Char), Scanner.Reached source ts s → s.read ts.getLast? = (.error (.lexical e), s') →
      ofSource source = before ++ line :: after → Clean 0 before →
      line.fault? (depthBehind 0 before) = some f → line.FaultAt f (c :: rest) →
      source.toList = upTo ++ c :: rest ++ continued after → e.line = 1 + upTo.count '\n' := by
  intro h
  let source := "'a\nb"
  have hread : (Scanner.ofString source).read none =
      (.error (.lexical ⟨.unterminatedString, 2⟩), ⟨⟨[], ['b'], 2⟩, 0, 0, 0, false, #[]⟩) := by
    decide +kernel
  have hat : FaultAt "'a".toList (.text (.openLiteral false)) "'a".toList :=
    .text (.here _) (by decide) (by decide) (by decide +kernel)
  have hline := h source [] _ _ _ [] [['b']] "'a".toList _ [] ['a'] '\'' .start hread
    (by decide +kernel) (by simp [Clean]) (by decide +kernel) hat (by decide)
  exact absurd hline (by decide)

end Offside
