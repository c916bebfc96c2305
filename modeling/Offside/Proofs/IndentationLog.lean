import Offside.Proofs.Invariants
import Offside.Proofs.MatchingRules
import Offside.Proofs.StreamCalls
import Offside.Session

set_option autoImplicit false

/-! # Changes of depth in the log

The scanner reports each change of the depth of lines, and nobody else does. So among the records of
a log the changes of depth stand one after the other: the first one starts from depth zero, and each
other one from the depth at which the one before it ended. That holds of a listing and of a run, also
if it breaks off; the step back to depth zero at the end of the input is not reported, and nothing
comes behind it. -/

namespace Offside

/-! ## Changes of depth -/

/-- The depths before and after, if the record is about a change of depth. -/
def LogRecord.move? : LogRecord → Option (Nat × Nat)
  | indentation _ before after => some (before, after)
  | parsing _ | classDefined _ _ _ | parsed _ | running _ | calling _ _ _ | aborted _ _ => none

/-- The changes of depth that a log tells of, one after the other. -/
def moves (log : Log) : List (Nat × Nat) := log.toList.filterMap LogRecord.move?

/-- The first change starts from the depth `d` and each other one from where the one before it ended;
`d'` is the depth in the end. -/
inductive Chains : Nat → List (Nat × Nat) → Nat → Prop
  | nil (d : Nat) : Chains d [] d
  | cons {d d₁ d' : Nat} {ms : List (Nat × Nat)} (h : Chains d₁ ms d') : Chains d ((d, d₁) :: ms) d'

section

variable {log log' : Log} {r : LogRecord} {d d₁ d' : Nat} {ms : List (Nat × Nat)}

/-- One more change behind the others. -/
theorem Chains.concat (h : Chains d ms d₁) (d' : Nat) : Chains d (ms ++ [(d₁, d')]) d' := by
  induction h with
  | nil d => exact .cons (.nil d')
  | cons h ih => exact .cons ih

/-- Only the scanner reports changes of depth. -/
theorem LogRecord.move?_eq_none (h : r.component ≠ "mython.lexer") : r.move? = none := by
  cases r with
  | indentation => exact absurd rfl h
  | parsing | classDefined | parsed | running | calling | aborted => rfl

@[simp] theorem moves_append : moves (log ++ log') = moves log ++ moves log' := by
  simp [moves]

theorem moves_push : moves (log.push r) = moves log ++ r.move?.toList := by
  simp only [moves, Array.toList_push, List.filterMap_append]
  cases h : r.move? <;> simp [h]

theorem moves_push_of_component (h : r.component ≠ "mython.lexer") :
    moves (log.push r) = moves log := by
  rw [moves_push, LogRecord.move?_eq_none h]
  exact List.append_nil _

end

/-! ## Scanners -/

namespace Scanner

variable {s s₁ s' : Scanner} {taken : List Char}

/-- What a read may do to the log: nothing, while the depth stays or the input is at its end; or it
reports a change of depth, of which there is none at the end of the input. -/
inductive Logs (s : Scanner) : Scanner → Prop
  | quiet {s' : Scanner} (hlog : s'.log = s.log)
    (hdepth : s'.depth = s.depth ∨ s'.reader.unread = [])
    (hend : s.reader.unread = [] → s'.reader.unread = []) : Logs s s'
  | moved {s' : Scanner} (line : Nat) (hunread : s.reader.unread ≠ [])
    (hlog : s'.log = s.log.push (.indentation line s.depth s'.depth)) : Logs s s'

/-- What takes text only comes before what may be reported. -/
theorem Logs.of_passes (hpass : s.Passes taken s₁) (hlog : s₁.log = s.log) (h : s₁.Logs s') :
    s.Logs s' := by
  have hend (hunread : s.reader.unread = []) : s₁.reader.unread = [] := by
    rw [hpass.takes.unread_eq] at hunread
    exact (List.append_eq_nil_iff.1 hunread).2
  cases h with
  | quiet hlog' hdepth hend' =>
    rw [hpass.depth_eq] at hdepth
    exact .quiet (hlog'.trans hlog) hdepth fun hunread => hend' (hend hunread)
  | moved line hunread hlog' =>
    rw [hlog, hpass.depth_eq] at hlog'
    exact .moved line (fun hunread' => hunread (hend hunread')) hlog'

/-- Text that is taken without a word. -/
theorem Passes.logs (hpass : s.Passes taken s') (hlog : s'.log = s.log) : s.Logs s' :=
  .of_passes hpass hlog (.quiet rfl (.inl rfl) id)

/-- The rest of a token is taken without a word. -/
theorem exists_takes_content (s : Scanner) (c : Char) :
    ∃ r taken, s.reader.Takes taken r ∧ (s.content c).2 = { s with reader := r } := by
  unfold content
  split
  · obtain ⟨taken, htakes⟩ := s.reader.exists_takes_quotedText c ""
    exact ⟨_, taken, htakes, rfl⟩
  · split
    · unfold sign
      cases hn : s.reader.next? with
      | none => exact ⟨s.reader, [], .refl _, rfl⟩
      | some p =>
        obtain ⟨d, r⟩ := p
        dsimp only
        cases PairedSign.ofPair? c d with
        | some sign => exact ⟨r, [d], .of_next? hn, rfl⟩
        | none => exact ⟨r.giveBack d, [], .of_giveBack hn, rfl⟩
    · obtain ⟨taken, htakes⟩ := s.reader.exists_takes_restOfWord c.toString
      refine ⟨_, taken, htakes, ?_⟩
      unfold word
      dsimp only
      cases Token.ofWord? (s.reader.restOfWord c.toString).1 <;> rfl

/-- A line that is as deep as the one before is opened without a word, and one that is not makes a
record, if it has any text on it. -/
theorem logs_openLine (s : Scanner) :
    match s.openLine with
    | (.ok none, s') => s'.log = s.log ∧ ∃ taken, s.Passes taken s'
    | (_, s') => s.Logs s' := by
  obtain ⟨taken, htakes, hfits⟩ := s.reader.exists_takes_lead 0
  cases hlead : s.reader.lead 0 with
  | mk ending r =>
    rw [hlead] at htakes hfits
    cases ending with
    | tab =>
      simp only [openLine, hlead]
      exact Passes.logs ⟨htakes, rfl, rfl, rfl⟩ rfl
    | endOfInput =>
      rw [openLine, hlead]
      exact ⟨rfl, taken, .of_takes false htakes⟩
    | text spaces =>
      have hunread : s.reader.unread ≠ [] := by
        rw [htakes.unread_eq]
        exact List.append_ne_nil_of_right_ne_nil _ hfits.2
      by_cases hu : spaces % 2 = s.depth % 2
      · rcases Nat.lt_trichotomy s.depth spaces with hd | hd | hd
        · rw [openLine_of_deeper hlead hu hd]
          exact .moved _ hunread rfl
        · rw [openLine_of_eq hlead hd.symm]
          exact ⟨rfl, taken, .of_takes false htakes⟩
        · rw [openLine_of_shallower hlead hu hd]
          exact .moved _ hunread rfl
      · rw [openLine_of_uneven hlead hu]
        exact (Passes.of_takes false htakes).logs rfl

/-- At the end of the input nothing is reported. -/
theorem logs_closing (previous? : Option Token) (hend : s.reader.unread = []) :
    s.Logs (s.closing previous?).2 := by
  have hreader : (s.closing previous?).2.reader = s.reader ∧ (s.closing previous?).2.log = s.log := by
    unfold closing
    split
    · exact ⟨rfl, rfl⟩
    · split <;> exact ⟨rfl, rfl⟩
  have hunread : (s.closing previous?).2.reader.unread = [] := by
    rw [hreader.1, hend]
  exact .quiet hreader.2 (.inr hunread) fun _ => hunread

/-- What a scan may do to the log. -/
theorem logs_scan (s : Scanner) (previous? : Option Token) : s.Logs (s.scan previous?).2 := by
  -- a scan goes on only where it has taken text without a word, so its last part decides
  fun_induction scan s previous? with
  | case1 s hs cause s' ho =>
    have hopen := s.logs_openLine
    rw [ho] at hopen
    exact hopen
  | case2 s hs step s' ho =>
    have hopen := s.logs_openLine
    rw [ho] at hopen
    exact hopen
  | case3 s hs s' ho ih =>
    have hopen := s.logs_openLine
    rw [ho] at hopen
    obtain ⟨hlog, taken, hpass⟩ := hopen
    exact .of_passes hpass hlog ih
  | case4 s hs r hv t s' hc =>
    obtain ⟨blanks, htakes, -⟩ := s.reader.exists_takes_nextVisible?
    rw [hv] at htakes
    have hclosing := logs_closing (s := { s with reader := r }) previous?
      (Reader.unread_of_nextVisible? hv)
    rw [hc] at hclosing
    exact .of_passes (.of_takes s.atLineStart htakes) rfl hclosing
  | case5 s hs r hv ih =>
    obtain ⟨taken, -, hpass⟩ := exists_passes_of_nextVisible? hv
    obtain ⟨comment, hcomment⟩ := r.exists_takes_skipComment
    exact .of_passes ((hpass s.atLineStart).trans (.of_takes s.atLineStart hcomment)) rfl ih
  | case6 s hs r hend hv =>
    obtain ⟨taken, -, hpass⟩ := exists_passes_of_nextVisible? hv
    exact (hpass true).logs rfl
  | case7 s hs r hend hv hne ih =>
    obtain ⟨taken, -, hpass⟩ := exists_passes_of_nextVisible? hv
    exact .of_passes (hpass true) rfl ih
  | case8 s hs c r hv hc hb =>
    obtain ⟨taken, -, hpass⟩ := exists_passes_of_nextVisible? hv
    obtain ⟨r', more, htakes, hcontent⟩ := { s with reader := r }.exists_takes_content c
    rw [hcontent]
    exact ((hpass s.atLineStart).trans (.of_takes s.atLineStart htakes)).logs rfl

/-- What a read may do to the log. -/
theorem logs_read (s : Scanner) (previous? : Option Token) : s.Logs (s.read previous?).2 := by
  unfold read
  split
  · exact .quiet rfl (.inl rfl) id
  · split
    · exact .quiet rfl (.inl rfl) id
    · split
      · exact .quiet rfl (.inl rfl) id
      · have hscan := s.logs_scan previous?
        split
        · next h => rwa [h] at hscan
        · next h => rwa [h] at hscan

/-- The changes of depth that were reported lead from depth zero to where the scanner is, unless the
input is at its end. -/
def Tracked (s : Scanner) : Prop :=
  ∃ d, Chains 0 (moves s.log) d ∧ (d = s.depth ∨ s.reader.unread = [])

theorem Tracked.of_logs (h : s.Tracked) (hs : s.Logs s') : s'.Tracked := by
  obtain ⟨d, hchains, hd⟩ := h
  cases hs with
  | quiet hlog hdepth hend =>
    refine ⟨d, hlog ▸ hchains, ?_⟩
    -- the step back to depth zero is silent, and behind it nothing is reported any more
    rcases hd with rfl | hunread
    · rcases hdepth with hdepth | hunread
      · exact .inl hdepth.symm
      · exact .inr hunread
    · exact .inr (hend hunread)
  | moved line hunread hlog =>
    obtain rfl := hd.resolve_right hunread
    refine ⟨s'.depth, ?_, .inl rfl⟩
    rw [hlog, moves_push]
    exact hchains.concat s'.depth

/-- Other records do no harm. -/
theorem Tracked.push (h : s.Tracked) {r : LogRecord} (hr : r.component ≠ "mython.lexer") :
    { s with log := s.log.push r }.Tracked := by
  obtain ⟨d, hchains, hd⟩ := h
  exact ⟨d, by rwa [moves_push_of_component hr], hd⟩

/-- The scanner reports nothing else. -/
theorem exists_of_mem_log_of_logs
    (h : ∀ r ∈ s.log.toList, ∃ line before after, r = .indentation line before after)
    (hs : s.Logs s') : ∀ r ∈ s'.log.toList, ∃ line before after, r = .indentation line before after := by
  cases hs with
  | quiet hlog _ _ => rwa [hlog]
  | moved line _ hlog =>
    rw [hlog, Array.toList_push]
    intro r hr
    rcases List.mem_append.1 hr with hr | hr
    · exact h r hr
    · exact ⟨line, s.depth, s'.depth, List.mem_singleton.1 hr⟩

end Scanner

/-! ## Listings -/

namespace TokenStream

variable {P : Scanner → Prop} {s : TokenStream} {source : String}

theorem scanner_advance (hP : ∀ s s', P s → s.Logs s' → P s') (h : P s.scanner) :
    P s.advance.2.scanner := by
  obtain ⟨-, hscanner, -⟩ := s.advance_eq
  rw [hscanner]
  exact hP _ _ h (s.scanner.logs_read _)

theorem scanner_ofString (hP : ∀ s s', P s → s.Logs s' → P s')
    (h : P (Scanner.ofString source)) (hs : ofString source = .ok s) : P s.scanner := by
  have hread := hP _ _ h ((Scanner.ofString source).logs_read none)
  rwa [read_of_ofString hs] at hread

/-- The log of a listing is that of the scanner where the listing ends. -/
theorem exists_scanner_of_listing (hP : ∀ s s', P s → s.Logs s' → P s') (h : P s.scanner) (n : Nat) :
    ∃ s', P s' ∧ (s.listing n).log = s'.log := by
  induction n generalizing s with
  | zero => exact ⟨s.scanner, h, rfl⟩
  | succ n ih =>
    have hadvance := scanner_advance hP h
    rw [listing]
    split
    · exact ⟨s.scanner, h, rfl⟩
    · split
      · next hs => exact ih (by rwa [hs] at hadvance)
      · next s' hs => exact ⟨s'.scanner, by rwa [hs] at hadvance, rfl⟩

end TokenStream

theorem exists_scanner_of_tokenize {P : Scanner → Prop} (source : String)
    (hP : ∀ s s', P s → s.Logs s' → P s') (h : P (Scanner.ofString source)) :
    ∃ s', P s' ∧ (tokenize source).log = s'.log := by
  unfold tokenize
  split
  · next s hs =>
    exact TokenStream.exists_scanner_of_listing hP (TokenStream.scanner_ofString hP h hs) _
  · exact ⟨_, h, rfl⟩

theorem Scanner.tracked_ofString (source : String) : (Scanner.ofString source).Tracked :=
  ⟨0, .nil 0, .inl rfl⟩

/-- The changes of depth in the log of a listing chain. -/
theorem chains_tokenize (source : String) : ∃ d, Chains 0 (moves (tokenize source).log) d := by
  obtain ⟨s, ⟨d, hchains, -⟩, hlog⟩ := exists_scanner_of_tokenize source
    (fun _ _ => Scanner.Tracked.of_logs) (Scanner.tracked_ofString source)
  exact ⟨d, hlog ▸ hchains⟩

example : moves (tokenize "if 1:\n  if 2:\n    print 3\nprint 4").log = [(0, 2), (2, 4), (4, 0)] := by
  decide +kernel

/-- A listing makes no other records. -/
theorem exists_of_mem_log_tokenize (source : String) :
    ∀ r ∈ (tokenize source).log.toList, ∃ line before after, r = .indentation line before after := by
  obtain ⟨s, hs, hlog⟩ := exists_scanner_of_tokenize source
    (fun _ _ => Scanner.exists_of_mem_log_of_logs) (by simp [Scanner.ofString])
  exact hlog ▸ hs

/-! ## Programs -/

/-- What holds of a stream wherever a rule may move it. -/
def Matching.keeping (P : TokenStream → Prop) (hadvance : ∀ s, P s → P s.advance.2)
    (hreport : ∀ s r, r.component = "mython.parser" → P s → P (s.report r)) :
    Matching TokenStream TokenStream where
  At s t := s = t ∧ P s
  Left s t := s = t ∧ P s
  Excused _ := False
  left_of_at := id
  current_eq h := by rw [h.1]
  line_eq h := by rw [h.1]
  at_report := by
    rintro s _ r hr ⟨rfl, h⟩
    exact ⟨rfl, hreport _ r hr h⟩
  advance_of_ok := by
    rintro s _ s' u ⟨rfl, h⟩ ha
    have hs : P s.advance.2 := hadvance s h
    exact ⟨s', ha, rfl, by rwa [show s.advance = _ from ha] at hs⟩
  advance_of_error := by
    rintro s _ s' e ⟨rfl, h⟩ ha
    have hs : P s.advance.2 := hadvance s h
    exact .inr ⟨s', ha, rfl, by rwa [show s.advance = _ from ha] at hs⟩

namespace TokenStream

/-- What every move of a stream keeps holds also where the rules leave it, whether they fail or not. -/
theorem keeps_statements {P : TokenStream → Prop} {s : TokenStream} (known : ClassTable) (n : Nat)
    (hadvance : ∀ s, P s → P s.advance.2)
    (hreport : ∀ s r, r.component = "mython.parser" → P s → P (s.report r)) (h : P s) :
    P (Parse.result (Parse.statements n) ⟨s, [], known⟩).2.stream := by
  -- the rules agree with themselves wherever a stream matches itself, and `P` goes along
  let M : Matching TokenStream TokenStream := .keeping P hadvance hreport
  have hagrees : M.Agrees (Parse.statements n) (Parse.statements n) := .statements (.refl n)
  cases hr : Parse.result (Parse.statements (σ := TokenStream) n) ⟨s, [], known⟩ with
  | mk r st =>
    cases r with
    | ok body =>
      obtain ⟨_, -, hst⟩ := hagrees.of_ok (.start known ⟨rfl, h⟩) hr
      exact hst.stream.2
    | error e =>
      obtain ⟨_, -, hst⟩ := hagrees.of_error (.start known ⟨rfl, h⟩) hr id
      exact hst.2

end TokenStream

namespace Program

variable {known : ClassTable} {source : String}

/-- The log of a source is that of the stream where the rules leave it. -/
theorem log_of_ofString {s : TokenStream} (hs : TokenStream.ofString source = .ok s) :
    (ofSource known source).2 =
      (Parse.result (Parse.statements (tokenBound source)) ⟨s, [], known⟩).2.stream.scanner.log := by
  simp only [ofSource, hs, Parse.result]
  split
  · next he => rw [he]
  · next he => rw [he]

/-- The changes of depth that are reported while a source is read chain, whether it is a program or
not. -/
theorem chains_ofSource (known : ClassTable) (source : String) :
    ∃ d, Chains 0 (moves (ofSource known source).2) d := by
  cases hs : TokenStream.ofString source with
  | error e =>
    rw [ofSource, hs]
    exact ⟨0, .nil 0⟩
  | ok s =>
    have hstart : s.scanner.Tracked := TokenStream.scanner_ofString
      (fun _ _ => Scanner.Tracked.of_logs) (Scanner.tracked_ofString source) hs
    have hreport : ∀ (s : TokenStream) (r : LogRecord), r.component = "mython.parser" →
        s.scanner.Tracked → (s.report r).scanner.Tracked :=
      fun s r hr h => h.push (by simp [hr])
    obtain ⟨d, hchains, -⟩ := TokenStream.keeps_statements (P := fun s => s.scanner.Tracked) known
      (tokenBound source) (fun _ => TokenStream.scanner_advance fun _ _ => Scanner.Tracked.of_logs)
      hreport hstart
    rw [log_of_ofString hs]
    exact ⟨d, hchains⟩

end Program

/-! ## Runs -/

/-- The log tells of these changes of depth. -/
def Invariant.moves (ms : List (Nat × Nat)) : Invariant where
  Holds _ st := Offside.moves st.log = ms
  Binds _ _ := True
  binds_away _ := trivial
  holds_bindName _ h _ := h
  holds_write _ h := h
  holds_construct _ h := h
  holds_setField _ _ _ h := h
  holds_address _ h := h
  holds_report {_ _ _} hr h := (moves_push_of_component (by simp [hr])).trans h
  holds_enter _ h := h
  holds_leave _ h := h

theorem Run.moves_program (σ : Setting) (depth : Nat) (body : Node) (st : RunState) :
    moves (program σ depth body st).2.log = moves st.log := by
  rw [program_snd]
  exact (Invariant.moves (moves st.log)).holds_execute (i := .own) σ depth
    (fun m _ => .of_forall (fun _ => trivial) m) rfl

namespace Session

variable {s : Session}

theorem moves_report {records : Log} (h : moves records = []) :
    moves (s.report records).state.log = moves s.state.log := by
  show moves (s.state.log ++ records) = _
  rw [moves_append, h, List.append_nil]

theorem moves_read (s : Session) (path source : String) :
    moves (s.read path source).2.state.log =
      moves s.state.log ++ moves (Program.ofSource s.table source).2 := by
  have hlog : ∀ log : Log, moves ((s.report #[.parsing path]).report log).state.log =
      moves s.state.log ++ moves log := by
    intro log
    show moves (s.state.log ++ #[.parsing path] ++ log) = _
    rw [moves_append, moves_append]
    exact congrArg (· ++ moves log) (List.append_nil _)
  unfold read
  cases Program.ofSource s.table source with
  | mk result log => cases result <;> exact hlog log

theorem moves_runProgram (s : Session) (o : Options) (p : Program) :
    moves (s.runProgram o p).2.state.log = moves s.state.log :=
  (Run.moves_program ..).trans (moves_report rfl)

/-- What is told about an error is no change of depth. -/
theorem moves_reportError (s : Session) (path : String) (error? : Option Error) :
    moves (s.reportError path error?).state.log = moves s.state.log := by
  unfold reportError
  split
  · rfl
  · exact moves_report rfl

/-- Running a source reports the changes of depth that reading it does. -/
theorem moves_run (s : Session) (o : Options) (path source : String) :
    moves (s.run o path source).2.state.log =
      moves s.state.log ++ moves (Program.ofSource s.table source).2 := by
  have hread := s.moves_read path source
  unfold run
  cases hr : s.read path source with
  | mk result s₁ =>
    rw [hr] at hread
    refine Eq.trans ?_ hread
    cases result with
    | error e => exact s₁.moves_reportError path _
    | ok p => exact (Session.moves_reportError ..).trans (s₁.moves_runProgram o p)

end Session

end Offside
