import Offside.CommandLine.Basic
import Offside.Proofs.IndentationLog
import Offside.Proofs.Invocations
import Offside.Proofs.LongNumerals
import Offside.Proofs.Sessions

set_option autoImplicit false

/-! # The command and the library

The command adds nothing to what it is asked for: it prints what running a source prints, or the
tokens that listing it gives, and behind the log that it was asked to show it tells of the error, if
there is one. Where the library stops at a limit, the command breaks off and tells of nothing. Neither
the order of its options nor the level of the log makes a difference to that, and the changes of depth
that the log tells of chain. -/

namespace Offside

/-! ## Answers -/

/-- The line that tells of an error, if there is one that is reported. -/
def errorLine (error? : Option Error) : String :=
  ((error?.bind Error.diagnosis?).map Invocation.diagnosisLine).getD ""

/-- The answer gives an output and the log, as far as the level shows it. Behind the log it tells of
an error, if there is one that is reported; at a limit it breaks off instead. -/
structure Response.Tells (r : Response) (level : LogLevel) (output : String) (log : Log)
    (error? : Option Error) : Prop where
  status : r.status = if error?.isSome then 1 else 0
  stdout : r.stdout = output
  stderr : r.stderr = Invocation.logText level log ++ errorLine error?
  broken : r.broken? = error?.bind Error.limit?

theorem Invocation.tells_conclude (i : Invocation) (output : String) (log : Log)
    (error? : Option Error) :
    (i.conclude output log error?).Tells i.level output log error? := by
  cases error? with
  | none => exact ⟨rfl, rfl, String.append_empty.symm, rfl⟩
  | some e => exact ⟨rfl, rfl, rfl, rfl⟩

/-! ## Listings -/

/-- The end of the input comes last, unless there is an error: then it does not come at all. -/
structure Listing.Complete (l : Listing) : Prop where
  ending : l.error? = none → ∃ ts, l.tokens = ts ++ [.endOfInput] ∧ .endOfInput ∉ ts
  failing : l.error? ≠ none → .endOfInput ∉ l.tokens

theorem TokenStream.Lists.endOfInput_notMem {s : TokenStream} {l : ListedTokens} (h : s.Lists l)
    (herror : l.error? ≠ none) : .endOfInput ∉ (l.current :: l.rest).map Prod.fst := by
  induction h with
  | ending hend => exact absurd rfl herror
  | failing hend _ => simpa using Ne.symm hend
  | advancing hend _ _ ih =>
    rw [List.map_cons, List.mem_cons, not_or]
    exact ⟨Ne.symm hend, ih herror⟩

theorem complete_tokenize (source : String) : (tokenize source).Complete where
  ending h := by
    obtain ⟨-, ts, htokens, -, -, hend, -⟩ := exists_tokens h
    exact ⟨ts, htokens, hend⟩
  failing h := by
    cases hs : TokenStream.ofString source with
    | error e => simp [tokenize, hs, Listing.tokens]
    | ok s =>
      obtain ⟨first, rest, hentries, hl⟩ := lists_of_ofString hs
      rw [Listing.tokens, hentries]
      exact hl.endOfInput_notMem h

/-! ## Runs -/

namespace Session

/-- Where a source stands makes no difference but for the log. -/
theorem WellFormed.run_elsewhere {s : Session} (hs : s.WellFormed) (o : Options)
    (path path' source : String) :
    (s.run o path' source).1 = (s.run o path source).1 ∧
      (s.run o path source).2.state.SameButLog (s.run o path' source).2.state := by
  cases hp : (Program.ofSource s.table source).1 with
  | error e =>
    obtain ⟨hend, -, hlog⟩ := run_of_ofSource_error o path hp
    obtain ⟨hend', -, hlog'⟩ := run_of_ofSource_error o path' hp
    exact ⟨hend'.trans hend.symm, hlog.symm.trans hlog'⟩
  | ok p =>
    -- the path goes into the log only, so the program starts from states that differ in no more
    obtain ⟨hbody, htable, hextends⟩ := hs.closed hp
    obtain ⟨log, hend, -, hlog⟩ := run_of_ofSource o path hp
    obtain ⟨log', hend', -, hlog'⟩ := run_of_ofSource o path' hp
    have hstate : ({ s.state with log } : RunState).Known p.table.size :=
      RunState.SameButLog.known ⟨log, rfl⟩ (hs.state.mono hextends.size_le)
    have hstates : ({ s.state with log } : RunState).SameButLog { s.state with log := log' } :=
      ⟨log', rfl⟩
    obtain ⟨hprogram, hleft, -⟩ := program_extending (.refl _) htable o.typedReturns o.depth hbody
      hstate (RunState.SameButLog.iff_continues.1 hstates)
    refine ⟨hend'.trans (hprogram.trans hend.symm), ?_⟩
    exact hlog.symm.trans ((RunState.SameButLog.iff_continues.2 hleft).trans hlog')

/-- What a run in the initial session reports about changes of depth chains. -/
theorem chains_run (o : Options) (path source : String) :
    ∃ d, Chains 0 (moves (initial.run o path source).2.state.log) d := by
  rw [moves_run]
  exact Program.chains_ofSource _ source

end Session

/-! ## The command -/

namespace Invocation

/-- How an invocation runs its script. -/
def options (i : Invocation) : Options := { Options.standard with typedReturns := i.typedReturns }

variable {i : Invocation}

/-- A script is run where it stands, but anywhere else the run would come to the same. -/
theorem tells_of_run (path path' text : String) (h : i.tokens = false) :
    let source := Text.unifyBreaks text
    let r := Session.initial.run i.options path' source
    (i.respondTo path text).Tells i.level r.2.state.output
      (Session.initial.run i.options path source).2.state.log r.1 := by
  intro source r
  obtain ⟨hend, log', hstate⟩ :=
    Session.wellFormed_initial.run_elsewhere i.options path path' source
  rw [respondTo, h, show r.1 = _ from hend, show r.2.state = _ from hstate]
  exact i.tells_conclude _ _ _

theorem tokenLines_eq (l : Listing) :
    tokenLines l = String.join (l.tokens.map fun t => t.text ++ "\n") := by
  rw [tokenLines, Listing.tokens, List.map_map]
  rfl

theorem tells_of_tokens (path text : String) (h : i.tokens = true) :
    let l := tokenize (Text.unifyBreaks text)
    (i.respondTo path text).Tells i.level (String.join (l.tokens.map fun t => t.text ++ "\n")) l.log
      (l.error?.map .ofRead) := by
  intro l
  rw [respondTo, h, ← tokenLines_eq]
  exact i.tells_conclude (tokenLines l) l.log (l.error?.map .ofRead)

/-- At a script that is a numeral with too many digits the command breaks off. -/
theorem tells_of_longNumeral (i : Invocation) (path : String) {word : List Char}
    (hword : Token.isNumeral word = true) (hlength : Text.maxDigits < word.length) :
    ∃ output log, (i.respondTo path (String.ofList word)).Tells i.level output log
      (some (.limit (.digits (.reading word.length)))) := by
  have hbreaks : Text.unifyBreaks (String.ofList word) = String.ofList word :=
    Text.unifyBreaks_of_notMem (by
      rw [String.toList_ofList]
      exact Token.notMem_of_isNumeral hword rfl)
  cases h : i.tokens with
  | false =>
    have htells := i.tells_of_run path path (String.ofList word) h
    have hread := Program.ofSource_of_longNumeral Session.initial.table hword hlength
    simp only [hbreaks, (Session.run_of_ofSource_error i.options path hread).1] at htells
    exact ⟨_, _, htells⟩
  | true =>
    have htells := i.tells_of_tokens path (String.ofList word) h
    have hlines := SourceLine.ofSource_of_isNumeral hword
    simp only [hbreaks, (tokenize_of_longNumeral hlines hword hlength).2] at htells
    exact ⟨_, _, htells⟩

end Invocation

theorem respond_of_ofArguments {directory text : String} {file? : String → Option String}
    {arguments : List String} {i : Invocation} (hi : Invocation.ofArguments arguments = .ok i)
    (hfile : file? (Path.resolve directory i.script) = some text) :
    respond directory file? arguments = i.respondTo (Path.resolve directory i.script) text := by
  simp only [respond, hi, hfile, Invocation.respond]

/-- Accepted arguments that name a script have it run or listed, and the answer tells what a run or a
listing of its text comes to. A run comes to the same wherever the script stands, and a listing
reports nothing but changes of depth. If there is an error, the status is 1, and one line tells of
it, unless it is a limit: then the command breaks off and there is no such line. Whether values are
handed back as they are matters to runs only, and the level only to what is shown of the log. -/
theorem respond_agrees {directory text : String} {file? : String → Option String}
    {arguments : List String} {i : Invocation} (hi : Invocation.ofArguments arguments = .ok i)
    (hfile : file? (Path.resolve directory i.script) = some text) :
    let answer := respond directory file? arguments
    let path := Path.resolve directory i.script
    let source := Text.unifyBreaks text
    (∃ args, Argument.ofTexts arguments = .ok args ∧ i.IsAskedBy (Argument.joinValues args)) ∧
    (i.tokens = false →
      let log := (Session.initial.run i.options path source).2.state.log
      (∃ d, Chains 0 (moves log) d) ∧
      ∀ path', let r := Session.initial.run i.options path' source
        answer.Tells i.level r.2.state.output log r.1) ∧
    (i.tokens = true →
      let l := tokenize source
      (∃ d, Chains 0 (moves l.log) d) ∧
      (∀ r ∈ l.log.toList, ∃ line before after, r = .indentation line before after) ∧
      l.Complete ∧
      answer.Tells i.level (String.join (l.tokens.map fun t => t.text ++ "\n")) l.log
        (l.error?.map .ofRead)) ∧
    ∀ (arguments' : List String) (i' : Invocation), Invocation.ofArguments arguments' = .ok i' →
      Path.resolve directory i'.script = path → i'.tokens = i.tokens →
      (i.tokens = false → i'.typedReturns = i.typedReturns) →
      ∃ output log error?, (∃ d, Chains 0 (moves log) d) ∧
        answer.Tells i.level output log error? ∧
        (respond directory file? arguments').Tells i'.level output log error? := by
  intro answer path source
  have hanswer : answer = i.respondTo path text := respond_of_ofArguments hi hfile
  refine ⟨Invocation.isAskedBy_of_ofArguments hi, fun htokens => ?_, fun htokens => ?_,
    fun arguments' i' hi' hpath htokens' hreturns => ?_⟩
  · refine ⟨Session.chains_run i.options path source, fun path' => ?_⟩
    rw [hanswer]
    exact Invocation.tells_of_run path path' text htokens
  · refine ⟨chains_tokenize source, exists_of_mem_log_tokenize source, complete_tokenize source, ?_⟩
    rw [hanswer]
    exact Invocation.tells_of_tokens path text htokens
  · have hanswer' : respond directory file? arguments' = i'.respondTo path text := by
      rw [respond_of_ofArguments hi' (by rw [hpath]; exact hfile), hpath]
    rw [hanswer, hanswer']
    cases htokens : i.tokens with
    | true =>
      exact ⟨_, _, _, chains_tokenize source, Invocation.tells_of_tokens path text htokens,
        Invocation.tells_of_tokens path text (htokens'.trans htokens)⟩
    | false =>
      -- the options of a run hold all that the arguments say about it, and the level is not there
      have hoptions : i'.options = i.options := by
        rw [Invocation.options, hreturns htokens, Invocation.options]
      have htells' := Invocation.tells_of_run path path text (htokens'.trans htokens)
      rw [hoptions] at htells'
      exact ⟨_, _, _, Session.chains_run i.options path source,
        Invocation.tells_of_run path path text htokens, htells'⟩

/-- A script prints a number and divides by zero then. The level that is named last counts, so the
log is not shown, and the error stands alone. -/
theorem respond_of_failing_script :
    let text := "if 1:\r\n  print 2\r\nprint 1/0"
    let file? : String → Option String := fun path =>
      if path = Path.resolve "/home" "s.my" then some text else none
    let arguments := ["--log-level=DEBUG", "s.my", "--typed-returns", "--log-level", "ERROR"]
    let i : Invocation := ⟨"s.my", true, false, .error⟩
    let answer := respond "/home" file? arguments
    Invocation.ofArguments arguments = .ok i ∧ file? (Path.resolve "/home" i.script) = some text ∧
    answer.status = 1 ∧ answer.stdout = "2\n" ∧
    answer.stderr = "mython: ZeroDivisionError: integer division by zero\n" ∧
    answer.broken? = none := by
  intro text file? arguments i answer
  have hi : Invocation.ofArguments arguments = .ok i := by decide +kernel
  have hfile : file? (Path.resolve "/home" i.script) = some text := if_pos rfl
  obtain ⟨-, hrun, -⟩ := respond_agrees hi hfile
  obtain ⟨-, htells⟩ := hrun rfl
  obtain ⟨hstatus, hstdout, hstderr, hbroken⟩ := htells "s.my"
  have hend : (Session.initial.run i.options "s.my" (Text.unifyBreaks text)).1 =
      some (.runtime .divisionByZero) := by decide +kernel
  have houtput : (Session.initial.run i.options "s.my" (Text.unifyBreaks text)).2.state.output =
      "2\n" := by decide +kernel
  rw [hend] at hstatus hstderr hbroken
  exact ⟨hi, hfile, hstatus, hstdout.trans houtput, hstderr, hbroken⟩

/-- A script that is a numeral of 4301 digits is neither run to its end nor told to be wrong. -/
theorem not_told_of_every_script :
    ¬ ∀ text : String, let answer := respond "/home" (fun _ => some text) ["s.my"]
      (answer.status = 0 ∧ answer.stderr = "") ∨
        answer.status = 1 ∧ ∃ d, answer.stderr = Invocation.diagnosisLine d := by
  intro hall
  let source := String.ofList (List.replicate 4301 '1')
  let i : Invocation := ⟨"s.my", false, false, .warning⟩
  have hi : Invocation.ofArguments ["s.my"] = .ok i := by decide +kernel
  have hanswer : respond "/home" (fun _ => some source) ["s.my"] =
      i.respondTo (Path.resolve "/home" "s.my") source := respond_of_ofArguments hi rfl
  obtain ⟨hword, hlength⟩ := Token.isNumeral_replicate_one
  obtain ⟨output, log, htells⟩ :=
    i.tells_of_longNumeral (Path.resolve "/home" "s.my") hword hlength
  rw [← hanswer] at htells
  rcases hall source with ⟨hstatus, -⟩ | ⟨-, d, hstderr⟩
  · exact absurd (hstatus.symm.trans htells.status) (by decide)
  · have hline : Invocation.diagnosisLine d = "" := hstderr.symm.trans htells.stderr
    simp [Invocation.diagnosisLine] at hline

end Offside
