import Offside.Proofs.KnownStates
import Offside.Proofs.Programs
import Offside.Session

set_option autoImplicit false

/-! # Sessions

What running a source comes to: its program runs from the state that the session was left in, but
for the log. A session is *well formed* if all that it leads to is there; every session is that
begins without anything and has run some sources. -/

namespace Offside.Session

variable {s s₁ : Session} {path source : String} {p : Program}

/-! ## Reading and running -/

/-- A source that was read is a program, whose classes the session knows from then on. -/
theorem of_read (h : s.read path source = (.ok p, s₁)) :
    (Program.ofSource s.table source).1 = .ok p ∧ s₁.table = p.table := by
  rw [read] at h
  cases hp : Program.ofSource s.table source with
  | mk result log =>
    cases result with
    | ok q =>
      simp only [hp, Prod.mk.injEq, Except.ok.injEq] at h
      obtain ⟨rfl, rfl⟩ := h
      exact ⟨rfl, rfl⟩
    | error e => simp [hp] at h

/-- What is reported about an error goes into the log and nowhere else. -/
theorem exists_reportError_eq (s : Session) (path : String) (error? : Option Error) :
    ∃ log, s.reportError path error? = { s with state.log := log } := by
  unfold reportError
  split
  · exact ⟨s.state.log, rfl⟩
  · exact ⟨_, rfl⟩

/-- A source that was read is run from the state that reading it left. -/
theorem run_of_read (o : Options) (h : s.read path source = (.ok p, s₁)) :
    s.run o path source =
      match Run.program (s₁.setting o) o.depth p.body
          (s₁.report #[.running (classNames p)]).state with
      | (error?, state) => (error?, reportError ⟨s₁.table, state⟩ path error?) := by
  rw [run, h]
  rfl

/-- The state in which a program starts that was read from a source at `path`. -/
def start (s : Session) (path source : String) (p : Program) : RunState :=
  ((s.read path source).2.report #[.running (classNames p)]).state

/-- Reading a source that is a program changes the classes and the log. -/
theorem exists_read_eq_of_ofSource (path : String) (h : (Program.ofSource s.table source).1 = .ok p) :
    ∃ log, s.read path source = (.ok p, ⟨p.table, { s.state with log }⟩) := by
  cases hsource : Program.ofSource s.table source with
  | mk result log =>
    obtain rfl : result = .ok p := by rw [← h, hsource]
    exact ⟨s.state.log ++ #[.parsing path] ++ log, by rw [read, hsource]; rfl⟩

theorem exists_start_eq (path : String) (h : (Program.ofSource s.table source).1 = .ok p) :
    ∃ log, s.start path source p = { s.state with log } := by
  obtain ⟨log, hread⟩ := exists_read_eq_of_ofSource path h
  exact ⟨log.push (.running (classNames p)), by rw [start, hread]; rfl⟩

theorem run_eq_of_ofSource (path : String) (h : (Program.ofSource s.table source).1 = .ok p)
    (o : Options) :
    s.run o path source =
      match Run.program ⟨p.table, o.typedReturns⟩ o.depth p.body (s.start path source p) with
      | (error?, state) => (error?, reportError ⟨p.table, state⟩ path error?) := by
  obtain ⟨log, hread⟩ := exists_read_eq_of_ofSource path h
  rw [run_of_read o hread, start, hread]
  rfl

/-- A source that adds no class runs with the classes of the session. -/
theorem run_eq_of_table_eq (path : String) (h : (Program.ofSource s.table source).1 = .ok p)
    (htable : p.table = s.table) (o : Options) :
    s.run o path source =
      match Run.program (s.setting o) o.depth p.body (s.start path source p) with
      | (error?, state) => (error?, reportError ⟨s.table, state⟩ path error?) := by
  rw [run_eq_of_ofSource path h, htable]
  rfl

/-- A source that is a program runs as the program does from the state of the session, with a log that
is the same for all ways to run it. -/
theorem exists_run_eq_of_ofSource (path : String)
    (h : (Program.ofSource s.table source).1 = .ok p) :
    ∃ log, ∀ o : Options, s.run o path source =
      match Run.program ⟨p.table, o.typedReturns⟩ o.depth p.body { s.state with log } with
      | (error?, state) => (error?, reportError ⟨p.table, state⟩ path error?) := by
  obtain ⟨log, hstart⟩ := exists_start_eq path h
  exact ⟨log, fun o => hstart ▸ run_eq_of_ofSource path h o⟩

/-- A source that is a program runs as the program does, but for the log. -/
theorem run_of_ofSource (o : Options) (path : String)
    (h : (Program.ofSource s.table source).1 = .ok p) :
    ∃ log, let r := Run.program ⟨p.table, o.typedReturns⟩ o.depth p.body { s.state with log }
      (s.run o path source).1 = r.1 ∧ (s.run o path source).2.table = p.table ∧
        r.2.SameButLog (s.run o path source).2.state := by
  obtain ⟨log, hrun⟩ := exists_run_eq_of_ofSource path h
  refine ⟨log, ?_⟩
  intro r
  have hr : Run.program ⟨p.table, o.typedReturns⟩ o.depth p.body { s.state with log } = r := rfl
  rw [hrun, hr]
  clear_value r
  obtain ⟨error?, state⟩ := r
  obtain ⟨log', hreport⟩ := exists_reportError_eq ⟨p.table, state⟩ path error?
  exact ⟨rfl, congrArg Session.table hreport, log', congrArg Session.state hreport⟩

/-- A source that is no program leaves all but the log as it was. -/
theorem run_of_ofSource_error (o : Options) (path : String) {e : Error}
    (h : (Program.ofSource s.table source).1 = .error e) :
    (s.run o path source).1 = some e ∧ (s.run o path source).2.table = s.table ∧
      s.state.SameButLog (s.run o path source).2.state := by
  cases hsource : Program.ofSource s.table source with
  | mk result log =>
    obtain rfl : result = .error e := by rw [← h, hsource]
    have hrun : s.run o path source =
        (some e, ((s.report #[.parsing path]).report log).reportError path (some e)) := by
      rw [run, read, hsource]
    obtain ⟨log', hreport⟩ :=
      exists_reportError_eq ((s.report #[.parsing path]).report log) path (some e)
    rw [hrun, hreport]
    exact ⟨rfl, rfl, log', rfl⟩

/-! ## Well-formed sessions -/

/-- The methods of all classes name known classes only, and so does all that the bindings and the
objects lead to. -/
structure WellFormed (s : Session) : Prop where
  table : s.table.Closed
  state : s.state.Known s.table.size

theorem wellFormed_initial : initial.WellFormed :=
  ⟨ClassTable.closed_empty, RunState.known_initial⟩

/-- Reading behind a well-formed session gives a closed program. -/
theorem WellFormed.closed (hs : s.WellFormed) (h : (Program.ofSource s.table source).1 = .ok p) :
    p.body.Closed p.table.size ∧ p.table.Closed ∧ s.table.Extends p.table :=
  (Program.derives_of_ofSource h).2.closed hs.table

/-- A session stays well formed, whether a source is a program or not, and however it ends. -/
theorem WellFormed.run (hs : s.WellFormed) (o : Options) (path source : String) :
    (s.run o path source).2.WellFormed := by
  cases hp : (Program.ofSource s.table source).1 with
  | ok p =>
    obtain ⟨hbody, htable, hextends⟩ := hs.closed hp
    obtain ⟨log, -, hrun, hlog⟩ := run_of_ofSource o path hp
    have hstate : ({ s.state with log } : RunState).Known p.table.size :=
      RunState.SameButLog.known ⟨log, rfl⟩ (hs.state.mono hextends.size_le)
    obtain ⟨-, -, hknown⟩ := program_extending (.refl _) htable o.typedReturns o.depth hbody
      hstate (RunState.SameButLog.iff_continues.1 (.refl _))
    constructor
    · rw [hrun]
      exact htable
    · rw [hrun]
      exact hlog.known hknown
  | error e =>
    obtain ⟨-, hrun, hlog⟩ := run_of_ofSource_error o path hp
    constructor
    · rw [hrun]
      exact hs.table
    · rw [hrun]
      exact hlog.known hs.state

end Offside.Session
