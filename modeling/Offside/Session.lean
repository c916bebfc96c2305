import Offside.Program.Source
import Offside.Run.Execute

set_option autoImplicit false

/-! # Sessions

A session runs sources one after the other on one set of bindings. Its classes, its objects and its
output only grow, so what an earlier source made goes on working when a later one uses its names
anew. -/

namespace Offside

/-- How sources are run. -/
structure Options where
  /-- Whether a method hands back the value it returns as it is, and not in its printed form. -/
  typedReturns : Bool
  /-- How deep a run may go. -/
  depth : Nat
  deriving DecidableEq, Repr, Inhabited

/-- The usual way: printed forms are handed back, and a run may go a million deep. -/
def Options.standard : Options := ⟨false, 1000000⟩

/-- All classes known, and what the sources so far have left behind. The frame of the state holds the
bindings outside of methods. -/
structure Session where
  table : ClassTable
  state : RunState
  deriving DecidableEq, Repr, Inhabited

namespace Session

/-- The session in which nothing has run. -/
def initial : Session := ⟨.empty, .initial⟩

/-- Adds records to the log. -/
def report (s : Session) (records : Log) : Session :=
  { s with state.log := s.state.log ++ records }

/-- What runs of this session depend on. -/
def setting (s : Session) (o : Options) : Setting := ⟨s.table, o.typedReturns⟩

/-- Reads a source that stands at `path`. -/
def read (s : Session) (path source : String) : Except Error Program × Session :=
  let (result, log) := Program.ofSource s.table source
  let s := (s.report #[.parsing path]).report log
  match result with
  | .ok p => (.ok p, { s with table := p.table })
  | .error e => (.error e, s)

/-- The names of the classes of a program, in the order of code points. -/
def classNames (p : Program) : List String :=
  (p.classes.map Prod.fst).mergeSort fun a b => decide (a ≤ b)

/-- Runs a program that was read in this session. -/
def runProgram (s : Session) (o : Options) (p : Program) : Option Error × Session :=
  let s := s.report #[.running (classNames p)]
  let (error?, state) := Run.program (s.setting o) o.depth p.body s.state
  (error?, { s with state })

/-- Adds the error of a source that stands at `path` to the log, if it is reported at all. -/
def reportError (s : Session) (path : String) (error? : Option Error) : Session :=
  match error?.bind Error.diagnosis? with
  | none => s
  | some d => s.report #[.aborted path d.message]

/-- Reads and runs a source that stands at `path`. -/
def run (s : Session) (o : Options) (path source : String) : Option Error × Session :=
  let (error?, s) :=
    match s.read path source with
    | (.ok p, s) => s.runProgram o p
    | (.error e, s) => (some e, s)
  (error?, s.reportError path error?)

end Session

end Offside
