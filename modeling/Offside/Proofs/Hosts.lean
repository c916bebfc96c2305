import Offside.Proofs.Growth
import Offside.Proofs.Sessions

set_option autoImplicit false

/-! # Hosts

A *host* uses one session for whatever it likes: it runs sources, reads programs and keeps them, runs
a program that it has kept as often as it wants to, makes classes and objects of its own, and runs
trees that it has put together itself. Whatever it does, all that its session leads to is there, and
nothing is taken back. -/

namespace Offside

open Run

/-! ## Sessions that grow -/

/-- The second session has the classes of the first one, and nothing of its state is gone. -/
structure Session.Grows (s s' : Session) : Prop where
  table : s.table.Extends s'.table
  state : s.state.Grows s'.state

namespace Session

variable {s s' s'' : Session} {path source : String} {p : Program}

theorem Grows.refl (s : Session) : s.Grows s := ⟨.refl _, .refl _⟩

theorem Grows.trans (h : s.Grows s') (h' : s'.Grows s'') : s.Grows s'' :=
  ⟨h.table.trans h'.table, h.state.trans h'.state⟩

theorem grows_of_sameButLog {st st' : RunState} (h : st.SameButLog st') : st.Grows st' := by
  obtain ⟨log, rfl⟩ := h
  exact ⟨.refl _, fun _ h => h, ⟨"", by simp⟩, List.prefix_refl _⟩

/-- Running a source takes nothing back. -/
theorem WellFormed.grows_run (hs : s.WellFormed) (o : Options) (path source : String) :
    s.Grows (s.run o path source).2 := by
  cases hp : (Program.ofSource s.table source).1 with
  | ok p =>
    obtain ⟨log, -, htable, hlog⟩ := run_of_ofSource o path hp
    rw [program_snd] at hlog
    have hbefore : s.state.SameButLog { s.state with log } := ⟨log, rfl⟩
    constructor
    · rw [htable]
      exact (hs.closed hp).2.2
    · exact ((grows_of_sameButLog hbefore).trans (grows_execute ..)).trans (grows_of_sameButLog hlog)
  | error e =>
    obtain ⟨-, htable, hlog⟩ := run_of_ofSource_error o path hp
    constructor
    · rw [htable]
      exact .refl _
    · exact grows_of_sameButLog hlog

/-- Reading a source changes the state in the log only. -/
theorem sameButLog_read (s : Session) (path source : String) :
    s.state.SameButLog (s.read path source).2.state := by
  rw [Session.read]
  cases Program.ofSource s.table source with
  | mk result log => cases result <;> exact ⟨_, rfl⟩

/-- It adds the classes of the source to the table, if it is a program, and nothing otherwise. -/
theorem WellFormed.read (hs : s.WellFormed) (path source : String) :
    (s.read path source).2.WellFormed ∧ s.Grows (s.read path source).2 := by
  have hlog := sameButLog_read s path source
  have htable : (s.read path source).2.table.Closed ∧
      s.table.Extends (s.read path source).2.table := by
    rw [Session.read]
    cases hsource : Program.ofSource s.table source with
    | mk result log =>
      cases result with
      | ok p => exact (hs.closed (congrArg Prod.fst hsource)).2
      | error e => exact ⟨hs.table, .refl _⟩
  obtain ⟨hclosed, hextends⟩ := htable
  exact ⟨⟨hclosed, hlog.known (hs.state.mono hextends.size_le)⟩, hextends, grows_of_sameButLog hlog⟩

/-- So does running a tree that leads to nothing unknown, whatever was logged before. -/
theorem WellFormed.execute (hs : s.WellFormed) (o : Options) {n : Node}
    (hn : n.Every (Node.Known s.table.size s.state.heap.size)) {st : RunState}
    (hst : s.state.SameButLog st) :
    let after : Session := ⟨s.table, (outcome (Run.execute (s.setting o) o.depth n) st).2⟩
    after.WellFormed ∧ s.Grows after := by
  obtain ⟨-, -, hknown, -⟩ := execute_extending (.refl s.table) hs.table o.typedReturns o.depth
    (by obtain ⟨log, rfl⟩ := hst; exact hn) (hst.known hs.state)
    (RunState.SameButLog.iff_continues.1 (.refl _))
  exact ⟨⟨hs.table, hknown⟩, .refl _, (grows_of_sameButLog hst).trans (grows_execute ..)⟩

end Session

/-! ## What a host does -/

/-- A session, and the programs that were read in it and kept. -/
structure Host where
  session : Session
  programs : List Program

namespace Host

/-- The host that has not done anything. -/
def initial : Host := ⟨.initial, []⟩

/-- Runs a source. -/
def run (h : Host) (o : Options) (path source : String) : Host :=
  { h with session := (h.session.run o path source).2 }

/-- Reads a source and keeps it, if it is a program. -/
def keep (h : Host) (path source : String) : Host :=
  match h.session.read path source with
  | (.ok p, session) => ⟨session, p :: h.programs⟩
  | (.error _, session) => { h with session }

/-- Runs a program. -/
def runProgram (h : Host) (o : Options) (p : Program) : Host :=
  { h with session := (h.session.runProgram o p).2 }

/-- How a tree ends on the session of the host, and the state that it leaves. -/
def outcomeOf (h : Host) (o : Options) (n : Node) : Except Interrupt Value × RunState :=
  outcome (Run.execute (h.session.setting o) o.depth n) h.session.state

/-- Makes a class. -/
def define (h : Host) (d : ClassDecl) : Host :=
  { h with session.table := h.session.table.add d }

/-- Makes an object. -/
def construct (h : Host) (cls : ClassRef) : Host :=
  { h with session.state.heap := h.session.state.heap.add cls }

/-- Runs a tree. -/
def execute (h : Host) (o : Options) (n : Node) : Host :=
  { h with session.state := (h.outcomeOf o n).2 }

/-- The tree leads to classes and objects of the host only. -/
def Knows (h : Host) (n : Node) : Prop :=
  n.Every (Node.Known h.session.table.size h.session.state.heap.size)

/-- What a host can do at a time. -/
inductive Step : Host → Host → Prop
  | run (h : Host) (o : Options) (path source : String) : Step h (h.run o path source)
  | keep (h : Host) (path source : String) : Step h (h.keep path source)
  | runProgram {h : Host} (o : Options) {p : Program} (hp : p ∈ h.programs) :
    Step h (h.runProgram o p)
  | define {h : Host} {d : ClassDecl} (hd : ∀ m ∈ d.methods, m.Closed (h.session.table.size + 1)) :
    Step h (h.define d)
  | construct {h : Host} {cls : ClassRef} (hcls : cls.index < h.session.table.size) :
    Step h (h.construct cls)
  | execute {h : Host} (o : Options) {n : Node} (hn : h.Knows n) : Step h (h.execute o n)

/-- What a host can come to. -/
def Reaches : Host → Host → Prop := Relation.ReflTransGen Step

/-! ## Sound hosts -/

/-- The session is well formed, and the programs that were kept lead to its classes only. -/
structure Sound (h : Host) : Prop where
  session : h.session.WellFormed
  programs : ∀ p ∈ h.programs, p.body.Closed h.session.table.size

variable {h h' : Host}

theorem sound_initial : initial.Sound := ⟨Session.wellFormed_initial, by simp [initial]⟩

/-- A host stays sound where its session does and has grown. -/
theorem Sound.of_grows (hs : h.Sound) {session : Session} (hsession : session.WellFormed)
    (hgrows : h.session.Grows session) : Sound { h with session } :=
  ⟨hsession, fun p hp => (hs.programs p hp).mono hgrows.table.size_le⟩

/-- Whatever a sound host does, it stays sound, and its session grows. -/
theorem Step.sound (hstep : Step h h') (hs : h.Sound) : h'.Sound ∧ h.session.Grows h'.session := by
  cases hstep with
  | run o path source =>
    have hgrows := hs.session.grows_run o path source
    exact ⟨hs.of_grows (hs.session.run o path source) hgrows, hgrows⟩
  | keep path source =>
    obtain ⟨hsession, hgrows⟩ := hs.session.read path source
    cases hread : h.session.read path source with
    | mk result session =>
      rw [hread] at hsession hgrows
      cases result with
      | ok p =>
        rw [show h.keep path source = ⟨session, p :: h.programs⟩ by rw [Host.keep, hread]]
        obtain ⟨hp, htable⟩ := Session.of_read hread
        have hbody : p.body.Closed session.table.size := htable ▸ (hs.session.closed hp).1
        have hold := (hs.of_grows hsession hgrows).programs
        exact ⟨⟨hsession, List.forall_mem_cons.2 ⟨hbody, hold⟩⟩, hgrows⟩
      | error e =>
        rw [show h.keep path source = { h with session } by rw [Host.keep, hread]]
        exact ⟨hs.of_grows hsession hgrows, hgrows⟩
  | @runProgram o p hp =>
    have hbody := (hs.programs p hp).known h.session.state.heap.size
    have hlog : h.session.state.SameButLog
        (h.session.report #[.running (Session.classNames p)]).state := ⟨_, rfl⟩
    have hafter := hs.session.execute o hbody hlog
    rw [← program_snd] at hafter
    exact ⟨hs.of_grows hafter.1 hafter.2, hafter.2⟩
  | @define d hd =>
    have htable : (h.session.table.add d).Closed := by
      rw [ClassTable.Closed, ClassTable.size_add]
      exact (hs.session.table.mono fun m (hm : m.Closed _) => hm.mono (Nat.le_succ _)).add hd
    have hextends := ClassTable.Extends.add h.session.table d
    have hgrows : h.session.Grows (h.define d).session := ⟨hextends, .refl _⟩
    exact ⟨hs.of_grows ⟨htable, hs.session.state.mono hextends.size_le⟩ hgrows, hgrows⟩
  | @construct cls hcls =>
    have hheap := Heap.Grows.add h.session.state.heap cls
    have hgrows : h.session.Grows (h.construct cls).session :=
      ⟨.refl _, hheap, fun _ hname => hname, ⟨"", by simp [Host.construct]⟩, List.prefix_refl _⟩
    have hstate := hs.session.state
    have hframe := hstate.frame.mono (Nat.le_refl _) (Nat.le_succ _)
    have hsize : (h.session.state.heap.add cls).size = h.session.state.heap.size + 1 := by simp
    exact ⟨hs.of_grows ⟨hs.session.table, hsize ▸ hframe, hstate.heap.add hcls⟩ hgrows, hgrows⟩
  | execute o hn =>
    have hafter := hs.session.execute o hn (.refl _)
    exact ⟨hs.of_grows hafter.1 hafter.2, hafter.2⟩

theorem Reaches.sound (hreach : h.Reaches h') (hs : h.Sound) :
    h'.Sound ∧ h.session.Grows h'.session := by
  induction hreach with
  | refl => exact ⟨hs, .refl _⟩
  | tail _ hstep ih =>
    obtain ⟨hs', hgrows⟩ := ih
    obtain ⟨hs'', hgrows'⟩ := hstep.sound hs'
    exact ⟨hs'', hgrows.trans hgrows'⟩

/-! ## What a host can rely on -/

/-- Whatever a host has done, and whatever tree it runs then that leads to its own classes and
objects only, in either mode, however deep a run may go and however it ends: all that its bindings,
its objects and the value that the tree ends with lead to is there; no object, no field, no binding
and no output of before is gone, and no object has another class; an object that was shown has the
address it had, which is no other object's, and one without a text of its own is printed with its
address. Whatever the host does later, its classes stay what they are, and no class that comes later
has a part in what the tree does. -/
theorem state_only_grows {h₀ h : Host} (hs : h₀.Sound) (hreach : h₀.Reaches h) (o : Options)
    {n : Node} (hn : h.Knows n) :
    let t := h.session.table
    let st := h.session.state
    let r := h.outcomeOf o n
    (st.Known t.size ∧ r.2.Known t.size ∧
      ∀ v, r.1 = .ok v ∨ r.1 = .error (.returned v) → v.Known t.size r.2.heap.size) ∧
      st.Grows r.2 ∧
      ((∀ a k, st.address? a = some k → r.2.address? a = some k) ∧
        (∀ a b k, r.2.address? a = some k → r.2.address? b = some k → a = b) ∧
        ∀ a, t.methodOf? (r.2.heap.get a).cls strName 0 = none → ∃ k st',
          Gives (render (h.session.setting o) (o.depth + 1) (.object a)) r.2
            (showAddress (t.name (r.2.heap.get a).cls) k) st' ∧ st'.address? a = some k) ∧
      ∀ h', h.Reaches h' → h'.Sound ∧ h.session.Grows h'.session ∧
        (∀ a k, st.address? a = some k → h'.session.state.address? a = some k) ∧
        (∀ a : ObjectRef, a.index < st.heap.size →
          (h'.session.state.heap.get a).cls = (st.heap.get a).cls ∧
            ∀ name arguments, h'.session.table.methodOf? (st.heap.get a).cls name arguments =
              t.methodOf? (st.heap.get a).cls name arguments) ∧
        let r' := outcome (Run.execute (h'.session.setting o) o.depth n) st
        r'.1 = r.1 ∧ r.2.SameButLog r'.2 := by
  intro t st r
  obtain ⟨hsound, -⟩ := hreach.sound hs
  have hstate : st.Known t.size := hsound.session.state
  have hsame : st.Continues "" st := RunState.SameButLog.iff_continues.1 (.refl _)
  have hextending : ∀ {t' : ClassTable}, t.Extends t' → _ := fun {t'} hextends =>
    execute_extending hextends hsound.session.table o.typedReturns o.depth hn hstate hsame
  obtain ⟨-, -, hknown, hvalue⟩ := hextending (.refl t)
  have hgrows : st.Grows r.2 := grows_execute ..
  refine ⟨⟨hstate, hknown, hvalue⟩, hgrows, ⟨?_, ?_, ?_⟩, ?_⟩
  · intro a k hk
    exact RunState.address?_of_prefix hgrows.shown hk
  · intro a b k ha hb
    exact RunState.eq_of_address? ha hb
  · intro a ha
    exact render_of_plain ha o.depth
  · intro h' hreach'
    obtain ⟨hsound', hgrows'⟩ := hreach'.sound hsound
    obtain ⟨hend, hleft, -⟩ := hextending hgrows'.table
    have haddress := fun a k => RunState.address?_of_prefix (o := a) (k := k) hgrows'.state.shown
    refine ⟨hsound', hgrows', haddress, ?_, hend, RunState.SameButLog.iff_continues.2 hleft⟩
    intro a ha
    have hcls : (st.heap.get a).cls.index < t.size := (hstate.heap.get ha).1
    exact ⟨(hgrows'.state.heap.get ha).2.cls_eq, hgrows'.table.methodOf?_eq hcls⟩

/-- A class that is defined again, an object of the first class of the name, and a tree that returns
what a method of it gives. -/
theorem state_of_class_defined_again :
    let o : Options := ⟨false, 20⟩
    let first := "class A:\n  def f():\n    return self\na = A()\nprint a\n"
    let h := (initial.run o "" first).run o "" "class A:\n  def g():\n    return 2\n"
    let n : Node := .returnValue (.call (.constant (.object ⟨0⟩)) "f" [])
    let r := h.outcomeOf o n
    initial.Sound ∧ initial.Reaches h ∧ h.Knows n ∧
      r.1 = .error (.returned (.string "<A object at 0x1>")) ∧ r.2.Known 2 ∧
      (∃ said, r.2.output = "<A object at 0x1>\n" ++ said) ∧ r.2.address? ⟨0⟩ = some 1 := by
  intro o first h n r
  have hreach : initial.Reaches h :=
    .tail (.single (.run initial o "" first)) (.run _ o "" _)
  have hvalues : (h.session.table.size, h.session.state.heap.size, h.session.state.output,
      h.session.state.address? ⟨0⟩, r.1) = (2, 1, "<A object at 0x1>\n", some 1,
        Except.error (.returned (.string "<A object at 0x1>"))) := by
    decide +kernel
  simp only [Prod.mk.injEq] at hvalues
  obtain ⟨htable, hheap, houtput, haddress, hvalue⟩ := hvalues
  have hn : h.Knows n := by
    have hobject : (Node.constant (.object ⟨0⟩)).Every
        (Node.Known h.session.table.size h.session.state.heap.size) :=
      Node.every_constant (show 0 < h.session.state.heap.size by rw [hheap]; decide)
    have hcall : (Node.call (.constant (.object ⟨0⟩)) "f" []).Every
        (Node.Known h.session.table.size h.session.state.heap.size) :=
      Node.every_iff.2 ⟨trivial, by simpa [Node.children, Node.operands, Node.statements]⟩
    exact Node.every_iff.2 ⟨trivial, by simpa [n, Node.children, Node.operands, Node.statements]⟩
  obtain ⟨⟨-, hknown, -⟩, hgrows, ⟨hkept, -, -⟩, -⟩ :=
    state_only_grows sound_initial hreach o hn
  rw [htable] at hknown
  rw [← houtput]
  exact ⟨sound_initial, hreach, hn, hvalue, hknown, hgrows.output, hkept _ _ haddress⟩

end Host

end Offside
