import Offside.Proofs.Depth
import Offside.Proofs.WrittenNumbers

set_option autoImplicit false

/-! # Runs that do not end

A tree is finite, so what runs forever calls methods without end. Where the bindings lead to no object
with a method, statements without a class cannot call any: they end, and go no deeper than their tree
is high, also where objects lead to each other in circles. They end with a result or an error, unless
they come to a number with too many digits that is to be written. -/

namespace Offside

open Run

/-! ## What a state leads to -/

/-- The value is that of a binding, or that of a field of an object that the state leads to. -/
inductive RunState.LeadsTo (st : RunState) : Value → Prop
  | bound {name : String} {v : Value} (h : st.frame.get? name = some v) : st.LeadsTo v
  | field {o : ObjectRef} {name : String} {v : Value} (ho : st.LeadsTo (.object o))
    (h : (st.heap.get o).fields.get? name = some v) : st.LeadsTo v

/-- No object that the state leads to is of a class with a method, be it one of its own or an
inherited one. -/
def RunState.Methodless (t : ClassTable) (st : RunState) : Prop :=
  ∀ o, st.LeadsTo (.object o) → ∀ name, t.method? (st.heap.get o).cls name = none

/-- The log leads to nothing. -/
theorem RunState.LeadsTo.of_log {st : RunState} {log : Log} {v : Value}
    (h : ({ st with log } : RunState).LeadsTo v) : st.LeadsTo v := by
  induction h with
  | bound hv => exact .bound hv
  | field _ hv ih => exact .field ih hv

theorem RunState.Methodless.withLog {t : ClassTable} {st : RunState} (h : st.Methodless t)
    (log : Log) : ({ st with log } : RunState).Methodless t :=
  fun o ho => h o ho.of_log

namespace Sphere

/-- The objects that a state leads to, none of whose methods is called. -/
def ledBy (st : RunState) : Sphere where
  Inside o := st.LeadsTo (.object o)
  Calls := False
  Digits := True
  inside_of_calls h := h.elim

/-- All objects, whose methods may be called. -/
def all : Sphere where
  Inside _ := True
  Calls := True
  Digits := True
  inside_of_calls _ _ := trivial

theorem holds_ledBy {t : ClassTable} {st : RunState} (h : st.Methodless t) :
    (ledBy st).Holds t st where
  frame _ _ hv _ ho := .bound (ho ▸ hv)
  fields _ ho _ _ hv _ hp := .field ho (hp ▸ hv)
  methods o ho name m hm := by simp [h o ho name] at hm

theorem admits_ledBy {st : RunState} {n : Node} (h : n.Objectless) : n.Every (ledBy st).Admits := by
  refine h.mono fun m hm => ?_
  cases m with
  | constant v => exact fits_of_ne hm
  | construct => exact hm
  | _ => trivial

end Sphere

/-! ## Trees -/

namespace Run

variable {σ : Setting} {n : Node} {st st' : RunState} {d : Nat}

/-- Without methods to call, a tree goes no deeper than it is high. -/
theorem ends_of_methodless (hst : st.Methodless σ.table) (hn : n.Objectless) (hd : n.height ≤ d) :
    (outcome (execute σ d n) st).1 ≠ .error .tooDeep ∧
      (outcome (execute σ d n) st).2.calls = st.calls := by
  obtain ⟨H, hmethods⟩ := σ.table.exists_height_le
  have henough : (Sphere.ledBy st).Enough H 0 n.height d := .inr (by omega)
  have hstays := (Sphere.keeps_run trivial hmethods d 0).1 n (Sphere.admits_ledBy hn) henough st
    (Sphere.holds_ledBy hst)
  exact ⟨fun hdeep => (hstays.tooDeep hdeep).1, hstays.calls_eq id⟩

/-- Without methods to call, a tree stops at the limit of digits exactly if it comes to a number that
is to be written and has too many. -/
theorem stops_tooManyDigits_iff (hst : st.Methodless σ.table) (hn : n.Objectless)
    (hd : n.height ≤ d) :
    Stops (execute σ d n) st .tooManyDigits st' ↔
      ∃ a, (Moment.mk d n st).Reaches σ a ∧ a.Overflows σ st' := by
  obtain ⟨H, hmethods⟩ := σ.table.exists_height_le
  constructor
  · exact exists_overflows_of_stops (S := Sphere.ledBy st) id trivial hmethods hn
      (Sphere.admits_ledBy hn) hd (Sphere.holds_ledBy hst)
  · rintro ⟨a, hreaches, hoverflows⟩
    exact hreaches.stops hoverflows.stops

/-- A program that is not interrupted for its depth ends without an error, with one that it met
while running, or at a number that it was to write. -/
theorem program_ends (h : (outcome (execute σ d n) st).1 ≠ .error .tooDeep) :
    (program σ d n st).1 = none ∨ (∃ e, (program σ d n st).1 = some (.runtime e)) ∨
      (program σ d n st).1 = some (.limit (.digits .writing)) := by
  rw [program_eq]
  cases hr : outcome (execute σ d n) st with
  | mk result st' =>
    rw [hr] at h
    cases result with
    | ok v => exact .inl rfl
    | error i =>
      cases i with
      | returned v => exact .inr (.inl ⟨.returnOutsideMethod, rfl⟩)
      | failed e => exact .inr (.inl ⟨e, rfl⟩)
      | tooManyDigits => exact .inr (.inr rfl)
      | tooDeep => exact absurd rfl h

/-- A program ends at a number that it was to write exactly if its statements do. -/
theorem program_eq_digits_iff :
    program σ d n st = (some (.limit (.digits .writing)), st') ↔
      Stops (execute σ d n) st .tooManyDigits st' := by
  rw [program_eq, Stops]
  cases outcome (execute σ d n) st with
  | mk result st₁ =>
    cases result with
    | ok v => simp
    | error i => cases i <;> simp [errorOf]

/-- What is still interrupted within a great depth has made many calls. -/
theorem calls_of_tooDeep {H k : Nat} (hmethods : σ.table.AllMethods fun m => m.body.height ≤ H)
    (hd : n.height + k * (H + 1) ≤ d) (hdeep : (outcome (execute σ d n) st).1 = .error .tooDeep) :
    st.calls + k ≤ (outcome (execute σ d n) st).2.calls := by
  have hadmits : n.Every Sphere.all.Admits := fun m _ => Sphere.admits_of_calls trivial m
  have hstays := (Sphere.keeps_run trivial hmethods d k).1 n hadmits (.inr hd) st
    (Sphere.holds_of_calls trivial)
  exact (hstays.tooDeep hdeep).2

/-- Run from the state `st` the tree does not come to its end: no depth is enough. -/
def Endless (σ : Setting) (n : Node) (st : RunState) : Prop :=
  ∀ depth, (outcome (execute σ depth n) st).1 = .error .tooDeep

/-- What runs forever calls methods more often than any number of times. -/
theorem Endless.exists_calls (h : Endless σ n st) (k : Nat) :
    ∃ depth, ∀ d, depth ≤ d → st.calls + k ≤ (outcome (execute σ d n) st).2.calls := by
  obtain ⟨H, hmethods⟩ := σ.table.exists_height_le
  exact ⟨n.height + k * (H + 1), fun d hd => calls_of_tooDeep hmethods hd (h d)⟩

end Run

/-! ## Sessions -/

namespace Session

variable {s : Session} {source : String} {p : Program}

/-- A session in which no object has a method runs any source without a class to its end, in either
mode, with an error or without one, unless it comes to a number with too many digits that is to be
written, which breaks the run off. No step is nested deeper than the tree is high, and no method is
called. What runs forever, from whatever state, calls methods without end. -/
theorem run_ends_of_methodless (path : String) (h : (Program.ofSource s.table source).1 = .ok p)
    (hclass : ¬ Program.DefinesClass source) (hmethods : s.state.Methodless s.table) :
    (∀ o : Options, p.body.height ≤ o.depth →
      ((s.run o path source).1 = none ∨ (∃ e, (s.run o path source).1 = some (.runtime e)) ∨
        (s.run o path source).1 = some (.limit (.digits .writing))) ∧
      (∀ s', s.run o path source = (some (.limit (.digits .writing)), s') ↔
        ∃ a st', (Moment.mk o.depth p.body (s.start path source p)).Reaches (s.setting o) a ∧
          a.Overflows (s.setting o) st' ∧ s' = ⟨s.table, st'⟩) ∧
      (∀ depth, o.depth ≤ depth → s.run { o with depth } path source = s.run o path source) ∧
      ∀ log, let st : RunState := { s.state with log }
        (outcome (execute (s.setting o) o.depth p.body) st).2.calls = st.calls) ∧
    ∀ σ n st, Endless σ n st → ∀ k, ∃ depth, ∀ d, depth ≤ d →
      st.calls + k ≤ (outcome (execute σ d n) st).2.calls := by
  have htable : p.table = s.table := Program.table_eq_of_ofSource h hclass
  have hobjectless := Program.objectless_of_ofSource h hclass
  have hends : ∀ o : Options, p.body.height ≤ o.depth → ∀ log,
      let r := outcome (execute (s.setting o) o.depth p.body) { s.state with log }
      r.1 ≠ .error .tooDeep ∧ r.2.calls = ({ s.state with log } : RunState).calls :=
    fun o hdepth log =>
      ends_of_methodless (σ := s.setting o) (hmethods.withLog log) hobjectless hdepth
  have hrun := run_eq_of_table_eq path h htable
  obtain ⟨log, hstart⟩ := exists_start_eq path h
  rw [hstart] at hrun ⊢
  refine ⟨fun o hdepth => ⟨?_, fun s' => ?_, fun depth hle => ?_, fun log => (hends o hdepth log).2⟩,
    fun σ n st hforever => hforever.exists_calls⟩
  · rw [hrun]
    exact program_ends (hends o hdepth log).1
  · rw [hrun]
    have hstops : ∀ st', Run.program (s.setting o) o.depth p.body { s.state with log } =
        (some (.limit (.digits .writing)), st') ↔
          ∃ a, (Moment.mk o.depth p.body { s.state with log }).Reaches (s.setting o) a ∧
            a.Overflows (s.setting o) st' :=
      fun st' => program_eq_digits_iff.trans
        (stops_tooManyDigits_iff (hmethods.withLog log) hobjectless hdepth)
    constructor
    · intro hdigits
      cases hp : Run.program (s.setting o) o.depth p.body { s.state with log } with
      | mk error? st' =>
        rw [hp] at hdigits
        obtain ⟨rfl, rfl⟩ := Prod.mk.inj hdigits
        obtain ⟨a, hreaches, hoverflows⟩ := (hstops st').1 hp
        exact ⟨a, st', hreaches, hoverflows, rfl⟩
    · rintro ⟨a, st', hreaches, hoverflows, rfl⟩
      rw [(hstops st').2 ⟨a, hreaches, hoverflows⟩]
      rfl
  · have hmore : outcome (execute (s.setting o) depth p.body) _ = _ :=
      outcome_execute_of_le hle (hends o hdepth log).1
    have hsetting : s.setting { o with depth } = s.setting o := rfl
    rw [hrun, hrun, hsetting, program_eq, program_eq, hmore]

/-- Two objects that lead to each other, of a class without methods, behind a binding. -/
theorem run_around_circle_ends :
    let circle : Session :=
      ⟨⟨#[⟨"A", none, []⟩]⟩,
        { RunState.initial with
          frame := ⟨[("a", .object ⟨0⟩)]⟩
          heap := ⟨#[⟨⟨0⟩, ⟨[("next", .object ⟨1⟩)]⟩⟩, ⟨⟨0⟩, ⟨[("next", .object ⟨0⟩)]⟩⟩]⟩ }⟩
    let source := "a.next.next = a.next\nprint a.next.next.next"
    ¬ Program.DefinesClass source ∧ circle.state.Methodless circle.table ∧
      circle.state.LeadsTo (.object ⟨1⟩) ∧
      (circle.run ⟨true, 3⟩ "" source).1 = none ∧
      ∀ depth, 3 ≤ depth →
        circle.run ⟨true, depth⟩ "" source = circle.run ⟨true, 3⟩ "" source := by
  intro circle source
  let p : Program := ⟨[], circle.table,
    [.assignField (.path ⟨"a", ["next"]⟩) "next" (.path ⟨"a", ["next"]⟩),
      .print [.path ⟨"a", ["next", "next", "next"]⟩]]⟩
  have hp : (Program.ofSource circle.table source).1 = .ok p := by decide +kernel
  have hclass : ¬ Program.DefinesClass source := by decide +kernel
  have hcls : ∀ o, (circle.state.heap.get o).cls = ⟨0⟩ := by
    rintro ⟨_ | _ | i⟩
    · rfl
    · rfl
    · simp [circle, Heap.get, Heap.get?]
  have hmethods : circle.state.Methodless circle.table := by
    intro o _ name
    rw [hcls, ClassTable.method?]
    rfl
  have hfirst : circle.state.frame.get? "a" = some (.object ⟨0⟩) := by decide
  have hsecond : (circle.state.heap.get ⟨0⟩).fields.get? "next" = some (.object ⟨1⟩) := by decide
  obtain ⟨-, -, hdeeper, -⟩ :=
    (run_ends_of_methodless "" hp hclass hmethods).1 ⟨true, 3⟩ (by decide)
  have hresult : (circle.run ⟨true, 3⟩ "" source).1 = none := by decide +kernel
  exact ⟨hclass, hmethods, .field (.bound hfirst) hsecond, hresult, hdeeper⟩

/-- Printing a square stops where it has too many digits. -/
theorem stops_print_square {σ : Setting} {st : RunState} {n : Int}
    (hx : st.frame.get? "x" = some (.number n)) (hn : Text.isWritable (n * n).natAbs = false) :
    let product : Node := .arithmetic .mul (.path ⟨"x", []⟩) (.path ⟨"x", []⟩)
    Stops (execute σ 4 (.sequence [.print [product]])) st .tooManyDigits st := by
  intro product
  have hpath : Gives (execute σ 1 (.path ⟨"x", []⟩)) st (.number n) st := by
    show outcome (resolve σ ⟨"x", []⟩) st = _
    rw [outcome_resolve, RunState.resolve, hx]
    rfl
  have hproduct : Gives (execute σ 2 product) st (.number (n * n)) st :=
    hpath.bind (hpath.bind (gives_pure _ _))
  have hform := Value.IsTooLong.stops_render ⟨n * n, rfl, hn⟩ σ 1 st
  have hprint : Stops (execute σ 3 (.print [product])) st .tooManyDigits st :=
    (Stops.bind (hproduct.stops hform.bind)).bind
  exact Stops.bind (Stops.bind hprint)

/-- A number of 2151 digits is bound, and its square is to be printed. -/
theorem not_run_to_end_of_every_session :
    ¬ ∀ (s : Session) (source : String) (p : Program), (Program.ofSource s.table source).1 = .ok p →
      ¬ Program.DefinesClass source → s.state.Methodless s.table →
        ∀ o : Options, p.body.height ≤ o.depth →
          (s.run o "" source).1 = none ∨ ∃ e, (s.run o "" source).1 = some (.runtime e) := by
  intro hall
  obtain ⟨n, hn⟩ : ∃ n : Int, Text.isWritable (n * n).natAbs = false := by
    have hdigits : 2150 + 2150 = Text.maxDigits := by decide
    have hten : (10 : Int).natAbs = 10 := rfl
    refine ⟨10 ^ 2150, ?_⟩
    rw [← Int.pow_add, hdigits, Bool.eq_false_iff, ne_eq, Text.isWritable_iff, Int.natAbs_pow, hten]
    exact Nat.lt_irrefl _
  let s : Session := ⟨.empty, { RunState.initial with frame := ⟨[("x", .number n)]⟩ }⟩
  let p : Program := ⟨[], .empty,
    [.print [.arithmetic .mul (.path ⟨"x", []⟩) (.path ⟨"x", []⟩)]]⟩
  have hp : (Program.ofSource .empty "print x * x").1 = .ok p := by decide +kernel
  have hclass : ¬ Program.DefinesClass "print x * x" := by decide +kernel
  have hmethods : s.state.Methodless s.table := by
    intro o _ name
    rw [ClassTable.method?]
    rfl
  obtain ⟨log, hstart⟩ := exists_start_eq (s := s) "" hp
  have hx : (s.start "" "print x * x" p).frame.get? "x" = some (.number n) := by
    rw [hstart]
    rfl
  have hprogram : Run.program ⟨p.table, false⟩ 4 p.body (s.start "" "print x * x" p) = _ :=
    program_eq_digits_iff.2 (stops_print_square hx hn)
  have hrun : (s.run ⟨false, 4⟩ "" "print x * x").1 = some (.limit (.digits .writing)) := by
    rw [run_eq_of_ofSource (s := s) "" hp, hprogram]
  rcases hall s _ p hp hclass hmethods ⟨false, 4⟩ (by decide) with hend | ⟨e, hend⟩
  · simp [hrun] at hend
  · simp [hrun] at hend

end Session

end Offside
