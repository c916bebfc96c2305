import Offside.Proofs.ProgramShape
import Offside.Proofs.Programs
import Offside.Proofs.Sessions
import Offside.Proofs.Starts

set_option autoImplicit false

/-! # A `return` ends the body it stands in

A run that ends with a `return` has run one in the tree itself, on the bindings of the tree, up to
the end of its value. So a `return` that stands in a method ends a call of the method and nothing
more, and a program ends with a `return` outside of methods exactly if it runs one of its own. -/

namespace Offside

open Run

/-! ## Moments of a run -/

/-- A tree that is about to run within a depth. -/
structure Moment where
  depth : Nat
  node : Node
  state : RunState

namespace Moment

variable {σ : Setting} {a b : Moment} {i : Interrupt} {v : Value} {st' : RunState}

/-- The run at the first moment starts the part at the second one. -/
def Starts (σ : Setting) (a b : Moment) : Prop :=
  a.depth = b.depth + 1 ∧
    Run.Starts σ (execute σ b.depth) (render σ b.depth) a.node a.state b.node b.state

/-- The run at the first moment starts the statement of a block at the second one. -/
def StartsStatement (σ : Setting) (a b : Moment) : Prop :=
  a.depth = b.depth + 1 ∧
    Run.StartsStatement (execute σ b.depth) a.node a.state b.node b.state

/-- The run at the first moment comes to the second one, from part to part. -/
def Reaches (σ : Setting) : Moment → Moment → Prop := Relation.ReflTransGen (Starts σ)

/-- The run at the first moment comes to the second one, from block to block. -/
def ReachesStatement (σ : Setting) : Moment → Moment → Prop :=
  Relation.ReflTransGen (StartsStatement σ)

/-- The run at the moment is interrupted and leaves the state `st'`. -/
def Stops (σ : Setting) (a : Moment) (i : Interrupt) (st' : RunState) : Prop :=
  Run.Stops (execute σ a.depth a.node) a.state i st'

/-- At the moment a `return` is run, and the evaluation of its value comes to its end: it gives `v`
and leaves the state `st'`. -/
def Returns (σ : Setting) (a : Moment) (v : Value) (st' : RunState) : Prop :=
  ∃ depth value, a.depth = depth + 1 ∧ a.node = .returnValue value ∧
    Gives (execute σ depth value) a.state v st'

theorem Returns.stops (h : a.Returns σ v st') : a.Stops σ (.returned v) st' := by
  obtain ⟨depth, value, hdepth, hnode, hvalue⟩ := h
  rw [Stops, hdepth, hnode]
  exact hvalue.stops (stops_throw_iff.2 ⟨rfl, rfl⟩)

theorem Starts.stops (h : a.Starts σ b) (hb : b.Stops σ i st') : a.Stops σ i st' := by
  obtain ⟨hdepth, hstarts⟩ := h
  rw [Stops, hdepth]
  rcases hstarts with hstarts | hstarts
  · exact hstarts.stops hb
  · exact hstarts.stops hb

/-- A run stops where a part that it comes to stops. -/
theorem Reaches.stops (h : a.Reaches σ b) (hb : b.Stops σ i st') : a.Stops σ i st' := by
  induction h using Relation.ReflTransGen.head_induction_on with
  | refl => exact hb
  | head hstarts hreaches ih => exact hstarts.stops ih

theorem Starts.mem_parts (h : a.Starts σ b) :
    b.node ∈ a.node.operands ∨ b.node ∈ a.node.statements := by
  rcases h.2 with hstarts | hstarts
  · exact .inr hstarts.mem_statements
  · exact .inl hstarts.mem_operands

/-- A run comes to parts of its tree only. -/
theorem Reaches.holds (h : a.Reaches σ b) : a.node.Holds b.node := by
  induction h with
  | refl => exact .refl
  | tail hreaches hstarts ih => exact ih.tail hstarts.mem_parts

theorem ReachesStatement.reaches (h : a.ReachesStatement σ b) : a.Reaches σ b :=
  Relation.ReflTransGen.mono (fun _ _ hstarts => ⟨hstarts.1, .inl hstarts.2⟩) _ _ h

/-- In a placed tree a run comes to a `return` from block to block. -/
theorem Reaches.reachesStatement (h : a.Reaches σ b) (ha : a.node.Placed) {value : Node}
    (hb : b.node = .returnValue value) : a.ReachesStatement σ b := by
  induction h using Relation.ReflTransGen.head_induction_on with
  | refl => exact .refl
  | @head a c hstarts hreaches ih =>
    rcases hstarts.2 with hstatement | hoperand
    · exact .head ⟨hstarts.1, hstatement⟩ (ih (ha.of_mem_statements hstatement.mem_statements))
    · have hfree := ha.returnFree_of_mem_operands hoperand.mem_operands
      have hholds : c.node.Holds b.node := Reaches.holds hreaches
      exact absurd (hb ▸ hholds) (hfree value)

end Moment

/-! ## Runs on sealed tables -/

namespace Run

variable {σ : Setting} {depth : Nat} {n : Node} {st st' : RunState} {i : Interrupt} {v : Value}

/-- What a step relies on holds one step deeper as well. -/
theorem Contained.succ (hσ : σ.table.Sealed) (hc : Contained (execute σ depth) (render σ depth)) :
    Contained (execute σ (depth + 1)) (render σ (depth + 1)) where
  exists_eq_returned n st i st' h hi := by
    rcases hc.step hσ h hi with ⟨value, v, -, -, rfl⟩ | ⟨m, st₁, -, hm⟩
    · exact ⟨v, rfl⟩
    · exact hc.exists_eq_returned m st₁ i st' hm hi
  seals_methodBody body := by
    intro st i st' h hi
    rcases hc.step hσ h hi with ⟨value, v, hvalue, -⟩ | ⟨m, st₁, hstarts, -⟩
    · simp at hvalue
    · -- no part of a body is run on the bindings of the caller
      rcases hstarts with hstarts | hstarts <;> cases hstarts
  seals_render v := Seals.renderStep (Seals.invoke hσ hc.seals_methodBody) hc.seals_render v

theorem contained (hσ : σ.table.Sealed) (depth : Nat) :
    Contained (execute σ depth) (render σ depth) := by
  induction depth with
  | zero =>
    have hseals : ∀ {α : Type}, Seals (throw .tooDeep : Run α) :=
      fun {_} => .throw Interrupt.not_isStray_tooDeep
    exact ⟨fun n st i st' h hi => absurd hi (hseals st i st' h), fun _ => hseals, fun _ => hseals⟩
  | succ depth ih => exact ih.succ hσ

/-- A run that stops with a `return` has come to it. -/
theorem exists_reaches_of_stops (hσ : σ.table.Sealed) (h : Stops (execute σ depth n) st i st')
    (hi : i.IsStray) :
    ∃ b v, (Moment.mk depth n st).Reaches σ b ∧ b.Returns σ v st' ∧ i = .returned v := by
  induction depth generalizing n st with
  | zero => exact absurd hi (Seals.throw Interrupt.not_isStray_tooDeep st i st' h)
  | succ depth ih =>
    rcases (contained hσ depth).step hσ h hi with
      ⟨value, v, rfl, hvalue, rfl⟩ | ⟨m, st₁, hstarts, hm⟩
    · exact ⟨_, v, .refl, ⟨depth, value, rfl, rfl, hvalue⟩, rfl⟩
    · obtain ⟨b, v, hreaches, hreturns, rfl⟩ := ih hm
      exact ⟨b, v, .head ⟨rfl, hstarts⟩ hreaches, hreturns, rfl⟩

/-- A run stops with a `return` exactly if it comes to one that it runs to its end. -/
theorem stops_returned_iff (hσ : σ.table.Sealed) :
    Stops (execute σ depth n) st (.returned v) st' ↔
      ∃ b, (Moment.mk depth n st).Reaches σ b ∧ b.Returns σ v st' := by
  constructor
  · intro h
    obtain ⟨b, w, hreaches, hreturns, hw⟩ :=
      exists_reaches_of_stops hσ h (Interrupt.isStray_returned v)
    obtain rfl := Interrupt.returned.inj hw
    exact ⟨b, hreaches, hreturns⟩
  · rintro ⟨b, hreaches, hreturns⟩
    exact hreaches.stops hreturns.stops

/-- A program whose `return`s are statements ends with a `return` outside of methods exactly if it
comes to one, from block to block, that it runs to its end. -/
theorem program_eq_iff (hσ : σ.table.Sealed) (hn : n.Placed) :
    program σ depth n st = (some (.runtime .returnOutsideMethod), st') ↔
      ∃ b v, (Moment.mk depth n st).ReachesStatement σ b ∧ b.Returns σ v st' := by
  constructor
  · intro h
    rw [program] at h
    split at h
    · simp at h
    · rename_i i st₁ hrun
      obtain ⟨hi, rfl⟩ := Prod.mk.inj h
      obtain ⟨b, v, hreaches, hreturns, -⟩ :=
        exists_reaches_of_stops hσ (show Stops (execute σ depth n) st i st₁ from hrun)
          (Option.some.inj hi)
      have hreturns' := hreturns
      obtain ⟨_, value, _, hvalue, _⟩ := hreturns'
      exact ⟨b, v, hreaches.reachesStatement hn hvalue, hreturns⟩
  · rintro ⟨b, v, hreaches, hreturns⟩
    have hstops : Stops (execute σ depth n) st (.returned v) st' :=
      hreaches.reaches.stops hreturns.stops
    have hrun : (execute σ depth n).run.run st = (.error (.returned v), st') := hstops
    rw [program, hrun]
    rfl

/-- None of the ways into a method lets a `return` out of it. -/
structure EntriesSealed (σ : Setting) (execute : Node → Run Value) (render : Value → Run String) :
    Prop where
  /-- The body of a method, with the value that it hands back. -/
  bodies : ∀ body, Seals (execute (.methodBody body))
  /-- A call of any method, `__init__` among them. -/
  calls : ∀ o name arguments, Seals (invoke σ execute o name arguments)
  /-- An operation, which may call `__add__`. -/
  operations : ∀ op left right, Seals (operate σ execute op left right)
  /-- A comparison, which may call `__eq__` and `__lt__`. -/
  comparisons : ∀ c left right, Seals (compare σ execute c left right)
  /-- A printed form, for which `__str__` may be called. -/
  forms : ∀ v, Seals (render v)
  /-- What a method hands back, possibly in its printed form. -/
  results : ∀ v, Seals (methodResult σ render v)

theorem Contained.entriesSealed {execute : Node → Run Value} {render : Value → Run String}
    (hσ : σ.table.Sealed) (hc : Contained execute render) : EntriesSealed σ execute render := by
  have hinvoke := Seals.invoke hσ hc.seals_methodBody
  exact ⟨hc.seals_methodBody, hinvoke, Seals.operate hinvoke, Seals.compare hinvoke,
    hc.seals_render, Seals.methodResult hc.seals_render⟩

end Run

/-! ## Sessions -/

namespace Session

variable {s s₁ : Session} {path source : String} {p : Program}

/-- What a program that was read runs on is sealed where the session is, and its `return`s outside
of classes are statements. -/
theorem placed_and_sealed_of_read (hs : s.table.Sealed) (h : s.read path source = (.ok p, s₁)) :
    p.body.Placed ∧ s₁.table.Sealed := by
  obtain ⟨hsource, htable⟩ := of_read h
  rw [htable]
  exact (Program.derives_of_ofSource hsource).2.placed_and_sealed hs

end Session

/-- Where every method catches what is returned in it, a `return` leaves no method. A tree stops
with a `return` exactly if it comes to one of its own, from part to part on the same bindings, whose
value comes to its end, and no way into a method lets one out. A source that is a program ends with
a `return` outside of methods exactly if it comes to one outside of its classes, from block to
block, whose value comes to its end, and with that value all is done that the program does. -/
theorem return_leaves_no_method (t : ClassTable) (typedReturns : Bool) (ht : t.Sealed) :
    (∀ depth n st v st', Stops (execute ⟨t, typedReturns⟩ depth n) st (.returned v) st' ↔
      ∃ b, (Moment.mk depth n st).Reaches ⟨t, typedReturns⟩ b ∧ n.Holds b.node ∧
        b.Returns ⟨t, typedReturns⟩ v st') ∧
    (∀ depth, EntriesSealed ⟨t, typedReturns⟩ (execute ⟨t, typedReturns⟩ depth)
      (render ⟨t, typedReturns⟩ depth)) ∧
    ∀ st depth path source p s, Session.read ⟨t, st⟩ path source = (.ok p, s) →
      s.table.Sealed ∧ ∀ s',
        Session.run ⟨t, st⟩ ⟨typedReturns, depth⟩ path source =
            (some (.runtime .returnOutsideMethod), s') ↔
          ∃ b v st', (Moment.mk depth p.body
              (s.report #[.running (Session.classNames p)]).state).ReachesStatement
                ⟨s.table, typedReturns⟩ b ∧
            b.Returns ⟨s.table, typedReturns⟩ v st' ∧
            s' = Session.report ⟨s.table, st'⟩
              #[.aborted path RuntimeError.returnOutsideMethod.message] := by
  refine ⟨?_, ?_, ?_⟩
  · intro depth n st v st'
    rw [stops_returned_iff ht]
    constructor
    · rintro ⟨b, hreaches, hreturns⟩
      exact ⟨b, hreaches, hreaches.holds, hreturns⟩
    · rintro ⟨b, hreaches, -, hreturns⟩
      exact ⟨b, hreaches, hreturns⟩
  · intro depth
    exact (contained ht depth).entriesSealed ht
  · intro st depth path source p s hread
    obtain ⟨hplaced, hs⟩ := Session.placed_and_sealed_of_read ht hread
    refine ⟨hs, fun s' => ?_⟩
    rw [Session.run_of_read ⟨typedReturns, depth⟩ hread]
    let σ : Setting := ⟨s.table, typedReturns⟩
    constructor
    · intro h
      split at h
      · rename_i error? st' hrun
        obtain ⟨rfl, rfl⟩ := Prod.mk.inj h
        obtain ⟨b, v, hreaches, hreturns⟩ := (program_eq_iff (σ := σ) hs hplaced).1 hrun
        exact ⟨b, v, st', hreaches, hreturns, rfl⟩
    · rintro ⟨b, v, st', hreaches, hreturns, rfl⟩
      have hrun : Run.program (s.setting ⟨typedReturns, depth⟩) depth p.body _ = _ :=
        (program_eq_iff (σ := σ) hs hplaced).2 ⟨b, v, hreaches, hreturns⟩
      simp only [hrun]
      rfl

/-- A `return` in a conditional, behind a call of a method that returns as well. -/
theorem returns_behind_call :
    ∃ t st p s, t.Sealed ∧
      Session.read ⟨t, st⟩ "" "if a.f():\n  return a.f()\n" = (.ok p, s) ∧
      ∃ b v st', (Moment.mk 100 p.body
          (s.report #[.running (Session.classNames p)]).state).ReachesStatement ⟨s.table, false⟩ b ∧
        b.Returns ⟨s.table, false⟩ v st' := by
  let body : Node := .sequence [.returnValue (.constant (.number 1))]
  let t : ClassTable := ClassTable.empty.add ⟨"A", none, [⟨"f", [], .methodBody body⟩]⟩
  let st : RunState := ⟨.set .empty "a" (.object ⟨0⟩), .add .empty ⟨0⟩, "", [], #[]⟩
  have ht : t.Sealed := ClassTable.sealed_empty.add (by simp [Method.IsSealed])
  have hrun : (Session.run ⟨t, st⟩ ⟨false, 100⟩ "" "if a.f():\n  return a.f()\n").1 =
      some (.runtime .returnOutsideMethod) := by
    decide +kernel
  have hread : (Session.read ⟨t, st⟩ "" "if a.f():\n  return a.f()\n").1.toOption.isSome := by
    decide +kernel
  cases hp : Session.read ⟨t, st⟩ "" "if a.f():\n  return a.f()\n" with
  | mk result s =>
    cases result with
    | error e => simp [hp, Except.toOption] at hread
    | ok p =>
      obtain ⟨b, v, st', hreaches, hreturns, -⟩ :=
        (((return_leaves_no_method t false ht).2.2 st 100 "" _ p s hp).2 _).1 (Prod.ext hrun rfl)
      exact ⟨t, st, p, s, ht, hp, b, v, st', hreaches, hreturns⟩

end Offside
