import Offside.Proofs.Dispatch

set_option autoImplicit false

/-! # Endings without a depth

A tree runs within a depth, but how it ends, if it does, is the same within every depth that is great
enough. So the depth can be left out: how a tree ends is told by how its parts end, one after the
other, each from the state that the one before it leaves.

`ComesTo` says so of any step that is put together from runs of trees, with one law for two steps one
after the other. From it come the rules for single forms of trees, such as `LeavesMethod` for the body
of a method. -/

namespace Offside.Run

variable {α β : Type}

/-- The step, which is there for each depth, ends within any greater depth as it does within this one,
if it does not go too deep. -/
def Settled (x : Nat → Run α) : Prop :=
  ∀ m n st, m ≤ n → (outcome (x m) st).1 ≠ .error .tooDeep → outcome (x n) st = outcome (x m) st

/-- Within some depth the step comes to its end, with this outcome. -/
def ComesTo (x : Nat → Run α) (st : RunState) (r : Except Interrupt α × RunState) : Prop :=
  r.1 ≠ .error .tooDeep ∧ ∃ depth, outcome (x depth) st = r

/-- Making the printed form of a value from the state `st` comes to its end, with this outcome. -/
def Renders (σ : Setting) (v : Value) (st : RunState) (r : Except Interrupt String × RunState) :
    Prop :=
  ComesTo (fun depth => render σ depth v) st r

/-- Run one after the other, the trees give these values. -/
def GivesInTurn (σ : Setting) (nodes : List Node) (st : RunState) (vs : List Value)
    (st' : RunState) : Prop :=
  ∃ depth, InTurn (execute σ depth) nodes st vs st'

/-! ## Settled steps -/

section

variable {σ : Setting} {x : Nat → Run α} {f : Nat → α → Run β} {st st₁ : RunState} {a : α}
  {i : Interrupt} {r : Except Interrupt α × RunState} {r' : Except Interrupt β × RunState}

theorem Settled.const (x : Run α) : Settled fun _ => x := fun _ _ _ _ _ => rfl

theorem Settled.bind (hx : Settled x) (hf : ∀ a, Settled fun depth => f depth a) :
    Settled fun depth => x depth >>= f depth := by
  intro m n st hmn h
  have hxm : (outcome (x m) st).1 ≠ .error .tooDeep := by
    intro hdeep
    apply h
    rw [outcome_bind]
    cases hout : outcome (x m) st with
    | mk r st₁ =>
      rw [hout] at hdeep
      obtain rfl : r = .error .tooDeep := hdeep
      rfl
  rw [outcome_bind] at h
  rw [outcome_bind, outcome_bind, hx m n st hmn hxm]
  cases hout : outcome (x m) st with
  | mk r st₁ =>
    cases r with
    | error i => rfl
    | ok a =>
      rw [hout] at h
      exact hf a m n st₁ hmn h

theorem Settled.withFrame (frame : Bindings) (hx : Settled x) :
    Settled fun depth => withFrame frame (x depth) := by
  intro m n st hmn h
  rw [outcome_withFrame, outcome_withFrame, hx m n _ hmn h]

theorem Settled.returnedBy (hx : Settled x) : Settled fun depth => returnedBy (x depth) := by
  intro m n st hmn h
  rw [outcome_returnedBy] at h
  rw [outcome_returnedBy, outcome_returnedBy, hx m n st hmn]
  intro hdeep
  apply h
  cases hout : outcome (x m) st with
  | mk r st₁ =>
    rw [hout] at hdeep
    obtain rfl : r = .error .tooDeep := hdeep
    rfl

theorem settled_execute (σ : Setting) (n : Node) : Settled fun depth => execute σ depth n :=
  fun _ _ _ hmn h => outcome_execute_of_le hmn h

theorem settled_render (σ : Setting) (v : Value) : Settled fun depth => render σ depth v := by
  intro m n st hmn h
  have hsimulates := Simulation.simulates (Simulation.cut (rfl : σ.table = σ.table)) rfl hmn
    fun _ => trivial
  exact Invariant.eq_of_agreesAt (hsimulates.render (i := .own) ⟨rfl, trivial⟩ trivial) h

theorem settled_executeAll (σ : Setting) (nodes : List Node) :
    Settled fun depth => executeAll (execute σ depth) nodes := by
  induction nodes with
  | nil => exact .const _
  | cons n nodes ih => exact (settled_execute σ n).bind fun _ => ih.bind fun _ => .const _

theorem settled_invoke (σ : Setting) (o : ObjectRef) (name : String) (arguments : List Value) :
    Settled fun depth => invoke σ (execute σ depth) o name arguments := by
  refine (Settled.const _).bind fun cls => ?_
  cases σ.table.methodOf? cls name arguments.length with
  | none => exact .const _
  | some m => exact (Settled.const _).bind fun _ => (settled_execute σ m.body).withFrame _

/-! ## Steps one after the other -/

theorem comesTo_ok_iff : ComesTo x st (.ok a, st₁) ↔ ∃ depth, Gives (x depth) st a st₁ :=
  and_iff_right (by simp)

theorem comesTo_error_iff :
    ComesTo x st (.error i, st₁) ↔ i ≠ .tooDeep ∧ ∃ depth, Stops (x depth) st i st₁ :=
  and_congr_left' (by simp)

/-- What a settled step comes to it comes to within every depth from some depth on. -/
theorem ComesTo.exists_forall_le (h : ComesTo x st r) (hx : Settled x) :
    ∃ k, ∀ depth, k ≤ depth → outcome (x depth) st = r := by
  obtain ⟨hr, k, rfl⟩ := h
  exact ⟨k, fun depth hk => hx k depth st hk hr⟩

theorem comesTo_const_iff {x : Run α} :
    ComesTo (fun _ => x) st r ↔ r.1 ≠ .error .tooDeep ∧ outcome x st = r := by
  simp [ComesTo]

theorem ComesTo.bind (h : ComesTo x st (.ok a, st₁)) (h' : ComesTo (fun depth => f depth a) st₁ r')
    (hx : Settled x) (hf : Settled fun depth => f depth a) :
    ComesTo (fun depth => x depth >>= f depth) st r' := by
  obtain ⟨m, hm⟩ := h.exists_forall_le hx
  obtain ⟨n, hn⟩ := h'.exists_forall_le hf
  refine ⟨h'.1, max m n, ?_⟩
  rw [outcome_bind, hm _ (Nat.le_max_left m n)]
  exact hn _ (Nat.le_max_right m n)

/-- Steps stop where the first one stops. -/
theorem ComesTo.bind_error (h : ComesTo x st (.error i, st₁)) :
    ComesTo (fun depth => x depth >>= f depth) st (.error i, st₁) := by
  obtain ⟨hi, depth, hx⟩ := comesTo_error_iff.1 h
  exact comesTo_error_iff.2 ⟨hi, depth, hx.bind⟩

theorem ComesTo.of_bind (h : ComesTo (fun depth => x depth >>= f depth) st r') :
    (∃ i st₁, ComesTo x st (.error i, st₁) ∧ r' = (.error i, st₁)) ∨
      ∃ a st₁, ComesTo x st (.ok a, st₁) ∧ ComesTo (fun depth => f depth a) st₁ r' := by
  obtain ⟨hr, depth, h⟩ := h
  rw [outcome_bind] at h
  cases hout : outcome (x depth) st with
  | mk q st₁ =>
    rw [hout] at h
    cases q with
    | ok a => exact .inr ⟨a, st₁, comesTo_ok_iff.2 ⟨depth, hout⟩, hr, depth, h⟩
    | error i =>
      obtain rfl := h
      exact .inl ⟨i, st₁, comesTo_error_iff.2 ⟨by simpa using hr, depth, hout⟩, rfl⟩

/-- Two steps one after the other end where the first one stops, or as the second one does behind it. -/
theorem comesTo_bind_iff (hx : Settled x) (hf : ∀ a, Settled fun depth => f depth a) :
    ComesTo (fun depth => x depth >>= f depth) st r' ↔
      (∃ i st₁, ComesTo x st (.error i, st₁) ∧ r' = (.error i, st₁)) ∨
        ∃ a st₁, ComesTo x st (.ok a, st₁) ∧ ComesTo (fun depth => f depth a) st₁ r' := by
  constructor
  · exact ComesTo.of_bind
  · rintro (⟨i, st₁, hi, rfl⟩ | ⟨a, st₁, ha, h⟩)
    · exact hi.bind_error
    · exact ha.bind h hx (hf a)

/-- Where only the first step needs a depth, the second one starts from what the first comes to. -/
theorem comesTo_bind_const_iff {k : α → Run β} (hx : Settled x) :
    ComesTo (fun depth => x depth >>= k) st r' ↔
      (∃ i st₁, ComesTo x st (.error i, st₁) ∧ r' = (.error i, st₁)) ∨
        ∃ a st₁, ComesTo x st (.ok a, st₁) ∧ r'.1 ≠ .error .tooDeep ∧ outcome (k a) st₁ = r' := by
  rw [comesTo_bind_iff (f := fun _ => k) hx fun _ => .const _]
  simp only [comesTo_const_iff]

end

/-! ## Trees -/

section

variable {σ : Setting} {n : Node} {nodes : List Node} {v : Value} {vs : List Value}
  {st st' : RunState} {i : Interrupt} {r : Except Interrupt Value × RunState}

theorem ends_iff_comesTo : Ends σ n st r ↔ ComesTo (fun depth => execute σ depth n) st r := .rfl

/-- How a tree ends is how the step for its form ends. -/
theorem ends_iff_comesTo_step :
    Ends σ n st r ↔ ComesTo (fun depth => step σ (execute σ depth) (render σ depth) n) st r := by
  constructor
  · rintro ⟨hr, depth, h⟩
    cases depth with
    | zero =>
      obtain rfl : (.error .tooDeep, st) = r := h
      exact absurd rfl hr
    | succ depth => exact ⟨hr, depth, h⟩
  · rintro ⟨hr, depth, h⟩
    exact ⟨hr, depth + 1, h⟩

theorem Ends.grows (h : Ends σ n st (.ok v, st')) : st.Grows st' := by
  obtain ⟨-, depth, h⟩ := h
  exact grows_of_gives h

theorem inTurn_iff_gives {execute : Node → Run Value} :
    InTurn execute nodes st vs st' ↔ Gives (executeAll execute nodes) st vs st' := by
  constructor
  · exact InTurn.gives
  · intro h
    induction nodes generalizing st vs with
    | nil =>
      obtain ⟨rfl, rfl⟩ := gives_pure_iff.1 h
      exact .nil st
    | cons n nodes ih =>
      obtain ⟨v, st₁, hv, h⟩ := h.of_bind
      obtain ⟨vs, st₂, hvs, h⟩ := h.of_bind
      obtain ⟨rfl, rfl⟩ := gives_pure_iff.1 h
      exact .cons hv (ih hvs)

theorem comesTo_executeAll_ok_iff :
    ComesTo (fun depth => executeAll (execute σ depth) nodes) st (.ok vs, st') ↔
      GivesInTurn σ nodes st vs st' := by
  simp only [comesTo_ok_iff, GivesInTurn, inTurn_iff_gives]

/-- Trees that are run one after the other stop where one of them does. -/
theorem comesTo_executeAll_error_iff :
    ComesTo (fun depth => executeAll (execute σ depth) nodes) st (.error i, st') ↔
      ∃ before n after vs st₁, nodes = before ++ n :: after ∧ GivesInTurn σ before st vs st₁ ∧
        Ends σ n st₁ (.error i, st') := by
  simp only [ends_iff_comesTo, comesTo_error_iff]
  constructor
  · rintro ⟨hi, depth, h⟩
    obtain ⟨before, n, after, vs, st₁, hnodes, hbefore, hn⟩ := h.exists_of_executeAll
    exact ⟨before, n, after, vs, st₁, hnodes, ⟨depth, inTurn_iff_gives.2 hbefore⟩, hi, depth, hn⟩
  · rintro ⟨before, n, after, vs, st₁, rfl, hbefore, hn⟩
    obtain ⟨k, hk⟩ :=
      (comesTo_executeAll_ok_iff.2 hbefore).exists_forall_le (settled_executeAll σ before)
    obtain ⟨l, hl⟩ := (comesTo_error_iff.2 hn).exists_forall_le (settled_execute σ n)
    refine ⟨hn.1, max k l, ?_⟩
    exact stops_executeAll (hk _ (Nat.le_max_left k l)) (hl _ (Nat.le_max_right k l))

end

/-! ## Methods -/

/-- What a method hands over when it returns a value: the value itself, or its printed form where
methods hand back these. -/
inductive HandsOver (σ : Setting) (w : Value) (st : RunState) :
    Except Interrupt Value × RunState → Prop
  | itself (hw : σ.typedReturns = true ∨ w = .empty) : HandsOver σ w st (.ok w, st)
  | text {text : String} {st' : RunState} (hw : ¬ (σ.typedReturns = true ∨ w = .empty))
    (htext : Renders σ w st (.ok text, st')) : HandsOver σ w st (.ok (.string text), st')
  | noText {i : Interrupt} {st' : RunState} (hw : ¬ (σ.typedReturns = true ∨ w = .empty))
    (htext : Renders σ w st (.error i, st')) : HandsOver σ w st (.error i, st')

/-- How the body of a method ends: with nothing if no `return` ends it, and else as handing over the
value that is returned does. -/
inductive LeavesMethod (σ : Setting) (body : Node) (st : RunState) :
    Except Interrupt Value × RunState → Prop
  | ends {v : Value} {st' : RunState} (h : Ends σ body st (.ok v, st')) :
    LeavesMethod σ body st (.ok .empty, st')
  | returns {w : Value} {st₁ : RunState} {r : Except Interrupt Value × RunState}
    (h : Ends σ body st (.error (.returned w), st₁)) (hw : HandsOver σ w st₁ r) :
    LeavesMethod σ body st r
  | fails {i : Interrupt} {st' : RunState} (h : Ends σ body st (.error i, st'))
    (hi : ∀ w, i ≠ .returned w) : LeavesMethod σ body st (.error i, st')

section

variable {σ : Setting} {body : Node} {st st' : RunState} {w : Value} {i : Interrupt}
  {r : Except Interrupt Value × RunState}

theorem settled_methodResult (σ : Setting) (w : Value) :
    Settled fun depth => methodResult σ (render σ depth) w := by
  unfold methodResult
  split
  · exact .const _
  · exact (settled_render σ w).bind fun _ => .const _

theorem comesTo_methodResult_iff :
    ComesTo (fun depth => methodResult σ (render σ depth) w) st r ↔ HandsOver σ w st r := by
  by_cases hw : σ.typedReturns = true ∨ w = .empty
  · simp only [methodResult_eq_pure hw]
    constructor
    · rintro h
      obtain ⟨-, rfl⟩ := comesTo_const_iff.1 h
      exact .itself hw
    · rintro (_ | ⟨hn, -⟩ | ⟨hn, -⟩)
      · exact comesTo_const_iff.2 ⟨by simp, rfl⟩
      · exact absurd hw hn
      · exact absurd hw hn
  · simp only [methodResult_eq_string hw, comesTo_bind_const_iff (settled_render σ w)]
    constructor
    · rintro (⟨i, st₁, hrender, rfl⟩ | ⟨text, st₁, hrender, -, rfl⟩)
      · exact .noText hw hrender
      · exact .text hw hrender
    · rintro (hyes | ⟨-, hrender⟩ | ⟨-, hrender⟩)
      · exact absurd hyes hw
      · exact .inr ⟨_, _, hrender, by simp, rfl⟩
      · exact .inl ⟨_, _, hrender, rfl⟩

theorem comesTo_returnedBy_iff {r : Except Interrupt (Option Value) × RunState} :
    ComesTo (fun depth => returnedBy (execute σ depth body)) st r ↔
      (∃ v st', Ends σ body st (.ok v, st') ∧ r = (.ok none, st')) ∨
      (∃ w st', Ends σ body st (.error (.returned w), st') ∧ r = (.ok (some w), st')) ∨
      ∃ i st', Ends σ body st (.error i, st') ∧ (∀ w, i ≠ .returned w) ∧ r = (.error i, st') := by
  constructor
  · rintro ⟨hr, depth, h⟩
    rw [outcome_returnedBy] at h
    cases hout : outcome (execute σ depth body) st with
    | mk q st' =>
      rw [hout] at h
      cases q with
      | ok v => exact .inl ⟨v, st', ⟨by simp, depth, hout⟩, h.symm⟩
      | error i =>
        cases i with
        | returned w => exact .inr (.inl ⟨w, st', ⟨by simp, depth, hout⟩, h.symm⟩)
        | failed e => exact .inr (.inr ⟨.failed e, st', ⟨by simp, depth, hout⟩, by simp, h.symm⟩)
        | tooManyDigits =>
          exact .inr (.inr ⟨.tooManyDigits, st', ⟨by simp, depth, hout⟩, by simp, h.symm⟩)
        | tooDeep =>
          obtain rfl := h
          exact absurd rfl hr
  · rintro (⟨v, st', ⟨-, depth, h⟩, rfl⟩ | ⟨w, st', ⟨-, depth, h⟩, rfl⟩ |
      ⟨i, st', ⟨hi, depth, h⟩, hw, rfl⟩)
    · exact ⟨by simp, depth, by rw [outcome_returnedBy, h]⟩
    · exact ⟨by simp, depth, by rw [outcome_returnedBy, h]⟩
    · refine ⟨by simpa using hi, depth, ?_⟩
      rw [outcome_returnedBy, h]
      cases i with
      | returned w => exact absurd rfl (hw w)
      | failed | tooDeep | tooManyDigits => rfl

theorem ends_methodBody_iff : Ends σ (.methodBody body) st r ↔ LeavesMethod σ body st r := by
  have hsettled : Settled fun depth => returnedBy (execute σ depth body) :=
    (settled_execute σ body).returnedBy
  rw [ends_iff_comesTo_step]
  constructor
  · intro h
    rcases h.of_bind with ⟨i, st₁, hbody, rfl⟩ | ⟨w?, st₁, hbody, h⟩
    · rcases comesTo_returnedBy_iff.1 hbody with ⟨_, _, _, ⟨⟩⟩ | ⟨_, _, _, ⟨⟩⟩ | ⟨_, _, hi, hw, ⟨⟩⟩
      exact .fails hi hw
    · rcases comesTo_returnedBy_iff.1 hbody with ⟨v, _, hv, ⟨⟩⟩ | ⟨w, _, hw, ⟨⟩⟩ | ⟨_, _, _, _, ⟨⟩⟩
      · obtain ⟨-, rfl⟩ := comesTo_const_iff.1 h
        exact .ends hv
      · exact .returns hw (comesTo_methodResult_iff.1 h)
  · intro h
    cases h with
    | ends hv =>
      exact ComesTo.bind (comesTo_returnedBy_iff.2 (.inl ⟨_, _, hv, rfl⟩))
        (comesTo_const_iff.2 ⟨by simp, rfl⟩) hsettled (.const _)
    | returns hw hover =>
      exact ComesTo.bind (comesTo_returnedBy_iff.2 (.inr (.inl ⟨_, _, hw, rfl⟩)))
        (comesTo_methodResult_iff.2 hover) hsettled (settled_methodResult σ _)
    | fails hi hw =>
      exact ComesTo.bind_error (comesTo_returnedBy_iff.2 (.inr (.inr ⟨_, _, hi, hw, rfl⟩)))

end

end Offside.Run
