import Offside.Run.Execute

set_option autoImplicit false

/-! # How steps of a run end

From a state a step either gives a result or stops with an interrupt; both leave a state. What is
put together from steps stops where one of them does.

A step is *sealed* if no `return` gets out of it. Of the interrupts only two are reported as a
`return` outside of methods: a `return` itself, and the error of that name, which no step raises. -/

namespace Offside

/-- A program that is interrupted so ends with a `return` outside of methods. -/
def Interrupt.IsStray (i : Interrupt) : Prop :=
  Run.errorOf i = .runtime .returnOutsideMethod

theorem Interrupt.isStray_returned (v : Value) : (Interrupt.returned v).IsStray := rfl

theorem Interrupt.not_isStray_tooDeep : ¬ Interrupt.tooDeep.IsStray := by
  simp [IsStray, Run.errorOf]

theorem Interrupt.not_isStray_tooManyDigits : ¬ Interrupt.tooManyDigits.IsStray := by
  simp [IsStray, Run.errorOf]

theorem Interrupt.isStray_failed {e : RuntimeError} :
    (Interrupt.failed e).IsStray ↔ e = .returnOutsideMethod := by
  simp [IsStray, Run.errorOf]

namespace Run

variable {α β : Type}

/-- How a step from a state ends, and the state that it leaves. -/
def outcome (x : Run α) (st : RunState) : Except Interrupt α × RunState := x.run.run st

/-- From the state `st` the step gives `a` and leaves the state `st'`. -/
def Gives (x : Run α) (st : RunState) (a : α) (st' : RunState) : Prop :=
  outcome x st = (.ok a, st')

/-- From the state `st` the step is interrupted and leaves the state `st'`. -/
def Stops (x : Run α) (st : RunState) (i : Interrupt) (st' : RunState) : Prop :=
  outcome x st = (.error i, st')

section Steps

variable {x : Run α} {f : α → Run β} {st st₁ st' : RunState} {a : α} {b : β} {i : Interrupt}

/-! ## Steps one after the other -/

theorem outcome_bind (x : Run α) (f : α → Run β) (st : RunState) :
    outcome (x >>= f) st =
      match outcome x st with
      | (.ok a, st') => outcome (f a) st'
      | (.error i, st') => (.error i, st') := by
  show (ExceptT.bind x f).run.run st = _
  simp only [ExceptT.bind, ExceptT.run, ExceptT.mk, StateT.run, outcome]
  cases hx : x st with
  | mk r st' =>
    simp only [bind, StateT.bind, hx]
    cases r <;> rfl

theorem Gives.bind (hx : Gives x st a st₁) (hf : Gives (f a) st₁ b st') :
    Gives (x >>= f) st b st' := by
  rw [Gives, outcome_bind, hx]
  exact hf

/-- Steps stop where the first one stops. -/
theorem Stops.bind (hx : Stops x st i st') : Stops (x >>= f) st i st' := by
  rw [Stops, outcome_bind, hx]

/-- Steps stop where one stops behind a first one that does not. -/
theorem Gives.stops (hx : Gives x st a st₁) (hf : Stops (f a) st₁ i st') :
    Stops (x >>= f) st i st' := by
  rw [Stops, outcome_bind, hx]
  exact hf

/-- Steps stop nowhere else. -/
theorem Stops.of_bind (h : Stops (x >>= f) st i st') :
    Stops x st i st' ∨ ∃ a st₁, Gives x st a st₁ ∧ Stops (f a) st₁ i st' := by
  rw [Stops, outcome_bind] at h
  split at h
  · rename_i a st₁ hx
    exact .inr ⟨a, st₁, hx, h⟩
  · rename_i i' st₁ hx
    obtain ⟨hi, rfl⟩ := Prod.mk.inj h
    obtain rfl := Except.error.inj hi
    exact .inl hx

theorem Gives.of_bind (h : Gives (x >>= f) st b st') :
    ∃ a st₁, Gives x st a st₁ ∧ Gives (f a) st₁ b st' := by
  rw [Gives, outcome_bind] at h
  split at h
  · rename_i a st₁ hx
    exact ⟨a, st₁, hx, h⟩
  · simp at h

theorem gives_pure (a : α) (st : RunState) : Gives (pure a) st a st := rfl

theorem gives_pure_iff {a' : α} : Gives (pure a) st a' st' ↔ a = a' ∧ st = st' := by
  show ((Except.ok a : Except Interrupt α), st) = (.ok a', st') ↔ _
  simp

theorem not_stops_pure : ¬ Stops (pure a : Run α) st i st' := by
  show ((Except.ok a : Except Interrupt α), st) ≠ (.error i, st')
  simp

theorem stops_throw_iff {i' : Interrupt} :
    Stops (throw i : Run α) st i' st' ↔ i = i' ∧ st = st' := by
  show ((Except.error i : Except Interrupt α), st) = (.error i', st') ↔ _
  simp

/-- A step does not end in both ways. -/
theorem Gives.not_stops (h : Gives x st a st₁) : ¬ Stops x st i st' := by
  intro hi
  rw [Stops, h] at hi
  simp at hi

theorem gives_showNumber_iff {n : Int} {text : String} :
    Gives (showNumber n) st text st' ↔
      Text.isWritable n.natAbs = true ∧ toString n = text ∧ st = st' := by
  unfold showNumber
  split
  · rename_i hn
    simp [gives_pure_iff, hn]
  · rename_i hn
    simpa [hn] using fun h => Gives.not_stops h (stops_throw_iff.2 ⟨rfl, rfl⟩)

theorem stops_showNumber_iff {n : Int} :
    Stops (showNumber n) st i st' ↔
      Text.isWritable n.natAbs = false ∧ .tooManyDigits = i ∧ st = st' := by
  unfold showNumber
  split
  · rename_i hn
    simp [not_stops_pure, hn]
  · rename_i hn
    simp [stops_throw_iff, hn]

/-- A step ends in one way only. -/
theorem Gives.unique {a' : α} (h : Gives x st a st₁) (h' : Gives x st a' st') :
    a = a' ∧ st₁ = st' := by
  rw [Gives, h] at h'
  simpa using h'

/-- What a step gives can be seen from its result. -/
theorem gives_of_toOption (h : (outcome x st).1.toOption = some a) :
    Gives x st a (outcome x st).2 := by
  cases hx : (outcome x st).1 with
  | ok a' =>
    rw [hx] at h
    obtain rfl : a' = a := Option.some.inj h
    exact Prod.ext hx rfl
  | error i => simp [hx, Except.toOption] at h

end Steps

/-! ## How the steps of the language end -/

theorem outcome_withFrame (frame : Bindings) (x : Run α) (st : RunState) :
    outcome (withFrame frame x) st =
      match outcome x { st with frame } with
      | (r, st') => (r, { st' with frame := st.frame }) := rfl

theorem outcome_returnedBy (x : Run α) (st : RunState) :
    outcome (returnedBy x) st =
      match outcome x st with
      | (.ok _, st') => (.ok none, st')
      | (.error (.returned v), st') => (.ok (some v), st')
      | (.error i, st') => (.error i, st') := rfl

theorem gives_classOf (o : ObjectRef) (st : RunState) :
    Gives (classOf o) st (st.heap.get o).cls st := rfl

theorem gives_hasMethod (σ : Setting) (o : ObjectRef) (name : String) (arguments : Nat)
    (st : RunState) :
    Gives (hasMethod σ o name arguments) st
      (σ.table.methodOf? (st.heap.get o).cls name arguments).isSome st := rfl

theorem outcome_address (o : ObjectRef) (st : RunState) :
    outcome (address o) st =
      match st.shown.idxOf? o with
      | some k => (.ok (k + 1), st)
      | none => (.ok (st.shown.length + 1), { st with shown := st.shown ++ [o] }) := by
  show outcome (match st.shown.idxOf? o with
    | some k => pure (k + 1)
    | none => _) st = _
  cases st.shown.idxOf? o <;> rfl

theorem outcome_resolve (σ : Setting) (p : DottedPath) (st : RunState) :
    outcome (resolve σ p) st =
      match st.resolve σ p with
      | .ok v => (.ok v, st)
      | .error e => (.error (.failed e), st) := by
  show outcome (match st.resolve σ p with
    | .ok v => pure v
    | .error e => fail e) st = _
  cases st.resolve σ p <;> rfl

/-- How the run of a program ends is how its statements end. -/
theorem program_eq (σ : Setting) (depth : Nat) (body : Node) (st : RunState) :
    program σ depth body st =
      match outcome (execute σ depth body) st with
      | (.ok _, st') => (none, st')
      | (.error i, st') => (some (errorOf i), st') := rfl

/-- The state that a program leaves is the one that its statements leave. -/
theorem program_snd (σ : Setting) (depth : Nat) (body : Node) (st : RunState) :
    (program σ depth body st).2 = (outcome (execute σ depth body) st).2 := by
  rw [program_eq]
  obtain ⟨result, left⟩ := outcome (execute σ depth body) st
  cases result with
  | ok v => rfl
  | error i => rfl

/-! ## Sealed steps -/

/-- No `return` gets out of the step. -/
def Seals (x : Run α) : Prop :=
  ∀ st i st', Stops x st i st' → ¬ i.IsStray

section Sealed

variable {x : Run α} {f : α → Run β}

/-- A step that always gives a result is sealed. -/
theorem Seals.of_gives (h : ∀ st, ∃ a st', Gives x st a st') : Seals x := by
  intro st i st' hi
  obtain ⟨a, st₁, ha⟩ := h st
  exact absurd hi ha.not_stops

theorem Seals.pure (a : α) : Seals (pure a) := .of_gives fun _ => ⟨_, _, rfl⟩

theorem Seals.throw {i : Interrupt} (hi : ¬ i.IsStray) : Seals (throw i : Run α) := by
  intro st i' st' h
  obtain ⟨rfl, -⟩ := stops_throw_iff.1 h
  exact hi

theorem Seals.fail {e : RuntimeError} (he : e ≠ .returnOutsideMethod) :
    Seals (fail e : Run α) :=
  .throw fun h => he (Interrupt.isStray_failed.1 h)

theorem Seals.bind (hx : Seals x) (hf : ∀ a, Seals (f a)) : Seals (x >>= f) := by
  intro st i st' h
  rcases h.of_bind with h | ⟨a, st₁, -, h⟩
  · exact hx st i st' h
  · exact hf a st₁ i st' h

/-- Where only the first step is not sealed, a `return` comes from it. -/
theorem Stops.of_bind_seals {st st' : RunState} {i : Interrupt} (h : Stops (x >>= f) st i st')
    (hi : i.IsStray) (hf : ∀ a, Seals (f a)) : Stops x st i st' := by
  rcases h.of_bind with h | ⟨a, st₁, -, h⟩
  · exact h
  · exact absurd hi (hf a st₁ i st' h)

/-! ## The steps of the language -/

theorem Seals.get : Seals (get : Run RunState) := .of_gives fun _ => ⟨_, _, rfl⟩

theorem Seals.modify (g : RunState → RunState) : Seals (modify g : Run Unit) :=
  .of_gives fun _ => ⟨_, _, rfl⟩

theorem Seals.construct (cls : ClassRef) : Seals (construct cls) := .of_gives fun _ => ⟨_, _, rfl⟩

theorem Seals.classOf (o : ObjectRef) : Seals (classOf o) := .of_gives fun _ => ⟨_, _, rfl⟩

theorem Seals.typeName (σ : Setting) (v : Value) : Seals (typeName σ v) :=
  .of_gives fun _ => ⟨_, _, rfl⟩

theorem Seals.hasMethod (σ : Setting) (o : ObjectRef) (name : String) (arguments : Nat) :
    Seals (hasMethod σ o name arguments) :=
  .of_gives fun _ => ⟨_, _, rfl⟩

theorem Seals.address (o : ObjectRef) : Seals (address o) := by
  refine Seals.get.bind fun st => ?_
  show Seals (match st.shown.idxOf? o with
    | some i => Pure.pure (i + 1)
    | none => _)
  split
  · exact .pure _
  · exact (Seals.modify _).bind fun _ => .pure _

/-- What runs on a frame of its own is as sealed as it is on the frame of its caller. -/
theorem Seals.withFrame {frame : Bindings} (hx : Seals x) : Seals (withFrame frame x) := by
  intro st i st' h
  have hi : (outcome x { st with frame }).1 = .error i := congrArg Prod.fst h
  exact hx { st with frame } i (outcome x { st with frame }).2 (Prod.ext hi rfl)

/-- A `return` in `x` gets no further, and nothing else in it is taken for one. -/
theorem Seals.returnedBy
    (hx : ∀ st i st', Stops x st i st' → i.IsStray → ∃ v, i = .returned v) :
    Seals (returnedBy x) := by
  intro st i st' h hi
  have hne : ∀ v, i ≠ .returned v := by
    rintro v rfl
    exact returnedBy_ne_returned x st v (congrArg Prod.fst h)
  have hx' : Stops x st i st' := by
    simp only [Stops, outcome, Run.returnedBy, ExceptT.run, ExceptT.mk, StateT.run] at h ⊢
    split at h
    · simp at h
    · simp at h
    · rename_i i' st₁ hne' hrun
      obtain ⟨hi', rfl⟩ := Prod.mk.inj h
      obtain rfl := Except.error.inj hi'
      exact hrun
  obtain ⟨v, rfl⟩ := hx st i st' hx' hi
  exact hne v rfl

/-- A path that leads nowhere is no `return`. -/
theorem RunState.follow_ne_returnOutsideMethod (σ : Setting) (st : RunState) (text : String)
    (v : Value) (names : List String) :
    st.follow σ text v names ≠ .error .returnOutsideMethod := by
  induction names generalizing text v with
  | nil => simp [RunState.follow]
  | cons name rest ih =>
    cases v with
    | empty => exact ih _ _
    | object o =>
      rw [RunState.follow]
      split
      · exact ih _ _
      · simp
    | number | string | bool | classObject => simp [RunState.follow]

theorem Seals.resolve (σ : Setting) (p : DottedPath) : Seals (resolve σ p) := by
  refine Seals.get.bind fun st => ?_
  split
  · exact .pure _
  · rename_i e he
    refine .fail ?_
    rintro rfl
    rw [RunState.resolve] at he
    split at he
    · exact RunState.follow_ne_returnOutsideMethod _ _ _ _ _ he
    · simp at he

theorem Seals.expectObject (σ : Setting) (use : ObjectUse) (v : Value) :
    Seals (expectObject σ use v) := by
  unfold Run.expectObject
  split
  · exact .pure _
  · exact (Seals.typeName σ v).bind fun _ => .fail (by simp)

end Sealed

/-- Only an object passes for one. -/
theorem gives_expectObject {σ : Setting} {use : ObjectUse} {v : Value} {o : ObjectRef}
    {st st' : RunState} (h : Gives (expectObject σ use v) st o st') : v = .object o ∧ st = st' := by
  cases v with
  | object o' =>
    obtain ⟨rfl, rfl⟩ := gives_pure_iff.1 h
    exact ⟨rfl, rfl⟩
  | empty | number | string | bool | classObject =>
    obtain ⟨_, _, -, hfail⟩ := h.of_bind
    exact absurd (stops_throw_iff.2 ⟨rfl, rfl⟩) hfail.not_stops

theorem stops_expectObject {v : Value} (hv : ∀ o, v ≠ .object o) (σ : Setting) (use : ObjectUse)
    (st : RunState) :
    Stops (expectObject σ use v) st (.failed (.objectNeeded use (σ.typeName st.heap v))) st := by
  cases v with
  | object o => exact absurd rfl (hv o)
  | empty | number | string | bool | classObject => rfl

end Run

end Offside
