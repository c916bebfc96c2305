import Offside.Proofs.Outcomes
import Offside.Proofs.Subtrees

set_option autoImplicit false

/-! # Two runs side by side

A `Simulation` is a relation between the states of two runs that everything keeps which a run can do
to its state: binding a name, printing, making and changing objects, entering a method and leaving
it. With it go the values, classes and names that may occur. Two steps *agree* if from related
states they end in the same way and in related states.

The steps that look at the state or change it are shown to agree here. That whole runs do is then a
matter of how they are put together. -/

namespace Offside

/-- Whose bindings a run stands on: those of the tree that it began with, or those of a method. -/
inductive Place
  | own
  | away

/-- A tree asks for no more than this of the values, classes and names that may occur. What its parts
ask for is not looked at. -/
def Node.Asks (t : ClassTable) (fits : Value → Prop) (knows : ClassRef → Prop)
    (binds reads : String → Prop) : Node → Prop
  | constant v => fits v
  | path p => ∀ name ∈ p.names, reads name
  | assign name _ => binds name
  | construct cls _ => knows cls
  | classDefinition cls => knows cls ∧ binds (t.name cls)
  | _ => True

/-- What holds between two runs all the time. -/
structure Simulation (σ σ' : Setting) where
  /-- Whether a first run that goes too deep agrees with whatever the second one does. -/
  Lax : Prop
  /-- The two states are related. -/
  Matches : Place → RunState → RunState → Prop
  /-- The value may occur where there are so many objects. -/
  Fits : Nat → Value → Prop
  /-- The class may occur. -/
  Knows : ClassRef → Prop
  /-- The name may be bound. -/
  Binds : Place → String → Prop
  /-- The name may be looked up. -/
  Reads : Place → String → Prop
  fits_mono : ∀ {m n v}, m ≤ n → Fits m v → Fits n v
  fits_plain : ∀ {n v}, (∀ c, v ≠ .classObject c) → (∀ o, v ≠ .object o) → Fits n v
  fits_classObject : ∀ {n c}, Fits n (.classObject c) ↔ Knows c
  fits_next : ∀ n, Fits (n + 1) (.object ⟨n⟩)
  heap_eq : ∀ {i st st'}, Matches i st st' → st'.heap = st.heap
  shown_eq : ∀ {i st st'}, Matches i st st' → st'.shown = st.shown
  get?_eq : ∀ {i st st' name}, Matches i st st' → Reads i name →
    st'.frame.get? name = st.frame.get? name
  fits_get? : ∀ {i st st' name v}, Matches i st st' → Reads i name →
    st.frame.get? name = some v → Fits st.heap.size v
  knows_cls : ∀ {i st st' o}, Matches i st st' → Fits st.heap.size (.object o) →
    Knows (st.heap.get o).cls
  fits_field : ∀ {i st st' o field v}, Matches i st st' → Fits st.heap.size (.object o) →
    (st.heap.get o).fields.get? field = some v → Fits st.heap.size v
  matches_bindName : ∀ {i st st' name v}, Matches i st st' → Binds i name → Fits st.heap.size v →
    Matches i { st with frame := st.frame.set name v } { st' with frame := st'.frame.set name v }
  matches_write : ∀ {i st st'} (text : String), Matches i st st' →
    Matches i { st with output := st.output ++ text } { st' with output := st'.output ++ text }
  matches_construct : ∀ {i st st' cls}, Matches i st st' → Knows cls →
    Matches i { st with heap := st.heap.add cls } { st' with heap := st'.heap.add cls }
  matches_setField : ∀ {i st st' o v} (field : String), Matches i st st' →
    Fits st.heap.size (.object o) → Fits st.heap.size v →
    Matches i { st with heap := st.heap.setField o field v }
      { st' with heap := st'.heap.setField o field v }
  matches_address : ∀ {i st st'} (o : ObjectRef), Matches i st st' →
    Matches i { st with shown := st.shown ++ [o] } { st' with shown := st'.shown ++ [o] }
  matches_report : ∀ {i st st'} {r : LogRecord}, r.component = "mython.runtime" → Matches i st st' →
    Matches i { st with log := st.log.push r } { st' with log := st'.log.push r }
  matches_enter : ∀ {i st st'} (frame : Bindings), Matches i st st' →
    (∀ name v, frame.get? name = some v → Fits st.heap.size v) →
    Matches .away { st with frame } { st' with frame }
  matches_leave : ∀ {i st st' st₁ st₁'}, Matches i st st' → Matches .away st₁ st₁' →
    st.heap.size ≤ st₁.heap.size →
    Matches i { st₁ with frame := st.frame } { st₁' with frame := st'.frame }
  name_eq : ∀ {c}, Knows c → σ'.table.name c = σ.table.name c
  methodOf?_eq : ∀ {c} (name : String) (arguments : Nat), Knows c →
    σ'.table.methodOf? c name arguments = σ.table.methodOf? c name arguments
  body_asks : ∀ {c name arguments m}, Knows c → σ.table.methodOf? c name arguments = some m →
    m.body.Every (Node.Asks σ.table (Fits 0) Knows (Binds .away) (Reads .away))

open Run

namespace Simulation

variable {σ σ' : Setting} {α β : Type} (S : Simulation σ σ') {i : Place}

/-- The tree asks for nothing that may not occur. -/
def Admits (i : Place) (n : Node) : Prop :=
  n.Every (Node.Asks σ.table (S.Fits 0) S.Knows (S.Binds i) (S.Reads i))

/-- From these states the two steps end in the same way, in related states, and with a result that
has the property `P` where there are so many objects then. -/
inductive AgreesAt (i : Place) (P : Nat → α → Prop) (x y : Run α) (st st' : RunState) : Prop
  | gives {a : α} {st₁ st₁' : RunState} (hx : Gives x st a st₁) (hy : Gives y st' a st₁')
      (hmatch : S.Matches i st₁ st₁') (hsize : st.heap.size ≤ st₁.heap.size)
      (ha : P st₁.heap.size a) : AgreesAt i P x y st st'
  | stops {e : Interrupt} {st₁ st₁' : RunState} (hx : Stops x st e st₁) (hy : Stops y st' e st₁')
      (hmatch : S.Matches i st₁ st₁') (hsize : st.heap.size ≤ st₁.heap.size)
      (he : ∀ v, e = .returned v → S.Fits st₁.heap.size v) : AgreesAt i P x y st st'
  | tooDeep {st₁ : RunState} (hlax : S.Lax) (hx : Stops x st .tooDeep st₁) : AgreesAt i P x y st st'

variable {S} {P : Nat → α → Prop} {Q : Nat → β → Prop} {x y : Run α} {f g : α → Run β}
  {st st' : RunState}

/-! ## Steps one after the other -/

theorem AgreesAt.bind (h : S.AgreesAt i P x y st st')
    (hf : ∀ a st₁ st₁', S.Matches i st₁ st₁' → st.heap.size ≤ st₁.heap.size → P st₁.heap.size a →
      S.AgreesAt i Q (f a) (g a) st₁ st₁') :
    S.AgreesAt i Q (x >>= f) (y >>= g) st st' := by
  cases h with
  | gives hx hy hmatch hsize ha =>
    cases hf _ _ _ hmatch hsize ha with
    | gives hx₁ hy₁ hmatch₁ hsize₁ ha₁ =>
      exact .gives (hx.bind hx₁) (hy.bind hy₁) hmatch₁ (Nat.le_trans hsize hsize₁) ha₁
    | stops hx₁ hy₁ hmatch₁ hsize₁ he =>
      exact .stops (hx.stops hx₁) (hy.stops hy₁) hmatch₁ (Nat.le_trans hsize hsize₁) he
    | tooDeep hlax hx₁ => exact .tooDeep hlax (hx.stops hx₁)
  | stops hx hy hmatch hsize he => exact .stops hx.bind hy.bind hmatch hsize he
  | tooDeep hlax hx => exact .tooDeep hlax hx.bind

section Steps

variable (hmatch : S.Matches i st st')
include hmatch

theorem AgreesAt.pure {a : α} (ha : P st.heap.size a) :
    S.AgreesAt i P (Pure.pure a) (Pure.pure a) st st' :=
  .gives (gives_pure a st) (gives_pure a st') hmatch (Nat.le_refl _) ha

theorem AgreesAt.throw {e : Interrupt} (he : ∀ v, e = .returned v → S.Fits st.heap.size v) :
    S.AgreesAt i P (MonadExcept.throw e) (MonadExcept.throw e) st st' :=
  .stops (stops_throw_iff.2 ⟨rfl, rfl⟩) (stops_throw_iff.2 ⟨rfl, rfl⟩) hmatch (Nat.le_refl _) he

theorem AgreesAt.fail (e : RuntimeError) : S.AgreesAt i P (fail e) (fail e) st st' :=
  AgreesAt.throw hmatch (by simp)

theorem AgreesAt.throwReturned {v : Value} (hv : S.Fits st.heap.size v) :
    S.AgreesAt i P (MonadExcept.throw (.returned v)) (MonadExcept.throw (.returned v)) st st' :=
  AgreesAt.throw hmatch fun _ hw => Interrupt.returned.inj hw ▸ hv

theorem AgreesAt.showNumber (n : Int) :
    S.AgreesAt i (fun _ _ => True) (showNumber n) (showNumber n) st st' := by
  unfold Run.showNumber
  split
  · exact AgreesAt.pure hmatch trivial
  · exact AgreesAt.throw hmatch (by simp)

/-! ## Steps that change the state -/

theorem AgreesAt.bindName {name : String} {v : Value} (hname : S.Binds i name)
    (hv : S.Fits st.heap.size v) :
    S.AgreesAt i (fun _ _ => True) (bindName name v) (bindName name v) st st' :=
  .gives (run_bindName name v st) (run_bindName name v st') (S.matches_bindName hmatch hname hv)
    (Nat.le_refl _) trivial

theorem AgreesAt.write (text : String) :
    S.AgreesAt i (fun _ _ => True) (write text) (write text) st st' :=
  .gives (run_write text st) (run_write text st') (S.matches_write text hmatch) (Nat.le_refl _) trivial

theorem AgreesAt.report {r : LogRecord} (hr : r.component = "mython.runtime") :
    S.AgreesAt i (fun _ _ => True) (report r) (report r) st st' := by
  have hx : Gives (Run.report r) st () { st with log := st.log.push r } := rfl
  have hy : Gives (Run.report r) st' () { st' with log := st'.log.push r } := rfl
  exact .gives hx hy (S.matches_report hr hmatch) (Nat.le_refl _) trivial

theorem AgreesAt.construct {cls : ClassRef} (hcls : S.Knows cls) :
    S.AgreesAt i (fun n o => S.Fits n (.object o)) (construct cls) (construct cls) st st' := by
  have hy : Gives (Run.construct cls) st' st.heap.next
      { st' with heap := st'.heap.add cls } := by
    rw [← S.heap_eq hmatch]
    exact run_construct cls st'
  apply AgreesAt.gives (run_construct cls st) hy (S.matches_construct hmatch hcls)
  · simp
  · rw [Heap.size_add]
    exact S.fits_next _

theorem AgreesAt.setField {o : ObjectRef} {v : Value} (field : String)
    (ho : S.Fits st.heap.size (.object o)) (hv : S.Fits st.heap.size v) :
    S.AgreesAt i (fun _ _ => True) (setField o field v) (setField o field v) st st' := by
  apply AgreesAt.gives (run_setField o field v st) (run_setField o field v st')
    (S.matches_setField field hmatch ho hv)
  · simp
  · trivial

theorem AgreesAt.address (o : ObjectRef) :
    S.AgreesAt i (fun _ (_ : Nat) => True) (address o) (address o) st st' := by
  have hx := outcome_address o st
  have hy := outcome_address o st'
  rw [S.shown_eq hmatch] at hy
  cases hk : st.shown.idxOf? o with
  | some k =>
    rw [hk] at hx hy
    exact .gives hx hy hmatch (Nat.le_refl _) trivial
  | none =>
    rw [hk] at hx hy
    rw [← S.shown_eq hmatch] at hy
    have hlength : st.shown.length = st'.shown.length := by rw [S.shown_eq hmatch]
    rw [hlength] at hx
    exact .gives hx hy (S.matches_address o hmatch) (Nat.le_refl _) trivial

/-! ## Steps that look at the state -/

theorem AgreesAt.classOf {o : ObjectRef} (ho : S.Fits st.heap.size (.object o)) :
    S.AgreesAt i (fun _ c => S.Knows c) (classOf o) (classOf o) st st' := by
  have hx : Gives (Run.classOf o) st (st.heap.get o).cls st := rfl
  have hy : Gives (Run.classOf o) st' (st.heap.get o).cls st' := by
    rw [← S.heap_eq hmatch]
    rfl
  exact .gives hx hy hmatch (Nat.le_refl _) (S.knows_cls hmatch ho)

theorem AgreesAt.hasMethod {o : ObjectRef} (name : String) (arguments : Nat)
    (ho : S.Fits st.heap.size (.object o)) :
    S.AgreesAt i (fun _ _ => True) (hasMethod σ o name arguments) (hasMethod σ' o name arguments) st
      st' := by
  apply AgreesAt.bind (AgreesAt.classOf hmatch ho)
  intro c st₁ st₁' hmatch₁ _ hc
  rw [S.methodOf?_eq name arguments hc]
  exact AgreesAt.pure hmatch₁ trivial

theorem typeName_eq {v : Value} (hv : S.Fits st.heap.size v) :
    σ'.typeName st'.heap v = σ.typeName st.heap v := by
  rw [S.heap_eq hmatch]
  cases v with
  | object o => exact S.name_eq (S.knows_cls hmatch hv)
  | empty | number | string | bool | classObject => rfl

theorem AgreesAt.typeName {v : Value} (hv : S.Fits st.heap.size v) :
    S.AgreesAt i (fun _ _ => True) (typeName σ v) (typeName σ' v) st st' := by
  have hx : Gives (Run.typeName σ v) st (σ.typeName st.heap v) st := rfl
  have hy : Gives (Run.typeName σ' v) st' (σ.typeName st.heap v) st' := by
    rw [← typeName_eq hmatch hv]
    rfl
  exact .gives hx hy hmatch (Nat.le_refl _) trivial

/-- Both runs name the same two types when they fail for them. -/
theorem AgreesAt.failOnTypes (e : String → String → RuntimeError) {left right : Value}
    (hleft : S.Fits st.heap.size left) (hright : S.Fits st.heap.size right) :
    S.AgreesAt i P (do Run.fail (e (← Run.typeName σ left) (← Run.typeName σ right)))
      (do Run.fail (e (← Run.typeName σ' left) (← Run.typeName σ' right))) st st' := by
  apply AgreesAt.bind (AgreesAt.typeName hmatch hleft)
  intro l st₁ st₁' hmatch₁ hsize _
  apply AgreesAt.bind (AgreesAt.typeName hmatch₁ (S.fits_mono hsize hright))
  intro r st₂ st₂' hmatch₂ _ _
  exact AgreesAt.fail hmatch₂ _

theorem AgreesAt.expectObject (use : ObjectUse) {v : Value} (hv : S.Fits st.heap.size v) :
    S.AgreesAt i (fun n o => S.Fits n (.object o)) (expectObject σ use v) (expectObject σ' use v)
      st st' := by
  cases v with
  | object o => exact AgreesAt.pure hmatch hv
  | empty | number | string | bool | classObject =>
    apply AgreesAt.bind (AgreesAt.typeName hmatch hv)
    intro name st₁ st₁' hmatch₁ _ _
    exact AgreesAt.fail hmatch₁ _

/-- A path is followed in the same way, and what is found on it may occur. -/
theorem follow_eq {names : List String} (hnames : ∀ name ∈ names, S.Reads i name) (text : String)
    {v : Value} (hv : S.Fits st.heap.size v) :
    st'.follow σ' text v names = st.follow σ text v names ∧
      ∀ w, st.follow σ text v names = .ok w → S.Fits st.heap.size w := by
  induction names generalizing text v with
  | nil =>
    constructor
    · rfl
    · intro w hw
      exact Except.ok.inj hw ▸ hv
  | cons name rest ih =>
    have hrest : ∀ name ∈ rest, S.Reads i name := fun x hx => hnames x (List.mem_cons_of_mem _ hx)
    have hname : S.Reads i name := hnames name (List.mem_cons_self ..)
    cases v with
    | empty =>
      rw [RunState.follow, RunState.follow, S.get?_eq hmatch hname]
      apply ih hrest
      cases hget : st.frame.get? name with
      | none => exact S.fits_plain (by simp) (by simp)
      | some w => exact S.fits_get? hmatch hname hget
    | object o =>
      rw [RunState.follow, RunState.follow, S.heap_eq hmatch]
      cases hget : (st.heap.get o).fields.get? name with
      | none => exact ⟨rfl, by simp⟩
      | some w => exact ih hrest _ (S.fits_field hmatch hv hget)
    | number | string | bool | classObject =>
      rw [RunState.follow, RunState.follow, typeName_eq hmatch hv]
      · exact ⟨rfl, by simp⟩
      all_goals simp

theorem AgreesAt.resolve {p : DottedPath} (hp : ∀ name ∈ p.names, S.Reads i name) :
    S.AgreesAt i S.Fits (resolve σ p) (resolve σ' p) st st' := by
  have hfirst : S.Reads i p.first := hp _ (List.mem_cons_self ..)
  have hrest : ∀ name ∈ p.rest, S.Reads i name := fun x hx => hp x (List.mem_cons_of_mem _ hx)
  have hresolve : st'.resolve σ' p = st.resolve σ p ∧
      ∀ v, st.resolve σ p = .ok v → S.Fits st.heap.size v := by
    rw [RunState.resolve, RunState.resolve, S.get?_eq hmatch hfirst]
    cases hget : st.frame.get? p.first with
    | none => exact ⟨rfl, by simp⟩
    | some v => exact follow_eq hmatch hrest _ (S.fits_get? hmatch hfirst hget)
  have hx := outcome_resolve σ p st
  have hy := outcome_resolve σ' p st'
  rw [hresolve.1] at hy
  cases hv : st.resolve σ p with
  | ok v =>
    rw [hv] at hx hy
    exact .gives hx hy hmatch (Nat.le_refl _) (hresolve.2 v hv)
  | error e =>
    rw [hv] at hx hy
    exact .stops hx hy hmatch (Nat.le_refl _) (by simp)

/-! ## Steps around others -/

theorem AgreesAt.withFrame {frame : Bindings}
    (h : S.AgreesAt .away P x y { st with frame } { st' with frame }) :
    S.AgreesAt i P (withFrame frame x) (withFrame frame y) st st' := by
  have hx' := outcome_withFrame frame x st
  have hy' := outcome_withFrame frame y st'
  cases h with
  | gives hx hy hmatch₁ hsize ha =>
    rw [hx] at hx'
    rw [hy] at hy'
    exact .gives hx' hy' (S.matches_leave hmatch hmatch₁ hsize) hsize ha
  | stops hx hy hmatch₁ hsize he =>
    rw [hx] at hx'
    rw [hy] at hy'
    exact .stops hx' hy' (S.matches_leave hmatch hmatch₁ hsize) hsize he
  | tooDeep hlax hx =>
    rw [hx] at hx'
    exact .tooDeep hlax hx'

end Steps

/-- A `return` is caught in both runs, with the same value. -/
theorem AgreesAt.returnedBy (h : S.AgreesAt i P x y st st') :
    S.AgreesAt i (fun n v? => ∀ v ∈ v?, S.Fits n v) (returnedBy x) (returnedBy y) st st' := by
  have hx' := outcome_returnedBy x st
  have hy' := outcome_returnedBy y st'
  cases h with
  | gives hx hy hmatch hsize ha =>
    rw [hx] at hx'
    rw [hy] at hy'
    exact .gives hx' hy' hmatch hsize (by simp)
  | @stops e _ _ hx hy hmatch hsize he =>
    rw [hx] at hx'
    rw [hy] at hy'
    cases e with
    | returned v => exact .gives hx' hy' hmatch hsize (by simpa using he v rfl)
    | failed e => exact .stops hx' hy' hmatch hsize he
    | tooDeep | tooManyDigits => exact .stops hx' hy' hmatch hsize he
  | tooDeep hlax hx =>
    rw [hx] at hx'
    exact .tooDeep hlax hx'

end Simulation

end Offside
