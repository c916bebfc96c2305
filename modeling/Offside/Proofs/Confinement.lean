import Offside.Proofs.Dispatch
import Offside.Proofs.Subtrees

set_option autoImplicit false

/-! # Runs within a sphere

A `Sphere` is a collection of objects that a run keeps to: the bindings and the fields of its objects
lead to its objects only. It also tells whether methods may be called. Where they may not, no object
of the sphere is of a class with a method, and a step that keeps to the sphere makes no call; where
they may, all objects are in it. And it tells whether a number may be found to have too many digits.

A step that keeps to a sphere is interrupted for its depth only where methods may be called, and then
it has made a number of calls before. What is put together from such steps keeps to the sphere as
well. -/

namespace Offside

/-- Whether the record tells of a call. -/
def LogRecord.isCall : LogRecord → Bool
  | calling _ _ _ => true
  | _ => false

/-- The number of calls of methods in the log. -/
def RunState.calls (st : RunState) : Nat := st.log.countP LogRecord.isCall

/-- The objects that a run keeps to, whether it may call methods, and whether it may stop at a number
with too many digits. -/
structure Sphere where
  Inside : ObjectRef → Prop
  Calls : Prop
  Digits : Prop
  inside_of_calls : Calls → ∀ o, Inside o

namespace Sphere

/-- If the value is an object, it is one of the sphere. -/
def Fits (S : Sphere) (v : Value) : Prop := ∀ o, v = .object o → S.Inside o

/-- The bindings of the state and the fields of objects inside lead to objects inside. If any of these
has a method, methods may be called. -/
structure Holds (S : Sphere) (t : ClassTable) (st : RunState) : Prop where
  frame : ∀ name v, st.frame.get? name = some v → S.Fits v
  fields : ∀ o, S.Inside o → ∀ name v, (st.heap.get o).fields.get? name = some v → S.Fits v
  methods : ∀ o, S.Inside o → ∀ name m, t.method? (st.heap.get o).cls name = some m → S.Calls

/-- The tree itself yields objects of the sphere only, and makes none unless methods may be called. -/
def Admits (S : Sphere) : Node → Prop
  | .constant v => S.Fits v
  | .construct _ _ => S.Calls
  | _ => True

variable {S : Sphere} {t : ClassTable} {st st' : RunState}

theorem fits_of_calls (h : S.Calls) (v : Value) : S.Fits v := fun o _ => S.inside_of_calls h o

theorem fits_of_ne {v : Value} (h : ∀ o, v ≠ .object o) : S.Fits v := fun o ho => absurd ho (h o)

theorem fits_object {o : ObjectRef} : S.Fits (.object o) ↔ S.Inside o :=
  ⟨fun h => h o rfl, fun h _ ho => Value.object.inj ho ▸ h⟩

theorem admits_of_calls (h : S.Calls) (n : Node) : S.Admits n := by
  cases n with
  | constant v => exact fits_of_calls h v
  | construct => exact h
  | _ => trivial

theorem holds_of_calls (h : S.Calls) : S.Holds t st :=
  ⟨fun _ v _ => fits_of_calls h v, fun _ _ _ v _ => fits_of_calls h v, fun _ _ _ _ _ => h⟩

namespace Holds

/-- Only bindings and objects count. -/
theorem congr (h : S.Holds t st) (hframe : st'.frame = st.frame) (hheap : st'.heap = st.heap) :
    S.Holds t st' := by
  constructor
  · rw [hframe]
    exact h.frame
  · rw [hheap]
    exact h.fields
  · rw [hheap]
    exact h.methods

theorem bindName (h : S.Holds t st) (name : String) {v : Value} (hv : S.Fits v) :
    S.Holds t { st with frame := st.frame.set name v } := by
  refine ⟨fun x w hw => ?_, h.fields, h.methods⟩
  dsimp only at hw
  rw [Bindings.get?_set] at hw
  by_cases hx : x = name
  · rw [if_pos hx] at hw
    exact Option.some.inj hw ▸ hv
  · rw [if_neg hx] at hw
    exact h.frame x w hw

end Holds

end Sphere

/-- Entering a method is one more call. -/
theorem calls_entered (σ : Setting) (m : Method) (o : ObjectRef) (name : String)
    (arguments : List Value) (st : RunState) :
    (Run.entered σ m o name arguments st).calls = st.calls + 1 := by
  simp [RunState.calls, Run.entered, Array.countP_push, LogRecord.isCall]

/-- What a store of a field leaves of an object. -/
theorem Heap.get_setField (h : Heap) (o p : ObjectRef) (field : String) (v : Value) :
    ((h.setField o field v).get p).cls = (h.get p).cls ∧
      ∀ name w, ((h.setField o field v).get p).fields.get? name = some w →
        w = v ∨ (h.get p).fields.get? name = some w := by
  simp only [get, get?_setField]
  by_cases hp : p = o
  · rw [if_pos hp]
    cases hx : h.get? p with
    | none => exact ⟨rfl, fun _ _ hw => .inr hw⟩
    | some x =>
      refine ⟨rfl, fun name w hw => ?_⟩
      simp only [Option.map_some, Option.getD_some] at hw ⊢
      rw [Bindings.get?_set] at hw
      by_cases hname : name = field
      · rw [if_pos hname] at hw
        exact .inl (Option.some.inj hw).symm
      · rw [if_neg hname] at hw
        exact .inr hw
  · rw [if_neg hp]
    exact ⟨rfl, fun _ _ hw => .inr hw⟩

namespace Sphere

variable {S : Sphere} {σ : Setting} {t : ClassTable} {st : RunState} {k : Nat}

theorem Holds.setField (h : S.Holds t st) (o : ObjectRef) (field : String) {v : Value}
    (hv : S.Fits v) : S.Holds t { st with heap := st.heap.setField o field v } := by
  refine ⟨h.frame, fun p hp name w hw => ?_, fun p hp name m hm => ?_⟩
  · rcases (st.heap.get_setField o p field v).2 name w hw with rfl | hw
    · exact hv
    · exact h.fields p hp name w hw
  · have hm' : t.method? ((st.heap.setField o field v).get p).cls name = some m := hm
    rw [(st.heap.get_setField o p field v).1] at hm'
    exact h.methods p hp name m hm'

/-- A path leads from bindings to fields of objects inside. -/
theorem Holds.fits_follow (h : S.Holds t st) {text : String} {v w : Value} {names : List String}
    (hv : S.Fits v) (hw : st.follow σ text v names = .ok w) : S.Fits w := by
  induction names generalizing text v with
  | nil => exact Except.ok.inj hw ▸ hv
  | cons name names ih =>
    cases v with
    | empty =>
      refine ih ?_ hw
      cases hname : st.frame.get? name with
      | none => exact fits_of_ne (by simp)
      | some u => exact h.frame name u hname
    | object o =>
      rw [RunState.follow] at hw
      split at hw
      · rename_i u hu
        exact ih (h.fields o (fits_object.1 hv) name u hu) hw
      · simp at hw
    | number | string | bool | classObject => simp [RunState.follow] at hw

theorem Holds.fits_resolve (h : S.Holds t st) {p : DottedPath} {w : Value}
    (hw : st.resolve σ p = .ok w) : S.Fits w := by
  rw [RunState.resolve] at hw
  split at hw
  · rename_i v hv
    exact h.fits_follow (h.frame p.first v hv) hw
  · simp at hw

/-! ## Steps -/

open Run

/-- What the end of a step has to do with the state `st` in which it began: it is within the sphere,
with no calls made unless they may be, and with `k` calls made if the depth did not suffice. -/
structure Stays (S : Sphere) (t : ClassTable) (k : Nat) {α : Type} (Q : α → Prop) (st : RunState)
    (r : Except Interrupt α × RunState) : Prop where
  holds : S.Holds t r.2
  calls_le : st.calls ≤ r.2.calls
  calls_eq : ¬ S.Calls → r.2.calls = st.calls
  ok : ∀ a, r.1 = .ok a → Q a
  returned : ∀ v, r.1 = .error (.returned v) → S.Fits v
  tooManyDigits : r.1 = .error .tooManyDigits → S.Digits
  tooDeep : r.1 = .error .tooDeep → S.Calls ∧ st.calls + k ≤ r.2.calls

/-- From every state within the sphere on, the step keeps to it, and what it gives has the property
`Q`. -/
def Keeps (S : Sphere) (t : ClassTable) (k : Nat) {α : Type} (x : Run α) (Q : α → Prop) : Prop :=
  ∀ st, S.Holds t st → S.Stays t k Q st (outcome x st)

variable {α β : Type} {x : Run α} {f : α → Run β} {Q : α → Prop} {R : β → Prop}

/-- A step without calls that gives a result. -/
theorem Stays.of_ok {a : α} {st' : RunState} (h : S.Holds t st') (hcalls : st'.calls = st.calls)
    (ha : Q a) : S.Stays t k Q st (.ok a, st') where
  holds := h
  calls_le := Nat.le_of_eq hcalls.symm
  calls_eq _ := hcalls
  ok _ hb := Except.ok.inj hb ▸ ha
  returned := nofun
  tooManyDigits := nofun
  tooDeep := nofun

/-- A step that is interrupted where it began. -/
theorem Stays.of_interrupted {i : Interrupt} (h : S.Holds t st)
    (hreturned : ∀ v, i = .returned v → S.Fits v) (hdigits : i = .tooManyDigits → S.Digits)
    (hdeep : i = .tooDeep → S.Calls ∧ k = 0) :
    S.Stays t k Q st (.error i, st) where
  holds := h
  calls_le := Nat.le_refl _
  calls_eq _ := rfl
  ok := nofun
  returned v hv := hreturned v (Except.error.inj hv)
  tooManyDigits hi := hdigits (Except.error.inj hi)
  tooDeep hi := by
    obtain ⟨hcalls, rfl⟩ := hdeep (Except.error.inj hi)
    exact ⟨hcalls, Nat.le_refl _⟩

/-- A step that fails where it began. -/
theorem Stays.of_failed {e : RuntimeError} (h : S.Holds t st) :
    S.Stays t k Q st (.error (.failed e), st) :=
  .of_interrupted h (by simp) (by simp) (by simp)

/-- What a step behind another one has to do with the state in which the first one began. -/
theorem Stays.trans {a : α} {st₁ : RunState} {r : Except Interrupt β × RunState}
    (h : S.Stays t k Q st (.ok a, st₁)) (h₁ : S.Stays t k R st₁ r) : S.Stays t k R st r where
  holds := h₁.holds
  calls_le := Nat.le_trans h.calls_le h₁.calls_le
  calls_eq hno := (h₁.calls_eq hno).trans (h.calls_eq hno)
  ok := h₁.ok
  returned := h₁.returned
  tooManyDigits := h₁.tooManyDigits
  tooDeep hdeep := by
    obtain ⟨hcalls, hk⟩ := h₁.tooDeep hdeep
    exact ⟨hcalls, Nat.le_trans (Nat.add_le_add_right h.calls_le k) hk⟩

/-- What interrupts a step interrupts what is put together from it. -/
theorem Stays.error {i : Interrupt} {st₁ : RunState}
    (h : S.Stays t k Q st (.error i, st₁)) : S.Stays t k R st (.error i, st₁) where
  holds := h.holds
  calls_le := h.calls_le
  calls_eq := h.calls_eq
  ok := nofun
  returned v hv := h.returned v (congrArg Except.error (Except.error.inj hv))
  tooManyDigits hi := h.tooManyDigits (congrArg Except.error (Except.error.inj hi))
  tooDeep hdeep := h.tooDeep (congrArg Except.error (Except.error.inj hdeep))

/-- What runs on a frame of its own gives the caller its own frame back. -/
theorem Stays.leave {r : Except Interrupt α × RunState} (h : S.Stays t k Q st r) (hcalls : S.Calls)
    (frame : Bindings) : S.Stays t k Q st (r.1, { r.2 with frame }) where
  holds := holds_of_calls hcalls
  calls_le := h.calls_le
  calls_eq hno := absurd hcalls hno
  ok := h.ok
  returned := h.returned
  tooManyDigits := h.tooManyDigits
  tooDeep := h.tooDeep

/-- Behind a call one call less is owed. -/
theorem Stays.called {st₁ : RunState} {r : Except Interrupt α × RunState} (hcalls : S.Calls)
    (hst₁ : st₁.calls = st.calls + 1) (h : S.Stays t (k - 1) Q st₁ r) : S.Stays t k Q st r where
  holds := h.holds
  calls_le := by
    have hle := h.calls_le
    omega
  calls_eq hno := absurd hcalls hno
  ok := h.ok
  returned := h.returned
  tooManyDigits := h.tooManyDigits
  tooDeep hdeep := by
    obtain ⟨-, hk⟩ := h.tooDeep hdeep
    exact ⟨hcalls, by omega⟩

namespace Keeps

theorem mono (h : S.Keeps t k x Q) {Q' : α → Prop} (hQ : ∀ a, Q a → Q' a) : S.Keeps t k x Q' :=
  fun st hst =>
    have hx := h st hst
    ⟨hx.holds, hx.calls_le, hx.calls_eq, fun a ha => hQ a (hx.ok a ha), hx.returned,
      hx.tooManyDigits, hx.tooDeep⟩

theorem bind (h : S.Keeps t k x Q) (hf : ∀ a, Q a → S.Keeps t k (f a) R) :
    S.Keeps t k (x >>= f) R := by
  intro st hst
  have hx := h st hst
  rw [outcome_bind]
  cases hr : outcome x st with
  | mk r st₁ =>
    rw [hr] at hx
    cases r with
    | ok a => exact hx.trans (hf a (hx.ok a rfl) st₁ hx.holds)
    | error i => exact hx.error

theorem pure {a : α} (ha : Q a) : S.Keeps t k (Pure.pure a) Q :=
  fun _ hst => .of_ok hst rfl ha

theorem fail (e : RuntimeError) : S.Keeps t k (fail e : Run α) Q :=
  fun _ hst => .of_failed hst

theorem throw_returned {v : Value} (hv : S.Fits v) :
    S.Keeps t k (throw (.returned v) : Run α) Q :=
  fun _ hst => .of_interrupted hst (fun _ hw => Interrupt.returned.inj hw ▸ hv) (by simp)
    (by simp)

theorem throw_tooDeep (hk : S.Calls ∧ k = 0) : S.Keeps t k (throw .tooDeep : Run α) Q :=
  fun _ hst => .of_interrupted hst (by simp) (by simp) fun _ => hk

theorem showNumber (h : S.Digits) (n : Int) : S.Keeps t k (showNumber n) fun _ => True := by
  unfold Run.showNumber
  split
  · exact pure trivial
  · exact fun _ hst => .of_interrupted hst (by simp) (fun _ => h) (by simp)

theorem ite {c : Prop} [Decidable c] {y : Run α} (hx : S.Keeps t k x Q) (hy : S.Keeps t k y Q) :
    S.Keeps t k (if c then x else y) Q := by
  split
  · exact hx
  · exact hy

/-! ## Steps without calls -/

theorem typeName (σ : Setting) (v : Value) : S.Keeps t k (typeName σ v) fun _ => True :=
  fun _ hst => .of_ok hst rfl trivial

theorem classOf (o : ObjectRef) : S.Keeps t k (classOf o) fun _ => True :=
  fun _ hst => .of_ok hst rfl trivial

/-- Only where methods may be called is one found. -/
theorem hasMethod {o : ObjectRef} (ho : S.Inside o) (name : String) (arguments : Nat) :
    S.Keeps σ.table k (hasMethod σ o name arguments) fun found => found = true → S.Calls := by
  refine fun st hst => .of_ok hst rfl fun hfound => ?_
  obtain ⟨m, hm⟩ := Option.isSome_iff_exists.1 hfound
  exact hst.methods o ho name m (Option.filter_eq_some_iff.1 hm).1

theorem write (text : String) : S.Keeps t k (write text) fun _ => True :=
  fun _ hst => .of_ok (hst.congr rfl rfl) rfl trivial

theorem address (o : ObjectRef) : S.Keeps t k (address o) fun _ => True := by
  intro st hst
  rw [outcome_address]
  cases st.shown.idxOf? o with
  | some i => exact .of_ok hst rfl trivial
  | none => exact .of_ok (hst.congr rfl rfl) rfl trivial

theorem construct (h : S.Calls) (cls : ClassRef) : S.Keeps t k (construct cls) fun _ => True :=
  fun _ _ => .of_ok (holds_of_calls h) rfl trivial

theorem bindName (name : String) {v : Value} (hv : S.Fits v) :
    S.Keeps t k (bindName name v) fun _ => True :=
  fun _ hst => .of_ok (hst.bindName name hv) rfl trivial

theorem setField (o : ObjectRef) (field : String) {v : Value} (hv : S.Fits v) :
    S.Keeps t k (setField o field v) fun _ => True :=
  fun _ hst => .of_ok (hst.setField o field hv) rfl trivial

theorem expectObject (σ : Setting) (use : ObjectUse) {v : Value} (hv : S.Fits v) :
    S.Keeps t k (expectObject σ use v) S.Inside := by
  cases v with
  | object o => exact .pure (fits_object.1 hv)
  | _ => exact (typeName σ _).bind fun _ _ => .fail _

theorem resolve (σ : Setting) (p : DottedPath) : S.Keeps t k (resolve σ p) S.Fits := by
  intro st hst
  rw [outcome_resolve]
  cases h : st.resolve σ p with
  | ok v => exact .of_ok hst rfl (hst.fits_resolve h)
  | error e => exact .of_failed hst

/-- A `return` in the step becomes a result. -/
theorem returnedBy (h : S.Keeps t k x Q) :
    S.Keeps t k (returnedBy x) fun v? => ∀ v, v? = some v → S.Fits v := by
  intro st hst
  have hx := h st hst
  rw [outcome_returnedBy]
  cases hr : outcome x st with
  | mk r st₁ =>
    rw [hr] at hx
    cases r with
    | ok a => exact ⟨hx.holds, hx.calls_le, hx.calls_eq, by simp, nofun, nofun, nofun⟩
    | error i =>
      cases i with
      | returned v =>
        have hv := hx.returned v rfl
        exact ⟨hx.holds, hx.calls_le, hx.calls_eq, by simpa using hv, nofun, nofun, nofun⟩
      | failed e => exact hx.error
      | tooDeep | tooManyDigits => exact hx.error

/-! ## Calls -/

/-- A call makes one of the calls that are owed, and what follows it makes the others. -/
theorem invoke_bind {execute : Node → Run Value} {o : ObjectRef} (ho : S.Inside o) (name : String)
    (arguments : List Value) {g : Value → Run β}
    (hbody : S.Calls → ∀ c m, σ.table.methodOf? c name arguments.length = some m →
      S.Keeps σ.table (k - 1) (execute m.body) fun _ => True)
    (hg : S.Calls → ∀ v, S.Keeps σ.table (k - 1) (g v) R) :
    S.Keeps σ.table k (invoke σ execute o name arguments >>= g) R := by
  intro st hst
  rw [outcome_bind]
  cases hm : σ.table.methodOf? (st.heap.get o).cls name arguments.length with
  | none =>
    rw [outcome_invoke_of_none execute hm]
    exact .of_failed hst
  | some m =>
    have hcalls : S.Calls := hst.methods o ho name m (Option.filter_eq_some_iff.1 hm).1
    have hleft := (hbody hcalls _ m hm (entered σ m o name arguments st)
      (holds_of_calls hcalls)).leave hcalls st.frame
    rw [outcome_invoke_of_some execute hm]
    cases hr : outcome (execute m.body) (entered σ m o name arguments st) with
    | mk r st₁ =>
      rw [hr] at hleft
      refine Stays.called hcalls (calls_entered σ m o name arguments st) ?_
      cases r with
      | ok v => exact hleft.trans (hg hcalls v _ hleft.holds)
      | error i => exact hleft.error

theorem invoke {execute : Node → Run Value} {o : ObjectRef} (ho : S.Inside o) (name : String)
    (arguments : List Value)
    (hbody : S.Calls → ∀ c m, σ.table.methodOf? c name arguments.length = some m →
      S.Keeps σ.table (k - 1) (execute m.body) fun _ => True) :
    S.Keeps σ.table k (invoke σ execute o name arguments) S.Fits := by
  have h := invoke_bind ho name arguments hbody
    fun hcalls v => Keeps.pure (a := v) (fits_of_calls hcalls v)
  rwa [bind_pure] at h

end Keeps

end Sphere

end Offside
