import Offside.Proofs.KnownClasses
import Offside.Proofs.SimulatedRuns

set_option autoImplicit false

/-! # Runs on longer tables

A state knows its classes if they, and the objects that its bindings and fields lead to, are there.
From such a state a closed tree runs on a table in the same way as on a table that goes on with
further classes, and it leaves such a state. What was logged or printed before plays no part in this.
-/

namespace Offside

/-! ## States that lead nowhere else -/

/-- All values bound are known. -/
def Bindings.Known (classes objects : Nat) (b : Bindings) : Prop :=
  ∀ name v, b.get? name = some v → v.Known classes objects

/-- All objects are of known classes and have known values in their fields. -/
def Heap.Known (classes : Nat) (h : Heap) : Prop :=
  ∀ o x, h.get? o = some x → x.cls.index < classes ∧ x.fields.Known classes h.size

/-- All that the state leads to is known. -/
structure RunState.Known (classes : Nat) (st : RunState) : Prop where
  frame : st.frame.Known classes st.heap.size
  heap : st.heap.Known classes

variable {m n m' n' : Nat}

theorem Bindings.known_empty : empty.Known m n := by
  intro name v h
  simp at h

theorem Bindings.Known.mono {b : Bindings} (h : b.Known m n) (hm : m ≤ m') (hn : n ≤ n') :
    b.Known m' n' :=
  fun name v hv => (h name v hv).mono hm hn

theorem Bindings.Known.set {b : Bindings} (h : b.Known m n) {v : Value} (hv : v.Known m n)
    (name : String) : (b.set name v).Known m n := by
  intro x w hw
  rw [get?_set] at hw
  by_cases hx : x = name
  · rw [if_pos hx] at hw
    exact Option.some.inj hw ▸ hv
  · rw [if_neg hx] at hw
    exact h x w hw

namespace Heap

variable {h : Heap} {o : ObjectRef}

theorem get?_eq_some_get (ho : o.index < h.size) : h.get? o = some (h.get o) := by
  obtain ⟨x, hx⟩ : ∃ x, h.get? o = some x := ⟨_, Array.getElem?_eq_getElem ho⟩
  rw [get, hx]
  rfl

theorem known_empty : empty.Known m := by
  intro o x hx
  simp [empty, get?] at hx

theorem Known.mono (hh : h.Known m) (hm : m ≤ m') : h.Known m' := by
  intro o x hx
  obtain ⟨hcls, hfields⟩ := hh o x hx
  exact ⟨Nat.lt_of_lt_of_le hcls hm, hfields.mono hm (Nat.le_refl _)⟩

theorem Known.get (hh : h.Known m) (ho : o.index < h.size) :
    (h.get o).cls.index < m ∧ (h.get o).fields.Known m h.size :=
  hh o _ (get?_eq_some_get ho)

theorem Known.add (hh : h.Known m) {cls : ClassRef} (hcls : cls.index < m) :
    (h.add cls).Known m := by
  intro o x hx
  rw [get?_add] at hx
  by_cases ho : o = h.next
  · rw [if_pos ho] at hx
    obtain rfl := Option.some.inj hx
    exact ⟨hcls, Bindings.known_empty⟩
  · rw [if_neg ho] at hx
    obtain ⟨hold, hfields⟩ := hh o x hx
    exact ⟨hold, hfields.mono (Nat.le_refl _) (by simp)⟩

theorem Known.setField (hh : h.Known m) {v : Value} (hv : v.Known m h.size) (o : ObjectRef)
    (field : String) : (h.setField o field v).Known m := by
  intro p x hx
  rw [size_setField]
  rw [get?_setField] at hx
  by_cases hp : p = o
  · rw [if_pos hp] at hx
    obtain ⟨y, hy, rfl⟩ := Option.map_eq_some_iff.1 hx
    obtain ⟨hcls, hfields⟩ := hh p y hy
    exact ⟨hcls, hfields.set hv field⟩
  · rw [if_neg hp] at hx
    exact hh p x hx

end Heap

theorem RunState.known_initial : initial.Known m :=
  ⟨Bindings.known_empty, Heap.known_empty⟩

theorem RunState.Known.mono {st : RunState} (h : st.Known m) (hm : m ≤ m') : st.Known m' :=
  ⟨h.frame.mono hm (Nat.le_refl _), h.heap.mono hm⟩

/-! ## States that differ in what came before -/

/-- The states differ in what was logged and printed before at most: in the second one `said` had
been printed before the output of the first one. -/
def RunState.Continues (said : String) (st st' : RunState) : Prop :=
  ∃ log, st' = { st with output := said ++ st.output, log }

/-- The states differ in their log at most. -/
def RunState.SameButLog (st st' : RunState) : Prop := ∃ log, st' = { st with log }

theorem RunState.Continues.known {said : String} {st st' : RunState} (h : st.Continues said st')
    (hst : st'.Known m) : st.Known m := by
  obtain ⟨log, rfl⟩ := h
  exact ⟨hst.frame, hst.heap⟩

namespace RunState.SameButLog

variable {st st' st'' : RunState} {said : String}

theorem refl (st : RunState) : st.SameButLog st := ⟨st.log, rfl⟩

theorem trans (h : st.SameButLog st') (h' : st'.SameButLog st'') : st.SameButLog st'' := by
  obtain ⟨log, rfl⟩ := h
  obtain ⟨log', rfl⟩ := h'
  exact ⟨log', rfl⟩

theorem symm (h : st.SameButLog st') : st'.SameButLog st := by
  obtain ⟨log, rfl⟩ := h
  exact ⟨st.log, rfl⟩

theorem known (h : st.SameButLog st') (hst : st.Known m) : st'.Known m := by
  obtain ⟨log, rfl⟩ := h
  exact ⟨hst.frame, hst.heap⟩

/-- Only the log may differ where nothing had been printed before. -/
theorem iff_continues : st.SameButLog st' ↔ st.Continues "" st' := by
  simp [SameButLog, Continues]

theorem continues (h : st.SameButLog st') (h' : st'.Continues said st'') :
    st.Continues said st'' := by
  obtain ⟨log, rfl⟩ := h
  obtain ⟨log', rfl⟩ := h'
  exact ⟨log', rfl⟩

end RunState.SameButLog

theorem RunState.Continues.sameButLog {said : String} {st st' st'' : RunState}
    (h : st.Continues said st') (h' : st'.SameButLog st'') : st.Continues said st'' := by
  obtain ⟨log, rfl⟩ := h
  obtain ⟨log', rfl⟩ := h'
  exact ⟨log', rfl⟩

/-! ## Longer tables -/

open Run

/-- The class or the object that the tree itself leads to, if it does, is among the first so many. -/
def Node.Known (classes objects : Nat) : Node → Prop
  | constant v => v.Known classes objects
  | construct cls _ | classDefinition cls => cls.index < classes
  | _ => True

/-- A closed tree leads to known classes only, however many objects there are. -/
theorem Node.Closed.known {classes : Nat} {n : Node} (h : n.Closed classes) (objects : Nat) :
    n.Every (Node.Known classes objects) := by
  refine Every.mono h fun m hm => ?_
  cases m with
  | constant v => exact Value.Known.mono hm (Nat.le_refl _) (Nat.zero_le _)
  | construct cls _ | classDefinition cls => exact hm
  | _ => trivial

/-- A tree that leads to nothing unknown asks for nothing unknown. -/
theorem Node.Known.asks {classes objects : Nat} {n : Node} (h : n.Known classes objects)
    (t : ClassTable) :
    n.Asks t (·.Known classes (max objects 0)) (·.index < classes) (fun _ => True)
      (fun _ => True) := by
  cases n with
  | constant v => exact Value.Known.mono h (Nat.le_refl _) (Nat.le_max_left ..)
  | construct cls _ => exact h
  | classDefinition cls => exact ⟨h, trivial⟩
  | path p => exact fun _ _ => trivial
  | _ => trivial

/-- A run on a closed table keeps step with a run on a longer one. So many objects are there from
the beginning, and the tree may lead to them. -/
def Simulation.extending {t t' : ClassTable} (h : t.Extends t') (ht : t.Closed)
    (typedReturns : Bool) (said : String) (objects : Nat) :
    Simulation ⟨t, typedReturns⟩ ⟨t', typedReturns⟩ where
  Lax := False
  Matches _ st st' := st.Continues said st' ∧ st.Known t.size ∧ objects ≤ st.heap.size
  Fits known v := v.Known t.size (max objects known)
  Knows c := c.index < t.size
  Binds _ _ := True
  Reads _ _ := True
  fits_mono hmn hv := hv.mono (Nat.le_refl _) (by omega)
  fits_plain {_ v} hcls hobj := by
    cases v with
    | classObject c => exact absurd rfl (hcls c)
    | object o => exact absurd rfl (hobj o)
    | empty | number | string | bool => trivial
  fits_classObject := Iff.rfl
  fits_next n := Nat.lt_of_lt_of_le (Nat.lt_succ_self n) (Nat.le_max_right ..)
  heap_eq := by
    rintro i st _ ⟨⟨log, rfl⟩, -⟩
    rfl
  shown_eq := by
    rintro i st _ ⟨⟨log, rfl⟩, -⟩
    rfl
  get?_eq := by
    rintro i st _ name ⟨⟨log, rfl⟩, -⟩ _
    rfl
  fits_get? := by
    rintro i st _ name v ⟨-, hst, -⟩ _ hv
    exact (hst.frame _ _ hv).mono (Nat.le_refl _) (Nat.le_max_right ..)
  knows_cls := by
    rintro i st _ o ⟨-, hst, hle⟩ ho
    exact (hst.heap.get (Nat.max_eq_right hle ▸ ho)).1
  fits_field := by
    rintro i st _ o field v ⟨-, hst, hle⟩ ho hv
    have hfields := (hst.heap.get (Nat.max_eq_right hle ▸ ho)).2
    exact (hfields _ _ hv).mono (Nat.le_refl _) (Nat.le_max_right ..)
  matches_bindName := by
    rintro i st _ name v ⟨⟨log, rfl⟩, hst, hle⟩ _ hv
    exact ⟨⟨log, rfl⟩, ⟨hst.frame.set (Nat.max_eq_right hle ▸ hv) name, hst.heap⟩, hle⟩
  matches_write := by
    rintro i st _ text ⟨⟨log, rfl⟩, hst, hle⟩
    exact ⟨⟨log, by rw [String.append_assoc]⟩, ⟨hst.frame, hst.heap⟩, hle⟩
  matches_construct := by
    rintro i st _ cls ⟨⟨log, rfl⟩, hst, hle⟩ hcls
    have hsize : st.heap.size ≤ (st.heap.add cls).size := by simp
    exact ⟨⟨log, rfl⟩, ⟨hst.frame.mono (Nat.le_refl _) hsize, hst.heap.add hcls⟩,
      Nat.le_trans hle hsize⟩
  matches_setField := by
    rintro i st _ o v field ⟨⟨log, rfl⟩, hst, hle⟩ _ hv
    have hheap := hst.heap.setField (Nat.max_eq_right hle ▸ hv) o field
    have hsize : (st.heap.setField o field v).size = st.heap.size := Heap.size_setField ..
    exact ⟨⟨log, rfl⟩, ⟨hst.frame.mono (Nat.le_refl _) (Nat.le_of_eq hsize.symm), hheap⟩,
      hsize ▸ hle⟩
  matches_address := by
    rintro i st _ o ⟨⟨log, rfl⟩, hst, hle⟩
    exact ⟨⟨log, rfl⟩, ⟨hst.frame, hst.heap⟩, hle⟩
  matches_report := by
    rintro i st _ r - ⟨⟨log, rfl⟩, hst, hle⟩
    exact ⟨⟨log.push r, rfl⟩, ⟨hst.frame, hst.heap⟩, hle⟩
  matches_enter := by
    rintro i st _ frame ⟨⟨log, rfl⟩, hst, hle⟩ hframe
    rw [Nat.max_eq_right hle] at hframe
    exact ⟨⟨log, rfl⟩, ⟨hframe, hst.heap⟩, hle⟩
  matches_leave := by
    rintro i st _ st₁ _ ⟨⟨log, rfl⟩, hst, -⟩ ⟨⟨log₁, rfl⟩, hst₁, hle₁⟩ hsize
    exact ⟨⟨log₁, rfl⟩, ⟨hst.frame.mono (Nat.le_refl _) hsize, hst₁.heap⟩, hle₁⟩
  name_eq hc := h.name_eq hc
  methodOf?_eq name arguments hc := h.methodOf?_eq hc name arguments
  body_asks _ hm := ((ht.of_methodOf? hm).known objects).mono fun _ hm => hm.asks t

/-- A tree ends on a longer table as on a closed one, if it leads to nothing unknown. What it leaves
and what it ends with is known. What was printed before stands before all that it prints. -/
theorem execute_extending {t t' : ClassTable} (h : t.Extends t') (ht : t.Closed)
    (typedReturns : Bool) (depth : Nat) {n : Node} {st st' : RunState}
    (hn : n.Every (Node.Known t.size st.heap.size)) (hst : st.Known t.size) {said : String}
    (hsaid : st.Continues said st') :
    let r := outcome (execute ⟨t, typedReturns⟩ depth n) st
    let r' := outcome (execute ⟨t', typedReturns⟩ depth n) st'
    r'.1 = r.1 ∧ r.2.Continues said r'.2 ∧ r.2.Known t.size ∧
      ∀ v, r.1 = .ok v ∨ r.1 = .error (.returned v) → v.Known t.size r.2.heap.size := by
  let S := Simulation.extending h ht typedReturns said st.heap.size
  have hsimulates := S.simulates rfl (Nat.le_refl depth) fun hlt => absurd hlt (Nat.lt_irrefl _)
  have hadmits : S.Admits .own n := hn.mono fun _ hm => hm.asks t
  intro r r'
  cases hsimulates.execute hadmits ⟨hsaid, hst, Nat.le_refl _⟩ with
  | gives hx hy hmatch _ hv =>
    obtain ⟨hcontinues, hknown, hle⟩ := hmatch
    rw [show r = _ from hx, show r' = _ from hy]
    refine ⟨rfl, hcontinues, hknown, fun v hr => ?_⟩
    rcases hr with hr | hr
    · rw [← Except.ok.inj hr, ← Nat.max_eq_right hle]
      exact hv
    · simp at hr
  | stops hx hy hmatch _ hreturned =>
    obtain ⟨hcontinues, hknown, hle⟩ := hmatch
    rw [show r = _ from hx, show r' = _ from hy]
    refine ⟨rfl, hcontinues, hknown, fun v hr => ?_⟩
    rcases hr with hr | hr
    · simp at hr
    · rw [← Nat.max_eq_right hle]
      exact hreturned v (Except.error.inj hr)
  | tooDeep hlax _ => exact hlax.elim

/-- A closed program ends on a longer table as on its own, and what it leaves is known. -/
theorem program_extending {t t' : ClassTable} (h : t.Extends t') (ht : t.Closed)
    (typedReturns : Bool) (depth : Nat) {body : Node} (hbody : body.Closed t.size)
    {st st' : RunState} (hst : st.Known t.size) {said : String} (hsaid : st.Continues said st') :
    let r := Run.program ⟨t, typedReturns⟩ depth body st
    let r' := Run.program ⟨t', typedReturns⟩ depth body st'
    r'.1 = r.1 ∧ r.2.Continues said r'.2 ∧ r.2.Known t.size := by
  obtain ⟨hend, hcontinues, hknown, -⟩ :=
    execute_extending h ht typedReturns depth (hbody.known _) hst hsaid
  intro r r'
  rw [show r = _ from program_eq .., show r' = _ from program_eq ..]
  generalize outcome (execute ⟨t, typedReturns⟩ depth body) st = x at *
  generalize outcome (execute ⟨t', typedReturns⟩ depth body) st' = y at *
  obtain ⟨result, left⟩ := x
  obtain ⟨result', left'⟩ := y
  obtain rfl : result' = result := hend
  cases result' with
  | ok v => exact ⟨rfl, hcontinues, hknown⟩
  | error e => exact ⟨rfl, hcontinues, hknown⟩

end Offside
