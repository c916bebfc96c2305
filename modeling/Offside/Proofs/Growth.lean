import Offside.Proofs.Frames

set_option autoImplicit false

/-! # What runs never take back

However a run ends, all objects of before are still there, of the same classes and with the fields
they had; no name of its own bindings is let go; its output goes on from the one of before; and an
object that was shown by its address keeps this address. -/

namespace Offside

/-! ## Objects and their fields -/

/-- Every name that is bound in the first bindings is bound in the second ones. -/
def Bindings.KeepsNames (b b' : Bindings) : Prop :=
  ∀ name, (b.get? name).isSome → (b'.get? name).isSome

/-- The first object may have become the second one: its class is the same, and no field is gone. -/
structure Object.Grows (x x' : Object) : Prop where
  cls_eq : x'.cls = x.cls
  fields : x.fields.KeepsNames x'.fields

theorem Object.Grows.refl (x : Object) : x.Grows x := ⟨rfl, fun _ h => h⟩

theorem Object.Grows.trans {x x' x'' : Object} (h : x.Grows x') (h' : x'.Grows x'') :
    x.Grows x'' :=
  ⟨h'.cls_eq.trans h.cls_eq, fun name hname => h'.fields name (h.fields name hname)⟩

/-- Every object of the first heap is in the second one, as what it was or became. -/
def Heap.Grows (h h' : Heap) : Prop :=
  ∀ o x, h.get? o = some x → ∃ x', h'.get? o = some x' ∧ x.Grows x'

namespace Heap.Grows

variable {h h' h'' : Heap}

theorem refl (h : Heap) : h.Grows h := fun _ x hx => ⟨x, hx, .refl x⟩

theorem trans (hh : h.Grows h') (hh' : h'.Grows h'') : h.Grows h'' := by
  intro o x hx
  obtain ⟨x', hx', hgrows⟩ := hh o x hx
  obtain ⟨x'', hx'', hgrows'⟩ := hh' o x' hx'
  exact ⟨x'', hx'', hgrows.trans hgrows'⟩

theorem add (h : Heap) (cls : ClassRef) : h.Grows (h.add cls) := by
  intro o x hx
  have hne : o ≠ h.next := by
    rintro rfl
    simp [get?_next] at hx
  rw [get?_add, if_neg hne]
  exact ⟨x, hx, .refl x⟩

theorem setField (h : Heap) (o : ObjectRef) (field : String) (v : Value) :
    h.Grows (h.setField o field v) := by
  intro p x hx
  rw [get?_setField, hx]
  by_cases hp : p = o
  · rw [if_pos hp]
    exact ⟨_, rfl, rfl, fun name hname => Bindings.isSome_get?_set hname field v⟩
  · rw [if_neg hp]
    exact ⟨x, rfl, .refl x⟩

/-- What was an object is one, of the same class. -/
theorem get (hh : h.Grows h') {o : ObjectRef} (ho : o.index < h.size) :
    o.index < h'.size ∧ (h.get o).Grows (h'.get o) := by
  have hx : h.get? o = some h.objects[o.index] := Array.getElem?_eq_getElem ho
  obtain ⟨x', hx', hgrows⟩ := hh o _ hx
  refine ⟨(Array.getElem?_eq_some_iff.1 hx').1, ?_⟩
  rw [Heap.get, Heap.get, hx, hx']
  exact hgrows

end Heap.Grows

/-! ## Addresses -/

/-- The address under which an object was shown, if it was. -/
def RunState.address? (st : RunState) (o : ObjectRef) : Option Nat :=
  (st.shown.idxOf? o).map (· + 1)

namespace RunState

variable {st st' : RunState} {o p : ObjectRef} {k : Nat}

/-- No two objects have one address. -/
theorem eq_of_address? (ho : st.address? o = some k) (hp : st.address? p = some k) : o = p := by
  obtain ⟨i, hi, rfl⟩ := Option.map_eq_some_iff.1 ho
  obtain ⟨j, hj, hij⟩ := Option.map_eq_some_iff.1 hp
  obtain rfl : j = i := Nat.succ.inj hij
  obtain ⟨_, ho, -⟩ := List.idxOf?_eq_some_iff.1 hi
  obtain ⟨_, hp, -⟩ := List.idxOf?_eq_some_iff.1 hj
  exact ho.symm.trans hp

/-- Showing further objects leaves the addresses of before as they were. -/
theorem address?_of_prefix (h : st.shown <+: st'.shown) (ho : st.address? o = some k) :
    st'.address? o = some k := by
  obtain ⟨later, hlater⟩ := h
  obtain ⟨i, hi, rfl⟩ := Option.map_eq_some_iff.1 ho
  have happend : st'.shown.idxOf? o = some i := by
    rw [← hlater, List.idxOf?, List.findIdx?_append, ← List.idxOf?, hi]
    rfl
  rw [address?, happend]
  rfl

end RunState

open Run

/-- The address that a run is told is the object's address from then on. -/
theorem address?_of_gives {o : ObjectRef} {k : Nat} {st st' : RunState}
    (h : Gives (address o) st k st') : st'.address? o = some k := by
  rw [Gives, outcome_address] at h
  cases ho : st.shown.idxOf? o with
  | some i =>
    simp only [ho, Prod.mk.injEq, Except.ok.injEq] at h
    obtain ⟨rfl, rfl⟩ := h
    rw [RunState.address?, ho]
    rfl
  | none =>
    simp only [ho, Prod.mk.injEq, Except.ok.injEq] at h
    obtain ⟨rfl, rfl⟩ := h
    have hnew : (st.shown ++ [o]).idxOf? o = some st.shown.length := by
      rw [List.idxOf?, List.findIdx?_append, ← List.idxOf?, ho]
      simp
    rw [RunState.address?, hnew]
    rfl

/-- An object without a text of its own is printed with its address. -/
theorem render_of_plain {σ : Setting} {st : RunState} {o : ObjectRef}
    (h : σ.table.methodOf? (st.heap.get o).cls strName 0 = none) (depth : Nat) :
    ∃ k st', Gives (render σ (depth + 1) (.object o)) st
      (showAddress (σ.table.name (st.heap.get o).cls) k) st' ∧ st'.address? o = some k := by
  have hmethod := gives_hasMethod σ o strName 0 st
  rw [h] at hmethod
  obtain ⟨k, st', hk⟩ : ∃ k st', Gives (address o) st k st' := by
    have haddress := outcome_address o st
    cases hi : st.shown.idxOf? o with
    | some i =>
      rw [hi] at haddress
      exact ⟨_, _, haddress⟩
    | none =>
      rw [hi] at haddress
      exact ⟨_, _, haddress⟩
  have htext : Gives (do return showAddress (σ.table.name (← classOf o)) (← address o)) st
      (showAddress (σ.table.name (st.heap.get o).cls) k) st' :=
    (gives_classOf o st).bind (hk.bind (gives_pure _ st'))
  exact ⟨k, st', hmethod.bind htext, address?_of_gives hk⟩

/-! ## States -/

/-- Nothing that is in the first state is gone in the second one. -/
structure RunState.Grows (st st' : RunState) : Prop where
  heap : st.heap.Grows st'.heap
  names : st.frame.KeepsNames st'.frame
  output : ∃ said, st'.output = st.output ++ said
  shown : st.shown <+: st'.shown

theorem RunState.Grows.refl (st : RunState) : st.Grows st :=
  ⟨.refl _, fun _ h => h, ⟨"", by simp⟩, List.prefix_refl _⟩

theorem RunState.Grows.trans {st st' st'' : RunState} (h : st.Grows st') (h' : st'.Grows st'') :
    st.Grows st'' := by
  obtain ⟨said, hsaid⟩ := h.output
  obtain ⟨said', hsaid'⟩ := h'.output
  have houtput : st''.output = st.output ++ (said ++ said') := by
    rw [hsaid', hsaid, String.append_assoc]
  exact ⟨h.heap.trans h'.heap, fun name hname => h'.names name (h.names name hname),
    ⟨_, houtput⟩, h.shown.trans h'.shown⟩

/-- The objects of this state are there, and the addresses under which they were shown. -/
def Invariant.objectsFrom (st₀ : RunState) : Invariant where
  Holds _ st := st₀.heap.Grows st.heap ∧ st₀.shown <+: st.shown
  Binds _ _ := True
  binds_away _ := trivial
  holds_bindName _ h _ := h
  holds_write _ h := h
  holds_construct cls h := ⟨h.1.trans (.add _ cls), h.2⟩
  holds_setField o field v h := ⟨h.1.trans (.setField _ o field v), h.2⟩
  holds_address _ h := ⟨h.1, h.2.trans (List.prefix_append ..)⟩
  holds_report _ h := h
  holds_enter _ h := h
  holds_leave _ h := h

/-- A run takes nothing back, however it ends. -/
theorem grows_execute (σ : Setting) (depth : Nat) (n : Node) (st : RunState) :
    st.Grows (outcome (execute σ depth n) st).2 := by
  obtain ⟨hheap, hshown⟩ := (Invariant.objectsFrom st).holds_execute (i := .own) σ depth
    (fun m _ => Node.BindsOnly.of_forall (fun _ => trivial) m) ⟨.refl _, List.prefix_refl _⟩
  exact ⟨hheap, fun _ hname => (rebinds_execute σ depth n st).isSome_get? hname,
    output_execute σ depth n st, hshown⟩

theorem grows_of_gives {σ : Setting} {depth : Nat} {n : Node} {v : Value} {st st' : RunState}
    (h : Gives (execute σ depth n) st v st') : st.Grows st' := by
  have hgrows := grows_execute σ depth n st
  rwa [h] at hgrows

end Offside
