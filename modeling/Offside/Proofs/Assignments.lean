import Offside.Proofs.DottedPaths
import Offside.Proofs.Endings

set_option autoImplicit false

/-! # Assignments

Setting a field looks for the object first and runs the value behind that. So the field is set in the
object that was found before, whatever the value has done to the names that led to it, and it is set
in the heap that the value leaves. If there is no object, or no value, nothing is set.

An object is known under many paths. A field that was set under one of them is read under all. -/

namespace Offside

/-- The second heap is the first one with a field of an object set. The other fields of this object,
its class, and all other objects are what they were. -/
structure Heap.FieldSet (h : Heap) (o : ObjectRef) (field : String) (v : Value) (h' : Heap) :
    Prop where
  size_eq : h'.size = h.size
  others : ∀ p, p ≠ o → h'.get? p = h.get? p
  object : ∀ x, h.get? o = some x → ∃ x', h'.get? o = some x' ∧ x'.cls = x.cls ∧
    x'.fields.get? field = some v ∧
    ∀ name, name ≠ field → x'.fields.get? name = x.fields.get? name

theorem Heap.fieldSet_setField (h : Heap) (o : ObjectRef) (field : String) (v : Value) :
    h.FieldSet o field v (h.setField o field v) where
  size_eq := h.size_setField o field v
  others p hp := (h.get?_setField o p field v).trans (if_neg hp)
  object x hx := by
    refine ⟨{ x with fields := x.fields.set field v }, ?_, rfl, ?_, fun name hname => ?_⟩
    · rw [get?_setField, if_pos rfl, hx]
      rfl
    · exact (x.fields.get?_set ..).trans (if_pos rfl)
    · exact (x.fields.get?_set ..).trans (if_neg hname)

namespace Run

/-- How setting a field ends. -/
inductive SetsField (σ : Setting) (object : Node) (field : String) (value : Node) (st : RunState) :
    Except Interrupt Value × RunState → Prop
  /-- The object stops, and the value is not run. -/
  | objectStops {i : Interrupt} {st₁ : RunState} (ho : Ends σ object st (.error i, st₁)) :
    SetsField σ object field value st (.error i, st₁)
  /-- There is no object, and the value is not run. -/
  | noObject {w : Value} {st₁ : RunState} (ho : Ends σ object st (.ok w, st₁))
    (hw : ∀ o, w ≠ .object o) :
    SetsField σ object field value st
      (.error (.failed (.objectNeeded (.fieldAssignment field) (σ.typeName st₁.heap w))), st₁)
  /-- The value stops, and nothing is set. -/
  | valueStops {o : ObjectRef} {i : Interrupt} {st₁ st₂ : RunState}
    (ho : Ends σ object st (.ok (.object o), st₁)) (hv : Ends σ value st₁ (.error i, st₂)) :
    SetsField σ object field value st (.error i, st₂)
  /-- The field is set in the state that the value leaves. -/
  | sets {o : ObjectRef} {v : Value} {st₁ st₂ : RunState}
    (ho : Ends σ object st (.ok (.object o), st₁)) (hv : Ends σ value st₁ (.ok v, st₂)) :
    SetsField σ object field value st (.ok v, { st₂ with heap := st₂.heap.setField o field v })

/-- How binding a name to the value of a tree ends. -/
inductive BindsName (σ : Setting) (name : String) (value : Node) (st : RunState) :
    Except Interrupt Value × RunState → Prop
  /-- The value stops, and nothing is bound. -/
  | valueStops {i : Interrupt} {st₁ : RunState} (hv : Ends σ value st (.error i, st₁)) :
    BindsName σ name value st (.error i, st₁)
  /-- The name is bound in the state that the value leaves. -/
  | binds {v : Value} {st₁ : RunState} (hv : Ends σ value st (.ok v, st₁)) :
    BindsName σ name value st (.ok v, { st₁ with frame := st₁.frame.set name v })

section

variable {σ : Setting} {object value : Node} {field name : String} {st : RunState}
  {r : Except Interrupt Value × RunState}

theorem ends_assign_iff : Ends σ (.assign name value) st r ↔ BindsName σ name value st r := by
  rw [ends_iff_comesTo_step]
  show ComesTo (fun depth => execute σ depth value >>= fun v => bindName name v >>= fun _ => pure v)
    st r ↔ _
  rw [comesTo_bind_const_iff (settled_execute σ value)]
  constructor
  · rintro (⟨i, st₁, hv, rfl⟩ | ⟨v, st₁, hv, -, rfl⟩)
    · exact .valueStops hv
    · exact .binds hv
  · rintro (hv | hv)
    · exact .inl ⟨_, _, hv, rfl⟩
    · exact .inr ⟨_, _, hv, by simp, rfl⟩

/-- Running a value and setting a field of an object to it. -/
theorem comesTo_store_iff {o : ObjectRef} :
    ComesTo (fun depth => execute σ depth value >>= fun v => setField o field v >>= fun _ => pure v)
        st r ↔
      (∃ i st₁, Ends σ value st (.error i, st₁) ∧ r = (.error i, st₁)) ∨
        ∃ v st₁, Ends σ value st (.ok v, st₁) ∧
          r = (.ok v, { st₁ with heap := st₁.heap.setField o field v }) := by
  rw [comesTo_bind_const_iff (settled_execute σ value)]
  constructor
  · rintro (hi | ⟨v, st₁, hv, -, rfl⟩)
    · exact .inl hi
    · exact .inr ⟨v, st₁, hv, rfl⟩
  · rintro (hi | ⟨v, st₁, hv, rfl⟩)
    · exact .inl hi
    · exact .inr ⟨v, st₁, hv, by simp, rfl⟩

theorem ends_assignField_iff :
    Ends σ (.assignField object field value) st r ↔ SetsField σ object field value st r := by
  have hobject := settled_execute σ object
  have hstore : ∀ w, Settled fun depth =>
      expectObject σ (.fieldAssignment field) w >>= fun o => execute σ depth value >>= fun v =>
        setField o field v >>= fun _ => pure v :=
    fun w => (Settled.const _).bind fun o => (settled_execute σ value).bind fun _ => .const _
  rw [ends_iff_comesTo_step]
  constructor
  · intro h
    rcases h.of_bind with ⟨i, st₁, ho, rfl⟩ | ⟨w, st₁, ho, hafter⟩
    · exact .objectStops ho
    · by_cases hw : ∀ o, w ≠ .object o
      · obtain ⟨-, depth, hafter⟩ := hafter
        obtain rfl := hafter.symm.trans (stops_expectObject hw σ (.fieldAssignment field) st₁).bind
        exact .noObject ho hw
      · obtain ⟨o, rfl⟩ : ∃ o, w = .object o := by simpa using hw
        rcases comesTo_store_iff.1 hafter with ⟨i, st₂, hv, rfl⟩ | ⟨v, st₂, hv, rfl⟩
        · exact .valueStops ho hv
        · exact .sets ho hv
  · intro h
    cases h with
    | objectStops ho => exact ComesTo.bind_error ho
    | @noObject w st₁ ho hw =>
      have hafter := comesTo_const_iff.2
        ⟨by simp, stops_expectObject hw σ (.fieldAssignment field) st₁⟩
      exact ComesTo.bind ho hafter.bind_error hobject (hstore _)
    | valueStops ho hv =>
      exact ComesTo.bind ho (comesTo_store_iff.2 (.inl ⟨_, _, hv, rfl⟩)) hobject (hstore _)
    | sets ho hv =>
      exact ComesTo.bind ho (comesTo_store_iff.2 (.inr ⟨_, _, hv, rfl⟩)) hobject (hstore _)

/-- The field is read under every path that leads to the object. -/
theorem resolve_append_of_fieldSet {h : Heap} {o : ObjectRef} {x : Object} {v : Value}
    {p : DottedPath} (hx : h.get? o = some x) (hset : h.FieldSet o field v st.heap)
    (hp : st.resolve σ p = .ok (.object o)) : st.resolve σ (p.append [field]) = .ok v := by
  obtain ⟨x', hx', -, hv, -⟩ := hset.object x hx
  have hfield : (st.heap.get o).fields.get? field = some v := by
    rw [Heap.get, hx']
    exact hv
  rw [RunState.resolve_append, hp]
  show st.follow σ p.text (.object o) [field] = .ok v
  rw [RunState.follow]
  simp only [hfield, RunState.follow]

/-- A path ends in the state that it started from. -/
theorem ends_path_iff {p : DottedPath} {v : Value} {st' : RunState} :
    Ends σ (.path p) st (.ok v, st') ↔ st.resolve σ p = .ok v ∧ st' = st := by
  rw [ends_iff_comesTo_step]
  show ComesTo (fun _ => resolve σ p) st (.ok v, st') ↔ _
  rw [comesTo_const_iff, outcome_resolve]
  cases hp : st.resolve σ p with
  | ok w =>
    simp [eq_comm]
  | error e => simp

end

end Run

open Run

/-- Setting a field and binding a name end as their rules say: the object first, then the value, and
the field or the name only if there is a value. The field that is set is that of the object found
before the value was run, in the heap that the value leaves; nothing else in this heap is different.
Afterwards the field of an object of the heap has this value under every path that leads to the object.
Likewise the name has the value of its tree, and no other name is touched. -/
theorem assignments_in_order (σ : Setting) (st : RunState) (object value : Node)
    (field name : String) :
    (∀ r, Ends σ (.assignField object field value) st r ↔ SetsField σ object field value st r) ∧
    (∀ o v st₁ st₂, Ends σ object st (.ok (.object o), st₁) → Ends σ value st₁ (.ok v, st₂) →
      ∃ st', Ends σ (.assignField object field value) st (.ok v, st') ∧
        st' = { st₂ with heap := st'.heap } ∧ st₂.heap.FieldSet o field v st'.heap ∧
        ((st₁.heap.get? o).isSome → (st'.heap.get? o).isSome ∧
          ∀ p st'', Ends σ (.path p) st' (.ok (.object o), st'') →
            Ends σ (.path (p.append [field])) st' (.ok v, st'))) ∧
    (∀ r, Ends σ (.assign name value) st r ↔ BindsName σ name value st r) ∧
    ∀ v st₁, Ends σ value st (.ok v, st₁) →
      ∃ st', Ends σ (.assign name value) st (.ok v, st') ∧ st' = { st₁ with frame := st'.frame } ∧
        st'.frame.get? name = some v ∧ ∀ x, x ≠ name → st'.frame.get? x = st₁.frame.get? x := by
  refine ⟨fun r => ends_assignField_iff, fun o v st₁ st₂ ho hv => ?_,
    fun r => ends_assign_iff, fun v st₁ hv => ?_⟩
  · have hset := st₂.heap.fieldSet_setField o field v
    refine ⟨_, ends_assignField_iff.2 (.sets ho hv), rfl, hset, fun ho₁ => ?_⟩
    obtain ⟨x, hx⟩ := Option.isSome_iff_exists.1 ho₁
    obtain ⟨x₂, hx₂, -⟩ := hv.grows.heap o x hx
    obtain ⟨x', hx', -⟩ := hset.object x₂ hx₂
    refine ⟨Option.isSome_iff_exists.2 ⟨x', hx'⟩, fun p st'' hp => ?_⟩
    exact ends_path_iff.2 ⟨resolve_append_of_fieldSet hx₂ hset (ends_path_iff.1 hp).1, rfl⟩
  · refine ⟨_, ends_assign_iff.2 (.binds hv), rfl, ?_, fun x hx => ?_⟩
    · exact (st₁.frame.get?_set ..).trans (if_pos rfl)
    · exact (st₁.frame.get?_set ..).trans (if_neg hx)

/-- The value links another object under the path of the one whose field is set. The field is set in
the object that was there before, which has another name. -/
theorem assignments_of_relinked_path :
    let swap : Method := ⟨"swap", ["other"], .methodBody (.sequence [
      .assignField (.path ⟨"self", []⟩) "left" (.path ⟨"other", []⟩),
      .returnValue (.constant (.number 5))])⟩
    let t : ClassTable := .add .empty ⟨"Node", none, [swap]⟩
    let σ : Setting := ⟨t, true⟩
    let heap : Heap := (((Heap.empty.add ⟨0⟩).add ⟨0⟩).add ⟨0⟩).setField ⟨0⟩ "left" (.object ⟨1⟩)
    let frame : Bindings :=
      .setAll .empty [("root", .object ⟨0⟩), ("old", .object ⟨1⟩), ("new", .object ⟨2⟩)]
    let st : RunState := ⟨frame, heap, "", [], #[]⟩
    let left : DottedPath := ⟨"root", ["left"]⟩
    let value : Node := .call (.path ⟨"root", []⟩) "swap" [.path ⟨"new", []⟩]
    (Program.ofSource .empty ("class Node:\n  def swap(other):\n    self.left = other\n" ++
        "    return 5\nroot.left.x = root.swap(new)\n")).1.toOption =
      some ⟨[("Node", ⟨0⟩)], t, [.classDefinition ⟨0⟩, .assignField (.path left) "x" value]⟩ ∧
    (∃ st', Ends σ (.assignField (.path left) "x" value) st (.ok (.number 5), st') ∧
      Ends σ (.path ⟨"old", ["x"]⟩) st' (.ok (.number 5), st') ∧
      (st'.heap.get ⟨0⟩).fields.get? "left" = some (.object ⟨2⟩) ∧
      st'.heap.get? ⟨2⟩ = some ⟨⟨0⟩, .empty⟩) ∧
    ∃ st', Ends σ (.assign "x" value) st (.ok (.number 5), st') ∧
      st'.frame.get? "x" = some (.number 5) ∧ st'.frame.get? "new" = some (.object ⟨2⟩) := by
  intro swap t σ heap frame st left value
  let st₂ : RunState := { st with
    heap := heap.setField ⟨0⟩ "left" (.object ⟨2⟩), log := #[.calling "Node" "swap" 1] }
  have hleft : Ends σ (.path left) st (.ok (.object ⟨1⟩), st) := ⟨by simp, 1, rfl⟩
  have hvalue : Ends σ value st (.ok (.number 5), st₂) := ⟨by simp, 5, by decide +kernel⟩
  obtain ⟨-, hfield, -, hname⟩ := assignments_in_order σ st (.path left) value "x" "x"
  refine ⟨by decide +kernel, ?_, ?_⟩
  · obtain ⟨st', hends, hst', hset, hobject⟩ := hfield ⟨1⟩ (.number 5) st st₂ hleft hvalue
    obtain ⟨-, halias⟩ := hobject rfl
    have hold : Ends σ (.path ⟨"old", []⟩) st' (.ok (.object ⟨1⟩), st') := by
      rw [hst']
      exact ⟨by simp, 1, rfl⟩
    refine ⟨st', hends, halias _ _ hold, ?_, ?_⟩
    · rw [Heap.get, hset.others ⟨0⟩ (by decide)]
      rfl
    · rw [hset.others ⟨2⟩ (by decide)]
      rfl
  · obtain ⟨st', hends, -, hx, hothers⟩ := hname (.number 5) st₂ hvalue
    exact ⟨st', hends, hx, (hothers "new" (by decide)).trans rfl⟩

end Offside
