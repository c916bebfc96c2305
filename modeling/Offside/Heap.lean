import Offside.Bindings

set_option autoImplicit false

/-! # The heap

The objects of a run. Objects are only ever added, and an object keeps its class; its fields can
change. -/

namespace Offside

/-- An object: its class and the values of its fields. -/
structure Object where
  cls : ClassRef
  fields : Bindings
  deriving DecidableEq, Repr, Inhabited

/-- All objects, in the order in which they were made. -/
structure Heap where
  objects : Array Object
  deriving DecidableEq, Repr, Inhabited

namespace Heap

/-- The heap without objects. -/
def empty : Heap := ⟨#[]⟩

/-- The number of objects. -/
def size (h : Heap) : Nat := h.objects.size

/-- The object at a position. -/
def get? (h : Heap) (o : ObjectRef) : Option Object := h.objects[o.index]?

/-- The object at a position; where there is none, an object without fields. -/
def get (h : Heap) (o : ObjectRef) : Object := (h.get? o).getD ⟨⟨0⟩, .empty⟩

/-- The position of the next object. -/
def next (h : Heap) : ObjectRef := ⟨h.size⟩

/-- Adds an object without fields. -/
def add (h : Heap) (cls : ClassRef) : Heap := ⟨h.objects.push ⟨cls, .empty⟩⟩

/-- Sets a field of an object. -/
def setField (h : Heap) (o : ObjectRef) (field : String) (value : Value) : Heap :=
  ⟨h.objects.modify o.index fun x => { x with fields := x.fields.set field value }⟩

@[simp] theorem size_add (h : Heap) (cls : ClassRef) : (h.add cls).size = h.size + 1 := by
  simp [add, size]

@[simp] theorem size_setField (h : Heap) (o : ObjectRef) (field : String) (value : Value) :
    (h.setField o field value).size = h.size := by
  simp [setField, size]

theorem get?_add (h : Heap) (cls : ClassRef) (o : ObjectRef) :
    (h.add cls).get? o = if o = h.next then some ⟨cls, .empty⟩ else h.get? o := by
  rcases o with ⟨i⟩
  simp only [get?, add, next, size, Array.getElem?_push, ObjectRef.mk.injEq]

theorem get?_next (h : Heap) : h.get? h.next = none := by
  simp [get?, next, size]

theorem get?_add_next (h : Heap) (cls : ClassRef) :
    (h.add cls).get? h.next = some ⟨cls, .empty⟩ := by
  rw [get?_add, if_pos rfl]

theorem get?_setField (h : Heap) (o p : ObjectRef) (field : String) (value : Value) :
    (h.setField o field value).get? p =
      if p = o then (h.get? p).map (fun x => { x with fields := x.fields.set field value })
      else h.get? p := by
  rcases o with ⟨i⟩
  rcases p with ⟨j⟩
  simp only [get?, setField, Array.getElem?_modify, ObjectRef.mk.injEq]
  by_cases hij : i = j
  · simp [hij]
  · simp [hij, Ne.symm hij]

end Heap

end Offside
