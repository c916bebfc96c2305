import Offside.Program.Node

set_option autoImplicit false

/-! # Classes

A class has a name, methods and possibly a parent. The table of classes only grows, and a class is
known by its position in it, so two classes of one name stay apart. `ClassTable.method?` looks a
method up in a class and then in its ancestors; a parent that does not stand before its class in the
table is not followed, so the search ends. -/

namespace Offside

/-- A method: its name, the names of its parameters, and its body. -/
structure Method where
  name : String
  parameters : List String
  body : Node
  deriving DecidableEq, Repr, Inhabited

/-- A class: its name, its parent if it has one, and the methods of its own. -/
structure ClassDecl where
  name : String
  parent? : Option ClassRef
  methods : List Method
  deriving DecidableEq, Repr, Inhabited

/-- The first method of a class with a given name. -/
def ClassDecl.ownMethod? (d : ClassDecl) (name : String) : Option Method :=
  d.methods.find? fun m => m.name == name

/-- All classes, in the order of their definition. -/
structure ClassTable where
  decls : Array ClassDecl
  deriving DecidableEq, Repr, Inhabited

namespace ClassTable

/-- The table without classes. -/
def empty : ClassTable := ⟨#[]⟩

/-- The number of classes. -/
def size (t : ClassTable) : Nat := t.decls.size

/-- The class at a position. -/
def get? (t : ClassTable) (c : ClassRef) : Option ClassDecl := t.decls[c.index]?

/-- The name of a class. -/
def name (t : ClassTable) (c : ClassRef) : String := (t.get? c).elim "" (·.name)

/-- The position of the next class. -/
def next (t : ClassTable) : ClassRef := ⟨t.size⟩

/-- Adds a class at the end. -/
def add (t : ClassTable) (d : ClassDecl) : ClassTable := ⟨t.decls.push d⟩

/-- Gives a class its methods. -/
def setMethods (t : ClassTable) (c : ClassRef) (methods : List Method) : ClassTable :=
  ⟨t.decls.modify c.index fun d => { d with methods }⟩

/-- The method that a class answers a name with: the first one of its own, else the one of its
parent. -/
def method? (t : ClassTable) (c : ClassRef) (name : String) : Option Method :=
  match t.get? c with
  | none => none
  | some d =>
    match d.ownMethod? name with
    | some m => some m
    | none =>
      match d.parent? with
      | none => none
      | some p => if _h : p.index < c.index then t.method? p name else none
termination_by c.index

/-- A method of its own comes before those of the ancestors. -/
theorem method?_of_ownMethod? {t : ClassTable} {c : ClassRef} {d : ClassDecl} {name : String}
    {m : Method} (hd : t.get? c = some d) (hm : d.ownMethod? name = some m) :
    t.method? c name = some m := by
  rw [method?, hd]
  simp only [hm]

/-- A name without a method of its own is left to the parent. -/
theorem method?_of_parent {t : ClassTable} {c p : ClassRef} {d : ClassDecl} {name : String}
    (hd : t.get? c = some d) (hm : d.ownMethod? name = none) (hp : d.parent? = some p)
    (hlt : p.index < c.index) : t.method? c name = t.method? p name := by
  rw [method?, hd]
  simp only [hm, hp, dif_pos hlt]

@[simp] theorem size_add (t : ClassTable) (d : ClassDecl) : (t.add d).size = t.size + 1 := by
  simp [add, size]

@[simp] theorem size_setMethods (t : ClassTable) (c : ClassRef) (methods : List Method) :
    (t.setMethods c methods).size = t.size := by
  simp [setMethods, size]

theorem get?_add (t : ClassTable) (d : ClassDecl) (c : ClassRef) :
    (t.add d).get? c = if c = t.next then some d else t.get? c := by
  rcases c with ⟨i⟩
  simp only [get?, add, next, size, Array.getElem?_push, ClassRef.mk.injEq]

theorem get?_setMethods (t : ClassTable) (c d : ClassRef) (methods : List Method) :
    (t.setMethods c methods).get? d =
      if d = c then (t.get? d).map (fun e => { e with methods }) else t.get? d := by
  rcases c with ⟨i⟩
  rcases d with ⟨j⟩
  simp only [get?, setMethods, Array.getElem?_modify, ClassRef.mk.injEq]
  by_cases h : i = j
  · simp [h]
  · simp [h, Ne.symm h]

end ClassTable

end Offside
