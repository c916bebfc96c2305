import Offside.Run.Method

set_option autoImplicit false

/-! # Tables of classes

What holds of all methods that stand in a table holds of the methods that its classes answer with,
inherited or not. A table that others stand in front of says what they say of their own classes. -/

namespace Offside.ClassTable

variable {t t' t'' : ClassTable} {c : ClassRef} {d : ClassDecl} {name : String} {m : Method}
  {P Q : Method → Prop}

/-! ## Classes of a table -/

/-- A table is its size and its classes. -/
theorem ext_get? (hsize : t.size = t'.size) (h : ∀ c, t.get? c = t'.get? c) : t = t' := by
  obtain ⟨decls⟩ := t
  obtain ⟨decls'⟩ := t'
  congr 1
  apply Array.ext_getElem?
  intro i
  exact h ⟨i⟩

/-! ## All methods -/

/-- Every method that stands in the table has the property. -/
def AllMethods (P : Method → Prop) (t : ClassTable) : Prop :=
  ∀ c d, t.get? c = some d → ∀ m ∈ d.methods, P m

theorem AllMethods.empty : empty.AllMethods P := by
  intro c d hd
  simp [ClassTable.empty, get?] at hd

theorem AllMethods.mono (ht : t.AllMethods P) (hPQ : ∀ m, P m → Q m) : t.AllMethods Q :=
  fun c d hd m hm => hPQ m (ht c d hd m hm)

theorem AllMethods.add (ht : t.AllMethods P) (hd : ∀ m ∈ d.methods, P m) :
    (t.add d).AllMethods P := by
  intro c e he
  rw [get?_add] at he
  by_cases hc : c = t.next
  · rw [if_pos hc] at he
    obtain rfl := Option.some.inj he
    exact hd
  · rw [if_neg hc] at he
    exact ht c e he

theorem AllMethods.setMethods (ht : t.AllMethods P) {methods : List Method}
    (hm : ∀ m ∈ methods, P m) : (t.setMethods c methods).AllMethods P := by
  intro d e he
  rw [get?_setMethods] at he
  by_cases hd : d = c
  · rw [if_pos hd] at he
    obtain ⟨e', -, rfl⟩ := Option.map_eq_some_iff.1 he
    exact hm
  · rw [if_neg hd] at he
    exact ht d e he

/-- What a class answers with stands in the table. -/
theorem AllMethods.of_method? (ht : t.AllMethods P) (h : t.method? c name = some m) : P m := by
  fun_induction method? t c name with
  | case1 c hd => simp at h
  | case2 c d hd m' hm' =>
    obtain rfl := Option.some.inj h
    exact ht c d hd _ (List.mem_of_find?_eq_some hm')
  | case3 c d hd hm hp => simp at h
  | case4 c d hd hm p hp hlt ih => exact ih h
  | case5 c d hd hm p hp hlt => simp at h

theorem AllMethods.of_methodOf? (ht : t.AllMethods P) {arguments : Nat}
    (h : t.methodOf? c name arguments = some m) : P m := by
  rw [methodOf?] at h
  exact ht.of_method? (Option.filter_eq_some_iff.1 h).1

/-! ## Longer tables -/

/-- The second table begins with the classes of the first one. -/
structure Extends (t t' : ClassTable) : Prop where
  size_le : t.size ≤ t'.size
  get?_eq : ∀ c : ClassRef, c.index < t.size → t'.get? c = t.get? c

namespace Extends

theorem refl (t : ClassTable) : t.Extends t := ⟨Nat.le_refl _, fun _ _ => rfl⟩

theorem trans (h : t.Extends t') (h' : t'.Extends t'') : t.Extends t'' := by
  refine ⟨Nat.le_trans h.size_le h'.size_le, fun c hc => ?_⟩
  rw [h'.get?_eq c (Nat.lt_of_lt_of_le hc h.size_le), h.get?_eq c hc]

theorem add (t : ClassTable) (d : ClassDecl) : t.Extends (t.add d) := by
  refine ⟨by simp, fun c hc => ?_⟩
  rw [get?_add, if_neg]
  rintro rfl
  exact Nat.lt_irrefl _ hc

/-- The methods of a class behind the first table are not its concern. -/
theorem setMethods (h : t.Extends t') (hc : t.size ≤ c.index) (methods : List Method) :
    t.Extends (t'.setMethods c methods) := by
  refine ⟨by simpa using h.size_le, fun d hd => ?_⟩
  rw [get?_setMethods, if_neg, h.get?_eq d hd]
  rintro rfl
  exact absurd hd (Nat.not_lt.2 hc)

theorem name_eq (h : t.Extends t') (hc : c.index < t.size) : t'.name c = t.name c := by
  rw [name, name, h.get?_eq c hc]

/-- A class answers as before, since its ancestors stand before it. -/
theorem method?_eq (h : t.Extends t') (hc : c.index < t.size) (name : String) :
    t'.method? c name = t.method? c name := by
  fun_induction method? t c name with
  | case1 c hd => rw [method?, h.get?_eq c hc, hd]
  | case2 c d hd m hm => exact method?_of_ownMethod? ((h.get?_eq c hc).trans hd) hm
  | case3 c d hd hm hp => rw [method?, h.get?_eq c hc, hd]; simp only [hm, hp]
  | case4 c d hd hm p hp hlt ih =>
    rw [method?_of_parent ((h.get?_eq c hc).trans hd) hm hp hlt]
    exact ih (Nat.lt_trans hlt hc)
  | case5 c d hd hm p hp hlt =>
    rw [method?, h.get?_eq c hc, hd]
    simp only [hm, hp, dif_neg hlt]

theorem methodOf?_eq (h : t.Extends t') (hc : c.index < t.size) (name : String) (arguments : Nat) :
    t'.methodOf? c name arguments = t.methodOf? c name arguments := by
  rw [methodOf?, methodOf?, h.method?_eq hc]

end Extends

end Offside.ClassTable
