import Mathlib.Data.List.Nodup
import Offside.Proofs.PrintedReturns

set_option autoImplicit false

/-! # The frame of a method

A method begins on a frame of its own. The receiver is bound first and then the parameters from left
to right, so where a name stands more than once in the header, `self` in front of it, the last one
counts. A header says what its names are for every call exactly if they are all different. -/

namespace Offside

/-! ## Names bound one after the other -/

namespace Bindings

variable {b : Bindings} {entries : List (String × Value)} {x : String} {v : Value}

theorem get?_setAll_of_notMem (h : x ∉ entries.map Prod.fst) :
    (b.setAll entries).get? x = b.get? x := by
  have hrebinds : b.Rebinds (· ∈ entries.map Prod.fst) (b.setAll entries) :=
    ⟨entries, fun _ he => List.mem_map_of_mem he, rfl⟩
  exact hrebinds.get?_eq h

/-- The last entry of a name counts. -/
theorem get?_setAll_of_last (b : Bindings) (before : List (String × Value))
    {after : List (String × Value)} (h : x ∉ after.map Prod.fst) :
    (b.setAll (before ++ (x, v) :: after)).get? x = some v := by
  rw [setAll, List.foldl_append, List.foldl_cons]
  exact (get?_setAll_of_notMem h).trans ((get?_set ..).trans (if_pos rfl))

/-- A name that was bound has the value of one of its entries. -/
theorem exists_get?_setAll (b : Bindings) (h : x ∈ entries.map Prod.fst) :
    ∃ v, (x, v) ∈ entries ∧ (b.setAll entries).get? x = some v := by
  induction entries generalizing b with
  | nil => simp at h
  | cons e rest ih =>
    by_cases hrest : x ∈ rest.map Prod.fst
    · obtain ⟨v, hmem, hv⟩ := ih (b.set e.1 e.2) hrest
      exact ⟨v, List.mem_cons_of_mem _ hmem, hv⟩
    · obtain rfl : x = e.1 := by simpa [hrest] using h
      exact ⟨e.2, List.mem_cons_self .., get?_setAll_of_last b [] hrest⟩

/-- The bindings have all of these entries, and no other names. -/
structure HoldsOnly (b : Bindings) (entries : List (String × Value)) : Prop where
  holds : ∀ e ∈ entries, b.get? e.1 = some e.2
  only : ∀ x, (b.get? x).isSome → x ∈ entries.map Prod.fst

theorem isSome_get?_setAll_empty :
    ((empty.setAll entries).get? x).isSome ↔ x ∈ entries.map Prod.fst := by
  constructor
  · intro h
    by_contra hmem
    rw [get?_setAll_of_notMem hmem] at h
    simp at h
  · intro h
    obtain ⟨v, -, hv⟩ := exists_get?_setAll empty h
    rw [hv]
    rfl

/-- Entries are held all together if no two of them disagree on a name. -/
theorem holdsOnly_setAll_iff :
    (empty.setAll entries).HoldsOnly entries ↔
      ∀ e ∈ entries, ∀ e' ∈ entries, e.1 = e'.1 → e.2 = e'.2 := by
  constructor
  · intro h e he e' he' hname
    have hvalue := h.holds e he
    rw [hname, h.holds e' he'] at hvalue
    exact (Option.some.inj hvalue).symm
  · intro h
    refine ⟨fun e he => ?_, fun _ => isSome_get?_setAll_empty.1⟩
    obtain ⟨v, hmem, hv⟩ := exists_get?_setAll empty (List.mem_map_of_mem (f := Prod.fst) he)
    rw [hv, h e he _ hmem rfl]

end Bindings

/-! ## Headers -/

namespace Method

variable (m : Method) {o : ObjectRef} {arguments : List Value}

/-- The names of the header, `self` in front of them, each with what a call has for its place. -/
def entries (o : ObjectRef) (arguments : List Value) : List (String × Value) :=
  (selfName, .object o) :: m.parameters.zip arguments

theorem frame_eq_setAll (o : ObjectRef) (arguments : List Value) :
    m.frame o arguments = Bindings.empty.setAll (m.entries o arguments) := rfl

theorem holdsOnly_frame_iff :
    (m.frame o arguments).HoldsOnly (m.entries o arguments) ↔
      ∀ e ∈ m.entries o arguments, ∀ e' ∈ m.entries o arguments, e.1 = e'.1 → e.2 = e'.2 := by
  rw [frame_eq_setAll]
  exact Bindings.holdsOnly_setAll_iff

theorem map_fst_entries (h : arguments.length = m.parameters.length) :
    (m.entries o arguments).map Prod.fst = selfName :: m.parameters := by
  rw [entries, List.map_cons, List.map_fst_zip (Nat.le_of_eq h.symm)]

/-- The receiver is `self`, unless a parameter is called so. -/
theorem get?_frame_self (h : selfName ∉ m.parameters) :
    (m.frame o arguments).get? selfName = some (.object o) := by
  have hafter : selfName ∉ (m.parameters.zip arguments).map Prod.fst := by
    intro hmem
    obtain ⟨⟨x, v⟩, hxv, hx⟩ := List.mem_map.1 hmem
    obtain rfl : x = selfName := hx
    exact h (List.of_mem_zip hxv).1
  rw [frame_eq_setAll]
  exact Bindings.get?_setAll_of_last .empty [] hafter

/-- The header is right about every call if no name stands in it twice, and about no others, since a
call may have a different value for each place. -/
theorem holdsOnly_frame_iff_nodup :
    (∀ o arguments, arguments.length = m.parameters.length →
      (m.frame o arguments).HoldsOnly (m.entries o arguments)) ↔
      (selfName :: m.parameters).Nodup := by
  constructor
  · intro h
    let arguments := (List.range m.parameters.length).map fun i : Nat => Value.number i
    have hlength : arguments.length = m.parameters.length := by simp [arguments]
    have hagree := m.holdsOnly_frame_iff.1 (h ⟨0⟩ arguments hlength)
    have hvalues : ((m.entries ⟨0⟩ arguments).map Prod.snd).Nodup := by
      rw [entries, List.map_cons, List.map_snd_zip (Nat.le_of_eq hlength), List.nodup_cons]
      refine ⟨by simp [arguments], List.Nodup.map (fun _ _ hij => ?_) List.nodup_range⟩
      exact Int.ofNat.inj (Value.number.inj hij)
    rw [← m.map_fst_entries hlength, List.Nodup, List.pairwise_map]
    rw [List.Nodup, List.pairwise_map] at hvalues
    exact hvalues.imp_of_mem fun he he' hne hname => hne (hagree _ he _ he' hname)
  · intro hnodup o arguments hlength
    rw [← m.map_fst_entries (o := o) hlength] at hnodup
    refine m.holdsOnly_frame_iff.2 fun e he e' he' hname => ?_
    rw [List.inj_on_of_nodup_map hnodup he he' hname]

end Method

/-! ## Calls -/

namespace ClassTable

variable {t : ClassTable} {c : ClassRef} {name : String} {n : Nat}

theorem methodOf?_eq_some_iff {m : Method} :
    t.methodOf? c name n = some m ↔ t.method? c name = some m ∧ m.parameters.length = n := by
  rw [methodOf?, Option.filter_eq_some_iff, beq_iff_eq]

theorem methodOf?_eq_none_iff :
    t.methodOf? c name n = none ↔ ∀ m ∈ t.method? c name, m.parameters.length ≠ n := by
  simp only [methodOf?, Option.filter_eq_none_iff, beq_iff_eq, Option.mem_def, ne_eq]

end ClassTable

open Run

/-- When a call enters a method, its body begins on a frame in which every name of the header has the
value for the last place at which it stands, so `self` is the receiver unless a parameter is called
so, and no other name is bound. The frame has the value of every place under its name exactly if no
name of the header stands for two values in this call. For every call this is so exactly if the names
of the header, `self` among them, are all different. -/
theorem frame_of_entered_method (σ : Setting) (execute : Node → Run Value) (o : ObjectRef)
    (name : String) (arguments : List Value) (st : RunState) (m : Method)
    (hm : σ.table.methodOf? (st.heap.get o).cls name arguments.length = some m) :
    let start := entered σ m o name arguments st
    let entries := m.entries o arguments
    (outcome (invoke σ execute o name arguments) st =
      let r := outcome (execute m.body) start
      (r.1, { r.2 with frame := st.frame })) ∧
    (∀ before x v after, entries = before ++ (x, v) :: after → x ∉ after.map Prod.fst →
      start.frame.get? x = some v) ∧
    (selfName ∉ m.parameters → start.frame.get? selfName = some (.object o)) ∧
    (∀ x, (start.frame.get? x).isSome ↔ x = selfName ∨ x ∈ m.parameters) ∧
    (start.frame.HoldsOnly entries ↔
      ∀ e ∈ entries, ∀ e' ∈ entries, e.1 = e'.1 → e.2 = e'.2) ∧
    ((∀ o' arguments', arguments'.length = m.parameters.length →
      (m.frame o' arguments').HoldsOnly (m.entries o' arguments')) ↔
        (selfName :: m.parameters).Nodup) := by
  intro start entries
  have hnames : entries.map Prod.fst = selfName :: m.parameters :=
    m.map_fst_entries (ClassTable.methodOf?_eq_some_iff.1 hm).2.symm
  have hlast : ∀ before x v after, entries = before ++ (x, v) :: after → x ∉ after.map Prod.fst →
      start.frame.get? x = some v := by
    intro before x v after hsplit hx
    show (Bindings.empty.setAll entries).get? x = some v
    rw [hsplit]
    exact Bindings.get?_setAll_of_last _ before hx
  refine ⟨outcome_invoke_of_some execute hm, hlast, m.get?_frame_self, fun x => ?_,
    m.holdsOnly_frame_iff, m.holdsOnly_frame_iff_nodup⟩
  rw [← List.mem_cons, ← hnames]
  show ((Bindings.empty.setAll entries).get? x).isSome ↔ _
  exact Bindings.isSome_get?_setAll_empty

/-! ## Headers of sources -/

/-- A source, one of its classes and a method of that class. -/
theorem Program.exists_method_of_source (source : String) (c : ClassRef) (name : String) (n : Nat)
    (parameters : List String)
    (h : (Program.ofSource .empty source).1.toOption.map (fun p =>
        (p.classes.map Prod.snd, (p.table.methodOf? c name n).map Method.parameters)) =
      some ([c], some parameters)) :
    ∃ p m, (Program.ofSource .empty source).1 = .ok p ∧ p.classes.map Prod.snd = [c] ∧
      p.table.methodOf? c name n = some m ∧ m.parameters = parameters := by
  cases hp : (Program.ofSource .empty source).1 with
  | error e => simp [hp, Except.toOption] at h
  | ok p =>
    simp only [hp, Except.toOption, Option.map_some, Option.some.injEq, Prod.mk.injEq] at h
    obtain ⟨hclasses, hmethod⟩ := h
    obtain ⟨m, hm, hparameters⟩ := Option.map_eq_some_iff.1 hmethod
    exact ⟨p, m, rfl, hclasses, hm, hparameters⟩

/-- A method of a source, the first and the last parameter of which have one name. -/
theorem frame_of_repeated_parameter :
    let source := "class A:\n  def f(x, y, x):\n    return y\n"
    let arguments : List Value := [.number 1, .number 2, .number 3]
    ∃ p m, (Program.ofSource .empty source).1 = .ok p ∧ p.table.methodOf? ⟨0⟩ "f" 3 = some m ∧
      m.parameters = ["x", "y", "x"] ∧
      (m.frame ⟨0⟩ arguments).get? "x" = some (.number 3) ∧
      (m.frame ⟨0⟩ arguments).get? "self" = some (.object ⟨0⟩) ∧
      ¬ (m.frame ⟨0⟩ arguments).HoldsOnly (m.entries ⟨0⟩ arguments) := by
  intro source arguments
  obtain ⟨p, m, hsource, -, hm, hparameters⟩ :=
    Program.exists_method_of_source source ⟨0⟩ "f" 3 ["x", "y", "x"] (by decide +kernel)
  let st : RunState := { RunState.initial with heap := .add .empty ⟨0⟩ }
  have hentries : m.entries ⟨0⟩ arguments =
      [("self", .object ⟨0⟩), ("x", .number 1), ("y", .number 2), ("x", .number 3)] := by
    rw [Method.entries, hparameters]
    rfl
  obtain ⟨-, hlast, hself, -, hholds, -⟩ :=
    frame_of_entered_method ⟨p.table, false⟩ (fun _ => pure .empty) ⟨0⟩ "f" arguments st m hm
  refine ⟨p, m, hsource, hm, hparameters, ?_, ?_, ?_⟩
  · exact hlast [("self", .object ⟨0⟩), ("x", .number 1), ("y", .number 2)] "x" _ [] hentries
      (by simp)
  · exact hself (by rw [hparameters]; decide)
  · intro h
    rw [hentries] at hholds
    have hx := hholds.1 (hentries ▸ h) ("x", .number 1) (by decide) ("x", .number 3) (by decide) rfl
    simp at hx

/-- A source may call a parameter `self`, and then the argument is bound in the place of the
receiver. -/
theorem not_holdsOnly_of_parameter_self :
    ¬ ∀ (known : ClassTable) (source : String) (p : Program) (c : ClassRef) (name : String)
      (o : ObjectRef) (arguments : List Value) (m : Method),
      (Program.ofSource known source).1 = .ok p → c ∈ p.classes.map Prod.snd →
      p.table.methodOf? c name arguments.length = some m →
      (m.frame o arguments).HoldsOnly (m.entries o arguments) := by
  intro h
  let source := "class A:\n  def me(self):\n    return self\n"
  obtain ⟨p, m, hsource, hclasses, hm, hparameters⟩ :=
    Program.exists_method_of_source source ⟨0⟩ "me" 1 ["self"] (by decide +kernel)
  have hholds := h .empty source p ⟨0⟩ "me" ⟨0⟩ [.number 1] m hsource (by simp [hclasses]) hm
  have hentries : m.entries ⟨0⟩ [.number 1] = [("self", .object ⟨0⟩), ("self", .number 1)] := by
    rw [Method.entries, hparameters]
    rfl
  have hself := m.holdsOnly_frame_iff.1 hholds ("self", .object ⟨0⟩) (by simp [hentries])
    ("self", .number 1) (by simp [hentries]) rfl
  simp at hself

end Offside
