import Offside.Proofs.ExpressionTrees
import Offside.Proofs.Invariants

set_option autoImplicit false

/-! # What a run binds

A run changes the bindings that it began with only where a statement of its own tree binds a name.
Methods bind on frames of their own, so whatever an expression calls, it leaves the bindings of its
caller as they were; and no name that is bound is ever let go. -/

namespace Offside

/-! ## Bindings that were bound anew -/

/-- The second bindings are the first ones after names of this kind were bound. -/
def Bindings.Rebinds (binds : String → Prop) (b b' : Bindings) : Prop :=
  ∃ entries : List (String × Value), (∀ e ∈ entries, binds e.1) ∧ b' = b.setAll entries

namespace Bindings

variable {binds : String → Prop} {b b' : Bindings} {name : String}

/-- Binding a name lets go of none. -/
theorem isSome_get?_set (hname : (b.get? name).isSome) (x : String) (v : Value) :
    ((b.set x v).get? name).isSome := by
  rw [get?_set]
  by_cases hx : name = x
  · rw [if_pos hx]
    rfl
  · rw [if_neg hx]
    exact hname

theorem Rebinds.refl (binds : String → Prop) (b : Bindings) : b.Rebinds binds b :=
  ⟨[], by simp, rfl⟩

theorem Rebinds.set (h : b.Rebinds binds b') (hname : binds name) (v : Value) :
    b.Rebinds binds (b'.set name v) := by
  obtain ⟨entries, hentries, rfl⟩ := h
  refine ⟨entries ++ [(name, v)], ?_, ?_⟩
  · intro e he
    rcases List.mem_append.1 he with he | he
    · exact hentries e he
    · obtain rfl := List.mem_singleton.1 he
      exact hname
  · simp [setAll]

/-- Where no name may be bound, nothing changes. -/
theorem Rebinds.eq (h : b.Rebinds binds b') (hbinds : ∀ name, ¬ binds name) : b' = b := by
  obtain ⟨entries, hentries, rfl⟩ := h
  cases entries with
  | nil => rfl
  | cons e rest => exact absurd (hentries e (List.mem_cons_self ..)) (hbinds e.1)

/-- A name that may not be bound keeps its value. -/
theorem Rebinds.get?_eq (h : b.Rebinds binds b') (hname : ¬ binds name) :
    b'.get? name = b.get? name := by
  obtain ⟨entries, hentries, rfl⟩ := h
  induction entries generalizing b with
  | nil => rfl
  | cons e rest ih =>
    have hne : name ≠ e.1 := fun h => hname (h ▸ hentries e (List.mem_cons_self ..))
    have hrest := ih (b := b.set e.1 e.2) fun e' he' => hentries e' (List.mem_cons_of_mem _ he')
    rw [get?_set, if_neg hne] at hrest
    exact hrest

/-- A name that is bound stays bound. -/
theorem Rebinds.isSome_get? (h : b.Rebinds binds b') (hname : (b.get? name).isSome) :
    (b'.get? name).isSome := by
  obtain ⟨entries, -, rfl⟩ := h
  induction entries generalizing b with
  | nil => exact hname
  | cons e rest ih => exact ih (isSome_get?_set hname e.1 e.2)

end Bindings

/-! ## What trees bind -/

namespace Node

/-- The names that the tree binds: those its assignments assign to and those of the classes it
defines. -/
def Binds (t : ClassTable) (n : Node) (name : String) : Prop :=
  (∃ value, n.Contains (assign name value)) ∨
    ∃ cls, n.Contains (classDefinition cls) ∧ t.name cls = name

theorem bindsOnly_of_binds {t : ClassTable} {n : Node} {binds : String → Prop}
    (h : ∀ name, n.Binds t name → binds name) : n.Every (BindsOnly t binds) := by
  intro m hm
  cases m with
  | assign name value => exact h name (.inl ⟨value, hm⟩)
  | classDefinition cls => exact h _ (.inr ⟨cls, hm, rfl⟩)
  | _ => trivial

/-- Expressions bind no names. -/
theorem IsExpression.not_binds {n : Node} (h : n.IsExpression) (t : ClassTable) (name : String) :
    ¬ n.Binds t name := by
  rintro (⟨value, hm⟩ | ⟨cls, hm, -⟩)
  · exact absurd (h _ hm) (by simp [isExpressionForm])
  · exact absurd (h _ hm) (by simp [isExpressionForm])

end Node

/-! ## What a run leaves of its bindings -/

/-- The frame that the run began with, with names of this kind bound anew. -/
def Invariant.ownFrame (binds : String → Prop) (frame : Bindings) : Invariant where
  Holds i st := i = .own → frame.Rebinds binds st.frame
  Binds i name := i = .own → binds name
  binds_away _ := nofun
  holds_bindName v h hname := fun hi => (h hi).set (hname hi) v
  holds_write _ h := h
  holds_construct _ h := h
  holds_setField _ _ _ h := h
  holds_address _ h := h
  holds_report _ h := h
  holds_enter _ _ := nofun
  holds_leave h _ := h

open Run

/-- However a run of a tree ends, it has bound nothing but names of the tree. -/
theorem rebinds_execute (σ : Setting) (depth : Nat) (n : Node) (st : RunState) :
    st.frame.Rebinds (n.Binds σ.table) (outcome (execute σ depth n) st).2.frame :=
  (Invariant.ownFrame (n.Binds σ.table) st.frame).holds_execute (i := .own) σ depth
    (Node.bindsOnly_of_binds fun _ h _ => h) (fun _ => .refl _ _) rfl

/-- However deep a run may go and however it ends: an expression leaves the bindings as they were,
whatever methods it runs, and all that the grammar calls an expression is one; no statement lets a
name go, and a name whose value is another one afterwards is one that an assignment or a class
definition of the statement binds. -/
theorem frame_execute (σ : Setting) (depth : Nat) (n : Node) (st : RunState) :
    let frame := (outcome (execute σ depth n) st).2.frame
    (n.IsExpression → frame = st.frame) ∧
      (∀ class? us, Derives class? .test us n → n.IsExpression) ∧
      (∀ name, (st.frame.get? name).isSome → (frame.get? name).isSome) ∧
      ∀ name, frame.get? name ≠ st.frame.get? name →
        (∃ value, n.Contains (.assign name value)) ∨
          ∃ cls, n.Contains (.classDefinition cls) ∧ σ.table.name cls = name := by
  have h := rebinds_execute σ depth n st
  refine ⟨?_, ?_, ?_, ?_⟩
  · intro hn
    exact h.eq (hn.not_binds σ.table)
  · intro class? us hus
    exact hus.isExpression
  · intro name hname
    exact h.isSome_get? hname
  · intro name hname
    apply Classical.byContradiction
    intro hbinds
    exact hname (h.get?_eq hbinds)

/-- A method that binds the name anew under which its caller knows the object, and the caller, which
binds the result to another name. -/
theorem frame_of_call :
    let body : Node := .sequence [.assign "a" (.constant (.number 1)), .returnValue (.path ⟨"a", []⟩)]
    let σ : Setting := ⟨.add .empty ⟨"A", none, [⟨"f", [], .methodBody body⟩]⟩, false⟩
    let st : RunState := ⟨.set .empty "a" (.object ⟨0⟩), .add .empty ⟨0⟩, "", [], #[]⟩
    let call : Node := .call (.path ⟨"a", []⟩) "f" []
    let st₁ := (outcome (execute σ 10 call) st).2
    let st₂ := (outcome (execute σ 10 (.assign "b" call)) st).2
    call.IsExpression ∧ st₁.frame = st.frame ∧ (st₂.frame.get? "a").isSome ∧
      st₂.frame.get? "b" ≠ st.frame.get? "b" ∧ (Node.assign "b" call).Binds σ.table "b" := by
  intro body σ st call st₁ st₂
  have hpath : (Node.path ⟨"a", []⟩).Every fun m => m.isExpressionForm := Node.every_path rfl
  have hcall : call.IsExpression :=
    Node.every_iff.2 ⟨rfl, by simp [call, Node.children, Node.operands, Node.statements, hpath]⟩
  have hb : st₂.frame.get? "b" ≠ st.frame.get? "b" := by decide +kernel
  obtain ⟨-, -, hkept, hbound⟩ := frame_execute σ 10 (.assign "b" call) st
  exact ⟨hcall, (frame_execute σ 10 call st).1 hcall, hkept "a" rfl, hb, hbound "b" hb⟩

end Offside
