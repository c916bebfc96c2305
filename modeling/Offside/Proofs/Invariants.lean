import Offside.Proofs.SimulatedRuns

set_option autoImplicit false

/-! # What runs keep

An `Invariant` is a property of states that everything keeps which a run can do to its state. It is a
simulation of a run by itself, so every run keeps it, whether the run comes to its end or not.

That the output only grows is the first use of it. -/

namespace Offside

/-- What the states of a run have in common. -/
structure Invariant where
  /-- The state has the property. -/
  Holds : Place → RunState → Prop
  /-- The name may be bound. -/
  Binds : Place → String → Prop
  binds_away : ∀ name, Binds .away name
  holds_bindName : ∀ {i st name} (v : Value), Holds i st → Binds i name →
    Holds i { st with frame := st.frame.set name v }
  holds_write : ∀ {i st} (text : String), Holds i st →
    Holds i { st with output := st.output ++ text }
  holds_construct : ∀ {i st} (cls : ClassRef), Holds i st →
    Holds i { st with heap := st.heap.add cls }
  holds_setField : ∀ {i st} (o : ObjectRef) (field : String) (v : Value), Holds i st →
    Holds i { st with heap := st.heap.setField o field v }
  holds_address : ∀ {i st} (o : ObjectRef), Holds i st →
    Holds i { st with shown := st.shown ++ [o] }
  holds_report : ∀ {i st} {r : LogRecord}, r.component = "mython.runtime" → Holds i st →
    Holds i { st with log := st.log.push r }
  holds_enter : ∀ {i st} (frame : Bindings), Holds i st → Holds .away { st with frame }
  holds_leave : ∀ {i st st₁}, Holds i st → Holds .away st₁ → Holds i { st₁ with frame := st.frame }

namespace Node

/-- The names that a tree itself binds are among these. -/
def BindsOnly (t : ClassTable) (binds : String → Prop) : Node → Prop
  | assign name _ => binds name
  | classDefinition cls => binds (t.name cls)
  | _ => True

theorem BindsOnly.of_forall {t : ClassTable} {binds : String → Prop} (h : ∀ name, binds name)
    (n : Node) : n.BindsOnly t binds := by
  cases n <;> simp [BindsOnly, h]

/-- A tree that may ask for every value and every class, and look every name up, asks for nothing
but the names that it binds. -/
theorem BindsOnly.asks {t : ClassTable} {binds : String → Prop} {n : Node}
    (h : n.BindsOnly t binds) :
    n.Asks t (fun _ => True) (fun _ => True) binds (fun _ => True) := by
  cases n <;> simp_all [BindsOnly, Asks]

end Node

open Run

namespace Invariant

variable (I : Invariant) (lax : Prop) {σ σ' : Setting} {i : Place} {st : RunState}

/-- From one state, runs with the same classes go through the same states. -/
def simulation (htable : σ'.table = σ.table) : Simulation σ σ' where
  Lax := lax
  Matches i st st' := st = st' ∧ I.Holds i st
  Fits _ _ := True
  Knows _ := True
  Binds := I.Binds
  Reads _ _ := True
  fits_mono _ _ := trivial
  fits_plain _ _ := trivial
  fits_classObject := Iff.rfl
  fits_next _ := trivial
  heap_eq h := by rw [h.1]
  shown_eq h := by rw [h.1]
  get?_eq h _ := by rw [h.1]
  fits_get? _ _ _ := trivial
  knows_cls _ _ := trivial
  fits_field _ _ _ := trivial
  matches_bindName := by
    rintro i st _ name v ⟨rfl, h⟩ hname _
    exact ⟨rfl, I.holds_bindName v h hname⟩
  matches_write := by
    rintro i st _ text ⟨rfl, h⟩
    exact ⟨rfl, I.holds_write text h⟩
  matches_construct := by
    rintro i st _ cls ⟨rfl, h⟩ _
    exact ⟨rfl, I.holds_construct cls h⟩
  matches_setField := by
    rintro i st _ o v field ⟨rfl, h⟩ _ _
    exact ⟨rfl, I.holds_setField o field v h⟩
  matches_address := by
    rintro i st _ o ⟨rfl, h⟩
    exact ⟨rfl, I.holds_address o h⟩
  matches_report := by
    rintro i st _ r hr ⟨rfl, h⟩
    exact ⟨rfl, I.holds_report hr h⟩
  matches_enter := by
    rintro i st _ frame ⟨rfl, h⟩ _
    exact ⟨rfl, I.holds_enter frame h⟩
  matches_leave := by
    rintro i st _ st₁ _ ⟨rfl, h⟩ ⟨rfl, h₁⟩ _
    exact ⟨rfl, I.holds_leave h h₁⟩
  name_eq _ := by rw [htable]
  methodOf?_eq _ _ _ := by rw [htable]
  body_asks {_ _ _ m} _ _ := fun n _ => (Node.BindsOnly.of_forall I.binds_away n).asks

variable {I lax} {htable : σ'.table = σ.table} {α : Type} {P : Nat → α → Prop} {x y : Run α}

/-- Unless the first run may go too deep, it keeps the invariant and the heap does not shrink. -/
theorem holds_of_agreesAt (h : (I.simulation lax htable).AgreesAt i P x y st st) (hlax : ¬ lax) :
    I.Holds i (outcome x st).2 ∧ st.heap.size ≤ (outcome x st).2.heap.size := by
  cases h with
  | gives hx _ hmatch hsize _ =>
    rw [hx]
    exact ⟨hmatch.2, hsize⟩
  | stops hx _ hmatch hsize _ =>
    rw [hx]
    exact ⟨hmatch.2, hsize⟩
  | tooDeep hlax' _ => exact absurd hlax' hlax

/-- Unless the first run goes too deep, the second one ends as it does. -/
theorem eq_of_agreesAt (h : (I.simulation lax htable).AgreesAt i P x y st st)
    (hx : (outcome x st).1 ≠ .error .tooDeep) : outcome y st = outcome x st := by
  cases h with
  | gives hx hy hmatch _ _ => rw [hx, hy, hmatch.1]
  | stops hx hy hmatch _ _ => rw [hx, hy, hmatch.1]
  | tooDeep _ hdeep => exact absurd (congrArg Prod.fst hdeep) hx

theorem simulates (σ : Setting) (depth : Nat) :
    (I.simulation False (σ := σ) rfl).Simulates (execute σ depth) (execute σ depth)
      (render σ depth) (render σ depth) :=
  Simulation.simulates _ rfl (Nat.le_refl _) fun h => absurd h (Nat.lt_irrefl _)

/-- Running a tree that binds no other names keeps the invariant, however the run ends. -/
theorem holds_execute (σ : Setting) (depth : Nat) {n : Node}
    (hn : n.Every (Node.BindsOnly σ.table (I.Binds i))) (h : I.Holds i st) :
    I.Holds i (outcome (execute σ depth n) st).2 :=
  (holds_of_agreesAt ((simulates σ depth).execute (hn.mono fun _ hm => hm.asks) ⟨rfl, h⟩) id).1

/-- So does every printed form. -/
theorem holds_render (σ : Setting) (depth : Nat) (v : Value) (h : I.Holds i st) :
    I.Holds i (outcome (render σ depth v) st).2 :=
  (holds_of_agreesAt ((simulates σ depth).render ⟨rfl, h⟩ trivial) id).1

end Invariant

/-! ## Output -/

/-- The output begins with this text. -/
def Invariant.outputFrom (text : String) : Invariant where
  Holds _ st := ∃ said, st.output = text ++ said
  Binds _ _ := True
  binds_away _ := trivial
  holds_bindName _ h _ := h
  holds_write := by
    rintro _ st more ⟨said, hsaid⟩
    exact ⟨said ++ more, by rw [hsaid, String.append_assoc]⟩
  holds_construct _ h := h
  holds_setField _ _ _ h := h
  holds_address _ h := h
  holds_report _ h := h
  holds_enter _ h := h
  holds_leave _ h := h

namespace Run

/-- What has been printed stays printed. -/
theorem output_execute (σ : Setting) (depth : Nat) (n : Node) (st : RunState) :
    ∃ said, (outcome (execute σ depth n) st).2.output = st.output ++ said :=
  (Invariant.outputFrom st.output).holds_execute (i := .own) σ depth
    (fun m _ => Node.BindsOnly.of_forall (fun _ => trivial) m) ⟨"", by simp⟩

theorem output_render (σ : Setting) (depth : Nat) (v : Value) (st : RunState) :
    ∃ said, (outcome (render σ depth v) st).2.output = st.output ++ said :=
  (Invariant.outputFrom st.output).holds_render (i := .own) σ depth v ⟨"", by simp⟩

end Run

end Offside
