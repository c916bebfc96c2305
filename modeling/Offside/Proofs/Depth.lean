import Offside.Proofs.Invariants

set_option autoImplicit false

/-! # Runs that come to their end

A run that is not interrupted for its depth ends in the same way within any greater depth. So how a
tree ends from a state, if it does, is a matter of the tree and the state alone. -/

namespace Offside

open Run

/-- Every state will do. -/
def Invariant.none : Invariant where
  Holds _ _ := True
  Binds _ _ := True
  binds_away _ := trivial
  holds_bindName _ _ _ := trivial
  holds_write _ _ := trivial
  holds_construct _ _ := trivial
  holds_setField _ _ _ _ := trivial
  holds_address _ _ := trivial
  holds_report _ _ := trivial
  holds_enter _ _ := trivial
  holds_leave _ _ := trivial

/-- Runs with the same classes, of which the first one may be interrupted where the second one goes
on. -/
abbrev Simulation.cut {σ σ' : Setting} (htable : σ'.table = σ.table) : Simulation σ σ' :=
  Invariant.none.simulation True htable

/-- Every tree may be cut. -/
theorem Simulation.admits_cut {σ σ' : Setting} (htable : σ'.table = σ.table) (i : Place)
    (n : Node) : (cut htable).Admits i n :=
  fun m _ => (Node.BindsOnly.of_forall (fun _ => trivial) m).asks

namespace Run

variable {σ : Setting} {m n : Nat} {node : Node} {st : RunState}

theorem outcome_execute_of_le (hmn : m ≤ n)
    (h : (outcome (execute σ m node) st).1 ≠ .error .tooDeep) :
    outcome (execute σ n node) st = outcome (execute σ m node) st := by
  have hsimulates := Simulation.simulates (Simulation.cut (rfl : σ.table = σ.table)) rfl hmn
    fun _ => trivial
  have hadmits := Simulation.admits_cut (rfl : σ.table = σ.table) .own node
  exact Invariant.eq_of_agreesAt (hsimulates.execute hadmits ⟨rfl, trivial⟩) h

/-- Run from the state `st` the tree comes to its end, with this outcome. -/
def Ends (σ : Setting) (n : Node) (st : RunState) (r : Except Interrupt Value × RunState) : Prop :=
  r.1 ≠ .error .tooDeep ∧ ∃ depth, outcome (execute σ depth n) st = r

/-- A tree ends in one way only. -/
theorem Ends.unique {r r' : Except Interrupt Value × RunState} (h : Ends σ node st r)
    (h' : Ends σ node st r') : r = r' := by
  obtain ⟨hr, m, rfl⟩ := h
  obtain ⟨hr', n, rfl⟩ := h'
  rcases Nat.le_total m n with hmn | hnm
  · exact (outcome_execute_of_le hmn hr).symm
  · exact outcome_execute_of_le hnm hr'

/-- Trees that do the same, one of them a step deeper, end in the same ways. -/
theorem ends_iff_of_deeper {a b : Node}
    (h : ∀ depth, outcome (execute σ (depth + 2) b) st = outcome (execute σ (depth + 1) a) st)
    (r : Except Interrupt Value × RunState) : Ends σ a st r ↔ Ends σ b st r := by
  constructor
  · rintro ⟨hr, depth, rfl⟩
    have hmore := outcome_execute_of_le (Nat.le_add_right depth 1) hr
    exact ⟨hr, depth + 2, by rw [h, hmore]⟩
  · rintro ⟨hr, depth, rfl⟩
    have hmore := outcome_execute_of_le (Nat.le_add_right depth 2) hr
    exact ⟨hr, depth + 1, by rw [← h, hmore]⟩

end Run

end Offside
