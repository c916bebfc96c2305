import Offside.Proofs.Parts

set_option autoImplicit false

/-! # Subtrees

All that stands in a tree, whoever runs it: its parts and, below a body that catches what is returned
in it, that body. The methods of a class still do not stand in a tree that has a value which leads to
the class. -/

namespace Offside.Node

/-- The trees that stand directly below a tree. -/
def children : Node → List Node
  | methodBody body => [body]
  | n => n.operands ++ n.statements

/-- The second tree stands in the first one, or is the first one. -/
def Contains : Node → Node → Prop := Relation.ReflTransGen fun n m => m ∈ n.children

/-- All that stands in the tree has the property. -/
def Every (P : Node → Prop) (n : Node) : Prop := ∀ m, n.Contains m → P m

variable {P Q : Node → Prop} {n m : Node}

theorem Contains.head (hm : m ∈ n.children) {k : Node} (hk : m.Contains k) : n.Contains k :=
  Relation.ReflTransGen.head hm hk

theorem Every.self (h : n.Every P) : P n := h n .refl

theorem Every.child (h : n.Every P) (hm : m ∈ n.children) : m.Every P :=
  fun k hk => h k (.head hm hk)

theorem Every.mono (h : n.Every P) (hPQ : ∀ m, P m → Q m) : n.Every Q :=
  fun m hm => hPQ m (h m hm)

/-- A property of all that stands in a tree is one of the tree and of all that stands below it. -/
theorem every_iff : n.Every P ↔ P n ∧ ∀ m ∈ n.children, m.Every P := by
  constructor
  · intro h
    exact ⟨h.self, fun m hm => h.child hm⟩
  · rintro ⟨hn, hchildren⟩ k hk
    rcases Relation.ReflTransGen.cases_head hk with rfl | ⟨m, hm, hk⟩
    · exact hn
    · exact hchildren m hm k hk

end Offside.Node
