import Offside.Proofs.ExpressionTrees
import Offside.Proofs.Programs
import Offside.Proofs.Scopes

set_option autoImplicit false

/-! # Orderly trees

In an *orderly* tree all operands are expressions, so names are bound by statements only. What the
grammar makes of statements is orderly, and so are the bodies of all methods that it makes. -/

namespace Offside

namespace Node

/-- All operands in the tree are expressions. -/
def Orderly (n : Node) : Prop := n.Every fun m => ∀ k ∈ m.operands, k.IsExpression

variable {n m : Node}

theorem mem_children_of_mem_operands (h : m ∈ n.operands) : m ∈ n.children := by
  cases n with
  | methodBody body => simp [operands] at h
  | _ => exact List.mem_append_left _ h

theorem Orderly.child (h : n.Orderly) (hm : m ∈ n.children) : m.Orderly := Every.child h hm

theorem Orderly.of_contains (h : n.Orderly) (hm : n.Contains m) : m.Orderly :=
  fun k hk => h k (hm.trans hk)

theorem IsExpression.orderly (h : n.IsExpression) : n.Orderly := by
  intro m hm k hk j hj
  exact h j (hm.trans (.head (mem_children_of_mem_operands hk) hj))

/-- A tree is orderly if its operands are expressions and the statements in it are orderly. -/
theorem Orderly.of_parts (hoperands : ∀ k ∈ n.operands, k.IsExpression)
    (hchildren : ∀ k ∈ n.children, k ∈ n.operands ∨ k.Orderly) : n.Orderly := by
  refine every_iff.2 ⟨hoperands, fun k hk => ?_⟩
  rcases hchildren k hk with hk | hk
  · exact (hoperands k hk).orderly
  · exact hk

/-- So is one whose parts are operands only. -/
theorem Orderly.of_operands (hoperands : ∀ k ∈ n.operands, k.IsExpression)
    (hchildren : n.children = n.operands) : n.Orderly :=
  .of_parts hoperands fun _ hk => .inl (hchildren ▸ hk)

end Node

/-- The body of the method is orderly. -/
def Method.IsOrderly (m : Method) : Prop := m.body.Orderly

open Node

variable {class? : String → Option ClassRef} {callable : Scope → String → Option ClassRef}

theorem DerivesSimple.orderly {us : List Token} {e : Node} (h : DerivesSimple class? us e) :
    e.Orderly := by
  have hconstant : ∀ v : Value, (constant v).IsExpression := fun _ => every_constant rfl
  have hpath : ∀ p : DottedPath, (path p).IsExpression := fun _ => every_path rfl
  cases h with
  | bareReturn => exact .of_operands (by simp [operands, hconstant]) (by simp [children, statements])
  | returnValue h | assign _ h =>
    exact .of_operands (by simp [operands, h.isExpression]) (by simp [children, statements])
  | print hargs =>
    refine .of_operands ?_ (by simp [children, statements])
    intro k hk
    obtain ⟨a, ha, rfl⟩ := List.mem_map.1 hk
    exact (hargs a ha).isExpression
  | expression h => exact h.isExpression.orderly
  | assignField _ _ h =>
    exact .of_operands (by simp [operands, hpath, h.isExpression]) (by simp [children, statements])

mutual

theorem DerivesStatement.orderly {Γ Γ' : Scope} {us : List Token} {e : Node} :
    DerivesStatement callable Γ us e Γ' → Γ.table.AllMethods Method.IsOrderly →
      e.Orderly ∧ Γ'.table.AllMethods Method.IsOrderly
  | .simple h, hΓ => ⟨h.orderly, hΓ⟩
  | .ifThen hcondition hbody, hΓ => by
    obtain ⟨hbody, hΓ'⟩ := hbody.orderly hΓ
    exact ⟨.of_parts (by simp [operands, hcondition.isExpression])
      (by simp [children, operands, statements, hbody]), hΓ'⟩
  | .ifElse hcondition hbody halternative, hΓ => by
    obtain ⟨hbody, hΓ₁⟩ := hbody.orderly hΓ
    obtain ⟨halternative, hΓ'⟩ := halternative.orderly hΓ₁
    exact ⟨.of_parts (by simp [operands, hcondition.isExpression])
      (by simp [children, operands, statements, hbody, halternative]), hΓ'⟩
  | .classDefinition _ _ hmethods _, hΓ => by
    obtain ⟨hmethods, hΓ'⟩ := orderly_of_many_methods hmethods (hΓ.add (by simp))
    exact ⟨.of_operands (by simp [operands]) rfl, hΓ'.setMethods hmethods⟩

theorem DerivesSuite.orderly {Γ Γ' : Scope} {us : List Token} {e : Node} :
    DerivesSuite callable Γ us e Γ' → Γ.table.AllMethods Method.IsOrderly →
      e.Orderly ∧ Γ'.table.AllMethods Method.IsOrderly
  | .mk hbody _, hΓ => by
    obtain ⟨hbody, hΓ'⟩ := orderly_of_many hbody hΓ
    exact ⟨.of_parts (by simp [operands]) fun k hk => .inr (hbody k hk), hΓ'⟩

theorem DerivesMethod.orderly {Γ Γ' : Scope} {us : List Token} {m : Method} :
    DerivesMethod callable Γ us m Γ' → Γ.table.AllMethods Method.IsOrderly →
      m.IsOrderly ∧ Γ'.table.AllMethods Method.IsOrderly
  | .mk hbody, hΓ => by
    obtain ⟨hbody, hΓ'⟩ := hbody.orderly hΓ
    exact ⟨Orderly.of_parts (by simp [operands]) (by simp [children, hbody]), hΓ'⟩

theorem orderly_of_many {Γ Γ' : Scope} {us : List Token} {body : List Node} :
    Many (DerivesStatement callable) Γ us body Γ' → Γ.table.AllMethods Method.IsOrderly →
      (∀ e ∈ body, e.Orderly) ∧ Γ'.table.AllMethods Method.IsOrderly
  | .nil _, hΓ => ⟨by simp, hΓ⟩
  | .cons h hs, hΓ => by
    obtain ⟨hfirst, hΓ₁⟩ := h.orderly hΓ
    obtain ⟨hrest, hΓ'⟩ := orderly_of_many hs hΓ₁
    exact ⟨by simpa using ⟨hfirst, hrest⟩, hΓ'⟩

theorem orderly_of_many_methods {Γ Γ' : Scope} {us : List Token} {methods : List Method} :
    Many (DerivesMethod callable) Γ us methods Γ' → Γ.table.AllMethods Method.IsOrderly →
      (∀ m ∈ methods, m.IsOrderly) ∧ Γ'.table.AllMethods Method.IsOrderly
  | .nil _, hΓ => ⟨by simp, hΓ⟩
  | .cons h hs, hΓ => by
    obtain ⟨hfirst, hΓ₁⟩ := h.orderly hΓ
    obtain ⟨hrest, hΓ'⟩ := orderly_of_many_methods hs hΓ₁
    exact ⟨by simpa using ⟨hfirst, hrest⟩, hΓ'⟩

end

/-- The tree stands in the statements of the program, or in a method of a class that is known behind
it. -/
def Program.Contains (p : Program) (n : Node) : Prop :=
  p.body.Contains n ∨ ∃ c d, p.table.get? c = some d ∧ ∃ m ∈ d.methods, m.body.Contains n

/-- All methods behind a source are orderly if they were before, and so are all trees of it. -/
theorem Program.orderly_of_ofSource {known : ClassTable} {source : String} {p : Program}
    (h : (Program.ofSource known source).1 = .ok p)
    (hknown : known.AllMethods Method.IsOrderly) :
    p.table.AllMethods Method.IsOrderly ∧ ∀ n, p.Contains n → n.Orderly := by
  obtain ⟨us, body, Γ, -, hmany, rfl⟩ := (Program.derives_of_ofSource h).2
  obtain ⟨hstatements, hΓ⟩ := orderly_of_many hmany hknown
  have hbody : (Node.sequence body).Orderly :=
    .of_parts (by simp [operands]) fun k hk => .inr (hstatements k hk)
  refine ⟨hΓ, ?_⟩
  rintro n (hn | ⟨c, d, hd, m, hm, hn⟩)
  · exact hbody.of_contains hn
  · exact Orderly.of_contains (hΓ c d hd m hm) hn

end Offside
