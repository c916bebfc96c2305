import Offside.Proofs.Calls
import Offside.Proofs.Parts
import Offside.Proofs.ProgramGrammar

set_option autoImplicit false

/-! # What trees and classes the grammar makes

In a program every `return` outside of classes is a statement, possibly in a block of a conditional,
and every method catches what is returned in it. -/

namespace Offside

variable {class? : String → Option ClassRef} {callable : Scope → String → Option ClassRef}
  {Γ Γ' : Scope} {us : List Token} {e : Node}

/-! ## Where a `return` stands -/

/-- No `return` stands in an expression. -/
theorem Derives.returnFree {l : Level} (h : Derives class? l us e) : e.ReturnFree := by
  induction h with
  | ofConjunction h ih | ofNegation h ih | ofComparison h ih | ofSum h ih | ofProduct h ih
    | ofUnary h ih | ofPrimary h ih | parentheses h ih => exact ih
  | or _ _ hleft hright | and _ _ hleft hright | add _ _ hleft hright | sub _ _ hleft hright
    | mul _ _ hleft hright | div _ _ hleft hright | compare _ _ _ hleft hright =>
    exact .of_parts (by simp) (by simp [Node.operands, hleft, hright]) rfl
  | not h ih | stringify h ih => exact .of_parts (by simp) (by simp [Node.operands, ih]) rfl
  | @negative us e h ih =>
    have hzero := Node.returnFree_constant (.number 0)
    exact .of_parts (by simp [Parse.negative]) (by simp [Parse.negative, Node.operands, hzero, ih])
      rfl
  | number | string | true | false | none => exact Node.returnFree_constant _
  | path p => exact Node.returnFree_path p
  | @call p receiver method args hp hargs ih =>
    refine .of_parts (by simp) ?_ rfl
    intro m hm
    simp only [Node.operands, List.mem_cons, List.mem_map] at hm
    rcases hm with rfl | ⟨a, ha, rfl⟩
    · exact Node.returnFree_path receiver
    · exact ih a ha
  | @construct name c args hc hargs ih =>
    refine .of_parts (by simp) ?_ rfl
    intro m hm
    obtain ⟨a, ha, rfl⟩ := List.mem_map.1 hm
    exact ih a ha

theorem DerivesSimple.placed (h : DerivesSimple class? us e) : e.Placed := by
  cases h with
  | bareReturn =>
    refine .of_parts ?_ (by simp [Node.statements])
    intro m hm
    obtain rfl := List.mem_singleton.1 hm
    exact Node.returnFree_constant .empty
  | returnValue h | assign _ h =>
    refine .of_parts ?_ (by simp [Node.statements])
    intro m hm
    obtain rfl := List.mem_singleton.1 hm
    exact h.returnFree
  | print hargs =>
    refine .of_parts ?_ (by simp [Node.statements])
    intro m hm
    obtain ⟨a, ha, rfl⟩ := List.mem_map.1 hm
    exact (hargs a ha).returnFree
  | expression h => exact .of_returnFree h.returnFree
  | @assignField us vs p object field e htarget hp h =>
    have hpath := Node.returnFree_path object
    exact .of_parts (by simp [Node.operands, hpath, h.returnFree]) (by simp [Node.statements])

mutual

theorem DerivesStatement.placed {Γ Γ' : Scope} {us : List Token} {e : Node} :
    DerivesStatement callable Γ us e Γ' → e.Placed
  | .simple h => h.placed
  | .ifThen hcondition hbody => by
    have hcondition := hcondition.returnFree
    have hbody := hbody.placed
    exact .of_parts (by simpa [Node.operands]) (by simpa [Node.statements])
  | .ifElse hcondition hbody halternative => by
    have hcondition := hcondition.returnFree
    have hbody := hbody.placed
    have halternative := halternative.placed
    exact .of_parts (by simpa [Node.operands]) (by simp [Node.statements, hbody, halternative])
  | .classDefinition .. => .of_parts (by simp [Node.operands]) (by simp [Node.statements])

theorem DerivesSuite.placed {Γ Γ' : Scope} {us : List Token} {e : Node} :
    DerivesSuite callable Γ us e Γ' → e.Placed
  | .mk hbody _ => .of_parts (by simp [Node.operands]) (placed_of_many hbody)

theorem placed_of_many {Γ Γ' : Scope} {us : List Token} {body : List Node} :
    Many (DerivesStatement callable) Γ us body Γ' → ∀ e ∈ body, e.Placed
  | .nil _ => by simp
  | .cons h hs => by
    have hfirst := h.placed
    have hrest := placed_of_many hs
    simpa using ⟨hfirst, hrest⟩

end

/-! ## What methods are defined -/

mutual

/-- Statements define sealed methods only. -/
theorem DerivesStatement.sealed {Γ Γ' : Scope} {us : List Token} {e : Node} :
    DerivesStatement callable Γ us e Γ' → Γ.table.Sealed → Γ'.table.Sealed
  | .simple _, hΓ => hΓ
  | .ifThen _ hbody, hΓ => hbody.sealed hΓ
  | .ifElse _ hbody halternative, hΓ => halternative.sealed (hbody.sealed hΓ)
  | .classDefinition _ _ hmethods _, hΓ => by
    obtain ⟨hmethods, hΓ'⟩ := sealed_of_many_methods hmethods (hΓ.add (by simp))
    exact hΓ'.setMethods hmethods

theorem DerivesSuite.sealed {Γ Γ' : Scope} {us : List Token} {e : Node} :
    DerivesSuite callable Γ us e Γ' → Γ.table.Sealed → Γ'.table.Sealed
  | .mk hbody _, hΓ => sealed_of_many hbody hΓ

theorem DerivesMethod.sealed {Γ Γ' : Scope} {us : List Token} {m : Method} :
    DerivesMethod callable Γ us m Γ' → Γ.table.Sealed → m.IsSealed ∧ Γ'.table.Sealed
  | .mk hbody, hΓ => ⟨⟨_, rfl⟩, hbody.sealed hΓ⟩

theorem sealed_of_many {Γ Γ' : Scope} {us : List Token} {body : List Node} :
    Many (DerivesStatement callable) Γ us body Γ' → Γ.table.Sealed → Γ'.table.Sealed
  | .nil _, hΓ => hΓ
  | .cons h hs, hΓ => sealed_of_many hs (h.sealed hΓ)

theorem sealed_of_many_methods {Γ Γ' : Scope} {us : List Token} {methods : List Method} :
    Many (DerivesMethod callable) Γ us methods Γ' → Γ.table.Sealed →
      (∀ m ∈ methods, m.IsSealed) ∧ Γ'.table.Sealed
  | .nil _, hΓ => ⟨by simp, hΓ⟩
  | .cons h hs, hΓ => by
    obtain ⟨hfirst, hΓ₁⟩ := h.sealed hΓ
    obtain ⟨hrest, hΓ'⟩ := sealed_of_many_methods hs hΓ₁
    exact ⟨by simpa using ⟨hfirst, hrest⟩, hΓ'⟩

end

/-- The statements of a program are placed, and the table behind it is as sealed as the one before.
-/
theorem DerivesProgram.placed_and_sealed {known : ClassTable} {tokens : List Token} {p : Program}
    (h : DerivesProgram callable known tokens p) (hknown : known.Sealed) :
    p.body.Placed ∧ p.table.Sealed := by
  obtain ⟨us, body, Γ, -, hmany, rfl⟩ := h
  exact ⟨.of_parts (by simp [Program.body, Node.operands]) (placed_of_many hmany),
    sealed_of_many hmany hknown⟩

end Offside
