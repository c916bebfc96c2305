import Offside.Proofs.Grammar
import Offside.Proofs.Subtrees

set_option autoImplicit false

/-! # What stands in the tree of an expression

All that stands in a tree that the grammar makes of tokens is an expression, every constant in it is
a number, a text, a truth value or empty, and every class in it is one that a name stands for. -/

namespace Offside

/-- Neither a class nor an object. -/
def Value.IsLiteral (v : Value) : Prop := (∀ c, v ≠ .classObject c) ∧ ∀ o, v ≠ .object o

namespace Node

/-- The forms of expressions. -/
def isExpressionForm : Node → Bool
  | constant _ | path _ | call _ _ _ | construct _ _ | stringify _ | not _ | and _ _ | or _ _
  | arithmetic _ _ _ | compare _ _ _ => true
  | assign _ _ | assignField _ _ _ | print _ | printValue _ | sequence _ | returnValue _
  | methodBody _ | classDefinition _ | ifThen _ _ | ifElse _ _ _ => false

/-- All that stands in the tree is an expression. -/
def IsExpression (n : Node) : Prop := n.Every fun m => m.isExpressionForm

/-- What the grammar makes of an expression, apart from its parts. -/
def IsRead (class? : String → Option ClassRef) : Node → Prop
  | constant v => v.IsLiteral
  | construct cls _ => ∃ name, class? name = some cls
  | n => n.isExpressionForm

variable {class? : String → Option ClassRef} {P : Node → Prop} {n : Node}

theorem IsRead.isExpressionForm (h : n.IsRead class?) : n.isExpressionForm := by
  cases n <;> first | rfl | exact h

theorem every_constant {v : Value} (h : P (constant v)) : (constant v).Every P :=
  every_iff.2 ⟨h, by simp [children, operands, statements]⟩

theorem every_path {p : DottedPath} (h : P (path p)) : (path p).Every P :=
  every_iff.2 ⟨h, by simp [children, operands, statements]⟩

end Node

open Node

variable {class? : String → Option ClassRef} {l : Level} {us : List Token} {e : Node}

/-- So it is with all that stands in the tree of an expression. -/
theorem Derives.every_isRead (h : Derives class? l us e) : e.Every (IsRead class?) := by
  induction h with
  | ofConjunction h ih | ofNegation h ih | ofComparison h ih | ofSum h ih | ofProduct h ih
  | ofUnary h ih | ofPrimary h ih | parentheses h ih => exact ih
  | or _ _ hleft hright | and _ _ hleft hright | add _ _ hleft hright | sub _ _ hleft hright
  | mul _ _ hleft hright | div _ _ hleft hright | compare _ _ _ hleft hright =>
    exact every_iff.2 ⟨rfl, by simp [children, operands, statements, hleft, hright]⟩
  | not h ih | stringify h ih =>
    exact every_iff.2 ⟨rfl, by simp [children, operands, statements, ih]⟩
  | negative h ih =>
    have hzero : (constant (.number 0)).Every (IsRead class?) :=
      every_constant ⟨by simp, by simp⟩
    exact every_iff.2 ⟨rfl, by simp [Parse.negative, children, operands, statements, hzero, ih]⟩
  | number | string | true | false | none => exact every_constant ⟨by simp, by simp⟩
  | path p => exact every_path rfl
  | @call p receiver method args hp hargs ih =>
    have hreceiver : (Node.path receiver).Every (IsRead class?) := every_path rfl
    refine every_iff.2 ⟨rfl, ?_⟩
    intro m hm
    simp only [children, operands, statements, List.append_nil, List.mem_cons, List.mem_map] at hm
    rcases hm with rfl | ⟨a, ha, rfl⟩
    · exact hreceiver
    · exact ih a ha
  | @construct name c args hc hargs ih =>
    refine every_iff.2 ⟨⟨name, hc⟩, ?_⟩
    intro m hm
    simp only [children, operands, statements, List.append_nil, List.mem_map] at hm
    obtain ⟨a, ha, rfl⟩ := hm
    exact ih a ha

/-- What the grammar calls an expression is one. -/
theorem Derives.isExpression (h : Derives class? l us e) : e.IsExpression :=
  h.every_isRead.mono fun _ hm => hm.isExpressionForm

end Offside
