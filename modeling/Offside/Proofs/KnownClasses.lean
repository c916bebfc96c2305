import Offside.Proofs.ExpressionTrees
import Offside.Proofs.Scopes

set_option autoImplicit false

/-! # Trees name known classes only

A tree is *closed* under a number of classes if every class in it is among the first so many. What
the grammar makes of statements is closed under the classes that are known behind them, and so are
the methods of those classes, if they were so before. -/

namespace Offside

/-! ## Closed trees -/

/-- The class or the object that the value is, if it is one, is among the first so many. -/
def Value.Known (classes objects : Nat) : Value → Prop
  | classObject c => c.index < classes
  | object o => o.index < objects
  | empty | number _ | string _ | bool _ => True

theorem Value.Known.mono {v : Value} {m n m' n' : Nat} (h : v.Known m n) (hm : m ≤ m')
    (hn : n ≤ n') : v.Known m' n' := by
  cases v with
  | classObject c => exact Nat.lt_of_lt_of_le h hm
  | object o => exact Nat.lt_of_lt_of_le h hn
  | empty | number | string | bool => trivial

namespace Node

/-- The class that the tree itself names is among the first so many, and its value is no object. -/
def NamesKnown (classes : Nat) : Node → Prop
  | constant v => v.Known classes 0
  | construct cls _ | classDefinition cls => cls.index < classes
  | _ => True

/-- All classes in the tree are among the first so many, and there are no objects in it. -/
def Closed (classes : Nat) (n : Node) : Prop := n.Every (NamesKnown classes)

variable {m n : Nat} {e : Node}

theorem NamesKnown.mono (h : e.NamesKnown m) (hmn : m ≤ n) : e.NamesKnown n := by
  cases e with
  | constant v => exact Value.Known.mono h hmn (Nat.le_refl 0)
  | construct cls _ | classDefinition cls => exact Nat.lt_of_lt_of_le h hmn
  | _ => trivial

theorem Closed.mono (h : e.Closed m) (hmn : m ≤ n) : e.Closed n :=
  Every.mono h fun _ hm => hm.mono hmn

/-- A tree that names no class is closed if its parts are. -/
theorem Closed.of_children (h : e.NamesKnown n) (hchildren : ∀ m ∈ e.children, m.Closed n) :
    e.Closed n :=
  every_iff.2 ⟨h, hchildren⟩

end Node

/-- The body of the method is closed. -/
def Method.Closed (classes : Nat) (m : Method) : Prop := m.body.Closed classes

/-- All methods of the table are closed under its classes. -/
def ClassTable.Closed (t : ClassTable) : Prop := t.AllMethods (Method.Closed t.size)

theorem ClassTable.closed_empty : empty.Closed := AllMethods.empty

/-! ## Closed scopes -/

namespace Scope

/-- The classes of the scope are in its table, which is closed. -/
structure Closed (Γ : Scope) : Prop where
  lt_size : ∀ e ∈ Γ.classes, e.2.index < Γ.table.size
  table : Γ.table.Closed

variable {Γ Γ' : Scope} {name : String} {c : ClassRef}

theorem Closed.of_lookup (h : Γ.Closed) (hc : Γ.classes.lookup name = some c) :
    c.index < Γ.table.size :=
  h.lt_size (name, c) (mem_of_lookup hc)

theorem Closed.of_constructible? (h : Γ.Closed) (hc : Γ.constructible? name = some c) :
    c.index < Γ.table.size := by
  rw [constructible?] at hc
  split at hc
  · simp at hc
  · exact h.of_lookup hc

theorem Closed.define (h : Γ.Closed) (name : String) (parent? : Option ClassRef) :
    (Γ.define name parent?).Closed := by
  constructor
  · intro e he
    rw [size_define]
    rcases List.mem_append.1 he with he | he
    · exact Nat.lt_succ_of_lt (h.lt_size e he)
    · obtain rfl := List.mem_singleton.1 he
      exact Nat.lt_succ_self _
  · rw [ClassTable.Closed, size_define]
    have hold := h.table.mono fun m (hm : m.Closed _) => Node.Closed.mono hm (Nat.le_succ _)
    exact hold.add (by simp)

theorem Closed.setMethods (h : Γ.Closed) (c : ClassRef) {methods : List Method}
    (hmethods : ∀ m ∈ methods, m.Closed Γ.table.size) : (Γ.setMethods c methods).Closed := by
  constructor
  · intro e he
    rw [size_setMethods]
    exact h.lt_size e he
  · rw [ClassTable.Closed, size_setMethods]
    exact h.table.setMethods hmethods

end Scope

/-! ## What the grammar makes is closed -/

open Node

variable {Γ : Scope} {us : List Token} {e : Node}

theorem Derives.closed {l : Level} (h : Derives Γ.constructible? l us e) (hΓ : Γ.Closed) :
    e.Closed Γ.table.size := by
  refine h.every_isRead.mono fun m hm => ?_
  cases m with
  | constant v =>
    cases v with
    | classObject c => exact absurd rfl (hm.1 c)
    | object o => exact absurd rfl (hm.2 o)
    | empty | number | string | bool => trivial
  | construct cls _ =>
    obtain ⟨name, hname⟩ := hm
    exact hΓ.of_constructible? hname
  | classDefinition cls => exact absurd hm (by simp [IsRead, isExpressionForm])
  | _ => trivial

theorem DerivesSimple.closed (h : DerivesSimple Γ.constructible? us e) (hΓ : Γ.Closed) :
    e.Closed Γ.table.size := by
  have hpath : ∀ p : DottedPath, (Node.path p).Closed Γ.table.size := fun p => every_path trivial
  cases h with
  | bareReturn =>
    have hempty : (constant .empty).Closed Γ.table.size := every_constant trivial
    exact .of_children trivial (by simp [children, operands, statements, hempty])
  | returnValue h | assign _ h =>
    exact .of_children trivial (by simp [children, operands, statements, h.closed hΓ])
  | print hargs =>
    refine .of_children trivial ?_
    intro m hm
    simp only [children, operands, statements, List.append_nil, List.mem_map] at hm
    obtain ⟨a, ha, rfl⟩ := hm
    exact (hargs a ha).closed hΓ
  | expression h => exact h.closed hΓ
  | assignField _ _ h =>
    exact .of_children trivial (by simp [children, operands, statements, hpath, h.closed hΓ])

mutual

/-- Statements are closed under the classes behind them, and leave a closed scope. -/
theorem DerivesStatement.closed {Γ Γ' : Scope} {us : List Token} {e : Node} :
    DerivesStatement Scope.constructible? Γ us e Γ' → Γ.Closed →
      e.Closed Γ'.table.size ∧ Γ'.Closed
  | .simple h, hΓ => ⟨h.closed hΓ, hΓ⟩
  | .ifThen hcondition hbody, hΓ => by
    have hcondition := (hcondition.closed hΓ).mono hbody.grows.table.size_le
    obtain ⟨hbody, hΓ'⟩ := hbody.closed hΓ
    exact ⟨.of_children trivial (by simp [children, operands, statements, hcondition, hbody]), hΓ'⟩
  | .ifElse hcondition hbody halternative, hΓ => by
    have hle := halternative.grows.table.size_le
    have hcondition :=
      (hcondition.closed hΓ).mono (Nat.le_trans hbody.grows.table.size_le hle)
    obtain ⟨hbody, hΓ₁⟩ := hbody.closed hΓ
    obtain ⟨halternative, hΓ'⟩ := halternative.closed hΓ₁
    have hbody := hbody.mono hle
    exact ⟨.of_children trivial
      (by simp [children, operands, statements, hcondition, hbody, halternative]), hΓ'⟩
  | .classDefinition _ _ hmethods _, hΓ => by
    have hnext := (grows_of_many_methods hmethods).table.size_le
    rw [Scope.size_define] at hnext
    obtain ⟨hmethods, hΓ'⟩ := closed_of_many_methods hmethods (hΓ.define _ _)
    rw [Scope.size_setMethods]
    exact ⟨.of_children hnext (by simp [children, operands, statements]),
      hΓ'.setMethods _ hmethods⟩

theorem DerivesSuite.closed {Γ Γ' : Scope} {us : List Token} {e : Node} :
    DerivesSuite Scope.constructible? Γ us e Γ' → Γ.Closed → e.Closed Γ'.table.size ∧ Γ'.Closed
  | .mk hbody _, hΓ => by
    obtain ⟨hbody, hΓ'⟩ := closed_of_many hbody hΓ
    exact ⟨.of_children trivial (by simpa [children, operands, statements] using hbody), hΓ'⟩

theorem DerivesMethod.closed {Γ Γ' : Scope} {us : List Token} {m : Method} :
    DerivesMethod Scope.constructible? Γ us m Γ' → Γ.Closed →
      m.Closed Γ'.table.size ∧ Γ'.Closed
  | .mk hbody, hΓ => by
    obtain ⟨hbody, hΓ'⟩ := hbody.closed hΓ
    exact ⟨Node.Closed.of_children trivial (by simpa [children] using hbody), hΓ'⟩

theorem closed_of_many {Γ Γ' : Scope} {us : List Token} {body : List Node} :
    Many (DerivesStatement Scope.constructible?) Γ us body Γ' → Γ.Closed →
      (∀ e ∈ body, e.Closed Γ'.table.size) ∧ Γ'.Closed
  | .nil _, hΓ => ⟨by simp, hΓ⟩
  | .cons h hs, hΓ => by
    obtain ⟨hfirst, hΓ₁⟩ := h.closed hΓ
    have hfirst := hfirst.mono (grows_of_many hs).table.size_le
    obtain ⟨hrest, hΓ'⟩ := closed_of_many hs hΓ₁
    exact ⟨by simpa using ⟨hfirst, hrest⟩, hΓ'⟩

theorem closed_of_many_methods {Γ Γ' : Scope} {us : List Token} {methods : List Method} :
    Many (DerivesMethod Scope.constructible?) Γ us methods Γ' → Γ.Closed →
      (∀ m ∈ methods, m.Closed Γ'.table.size) ∧ Γ'.Closed
  | .nil _, hΓ => ⟨by simp, hΓ⟩
  | .cons h hs, hΓ => by
    obtain ⟨hfirst, hΓ₁⟩ := h.closed hΓ
    have hfirst := Node.Closed.mono hfirst (grows_of_many_methods hs).table.size_le
    obtain ⟨hrest, hΓ'⟩ := closed_of_many_methods hs hΓ₁
    exact ⟨by simpa using ⟨hfirst, hrest⟩, hΓ'⟩

end

/-- The statements of a program are closed under the classes behind it, and so are these. -/
theorem DerivesProgram.closed {known : ClassTable} {tokens : List Token} {p : Program}
    (h : DerivesProgram Scope.constructible? known tokens p) (hknown : known.Closed) :
    p.body.Closed p.table.size ∧ p.table.Closed ∧ known.Extends p.table := by
  obtain ⟨us, body, Γ, -, hmany, rfl⟩ := h
  obtain ⟨hbody, hΓ⟩ := closed_of_many hmany ⟨by simp, hknown⟩
  refine ⟨.of_children trivial ?_, hΓ.table, (grows_of_many hmany).table⟩
  simpa [Program.body, children, operands, statements] using hbody

end Offside
