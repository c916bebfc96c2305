import Offside.Proofs.SameSources

set_option autoImplicit false

/-! # Heights of trees, and trees without objects

The height of a tree is the number of trees on its longest way down. The methods of a class are no
part of it.

A tree is *objectless* if no object is a constant in it and none is made. The statements of a source
that defines no class are: only a class of the source itself can be called. -/

namespace Offside

namespace Node

/-! ## Heights -/

mutual

/-- The number of trees on the longest way down from a tree to one that has no children. -/
def height : Node → Nat
  | constant _ | path _ | classDefinition _ => 1
  | assign _ a | printValue a | stringify a | not a | returnValue a | methodBody a => a.height + 1
  | assignField a _ b | and a b | or a b | arithmetic _ a b | compare _ a b | ifThen a b =>
    max a.height b.height + 1
  | ifElse a b c => max a.height (max b.height c.height) + 1
  | print as | construct _ as | sequence as => heightAll as + 1
  | call a _ as => max a.height (heightAll as) + 1

/-- The height of the highest of some trees. -/
def heightAll : List Node → Nat
  | [] => 0
  | a :: as => max a.height (heightAll as)

end

variable {n m : Node}

theorem height_le_heightAll {nodes : List Node} (h : n ∈ nodes) : n.height ≤ heightAll nodes := by
  induction nodes with
  | nil => simp at h
  | cons a nodes ih =>
    rw [heightAll]
    rcases List.mem_cons.1 h with rfl | h
    · exact Nat.le_max_left ..
    · exact Nat.le_trans (ih h) (Nat.le_max_right ..)

theorem height_pos (n : Node) : 0 < n.height := by
  cases n <;> simp [height]

/-- What stands below a tree is less high. -/
theorem height_lt_of_mem_children (h : m ∈ n.children) : m.height < n.height := by
  cases n with
  | constant | path | classDefinition => simp [children, operands, statements] at h
  | assign _ a | printValue a | stringify a | not a | returnValue a | methodBody a =>
    obtain rfl : m = a := by simpa [children, operands, statements] using h
    exact Nat.lt_succ_self _
  | assignField a _ b | and a b | or a b | arithmetic _ a b | compare _ a b | ifThen a b =>
    have h : m = a ∨ m = b := by simpa [children, operands, statements] using h
    rw [height]
    rcases h with rfl | rfl <;> omega
  | ifElse a b c =>
    have h : m = a ∨ m = b ∨ m = c := by simpa [children, operands, statements] using h
    rw [height]
    rcases h with rfl | rfl | rfl <;> omega
  | print as | construct _ as | sequence as =>
    have h : m ∈ as := by simpa [children, operands, statements] using h
    exact Nat.lt_succ_of_le (height_le_heightAll h)
  | call a _ as =>
    have h : m = a ∨ m ∈ as := by simpa [children, operands, statements] using h
    rw [height]
    rcases h with rfl | h
    · omega
    · have hle := height_le_heightAll h
      omega

/-! ## Objectless trees -/

/-- The value of the tree itself is no object, as a constant or as something new, and the tree itself
is no body of a method. -/
def YieldsNoObject : Node → Prop
  | constant v => ∀ o, v ≠ .object o
  | construct _ _ | methodBody _ => False
  | _ => True

/-- No object is a constant in the tree, none is made, and no body of a method stands in it. -/
def Objectless (n : Node) : Prop := n.Every YieldsNoObject

/-- A tree that yields no object itself is objectless if its children are. -/
theorem Objectless.of_children (hn : n.YieldsNoObject) (h : ∀ m ∈ n.children, m.Objectless) :
    n.Objectless :=
  every_iff.2 ⟨hn, h⟩

end Node

/-- A table has methods of some greatest height only. -/
theorem ClassTable.exists_height_le (t : ClassTable) :
    ∃ height, t.AllMethods fun m => m.body.height ≤ height := by
  let bodies := t.decls.toList.flatMap fun d => d.methods.map Method.body
  refine ⟨Node.heightAll bodies, fun c d hd m hm => Node.height_le_heightAll ?_⟩
  have hmem : d ∈ t.decls := Array.mem_of_getElem? hd
  exact List.mem_flatMap.2 ⟨d, hmem.val, List.mem_map_of_mem hm⟩

open Node

/-! ## Sources without classes -/

section

variable {Γ : Scope} {us : List Token} {e : Node}

/-- Where there is no class, no name can be called. -/
theorem Scope.constructible?_of_nil (hΓ : Γ.classes = []) (name : String) :
    Γ.constructible? name = none := by
  rw [constructible?, hΓ]
  split <;> rfl

theorem Derives.objectless {l : Level} (h : Derives Γ.constructible? l us e)
    (hΓ : Γ.classes = []) : e.Objectless := by
  refine h.every_isRead.mono fun m hm => ?_
  cases m with
  | constant v => exact hm.2
  | construct cls _ =>
    obtain ⟨name, hname⟩ := hm
    simp [Scope.constructible?_of_nil hΓ] at hname
  | _ => trivial

theorem DerivesSimple.objectless (h : DerivesSimple Γ.constructible? us e)
    (hΓ : Γ.classes = []) : e.Objectless := by
  have hpath : ∀ p : DottedPath, (Node.path p).Objectless := fun p => every_path trivial
  cases h with
  | bareReturn =>
    have hempty : (constant .empty).Objectless := every_constant nofun
    exact .of_children trivial (by simp [children, operands, statements, hempty])
  | returnValue h | assign _ h =>
    exact .of_children trivial (by simp [children, operands, statements, h.objectless hΓ])
  | print hargs =>
    refine .of_children trivial ?_
    intro m hm
    simp only [children, operands, statements, List.append_nil, List.mem_map] at hm
    obtain ⟨a, ha, rfl⟩ := hm
    exact (hargs a ha).objectless hΓ
  | expression h => exact h.objectless hΓ
  | assignField _ _ h =>
    exact .of_children trivial (by simp [children, operands, statements, hpath, h.objectless hΓ])

end

mutual

/-- Statements without a class definition leave the scope without classes, so those behind them call
no class either. -/
theorem DerivesStatement.objectless {Γ Γ' : Scope} {us : List Token} {e : Node} :
    DerivesStatement Scope.constructible? Γ us e Γ' → .keyword .classWord ∉ us → Γ.classes = [] →
      e.Objectless ∧ Γ'.classes = []
  | .simple h, _, hΓ => ⟨h.objectless hΓ, hΓ⟩
  | .ifThen hcondition hbody, hus, hΓ => by
    have hcondition := hcondition.objectless hΓ
    obtain ⟨hbody, hΓ'⟩ := hbody.objectless (by simp_all) hΓ
    exact ⟨.of_children trivial (by simp [children, operands, statements, hcondition, hbody]), hΓ'⟩
  | .ifElse hcondition hbody halternative, hus, hΓ => by
    have hcondition := hcondition.objectless hΓ
    obtain ⟨hbody, hΓ₁⟩ := hbody.objectless (by simp_all) hΓ
    obtain ⟨halternative, hΓ'⟩ := halternative.objectless (by simp_all) hΓ₁
    exact ⟨.of_children trivial
      (by simp [children, operands, statements, hcondition, hbody, halternative]), hΓ'⟩
  | .classDefinition .., hus, _ => absurd (List.mem_cons_self ..) hus

theorem DerivesSuite.objectless {Γ Γ' : Scope} {us : List Token} {e : Node} :
    DerivesSuite Scope.constructible? Γ us e Γ' → .keyword .classWord ∉ us → Γ.classes = [] →
      e.Objectless ∧ Γ'.classes = []
  | .mk hbody _, hus, hΓ => by
    obtain ⟨hbody, hΓ'⟩ := objectless_of_many hbody (by simp_all [blockTokens]) hΓ
    exact ⟨.of_children trivial (by simpa [children, operands, statements] using hbody), hΓ'⟩

theorem objectless_of_many {Γ Γ' : Scope} {us : List Token} {body : List Node} :
    Many (DerivesStatement Scope.constructible?) Γ us body Γ' → .keyword .classWord ∉ us →
      Γ.classes = [] → (∀ e ∈ body, e.Objectless) ∧ Γ'.classes = []
  | .nil _, _, hΓ => ⟨by simp, hΓ⟩
  | .cons h hs, hus, hΓ => by
    rw [List.mem_append, not_or] at hus
    obtain ⟨hfirst, hΓ₁⟩ := h.objectless hus.1 hΓ
    obtain ⟨hrest, hΓ'⟩ := objectless_of_many hs hus.2 hΓ₁
    exact ⟨by simpa using ⟨hfirst, hrest⟩, hΓ'⟩

end

/-- The statements of a source without a class are objectless. -/
theorem Program.objectless_of_ofSource {known : ClassTable} {source : String} {p : Program}
    (h : (Program.ofSource known source).1 = .ok p) (hclass : ¬ DefinesClass source) :
    p.body.Objectless := by
  obtain ⟨us, body, Γ, htokens, hmany, rfl⟩ := (Program.derives_of_ofSource h).2
  have hus : .keyword .classWord ∉ us := by simpa [DefinesClass, htokens] using hclass
  obtain ⟨hbody, -⟩ := objectless_of_many hmany hus rfl
  exact .of_children trivial (by simpa [Program.body, children, operands, Node.statements] using hbody)

end Offside
