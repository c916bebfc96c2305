import Offside.Proofs.KnownClasses

set_option autoImplicit false

/-! # Where classes are defined

A class is defined only where the word `class` stands among the tokens, and never in an expression or
a statement of one line. Statements without that word leave the scope as it is, and in the tree of
statements with it the definition of a class stands. -/

namespace Offside

open Node

/-! ## Tokens of expressions -/

theorem mem_commaTokens {t : Token} {parts : List (List Token)} (h : t ∈ commaTokens parts) :
    t = .char ',' ∨ ∃ part ∈ parts, t ∈ part := by
  induction parts with
  | nil => simp [commaTokens] at h
  | cons a parts ih =>
    cases parts with
    | nil =>
      rw [commaTokens_singleton] at h
      exact .inr ⟨a, List.mem_cons_self, h⟩
    | cons b parts =>
      rw [commaTokens_cons_cons] at h
      rcases List.mem_append.1 h with h | h
      · exact .inr ⟨a, List.mem_cons_self, h⟩
      · rcases List.mem_cons.1 h with h | h
        · exact .inl h
        · rcases ih h with h | ⟨part, hpart, h⟩
          · exact .inl h
          · exact .inr ⟨part, List.mem_cons_of_mem _ hpart, h⟩

section

variable {class? : String → Option ClassRef} {l : Level} {us : List Token} {e : Node}
  {word : Keyword} {p : DottedPath}

theorem DottedPath.keyword_not_mem_tokens (word : Keyword) (p : DottedPath) :
    .keyword word ∉ p.tokens := by
  simp [DottedPath.tokens]

theorem keyword_not_mem_arguments {args : List (List Token × Node)}
    (h : ∀ a ∈ args, .keyword word ∉ a.1) :
    .keyword word ∉ commaTokens (args.map Prod.fst) := by
  intro hmem
  rcases mem_commaTokens hmem with hcomma | ⟨part, hpart, hmem⟩
  · exact absurd hcomma (by simp)
  · obtain ⟨a, ha, rfl⟩ := List.mem_map.1 hpart
    exact h a ha hmem

/-- The word `class` does not stand in an expression. -/
theorem Derives.class_not_mem (h : Derives class? l us e) : .keyword .classWord ∉ us := by
  induction h with
  | ofConjunction h ih | ofNegation h ih | ofComparison h ih | ofSum h ih | ofProduct h ih
  | ofUnary h ih | ofPrimary h ih => exact ih
  | or _ _ hleft hright | and _ _ hleft hright | add _ _ hleft hright | sub _ _ hleft hright
  | mul _ _ hleft hright | div _ _ hleft hright => simp [hleft, hright]
  | compare c _ _ hleft hright => cases c <;> simp [Comparator.token, hleft, hright]
  | not h ih | negative h ih | parentheses h ih => simp [ih]
  | number | string | true | false | none => simp
  | path p => exact p.keyword_not_mem_tokens _
  | @call p _ _ args _ _ ih =>
    simp [argumentTokens, p.keyword_not_mem_tokens, keyword_not_mem_arguments ih]
  | stringify h ih => simp [argumentTokens, ih]
  | construct _ _ ih => simp [argumentTokens, keyword_not_mem_arguments ih]

theorem Target.keyword_not_mem (h : Target us p) : .keyword word ∉ us := by
  induction h with
  | path p => exact p.keyword_not_mem_tokens word
  | parentheses h ih => simp [ih]

theorem DerivesSimple.class_not_mem (h : DerivesSimple class? us e) :
    .keyword .classWord ∉ us := by
  cases h with
  | bareReturn => simp
  | returnValue h => simp [h.class_not_mem]
  | print hargs => simp [keyword_not_mem_arguments fun a ha => (hargs a ha).class_not_mem]
  | expression h => exact h.class_not_mem
  | assign htarget h | assignField htarget _ h => simp [htarget.keyword_not_mem, h.class_not_mem]

end

/-! ## Definitions in trees -/

namespace Node

variable {n : Node} {c : ClassRef} {f : ClassRef → ClassRef}

/-- The class is defined in the tree. -/
def Defines (n : Node) (c : ClassRef) : Prop := n.Contains (.classDefinition c)

theorem Defines.of_child {m : Node} (h : m.Defines c) (hm : m ∈ n.children) : n.Defines c :=
  Contains.head hm h

theorem Closed.index_lt {classes : Nat} (h : n.Closed classes) (hc : n.Defines c) :
    c.index < classes :=
  h _ hc

end Node

/-- Either the word `class` stands among the tokens and a class is defined in one of the trees, or the
scope behind them is the one in front of them. -/
def DefinesOrStays (Γ : Scope) (us : List Token) (nodes : List Node) (Γ' : Scope) : Prop :=
  (.keyword .classWord ∈ us ∧ ∃ n ∈ nodes, ∃ c, n.Defines c) ∨
    (.keyword .classWord ∉ us ∧ Γ' = Γ)

section

variable {Γ Γ₁ Γ' : Scope} {us vs : List Token} {nodes nodes' : List Node} {n : Node}

theorem DefinesOrStays.append (h : DefinesOrStays Γ us nodes Γ₁)
    (h' : DefinesOrStays Γ₁ vs nodes' Γ') : DefinesOrStays Γ (us ++ vs) (nodes ++ nodes') Γ' := by
  rcases h with ⟨hus, n, hn, hc⟩ | ⟨hus, rfl⟩
  · exact .inl ⟨List.mem_append_left _ hus, n, List.mem_append_left _ hn, hc⟩
  · rcases h' with ⟨hvs, n, hn, hc⟩ | ⟨hvs, rfl⟩
    · exact .inl ⟨List.mem_append_right _ hvs, n, List.mem_append_right _ hn, hc⟩
    · exact .inr ⟨by simp [hus, hvs], rfl⟩

/-- What holds of children holds of the tree, with other tokens around theirs. -/
theorem DefinesOrStays.node (h : DefinesOrStays Γ us nodes Γ')
    (htokens : .keyword .classWord ∈ vs ↔ .keyword .classWord ∈ us)
    (hnodes : ∀ m ∈ nodes, m ∈ n.children) : DefinesOrStays Γ vs [n] Γ' := by
  rcases h with ⟨hus, m, hm, c, hc⟩ | ⟨hus, rfl⟩
  · exact .inl ⟨htokens.2 hus, n, by simp, c, hc.of_child (hnodes m hm)⟩
  · exact .inr ⟨fun hvs => hus (htokens.1 hvs), rfl⟩

end

section

variable {callable : Scope → String → Option ClassRef}

mutual

theorem DerivesStatement.definesOrStays {Γ Γ' : Scope} {us : List Token} {e : Node} :
    DerivesStatement callable Γ us e Γ' → DefinesOrStays Γ us [e] Γ'
  | .simple h => .inr ⟨by simp [h.class_not_mem], rfl⟩
  | .ifThen hcondition hbody =>
    hbody.definesOrStays.node (by simp [hcondition.class_not_mem])
      (by simp [children, operands, statements])
  | .ifElse hcondition hbody halternative =>
    (hbody.definesOrStays.append halternative.definesOrStays).node
      (by simp [hcondition.class_not_mem]) (by simp [children, operands, statements])
  | .classDefinition _ _ _ _ => .inl ⟨by simp, _, List.mem_singleton_self _, _, .refl⟩

theorem DerivesSuite.definesOrStays {Γ Γ' : Scope} {us : List Token} {e : Node} :
    DerivesSuite callable Γ us e Γ' → DefinesOrStays Γ us [e] Γ'
  | .mk hbody _ =>
    (definesOrStays_of_many hbody).node (by simp [blockTokens])
      (by simp [children, operands, statements])

theorem definesOrStays_of_many {Γ Γ' : Scope} {us : List Token} {body : List Node} :
    Many (DerivesStatement callable) Γ us body Γ' → DefinesOrStays Γ us body Γ'
  | .nil _ => .inr ⟨by simp, rfl⟩
  | .cons h hs => h.definesOrStays.append (definesOrStays_of_many hs)

end

end

end Offside
