import Offside.Proofs.Grammar
import Offside.Proofs.Rules

set_option autoImplicit false

/-! # Only expressions are read

What the rules of `Parse.Expression` read is an expression, and what they give is its tree. The
rules of operators are loops: their invariant is that the left operand so far is the tree of the
tokens so far. The bound of a rule is never the reason to fail before as many tokens were consumed.
-/

namespace Offside

/-- A path that has no two parts is a single name. -/
theorem DottedPath.rest_eq_nil_of_split? {first : String} {rest : List String}
    (h : (DottedPath.mk first rest).split? = none) : rest = [] := by
  cases rest with
  | nil => rfl
  | cons name rest => simp [split?] at h

namespace Parse

variable {α : Type} {n : Nat} {st : ParseState} {Γ : Scope}

/-- What the rules of a level promise in the scope `Γ`: an expression of that level, and the same
scope. -/
def Gives (Γ : Scope) (l : Level) (us : List Token) (e : Node) (Γ' : Scope) : Prop :=
  Γ' = Γ ∧ Derives Γ.constructible? l us e

/-! ## Rules that repeat -/

/-- Items with commas between them. -/
theorem Meets.commaSeparated {item : Parse α} {P : List Token → α → Prop} {k : Nat} (hn : n ≤ k)
    (hitem : ∀ st : ParseState, st.scope = Γ → Meets n item st fun us x Γ' => Γ' = Γ ∧ P us x)
    (hΓ : st.scope = Γ) :
    Meets n (commaSeparated item k) st fun us xs Γ' => Γ' = Γ ∧
      ∃ parts : List (List Token × α), parts ≠ [] ∧ us = commaTokens (parts.map Prod.fst) ∧
        xs = parts.map Prod.snd ∧ ∀ a ∈ parts, P a.1 a.2 := by
  induction k generalizing n st with
  | zero =>
    obtain rfl := Nat.le_zero.1 hn
    exact .tooDeep
  | succ k ih =>
    refine bind (hitem st hΓ) ?_
    rintro us x st₁ ⟨hΓ₁, hx⟩
    refine accept_bind (by simp) (fun st₂ hΓ₂ => ?_) fun _ => ?_
    · have hfewer : ∀ st : ParseState, st.scope = Γ →
          Meets (n - us.length - 1) item st fun us x Γ' => Γ' = Γ ∧ P us x :=
        fun st hΓ => (hitem st hΓ).mono (by omega) fun _ _ _ h => h
      refine bind (ih (by omega) hfewer (hΓ₂.trans hΓ₁)) ?_
      rintro vs xs st₃ ⟨hΓ₃, parts, hne, rfl, rfl, hparts⟩
      refine .pure ⟨hΓ₃, (us, x) :: parts, by simp, ?_, rfl, ?_⟩
      · obtain ⟨b, parts, rfl⟩ := List.exists_cons_of_ne_nil hne
        simp [commaTokens_cons_cons]
      · intro a ha
        rcases List.mem_cons.1 ha with rfl | ha
        · exact hx
        · exact hparts a ha
    · refine .pure ⟨hΓ₁, [(us, x)], by simp, by simp, rfl, ?_⟩
      intro a ha
      obtain rfl := List.mem_singleton.1 ha
      exact hx

/-- The names behind the dots of a path. -/
theorem Meets.members (k : Nat) (hΓ : st.scope = Γ) :
    Meets k (members k) st fun us names Γ' => Γ' = Γ ∧
      us = names.flatMap fun name => [.char '.', .name name] := by
  induction k generalizing st with
  | zero => exact .tooDeep
  | succ k ih =>
    refine accept_bind (by simp) (fun st₁ hΓ₁ => ?_) fun _ => .pure ⟨hΓ, rfl⟩
    refine requireName_bind fun name st₂ hΓ₂ => ?_
    refine bind ((ih (hΓ₂.trans (hΓ₁.trans hΓ))).mono (by omega) fun _ _ _ h => h) ?_
    rintro us names st₃ ⟨hΓ₃, rfl⟩
    exact .pure ⟨hΓ₃, by simp⟩

section

variable {join? : Token → Option (Node → Node → Node)} {operand : Parse Node} {l r : Level}
  {m : Nat}

/-- A loop over the operands of one level: what is read behind the left operand makes a longer one
of it. -/
theorem Meets.chain {k : Nat} (hm : k ≤ m)
    (hjoin : ∀ (t : Token) (join : Node → Node → Node) (us vs : List Token) (left right : Node),
      join? t = some join → Derives Γ.constructible? l us left →
      Derives Γ.constructible? r vs right →
      Derives Γ.constructible? l (us ++ t :: vs) (join left right))
    (hend : join? .endOfInput = none)
    (hoperand : ∀ st : ParseState, st.scope = Γ → Meets m operand st (Gives Γ r)) (left : Node)
    (hΓ : st.scope = Γ) :
    Meets k (chain join? operand k left) st fun vs e Γ' => Γ' = Γ ∧
      ∀ us, Derives Γ.constructible? l us left → Derives Γ.constructible? l (us ++ vs) e := by
  induction k generalizing st left with
  | zero => exact .tooDeep
  | succ k ih =>
    refine current_bind ?_
    cases hj : join? st.stream.current with
    | none => exact .pure ⟨hΓ, fun us h => by rwa [List.append_nil]⟩
    | some join =>
      have hne : st.stream.current ≠ .endOfInput := by
        intro he
        rw [he, hend] at hj
        simp at hj
      refine advance_bind hne fun st₁ hΓ₁ => ?_
      refine bind ((hoperand st₁ (hΓ₁.trans hΓ)).mono (by omega) fun _ _ _ h => h) ?_
      rintro vs right st₂ ⟨hΓ₂, hright⟩
      -- the operands so far are the left operand of the next round
      refine (ih (by omega) (join left right) hΓ₂).mono (by omega) ?_
      rintro ws e Γ' ⟨hΓ', he⟩
      refine ⟨hΓ', fun us hleft => ?_⟩
      have hlonger := he _ (hjoin _ join us vs left right hj hleft hright)
      simpa using hlonger

/-- Operands of one level, joined from the left. -/
theorem Meets.leftChain (hjoin : ∀ (t : Token) (join : Node → Node → Node) (us vs : List Token)
      (left right : Node), join? t = some join → Derives Γ.constructible? l us left →
      Derives Γ.constructible? r vs right →
      Derives Γ.constructible? l (us ++ t :: vs) (join left right))
    (hlift : ∀ us e, Derives Γ.constructible? r us e → Derives Γ.constructible? l us e)
    (hend : join? .endOfInput = none)
    (hoperand : ∀ st : ParseState, st.scope = Γ → Meets n operand st (Gives Γ r))
    (hΓ : st.scope = Γ) : Meets n (leftChain join? operand n) st (Gives Γ l) := by
  refine bind (hoperand st hΓ) ?_
  rintro us first st₁ ⟨hΓ₁, hfirst⟩
  refine (Meets.chain (Nat.le_refl n) hjoin hend hoperand first hΓ₁).mono (by omega) ?_
  rintro vs e Γ' ⟨hΓ', he⟩
  exact ⟨hΓ', he us (hlift us first hfirst)⟩

/-- An operand after signs. -/
theorem Meets.signed {sign : Token} {change : Node → Node} {k : Nat} (hm : k ≤ m)
    (hsign : ∀ us e, Derives Γ.constructible? l us e →
      Derives Γ.constructible? l (sign :: us) (change e))
    (hlift : ∀ us e, Derives Γ.constructible? r us e → Derives Γ.constructible? l us e)
    (hend : sign ≠ .endOfInput)
    (hoperand : ∀ st : ParseState, st.scope = Γ → Meets m operand st (Gives Γ r))
    (hΓ : st.scope = Γ) : Meets k (signed sign change operand k) st (Gives Γ l) := by
  induction k generalizing st with
  | zero => exact .tooDeep
  | succ k ih =>
    refine accept_bind hend (fun st₁ hΓ₁ => ?_) fun _ => ?_
    · refine bind ((ih (by omega) (hΓ₁.trans hΓ)).mono (by omega) fun _ _ _ h => h) ?_
      rintro us e st₂ ⟨hΓ₂, he⟩
      refine .pure ⟨hΓ₂, ?_⟩
      rw [List.append_nil]
      exact hsign us e he
    · refine (hoperand st hΓ).mono hm ?_
      rintro us e Γ' ⟨hΓ', he⟩
      exact ⟨hΓ', hlift us e he⟩

end

/-! ## Operands -/

section

variable {test : Parse Node}

/-- The arguments of a call and the parenthesis behind them. -/
theorem Meets.arguments {m : Nat} (hn : n ≤ m)
    (htest : ∀ st : ParseState, st.scope = Γ → Meets n test st (Gives Γ .test))
    (hΓ : st.scope = Γ) :
    Meets n (arguments test m) st fun us args Γ' => Γ' = Γ ∧
      ∃ parts : List (List Token × Node),
        us = commaTokens (parts.map Prod.fst) ++ [Token.char ')'] ∧
        args = parts.map Prod.snd ∧ ∀ a ∈ parts, Derives Γ.constructible? .test a.1 a.2 := by
  have hclose : ∀ us args (st₁ : ParseState), (st₁.scope = Γ ∧
      ∃ parts : List (List Token × Node), us = commaTokens (parts.map Prod.fst) ∧
        args = parts.map Prod.snd ∧ ∀ a ∈ parts, Derives Γ.constructible? .test a.1 a.2) →
      Meets (n - us.length) (do require (.char ')') .noClosingParenthesis; return args) st₁
        fun vs args Γ' => Γ' = Γ ∧
          ∃ parts : List (List Token × Node),
            us ++ vs = commaTokens (parts.map Prod.fst) ++ [Token.char ')'] ∧
              args = parts.map Prod.snd ∧ ∀ a ∈ parts, Derives Γ.constructible? .test a.1 a.2 := by
    rintro us args st₁ ⟨hΓ₁, parts, rfl, rfl, hparts⟩
    refine require_bind (by simp) fun st₂ hΓ₂ => ?_
    exact .pure ⟨hΓ₂.trans hΓ₁, parts, rfl, rfl, hparts⟩
  refine current_bind ?_
  dsimp only
  split
  · exact hclose [] [] st ⟨hΓ, [], rfl, rfl, by simp⟩
  · refine bind (commaSeparated hn htest hΓ) ?_
    rintro us args st₁ ⟨hΓ₁, parts, -, hparts⟩
    exact hclose us args st₁ ⟨hΓ₁, parts, hparts⟩

/-- What a call means. -/
theorem Meets.callNode {p : DottedPath} {parts : List (List Token × Node)}
    (hparts : ∀ a ∈ parts, Derives Γ.constructible? .test a.1 a.2) (hΓ : st.scope = Γ) :
    Meets n (callNode p (parts.map Prod.snd)) st fun us e Γ' => Γ' = Γ ∧ us = [] ∧
      Derives Γ.constructible? .primary (p.tokens ++ argumentTokens (parts.map Prod.fst)) e := by
  unfold Parse.callNode
  split
  · rename_i receiver method hp
    exact .pure ⟨hΓ, rfl, .call hp hparts⟩
  · rename_i hp
    obtain ⟨first, rest⟩ := p
    obtain rfl : rest = [] := DottedPath.rest_eq_nil_of_split? hp
    split
    · rename_i hstr
      obtain rfl : first = strFunction := hstr
      split
      · rename_i argument hargs
        obtain ⟨a, rfl, ha⟩ := List.map_eq_singleton_iff.1 hargs
        exact .pure ⟨hΓ, rfl, ha ▸ .stringify (hparts a (List.mem_singleton_self a))⟩
      · exact .fail _
    · rename_i hstr
      refine class?_bind ?_
      cases hc : st.classes.lookup first with
      | none => exact .fail _
      | some c =>
        have hc' : Γ.constructible? first = some c := by
          rw [← hΓ, Scope.constructible?, if_neg hstr]
          exact hc
        exact .pure ⟨hΓ, rfl, .construct hc' hparts⟩

/-- A path or a call, from behind its first name on. -/
theorem Meets.nameExpression {m : Nat} (hn : n ≤ m) (first : String)
    (htest : ∀ st : ParseState, st.scope = Γ → Meets n test st (Gives Γ .test))
    (hΓ : st.scope = Γ) :
    Meets n (nameExpression test m first) st fun us e Γ' => Γ' = Γ ∧
      Derives Γ.constructible? .primary (.name first :: us) e := by
  refine bind ((members m hΓ).mono hn fun _ _ _ h => h) ?_
  rintro us names st₁ ⟨hΓ₁, rfl⟩
  refine accept_bind (by simp) (fun st₂ hΓ₂ => ?_) fun _ => ?_
  · have hfewer : ∀ k : Nat, ∀ st : ParseState, st.scope = Γ →
        Meets (n - k) test st (Gives Γ .test) :=
      fun k st hΓ => (htest st hΓ).mono (Nat.sub_le n k) fun _ _ _ h => h
    rw [Nat.sub_sub]
    refine bind (arguments (by omega) (hfewer _) (hΓ₂.trans hΓ₁)) ?_
    rintro vs args st₃ ⟨hΓ₃, parts, rfl, rfl, hparts⟩
    refine (callNode hparts hΓ₃).mono (Nat.le_refl _) ?_
    rintro ws e Γ' ⟨hΓ', rfl, he⟩
    refine ⟨hΓ', ?_⟩
    simpa [DottedPath.tokens, argumentTokens] using he
  · refine .pure ⟨hΓ₁, ?_⟩
    rw [List.append_nil]
    exact .path ⟨first, names⟩

/-- A literal, an expression in parentheses, a path or a call. -/
theorem Meets.primary (htest : ∀ st : ParseState, st.scope = Γ →
      Meets (n - 1) test st (Gives Γ .test)) (hΓ : st.scope = Γ) :
    Meets n (Parse.primary test n) st (Gives Γ .primary) := by
  refine current_bind ?_
  split
  · rename_i value hc
    refine advance_bind (by simp [hc]) fun st₁ hΓ₁ => ?_
    exact .pure ⟨hΓ₁.trans hΓ, hc ▸ .number value⟩
  · rename_i text hc
    refine advance_bind (by simp [hc]) fun st₁ hΓ₁ => ?_
    exact .pure ⟨hΓ₁.trans hΓ, hc ▸ .string text⟩
  · rename_i hc
    refine advance_bind (by simp [hc]) fun st₁ hΓ₁ => ?_
    exact .pure ⟨hΓ₁.trans hΓ, hc ▸ .true⟩
  · rename_i hc
    refine advance_bind (by simp [hc]) fun st₁ hΓ₁ => ?_
    exact .pure ⟨hΓ₁.trans hΓ, hc ▸ .false⟩
  · rename_i hc
    refine advance_bind (by simp [hc]) fun st₁ hΓ₁ => ?_
    exact .pure ⟨hΓ₁.trans hΓ, hc ▸ .none⟩
  · rename_i hc
    refine advance_bind (by simp [hc]) fun st₁ hΓ₁ => ?_
    refine bind (htest st₁ (hΓ₁.trans hΓ)) ?_
    rintro us e st₂ ⟨hΓ₂, he⟩
    refine require_bind (by simp) fun st₃ hΓ₃ => ?_
    exact .pure ⟨hΓ₃.trans hΓ₂, hc ▸ .parentheses he⟩
  · rename_i first hc
    refine advance_bind (by simp [hc]) fun st₁ hΓ₁ => ?_
    refine (nameExpression (Nat.sub_le n 1) first htest (hΓ₁.trans hΓ)).mono (Nat.le_refl _) ?_
    rintro us e Γ' ⟨hΓ', he⟩
    exact ⟨hΓ', hc ▸ he⟩
  · exact .fail _

/-! ## Levels -/

theorem Meets.unary (htest : ∀ st : ParseState, st.scope = Γ →
      Meets (n - 1) test st (Gives Γ .test)) (hΓ : st.scope = Γ) :
    Meets n (Parse.unary test n) st (Gives Γ .unary) :=
  signed (Nat.le_refl n) (fun _ _ h => .negative h) (fun _ _ h => .ofPrimary h) (by simp)
    (fun _ hΓ => primary htest hΓ) hΓ

theorem Meets.product (htest : ∀ st : ParseState, st.scope = Γ →
      Meets (n - 1) test st (Gives Γ .test)) (hΓ : st.scope = Γ) :
    Meets n (Parse.product test n) st (Gives Γ .product) := by
  refine leftChain ?_ (fun _ _ h => .ofUnary h) rfl (fun _ hΓ => unary htest hΓ) hΓ
  intro t join us vs left right hj hleft hright
  unfold multiplicative? at hj
  split at hj
  · obtain rfl := Option.some.inj hj
    exact .mul hleft hright
  · obtain rfl := Option.some.inj hj
    exact .div hleft hright
  · simp at hj

theorem Meets.sum (htest : ∀ st : ParseState, st.scope = Γ →
      Meets (n - 1) test st (Gives Γ .test)) (hΓ : st.scope = Γ) :
    Meets n (Parse.sum test n) st (Gives Γ .sum) := by
  refine leftChain ?_ (fun _ _ h => .ofProduct h) rfl (fun _ hΓ => product htest hΓ) hΓ
  intro t join us vs left right hj hleft hright
  unfold additive? at hj
  split at hj
  · obtain rfl := Option.some.inj hj
    exact .add hleft hright
  · obtain rfl := Option.some.inj hj
    exact .sub hleft hright
  · simp at hj

/-- A token that stands for a comparison is how the comparison is written. -/
theorem eq_token_of_comparator? {t : Token} {c : Comparator} (h : comparator? t = some c) :
    t = c.token := by
  unfold comparator? at h
  split at h
  all_goals
    first
    | obtain rfl := Option.some.inj h
      rfl
    | simp at h

theorem Meets.comparison (htest : ∀ st : ParseState, st.scope = Γ →
      Meets (n - 1) test st (Gives Γ .test)) (hΓ : st.scope = Γ) :
    Meets n (Parse.comparison test n) st (Gives Γ .comparison) := by
  refine bind (sum htest hΓ) ?_
  rintro us left st₁ ⟨hΓ₁, hleft⟩
  refine current_bind ?_
  cases hc : comparator? st₁.stream.current with
  | none =>
    refine .pure ⟨hΓ₁, ?_⟩
    rw [List.append_nil]
    exact .ofSum hleft
  | some c =>
    have ht := eq_token_of_comparator? hc
    have hend : st₁.stream.current ≠ .endOfInput := by
      rw [ht]
      cases c <;> simp [Comparator.token]
    refine advance_bind hend fun st₂ hΓ₂ => ?_
    refine bind ((sum htest (hΓ₂.trans hΓ₁)).mono (by omega) fun _ _ _ h => h) ?_
    rintro vs right st₃ ⟨hΓ₃, hright⟩
    refine .pure ⟨hΓ₃, ?_⟩
    rw [List.append_nil, ht]
    exact .compare c hleft hright

theorem Meets.negation (htest : ∀ st : ParseState, st.scope = Γ →
      Meets (n - 1) test st (Gives Γ .test)) (hΓ : st.scope = Γ) :
    Meets n (Parse.negation test n) st (Gives Γ .negation) :=
  signed (Nat.le_refl n) (fun _ _ h => .not h) (fun _ _ h => .ofComparison h) (by simp)
    (fun _ hΓ => comparison htest hΓ) hΓ

theorem Meets.conjunction (htest : ∀ st : ParseState, st.scope = Γ →
      Meets (n - 1) test st (Gives Γ .test)) (hΓ : st.scope = Γ) :
    Meets n (Parse.conjunction test n) st (Gives Γ .conjunction) := by
  refine leftChain ?_ (fun _ _ h => .ofNegation h) rfl (fun _ hΓ => negation htest hΓ) hΓ
  intro t join us vs left right hj hleft hright
  unfold conjunction? at hj
  split at hj
  · obtain rfl := Option.some.inj hj
    exact .and hleft hright
  · simp at hj

theorem Meets.disjunction (htest : ∀ st : ParseState, st.scope = Γ →
      Meets (n - 1) test st (Gives Γ .test)) (hΓ : st.scope = Γ) :
    Meets n (Parse.disjunction test n) st (Gives Γ .test) := by
  refine leftChain ?_ (fun _ _ h => .ofConjunction h) rfl (fun _ hΓ => conjunction htest hΓ) hΓ
  intro t join us vs left right hj hleft hright
  unfold disjunction? at hj
  split at hj
  · obtain rfl := Option.some.inj hj
    exact .or hleft hright
  · simp at hj

end

/-- Only expressions are read, and at most one token is missing from the bound when it is met. -/
theorem Meets.expression (n : Nat) (hΓ : st.scope = Γ) :
    Meets (n - 1) (expression n) st (Gives Γ .test) := by
  induction n generalizing st with
  | zero => exact .tooDeep
  | succ n ih => exact disjunction (fun st hΓ => ih hΓ) hΓ

end Parse

end Offside
