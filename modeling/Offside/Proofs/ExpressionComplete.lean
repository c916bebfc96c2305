import Mathlib.Data.List.Basic
import Offside.Proofs.Grammar
import Offside.Proofs.Rules

set_option autoImplicit false

/-! # Every expression is read

On the tokens of an expression, followed by a token that cannot go on with it, the rules of
`Parse.Expression` lead to its tree. The induction is on the derivation.

What is left recursion in the grammar is a loop in the rules, so at the levels of operators the
induction carries more than a result: reading what is derived so far leads into the loop, with the
tree of it as the left operand, and with rounds left. -/

namespace Offside

namespace Parse

variable {α : Type} {Γ : Scope} {next : Token} {rest : List Token}

/-! ## Rules that repeat -/

/-- Items between commas are read up to a token that is not a comma. -/
theorem Leads.commaSeparated {item : Parse α} {parts : List (List Token × α)} {k : Nat}
    (hne : parts ≠ []) (hk : parts.length ≤ k) (hnext : next ≠ .char ',')
    (hitem : ∀ a ∈ parts, ∀ (t : Token) (ts : List Token), t = .char ',' ∨ t = next →
      Leads item Γ (a.1 ++ t :: ts) (pure a.2) Γ (t :: ts)) :
    Leads (commaSeparated item k) Γ (commaTokens (parts.map Prod.fst) ++ next :: rest)
      (pure (parts.map Prod.snd)) Γ (next :: rest) := by
  induction parts generalizing k with
  | nil => exact absurd rfl hne
  | cons a parts ih =>
    obtain ⟨k, rfl⟩ : ∃ j, k = j + 1 := ⟨k - 1, by simp at hk; omega⟩
    have ha := hitem a (List.mem_cons_self ..)
    cases parts with
    | nil =>
      simp only [List.map_cons, List.map_nil, commaTokens_singleton]
      refine (ha next rest (.inr rfl)).step ?_
      exact (accept_of_ne hnext).step refl
    | cons b parts =>
      have hrest := ih (List.cons_ne_nil b parts) (Nat.le_of_succ_le_succ hk)
        (fun c hc => hitem c (List.mem_cons_of_mem _ hc))
      have htokens : commaTokens ((a :: b :: parts).map Prod.fst) ++ next :: rest =
          a.1 ++ .char ',' :: (commaTokens ((b :: parts).map Prod.fst) ++ next :: rest) := by
        simp [commaTokens_cons_cons]
      rw [htokens]
      refine (ha _ _ (.inl rfl)).step ?_
      refine (accept_self (by simp)).step ?_
      exact hrest.step refl

/-- Items between commas, or none at all, are read up to a token that neither stands between items
nor begins one. -/
theorem Leads.listed {item : Parse α} {parts : List (List Token × α)} {k : Nat}
    (hk : (commaTokens (parts.map Prod.fst)).length ≤ k) (hnext : next ≠ .char ',')
    (hhead : ∀ a ∈ parts, ∃ t ts, a.1 = t :: ts ∧ t ≠ next)
    (hitem : ∀ a ∈ parts, a.1.length ≤ (commaTokens (parts.map Prod.fst)).length →
      ∀ (t : Token) (ts : List Token), t = .char ',' ∨ t = next →
        Leads item Γ (a.1 ++ t :: ts) (pure a.2) Γ (t :: ts)) :
    ∃ t ts, commaTokens (parts.map Prod.fst) ++ next :: rest = t :: ts ∧
      Leads (if t = next then pure [] else Parse.commaSeparated item k) Γ (t :: ts)
        (pure (parts.map Prod.snd)) Γ (next :: rest) := by
  cases parts with
  | nil =>
    refine ⟨next, rest, rfl, ?_⟩
    rw [if_pos rfl]
    exact refl
  | cons a parts =>
    have hne : ∀ part ∈ (a :: parts).map Prod.fst, part ≠ [] := by
      intro part hpart
      obtain ⟨b, hb, rfl⟩ := List.mem_map.1 hpart
      obtain ⟨t, ts, ht, -⟩ := hhead b hb
      simp [ht]
    have hlength := length_parts_le hne
    rw [List.length_map] at hlength
    have hitems : Leads (Parse.commaSeparated item k) Γ
        (commaTokens ((a :: parts).map Prod.fst) ++ next :: rest)
        (pure ((a :: parts).map Prod.snd)) Γ (next :: rest) := by
      refine commaSeparated (List.cons_ne_nil a parts) (Nat.le_trans hlength hk) hnext ?_
      intro b hb
      exact hitem b hb (length_le_commaTokens (List.mem_map_of_mem hb))
    -- the first token of the first item tells the list from an empty one
    obtain ⟨t, ts, ha, ht⟩ := hhead a (List.mem_cons_self ..)
    obtain ⟨us, hus⟩ := exists_commaTokens_cons t ts (parts.map Prod.fst)
    rw [List.map_cons, ha, hus] at hitems ⊢
    refine ⟨t, us ++ next :: rest, rfl, ?_⟩
    rw [if_neg ht]
    exact hitems

/-- The names behind the dots of a path are read up to a token that is not a dot. -/
theorem Leads.members {names : List String} {k : Nat} (hk : names.length < k)
    (hnext : next ≠ .char '.') :
    Leads (members k) Γ
      ((names.flatMap fun name => [Token.char '.', .name name]) ++ next :: rest) (pure names) Γ
      (next :: rest) := by
  induction names generalizing k with
  | nil =>
    obtain ⟨k, rfl⟩ : ∃ j, k = j + 1 := ⟨k - 1, by omega⟩
    exact (accept_of_ne hnext).step refl
  | cons name names ih =>
    obtain ⟨k, rfl⟩ : ∃ j, k = j + 1 := ⟨k - 1, by omega⟩
    refine (accept_self (by simp)).step ?_
    refine (requireName name _ (by simp)).step ?_
    exact (ih (Nat.lt_of_succ_lt_succ hk)).step refl

/-- A round of a chain: an operator and its right operand. -/
theorem Leads.chain {join? : Token → Option (Node → Node → Node)} {operand : Parse Node}
    {join : Node → Node → Node} {op : Token} {vs : List Token} {left right : Node} {k : Nat}
    (hop : join? op = some join)
    (hright : Leads operand Γ (vs ++ next :: rest) (pure right) Γ (next :: rest)) :
    Leads (chain join? operand (k + 1) left) Γ (op :: (vs ++ next :: rest))
      (chain join? operand k (join left right)) Γ (next :: rest) := by
  refine current.step ?_
  rw [hop]
  refine (advance (by simp)).step ?_
  exact hright.step refl

/-- A chain ends at a token that is not an operator. -/
theorem Leads.chain_end {join? : Token → Option (Node → Node → Node)} {operand : Parse Node}
    {left : Node} {k : Nat} (hk : 0 < k) (hnext : join? next = none) :
    Leads (Parse.chain join? operand k left) Γ (next :: rest) (pure left) Γ (next :: rest) := by
  obtain ⟨k, rfl⟩ : ∃ j, k = j + 1 := ⟨k - 1, by omega⟩
  refine current.step ?_
  rw [hnext]
  exact refl

end Parse

/-! ## The rule of a level -/

open Parse

/-- The rule that reads expressions of a level. -/
def Level.rule : Level → Parse Node → Nat → Parse Node
  | test => disjunction
  | conjunction => Parse.conjunction
  | negation => Parse.negation
  | comparison => Parse.comparison
  | sum => Parse.sum
  | product => Parse.product
  | unary => Parse.unary
  | primary => Parse.primary

/-- The rule of a level reads the expression up to a token that cannot go on with it. -/
def Level.Reads (l : Level) (Γ : Scope) (us : List Token) (e : Node) : Prop :=
  ∀ (n : Nat) (next : Token) (rest : List Token), us.length ≤ n → next ∉ l.continuations →
    Leads (l.rule (expression n) n) Γ (us ++ next :: rest) (pure e) Γ (next :: rest)

/-- Operands of a level, joined from the left, lead into the loop that joins them. -/
def Level.Chains (operand : Level) (join? : Token → Option (Node → Node → Node)) (Γ : Scope)
    (us : List Token) (e : Node) : Prop :=
  ∀ (n : Nat) (next : Token) (rest : List Token), us.length ≤ n → next ∉ operand.continuations →
    ∃ k, n < k + us.length ∧
      Leads (leftChain join? (operand.rule (expression n) n) n) Γ (us ++ next :: rest)
        (chain join? (operand.rule (expression n) n) k e) Γ (next :: rest)

/-- An operand with signs before it is read with as many rounds as it has tokens. -/
def Level.Signs (operand : Level) (sign : Token) (change : Node → Node) (Γ : Scope)
    (us : List Token) (e : Node) : Prop :=
  ∀ (n k : Nat) (next : Token) (rest : List Token), us.length ≤ n → us.length ≤ k →
    next ∉ operand.continuations →
    Leads (signed sign change (operand.rule (expression n) n) k) Γ (us ++ next :: rest) (pure e) Γ
      (next :: rest)

/-- What the induction carries for each level. -/
def Level.Completes (Γ : Scope) : Level → List Token → Node → Prop
  | test => conjunction.Chains disjunction? Γ
  | conjunction => negation.Chains conjunction? Γ
  | negation => comparison.Signs (.keyword .notWord) .not Γ
  | comparison => comparison.Reads Γ
  | sum => product.Chains additive? Γ
  | product => unary.Chains multiplicative? Γ
  | unary => primary.Signs (.char '-') negative Γ
  | primary => primary.Reads Γ

variable {Γ : Scope} {us vs : List Token} {e left right : Node}

/-! ## From what is carried to a result -/

theorem Level.Chains.of_reads {operand : Level} {join? : Token → Option (Node → Node → Node)}
    (hne : us ≠ []) (h : operand.Reads Γ us e) : operand.Chains join? Γ us e := by
  intro n next rest hn hnext
  refine ⟨n, ?_, (h n next rest hn hnext).step .refl⟩
  have := List.length_pos_of_ne_nil hne
  omega

/-- One more operand. -/
theorem Level.Chains.join {operand : Level} {join? : Token → Option (Node → Node → Node)}
    {op : Token} {f : Node → Node → Node} (hop : join? op = some f)
    (hcont : op ∉ operand.continuations) (hleft : operand.Chains join? Γ us left)
    (hright : operand.Reads Γ vs right) : operand.Chains join? Γ (us ++ op :: vs) (f left right) := by
  intro n next rest hn hnext
  rw [List.length_append, List.length_cons] at hn
  rw [List.append_assoc, List.cons_append]
  obtain ⟨k, hk, hchain⟩ := hleft n op (vs ++ next :: rest) (by omega) hcont
  obtain ⟨k, rfl⟩ : ∃ j, k = j + 1 := ⟨k - 1, by omega⟩
  refine ⟨k, by rw [List.length_append, List.length_cons]; omega, hchain.trans ?_⟩
  exact .chain hop (hright n next rest (by omega) hnext)

theorem Level.Chains.leads {operand : Level} {join? : Token → Option (Node → Node → Node)}
    {n : Nat} {next : Token} {rest : List Token} (h : operand.Chains join? Γ us e)
    (hn : us.length ≤ n) (hnext : next ∉ operand.continuations) (hend : join? next = none) :
    Leads (leftChain join? (operand.rule (expression n) n) n) Γ (us ++ next :: rest) (pure e) Γ
      (next :: rest) := by
  obtain ⟨k, hk, hchain⟩ := h n next rest hn hnext
  exact hchain.trans (.chain_end (by omega) hend)

/-- No sign stands before an operand that begins otherwise. -/
theorem Level.Signs.of_reads {operand : Level} {sign : Token} {change : Node → Node} {t : Token}
    {ts : List Token} (ht : t ≠ sign) (h : operand.Reads Γ (t :: ts) e) :
    operand.Signs sign change Γ (t :: ts) e := by
  intro n k next rest hn hk hnext
  obtain ⟨k, rfl⟩ : ∃ j, k = j + 1 := ⟨k - 1, by simp at hk; omega⟩
  exact (Leads.accept_of_ne ht).step (h n next rest hn hnext)

/-- One more sign. -/
theorem Level.Signs.sign {operand : Level} {sign : Token} {change : Node → Node}
    (h : operand.Signs sign change Γ us e) : operand.Signs sign change Γ (sign :: us) (change e) := by
  intro n k next rest hn hk hnext
  rw [List.length_cons] at hn hk
  obtain ⟨k, rfl⟩ : ∃ j, k = j + 1 := ⟨k - 1, by omega⟩
  refine (Leads.accept_self (by simp)).step ?_
  exact (h n k next rest (by omega) (by omega) hnext).step .refl

/-- An expression inside another one, with the bound that is left for it. -/
theorem Level.Reads.leads_expression {n : Nat} {next : Token} {rest : List Token}
    (h : Level.test.Reads Γ us e) (hn : us.length < n) (hnext : next ∉ Level.test.continuations) :
    Leads (expression n) Γ (us ++ next :: rest) (pure e) Γ (next :: rest) := by
  obtain ⟨n, rfl⟩ : ∃ m, n = m + 1 := ⟨n - 1, by omega⟩
  exact h n next rest (Nat.le_of_lt_succ hn) hnext

/-! ## Operands -/

namespace Parse

/-- Arguments are read with the parenthesis behind them. -/
theorem Leads.arguments {n : Nat} {next : Token} {rest : List Token}
    {args : List (List Token × Node)} (hn : (commaTokens (args.map Prod.fst)).length < n)
    (hargs : ∀ a ∈ args, Derives Γ.constructible? .test a.1 a.2)
    (hreads : ∀ a ∈ args, Level.test.Reads Γ a.1 a.2) :
    Leads (arguments (expression n) n) Γ
      (commaTokens (args.map Prod.fst) ++ .char ')' :: next :: rest) (pure (args.map Prod.snd)) Γ
      (next :: rest) := by
  have hhead : ∀ a ∈ args, ∃ t ts, a.1 = t :: ts ∧ t ≠ .char ')' := by
    intro a ha
    obtain ⟨t, ts, hts, -⟩ := (hargs a ha).exists_starts
    exact ⟨t, ts, hts, (hts ▸ hargs a ha).head_ne (by decide)⟩
  obtain ⟨t, ts, hts, hlisted⟩ : ∃ t ts,
      commaTokens (args.map Prod.fst) ++ .char ')' :: next :: rest = t :: ts ∧
      Leads (if t = .char ')' then pure [] else Parse.commaSeparated (expression n) n) Γ
        (t :: ts) (pure (args.map Prod.snd)) Γ (.char ')' :: next :: rest) := by
    refine listed (Nat.le_of_lt hn) (by decide) hhead ?_
    intro a ha hpart t ts ht
    refine (hreads a ha).leads_expression (by omega) ?_
    rcases ht with rfl | rfl
    · decide
    · decide
  rw [hts]
  refine current.step ?_
  by_cases ht : t = .char ')'
  · rw [if_pos ht] at hlisted ⊢
    exact hlisted.step ((require _ (by simp)).step refl)
  · rw [if_neg ht] at hlisted ⊢
    exact hlisted.step ((require _ (by simp)).step refl)

theorem length_rest_lt (p : DottedPath) : p.rest.length < p.tokens.length := by
  rw [DottedPath.tokens, List.length_cons, List.length_flatMap]
  simp
  omega

/-- A path that neither a dot nor an argument list follows. -/
theorem Leads.path {n : Nat} {next : Token} {rest : List Token} (p : DottedPath)
    (hn : p.tokens.length ≤ n) (hdot : next ≠ .char '.') (hcall : next ≠ .char '(') :
    Leads (Parse.primary (expression n) n) Γ (p.tokens ++ next :: rest) (pure (.path p)) Γ
      (next :: rest) := by
  have hrest := length_rest_lt p
  refine current.step ?_
  refine (advance (by simp)).step ?_
  refine (members (by omega) hdot).step ?_
  exact (accept_of_ne hcall).step refl

/-- A path with an argument list behind it is read up to the question what the call means. -/
theorem Leads.called {n : Nat} {next : Token} {rest : List Token} (p : DottedPath)
    (args : List (List Token × Node))
    (hn : (p.tokens ++ argumentTokens (args.map Prod.fst)).length ≤ n)
    (hargs : ∀ a ∈ args, Derives Γ.constructible? .test a.1 a.2)
    (hreads : ∀ a ∈ args, Level.test.Reads Γ a.1 a.2) :
    Leads (Parse.primary (expression n) n) Γ
      ((p.tokens ++ argumentTokens (args.map Prod.fst)) ++ next :: rest)
      (callNode p (args.map Prod.snd)) Γ (next :: rest) := by
  have hrest := length_rest_lt p
  have hcommas : (commaTokens (args.map Prod.fst)).length + 2 =
      (argumentTokens (args.map Prod.fst)).length := by simp [argumentTokens]
  rw [List.length_append] at hn
  have htokens : (p.tokens ++ argumentTokens (args.map Prod.fst)) ++ next :: rest =
      p.tokens ++ .char '(' :: (commaTokens (args.map Prod.fst) ++ .char ')' :: next :: rest) := by
    simp [argumentTokens]
  rw [htokens]
  refine current.step ?_
  refine (advance (by simp)).step ?_
  refine (members (by omega) (by decide)).step ?_
  refine (accept_self (by simp)).step ?_
  exact (arguments (by omega) hargs hreads).step refl

end Parse

/-! ## All levels -/

theorem disjunction?_of_not_mem {t : Token} (h : t ∉ Level.test.continuations) :
    disjunction? t = none := by
  unfold disjunction?
  split
  · exact absurd (by decide) h
  · rfl

theorem conjunction?_of_not_mem {t : Token} (h : t ∉ Level.conjunction.continuations) :
    conjunction? t = none := by
  unfold conjunction?
  split
  · exact absurd (by decide) h
  · rfl

theorem comparator?_of_not_mem {t : Token} (h : t ∉ Level.comparison.continuations) :
    comparator? t = none := by
  unfold comparator?
  split <;> first | exact absurd (by decide) h | rfl

theorem additive?_of_not_mem {t : Token} (h : t ∉ Level.sum.continuations) :
    additive? t = none := by
  unfold additive?
  split
  · exact absurd (by decide) h
  · exact absurd (by decide) h
  · rfl

theorem multiplicative?_of_not_mem {t : Token} (h : t ∉ Level.product.continuations) :
    multiplicative? t = none := by
  unfold multiplicative?
  split
  · exact absurd (by decide) h
  · exact absurd (by decide) h
  · rfl

/-- What is carried for a level gives the result of its rule. -/
theorem Level.Reads.of_completes {l : Level} (h : l.Completes Γ us e) : l.Reads Γ us e := by
  intro n next rest hn hnext
  -- what cannot continue something of a level cannot continue anything tighter
  have htighter : ∀ i j : Nat, i ≤ j → next ∉ Offside.continuations.drop i →
      next ∉ Offside.continuations.drop j :=
    fun i j hij hi hj => hi (List.drop_subset_drop_left _ hij hj)
  cases l with
  | test => exact h.leads hn (htighter 0 1 (by omega) hnext) (disjunction?_of_not_mem hnext)
  | conjunction => exact h.leads hn (htighter 1 2 (by omega) hnext) (conjunction?_of_not_mem hnext)
  | negation => exact h n n next rest hn hn hnext
  | comparison => exact h n next rest hn hnext
  | sum => exact h.leads hn (htighter 8 10 (by omega) hnext) (additive?_of_not_mem hnext)
  | product => exact h.leads hn (htighter 10 12 (by omega) hnext) (multiplicative?_of_not_mem hnext)
  | unary => exact h n n next rest hn hn hnext
  | primary => exact h n next rest hn hnext

/-- Two sums with a comparison between them. -/
theorem Level.Reads.compare {c : Comparator} (hleft : Level.sum.Reads Γ us left)
    (hright : Level.sum.Reads Γ vs right) :
    Level.comparison.Reads Γ (us ++ c.token :: vs) (.compare c left right) := by
  intro n next rest hn hnext
  have hc : comparator? c.token = some c := by cases c <;> rfl
  have hop : c.token ∉ Level.sum.continuations := by cases c <;> decide
  rw [List.length_append, List.length_cons] at hn
  rw [List.append_assoc, List.cons_append]
  refine (hleft n _ _ (by omega) hop).step ?_
  refine Leads.current.step ?_
  rw [hc]
  refine (Leads.advance (by simp)).step ?_
  have hnext' : next ∉ Level.sum.continuations :=
    fun h => hnext (List.drop_subset_drop_left Offside.continuations (show 2 ≤ 8 by omega) h)
  exact (hright n next rest (by omega) hnext').step .refl

/-- A sum that is not compared. -/
theorem Level.Reads.ofSum (h : Level.sum.Reads Γ us e) : Level.comparison.Reads Γ us e := by
  intro n next rest hn hnext
  have hnext' : next ∉ Level.sum.continuations :=
    fun h => hnext (List.drop_subset_drop_left Offside.continuations (show 2 ≤ 8 by omega) h)
  refine (h n next rest hn hnext').step ?_
  refine Leads.current.step ?_
  rw [comparator?_of_not_mem hnext]
  exact .refl

/-! ## All derivations -/

/-- What the induction carries holds of every expression. -/
theorem Derives.completes {l : Level} (h : Derives Γ.constructible? l us e) :
    l.Completes Γ us e := by
  induction h with
  | ofConjunction h ih => exact .of_reads h.ne_nil (.of_completes ih)
  | or hleft hright ihleft ihright =>
    exact .join rfl (by decide) ihleft (.of_completes ihright)
  | ofNegation h ih => exact .of_reads h.ne_nil (.of_completes ih)
  | and hleft hright ihleft ihright =>
    exact .join rfl (by decide) ihleft (.of_completes ihright)
  | ofComparison h ih =>
    -- what begins without the sign of the level is read by the rule of the next one
    obtain ⟨t, ts, rfl, -⟩ := h.exists_starts
    exact .of_reads (h.head_ne rfl) ih
  | not h ih => exact .sign ih
  | ofSum h ih => exact .ofSum (.of_completes ih)
  | compare c hleft hright ihleft ihright =>
    exact .compare (.of_completes ihleft) (.of_completes ihright)
  | ofProduct h ih => exact .of_reads h.ne_nil (.of_completes ih)
  | add hleft hright ihleft ihright | sub hleft hright ihleft ihright =>
    exact .join rfl (by decide) ihleft (.of_completes ihright)
  | ofUnary h ih => exact .of_reads h.ne_nil (.of_completes ih)
  | mul hleft hright ihleft ihright | div hleft hright ihleft ihright =>
    exact .join rfl (by decide) ihleft (.of_completes ihright)
  | ofPrimary h ih =>
    obtain ⟨t, ts, rfl, -⟩ := h.exists_starts
    exact .of_reads (h.head_ne rfl) ih
  | negative h ih => exact .sign ih
  | number | string | true | false | none =>
    intro n next rest hn hnext
    exact Leads.current.step ((Leads.advance (by simp)).step .refl)
  | @parentheses us e h ih =>
    intro n next rest hn hnext
    have hn' : us.length < n := by simp at hn; omega
    have htokens : Token.char '(' :: (us ++ [Token.char ')']) ++ next :: rest =
        .char '(' :: (us ++ .char ')' :: next :: rest) := by simp
    rw [htokens]
    refine Leads.current.step ((Leads.advance (by simp)).step ?_)
    refine ((Level.Reads.of_completes ih).leads_expression hn' (by decide)).step ?_
    exact (Leads.require _ (by simp)).step .refl
  | path p =>
    intro n next rest hn hnext
    refine .path p hn ?_ ?_
    · rintro rfl
      exact hnext (by decide)
    · rintro rfl
      exact hnext (by decide)
  | @call p receiver method args hp hargs ih =>
    intro n next rest hn hnext
    refine (Leads.called p args hn hargs fun a ha => .of_completes (ih a ha)).trans ?_
    unfold callNode
    rw [hp]
    exact .refl
  | @stringify us e h ih =>
    intro n next rest hn hnext
    have hargs : ∀ a ∈ [(us, e)], Derives Γ.constructible? .test a.1 a.2 := by
      intro a ha
      obtain rfl := List.mem_singleton.1 ha
      exact h
    have hreads : ∀ a ∈ [(us, e)], Level.test.Reads Γ a.1 a.2 := by
      intro a ha
      obtain rfl := List.mem_singleton.1 ha
      exact .of_completes ih
    exact (Leads.called ⟨strFunction, []⟩ [(us, e)] hn hargs hreads).trans .refl
  | @construct name c args hc hargs ih =>
    intro n next rest hn hnext
    refine (Leads.called ⟨name, []⟩ args hn hargs fun a ha => .of_completes (ih a ha)).trans ?_
    -- the grammar gives the name of the function to no class, so the rule looks the class up
    have hname : name ≠ strFunction := by
      rintro rfl
      simp [Scope.constructible?] at hc
    have hlookup : Γ.classes.lookup name = some c := by
      simpa [Scope.constructible?, hname] using hc
    show Leads (if name = strFunction then _ else _) Γ _ _ Γ _
    rw [if_neg hname]
    refine (Leads.class? name).step ?_
    rw [hlookup]
    exact .refl

/-- Every expression is read, with a bound above its number of tokens. -/
theorem Derives.leads {n : Nat} {next : Token} {rest : List Token}
    (h : Derives Γ.constructible? .test us e) (hn : us.length < n)
    (hnext : next ∉ Level.test.continuations) :
    Leads (expression n) Γ (us ++ next :: rest) (pure e) Γ (next :: rest) :=
  (Level.Reads.of_completes h.completes).leads_expression hn hnext

end Offside
