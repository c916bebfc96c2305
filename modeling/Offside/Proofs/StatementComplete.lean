import Offside.Proofs.ExpressionComplete
import Offside.Proofs.ProgramGrammar

set_option autoImplicit false

/-! # Every statement is read

On the tokens of a statement the rules of `Parse.Statement` lead to its tree and to the scope behind
it. The induction is on the bound of the rules, which is above the number of tokens: every statement
inside another one has fewer. The one token that must not follow is `else`, which would go on with a
conditional. -/

namespace Offside

namespace Parse

variable {α : Type} {Γ Γ' : Scope} {t next : Token} {ts us vs rest : List Token} {e : Node}

/-! ## Steps of statements -/

namespace Leads

theorem atEnd_true :
    Leads atEnd Γ (.endOfInput :: ts) (pure true) Γ (.endOfInput :: ts) :=
  current.step refl

theorem atEnd_false (h : t ≠ .endOfInput) : Leads atEnd Γ (t :: ts) (pure false) Γ (t :: ts) := by
  refine current.step ?_
  rw [decide_eq_false h]
  exact refl

theorem defineClass (name : String) (parent? : Option ClassRef) :
    Leads (defineClass name parent?) Γ ts (pure Γ.table.next) (Γ.define name parent?) ts := by
  rintro st rfl hs
  refine ⟨{ st with
    classes := st.classes ++ [(name, st.table.next)]
    table := st.table.add ⟨name, parent?, []⟩ }, rfl, hs, rfl⟩

theorem setMethods (c : ClassRef) (methods : List Method) :
    Leads (setMethods c methods) Γ ts (pure ()) (Γ.setMethods c methods) ts := by
  rintro st rfl hs
  exact ⟨{ st with table := st.table.setMethods c methods }, rfl, hs, rfl⟩

/-- The name of the parent is looked up for the log only. -/
theorem parentName (parent? : Option ClassRef) :
    ∃ name?, Leads (parent?.mapM className) Γ ts (pure name?) Γ ts := by
  cases parent? with
  | none => exact ⟨none, refl⟩
  | some c =>
    refine ⟨some (Γ.table.name c), ?_⟩
    rintro st rfl hs
    exact ⟨st, rfl, hs, rfl⟩

/-- Things one behind the other are read up to the token that ends them. -/
theorem many {P : Scope → List Token → α → Scope → Prop} {stop : Token} {done : Parse Bool}
    {item : Parse α} {after : List Token} {xs : List α} {n k : Nat} (follows : Token → Prop)
    (hstop : ∀ Γ, Leads done Γ (stop :: rest) (pure true) Γ after)
    (hgo : ∀ Γ t ts, t ≠ stop → Leads done Γ (t :: ts) (pure false) Γ (t :: ts))
    (hfollows : follows stop)
    (hstart : ∀ Γ us x Γ', P Γ us x Γ' → ∃ t ts, us = t :: ts ∧ t ≠ stop ∧ follows t)
    (hitem : ∀ Γ us x Γ' t ts, P Γ us x Γ' → us.length < n → follows t →
      Leads item Γ (us ++ t :: ts) (pure x) Γ' (t :: ts))
    (h : Many P Γ us xs Γ') (hn : us.length < n) (hk : us.length < k) :
    Leads (many done item k) Γ (us ++ stop :: rest) (pure xs) Γ' after := by
  induction h generalizing k with
  | nil Γ =>
    obtain ⟨k, rfl⟩ : ∃ j, k = j + 1 := ⟨k - 1, by omega⟩
    exact (hstop Γ).step refl
  | @cons Γ Γ₁ Γ' us vs x xs h hs ih =>
    obtain ⟨k, rfl⟩ : ∃ j, k = j + 1 := ⟨k - 1, by omega⟩
    rw [List.length_append] at hn hk
    -- what follows the first thing is the next one, or the token that ends them all
    obtain ⟨u, ws, hu, hfollow⟩ : ∃ u ws, vs ++ stop :: rest = u :: ws ∧ follows u := by
      cases hs with
      | nil => exact ⟨stop, rest, rfl, hfollows⟩
      | cons h' hs' =>
        obtain ⟨u, ws, rfl, -, hu⟩ := hstart _ _ _ _ h'
        exact ⟨u, _, rfl, hu⟩
    obtain ⟨t, ts, rfl, ht, -⟩ := hstart _ _ _ _ h
    rw [List.length_cons] at hn hk
    have hx := hitem Γ (t :: ts) x Γ₁ u ws h (by rw [List.length_cons]; omega) hfollow
    have hxs := ih (k := k) (by omega) (by omega)
    rw [List.append_assoc, hu]
    rw [hu] at hxs
    refine (hgo Γ t _ ht).step ?_
    exact hx.step (hxs.step refl)

end Leads

end Parse

/-! ## How statements begin -/

/-- Whether a statement of one line can begin with the token. -/
def Token.startsSimple (t : Token) : Bool :=
  t = .keyword .returnWord || (t = .keyword .printWord || Level.test.starts t)

/-- Whether a statement can begin with the token. -/
def Token.startsStatement (t : Token) : Bool :=
  t = .keyword .classWord || (t = .keyword .ifWord || t.startsSimple)

variable {callable : Scope → String → Option ClassRef} {class? : String → Option ClassRef}
  {Γ Γ' : Scope} {us vs : List Token} {e : Node}

/-- A path in parentheses is an expression. -/
theorem Target.derives {p : DottedPath} (h : Target us p) : Derives class? .test us (.path p) := by
  induction h with
  | path p => exact Derives.test_of_primary (.path p)
  | parentheses h ih => exact Derives.test_of_primary (.parentheses ih)

theorem DerivesSimple.exists_starts (h : DerivesSimple class? us e) :
    ∃ t ts, us = t :: ts ∧ t.startsSimple = true := by
  have hexpression : ∀ {us e}, Derives class? .test us e →
      ∃ t ts, us = t :: ts ∧ t.startsSimple = true := by
    intro us e h
    obtain ⟨t, ts, rfl, ht⟩ := h.exists_starts
    exact ⟨t, ts, rfl, Bool.or_eq_true_iff.2 (.inr (Bool.or_eq_true_iff.2 (.inr ht)))⟩
  cases h with
  | bareReturn => exact ⟨_, _, rfl, rfl⟩
  | returnValue h => exact ⟨_, _, rfl, rfl⟩
  | print hargs => exact ⟨_, _, rfl, rfl⟩
  | expression h => exact hexpression h
  | assign htarget h =>
    obtain ⟨t, ts, rfl, ht⟩ := hexpression htarget.derives
    exact ⟨t, _, rfl, ht⟩
  | assignField htarget hp h =>
    obtain ⟨t, ts, rfl, ht⟩ := hexpression htarget.derives
    exact ⟨t, _, rfl, ht⟩

/-- A statement has a first token, and it is one that a statement can begin with. -/
theorem DerivesStatement.exists_starts (h : DerivesStatement callable Γ us e Γ') :
    ∃ t ts, us = t :: ts ∧ t.startsStatement = true := by
  cases h with
  | simple h =>
    obtain ⟨t, ts, rfl, ht⟩ := h.exists_starts
    exact ⟨t, _, rfl, Bool.or_eq_true_iff.2 (.inr (Bool.or_eq_true_iff.2 (.inr ht)))⟩
  | ifThen => exact ⟨_, _, rfl, rfl⟩
  | ifElse => exact ⟨_, _, rfl, rfl⟩
  | classDefinition => exact ⟨_, _, rfl, rfl⟩

/-! ## Lines -/

namespace Parse

variable {next : Token} {rest : List Token} {n : Nat}

/-- Where an expression of a statement begins, no line ends. -/
theorem expression_ne_newline (h : Derives class? .test us e) :
    ∃ t ts, us = t :: ts ∧ t ≠ .newline := by
  obtain ⟨t, ts, rfl, -⟩ := h.exists_starts
  exact ⟨t, ts, rfl, h.head_ne rfl⟩

theorem Leads.printed {args : List (List Token × Node)}
    (hargs : ∀ a ∈ args, Derives Γ.constructible? .test a.1 a.2)
    (hn : (commaTokens (args.map Prod.fst)).length < n) :
    Leads (printed n) Γ (commaTokens (args.map Prod.fst) ++ .newline :: rest)
      (pure (args.map Prod.snd)) Γ (.newline :: rest) := by
  have hhead : ∀ a ∈ args, ∃ t ts, a.1 = t :: ts ∧ t ≠ .newline := by
    intro a ha
    exact expression_ne_newline (hargs a ha)
  obtain ⟨t, ts, hts, hlisted⟩ : ∃ t ts, commaTokens (args.map Prod.fst) ++ .newline :: rest =
      t :: ts ∧ Leads (if t = .newline then pure [] else Parse.commaSeparated (expression n) n) Γ
        (t :: ts) (pure (args.map Prod.snd)) Γ (.newline :: rest) := by
    refine Leads.listed (Nat.le_of_lt hn) (by decide) hhead ?_
    intro a ha hpart t ts ht
    refine (hargs a ha).leads (by omega) ?_
    rcases ht with rfl | rfl
    · decide
    · decide
  rw [hts]
  exact current.step hlisted

/-- A statement that begins like an expression does not begin with `return` or `print`. -/
theorem Leads.assignment {q : Parse Node} {ts : List Token} (h : Derives class? .test us e)
    (hassign : Leads (assignment n) Γ (us ++ ts) q Γ' rest) :
    Leads (simpleStatement n) Γ (us ++ ts) q Γ' rest := by
  obtain ⟨t, us, rfl, -⟩ := h.exists_starts
  refine (accept_of_ne (h.head_ne rfl)).step ?_
  exact (accept_of_ne (h.head_ne rfl)).step hassign

theorem assignTo_of_split? {p object : DottedPath} {field : String} (value : Node)
    (hp : p.split? = some (object, field)) :
    assignTo p value = .assignField (.path object) field value := by
  unfold assignTo
  rw [hp]

theorem Leads.assigned {p : DottedPath} (htarget : Target us p)
    (h : Derives Γ.constructible? .test vs e) (hn : (us ++ .char '=' :: vs).length < n) :
    Leads (simpleStatement n) Γ ((us ++ .char '=' :: vs) ++ .newline :: rest)
      (pure (assignTo p e)) Γ (.newline :: rest) := by
  have hpath : Derives Γ.constructible? .test us (.path p) := htarget.derives
  rw [List.length_append, List.length_cons] at hn
  rw [List.append_assoc, List.cons_append]
  refine Leads.assignment hpath ?_
  refine (hpath.leads (by omega) (by decide)).step ?_
  refine (accept_self (by simp)).step ?_
  exact (h.leads (by omega) (by decide)).step refl

/-- A statement of one line is read up to the end of the line. -/
theorem Leads.simpleStatement (h : DerivesSimple Γ.constructible? us e) (hn : us.length < n) :
    Leads (simpleStatement n) Γ (us ++ .newline :: rest) (pure e) Γ (.newline :: rest) := by
  cases h with
  | bareReturn =>
    refine (accept_self (by simp)).step ?_
    refine Leads.step (x := .constant .empty) ?_ refl
    exact current.step refl
  | @returnValue us e h =>
    have he : Leads (Parse.expression n) Γ (us ++ .newline :: rest) (pure e) Γ (.newline :: rest) :=
      h.leads (Nat.lt_of_succ_lt hn) (by decide)
    obtain ⟨t, ts, rfl, ht⟩ := expression_ne_newline h
    refine (accept_self (by simp)).step ?_
    refine Leads.step (x := e) ?_ refl
    refine current.step ?_
    rw [if_neg ht]
    exact he
  | print hargs =>
    refine (accept_of_ne (by decide)).step ?_
    refine (accept_self (by simp)).step ?_
    exact (printed hargs (Nat.lt_of_succ_lt hn)).step refl
  | expression h =>
    refine Leads.assignment h ?_
    refine (h.leads hn (by decide)).step ?_
    exact (accept_of_ne (by decide)).step refl
  | assign htarget h => exact assigned htarget h hn
  | assignField htarget hp h =>
    rw [← assignTo_of_split? _ hp]
    exact assigned htarget h hn

/-! ## Blocks -/

theorem append_blockTokens (us rest : List Token) :
    blockTokens us ++ rest = .newline :: .indent :: (us ++ .dedent :: rest) := by
  simp [blockTokens]

/-- The statements that `statement` reads when it has a bound of `n`. -/
def ReadsStatements (n : Nat) : Prop :=
  ∀ (Γ : Scope) (us : List Token) (e : Node) (Γ' : Scope) (t : Token) (ts : List Token),
    DerivesStatement Scope.constructible? Γ us e Γ' → us.length < n → t ≠ .keyword .elseWord →
    Leads (statement n) Γ (us ++ t :: ts) (pure e) Γ' (t :: ts)

theorem Leads.suite (hstatement : ReadsStatements n)
    (h : DerivesSuite Scope.constructible? Γ us e Γ') (hn : us.length < n) :
    Leads (suite (statement n) n) Γ (us ++ next :: rest) (pure e) Γ' (next :: rest) := by
  cases h with
  | @mk _ _ us body hbody hne =>
    have hlength : us.length < n := by simp [blockTokens] at hn; omega
    rw [append_blockTokens]
    refine (require _ (by simp)).step ?_
    refine (require _ (by simp)).step ?_
    refine (many (· ≠ .keyword .elseWord) (fun Γ => accept_self (by simp))
      (fun Γ t ts ht => accept_of_ne ht) (by decide) ?_ hstatement hbody hlength hlength).step refl
    intro Γ us e Γ' h
    obtain ⟨t, ts, rfl, ht⟩ := h.exists_starts
    refine ⟨t, ts, rfl, ?_, ?_⟩
    · rintro rfl
      exact absurd ht (by decide)
    · rintro rfl
      exact absurd ht (by decide)

theorem Leads.parameters {params : List String}
    (hn : (commaTokens (params.map fun p => [.name p])).length < n) :
    Leads (parameters n) Γ (commaTokens (params.map fun p => [.name p]) ++ .char ')' :: rest)
      (pure params) Γ (.char ')' :: rest) := by
  let parts : List (List Token × String) := params.map fun p => ([.name p], p)
  have hfst : parts.map Prod.fst = params.map fun p => [.name p] := by
    rw [List.map_map]
    rfl
  have hsnd : parts.map Prod.snd = params := by
    rw [List.map_map]
    exact List.map_id _
  have hhead : ∀ a ∈ parts, ∃ t ts, a.1 = t :: ts ∧ t ≠ .char ')' := by
    intro a ha
    obtain ⟨p, -, rfl⟩ := List.mem_map.1 ha
    exact ⟨.name p, [], rfl, by simp⟩
  rw [← hfst] at hn ⊢
  obtain ⟨t, ts, hts, hlisted⟩ : ∃ t ts, commaTokens (parts.map Prod.fst) ++ .char ')' :: rest =
      t :: ts ∧ Leads (if t = .char ')' then pure []
        else Parse.commaSeparated (Parse.requireName .noParameterName) n) Γ (t :: ts)
        (pure (parts.map Prod.snd)) Γ (.char ')' :: rest) := by
    refine Leads.listed (Nat.le_of_lt hn) (by decide) hhead ?_
    intro a ha hpart t ts ht
    obtain ⟨p, -, rfl⟩ := List.mem_map.1 ha
    exact Leads.requireName p _ (by simp)
  rw [hsnd] at hlisted
  rw [hts]
  exact current.step hlisted

theorem Leads.method {m : Method} (hstatement : ReadsStatements n)
    (h : DerivesMethod Scope.constructible? Γ us m Γ') (hn : us.length < n) :
    Leads (method (statement n) n) Γ (us ++ next :: rest) (pure m) Γ' (next :: rest) := by
  cases h with
  | @mk _ _ us name params body hbody =>
    simp only [argumentTokens, List.length_cons, List.length_append, List.length_nil] at hn
    have htokens : Token.keyword .defWord :: .name name ::
        (argumentTokens (params.map fun p => [.name p]) ++ .char ':' :: us) ++ next :: rest =
        .keyword .defWord :: .name name :: .char '(' ::
          (commaTokens (params.map fun p => [.name p]) ++
            .char ')' :: .char ':' :: (us ++ next :: rest)) := by
      simp [argumentTokens]
    rw [htokens]
    refine (require _ (by simp)).step ?_
    refine (requireName name _ (by simp)).step ?_
    refine (require _ (by simp)).step ?_
    refine (parameters (by omega)).step ?_
    refine (require _ (by simp)).step ?_
    refine (require _ (by simp)).step ?_
    exact (suite hstatement hbody (by omega)).step refl

/-- What a header says of the parent, in front of a colon. -/
theorem Leads.baseClass {parent? : Option ClassRef} (h : DerivesBase Γ us parent?) :
    Leads baseClass Γ (us ++ .char ':' :: rest) (pure parent?) Γ (.char ':' :: rest) := by
  cases h with
  | none => exact (accept_of_ne (by decide)).step refl
  | @some name c hc =>
    refine (accept_self (by simp)).step ?_
    refine (requireName name _ (by simp)).step ?_
    refine (Leads.class? name).step ?_
    rw [hc]
    exact (require _ (by simp)).step refl

theorem Leads.classDefinition {name : String} {parent? : Option ClassRef} {methods : List Method}
    (hstatement : ReadsStatements n) (hnew : Γ.classes.lookup name = none)
    (hbase : DerivesBase Γ us parent?)
    (hmethods : Many (DerivesMethod Scope.constructible?) (Γ.define name parent?) vs methods Γ')
    (hn : vs.length < n) :
    Leads (classDefinition (statement n) n) Γ
      (.name name :: (us ++ .char ':' :: (blockTokens vs ++ next :: rest)))
      (pure (.classDefinition Γ.table.next)) (Γ'.setMethods Γ.table.next methods)
      (next :: rest) := by
  rw [append_blockTokens]
  refine (requireName name _ (by simp)).step ?_
  refine (Leads.class? name).step ?_
  rw [hnew]
  refine (Leads.baseClass hbase).step ?_
  refine (require _ (by simp)).step ?_
  refine (require _ (by simp)).step ?_
  refine (require _ (by simp)).step ?_
  refine (Leads.defineClass name parent?).step ?_
  have hbody : Leads (Parse.many (accept .dedent) (Parse.method (statement n) n) n)
      (Γ.define name parent?) (vs ++ .dedent :: next :: rest) (pure methods) Γ' (next :: rest) := by
    refine many (fun _ => True) (fun Γ => accept_self (by simp))
      (fun Γ t ts ht => accept_of_ne ht) trivial ?_ ?_ hmethods hn hn
    · rintro Γ us m Γ' ⟨-⟩
      exact ⟨_, _, rfl, by decide, trivial⟩
    · intro Γ us m Γ' t ts h hlt _
      exact method hstatement h hlt
  refine hbody.step ?_
  refine (Leads.setMethods _ methods).step ?_
  obtain ⟨name?, hname⟩ : ∃ name?, Leads (parent?.mapM className)
      (Γ'.setMethods Γ.table.next methods) (next :: rest) (pure name?)
      (Γ'.setMethods Γ.table.next methods) (next :: rest) := Leads.parentName parent?
  refine hname.step ?_
  exact (Leads.report _).step refl

/-- Every statement is read, with a bound above its number of tokens. -/
theorem readsStatements (n : Nat) : ReadsStatements n := by
  induction n with
  | zero =>
    intro Γ us e Γ' t ts h hn
    exact absurd hn (Nat.not_lt_zero _)
  | succ n ih =>
    intro Γ us e Γ' t ts h hn ht
    cases h with
    | @simple _ us _ h =>
      have hlength : us.length < n := by simp at hn; omega
      have hline : Leads (Parse.simpleStatement n) Γ (us ++ .newline :: t :: ts) (pure e) Γ
          (.newline :: t :: ts) := Leads.simpleStatement h hlength
      -- the first token tells a statement of one line from a class and from a conditional
      obtain ⟨u, us, rfl, hu⟩ := h.exists_starts
      have hclass : u ≠ .keyword .classWord := by
        rintro rfl
        exact absurd hu (by decide)
      have hif : u ≠ .keyword .ifWord := by
        rintro rfl
        exact absurd hu (by decide)
      rw [List.append_assoc]
      refine (Leads.accept_of_ne hclass).step ?_
      refine (Leads.accept_of_ne hif).step ?_
      refine hline.step ?_
      exact (Leads.require _ (by simp)).step .refl
    | @ifThen _ _ us vs condition body hcondition hbody =>
      simp only [List.length_cons, List.length_append] at hn
      have htokens : Token.keyword .ifWord :: (us ++ .char ':' :: vs) ++ t :: ts =
          .keyword .ifWord :: (us ++ .char ':' :: (vs ++ t :: ts)) := by simp
      rw [htokens]
      refine (Leads.accept_of_ne (by decide)).step ?_
      refine (Leads.accept_self (by simp)).step ?_
      refine (hcondition.leads (by omega) (by decide)).step ?_
      refine (Leads.require _ (by simp)).step ?_
      refine (Leads.suite ih hbody (by omega)).step ?_
      -- here it matters that no `else` follows
      exact (Leads.accept_of_ne ht).step .refl
    | @ifElse _ Γ₁ _ us vs ws condition body alternative hcondition hbody halternative =>
      simp only [List.length_cons, List.length_append] at hn
      have htokens : Token.keyword .ifWord ::
          (us ++ .char ':' :: (vs ++ .keyword .elseWord :: .char ':' :: ws)) ++ t :: ts =
          .keyword .ifWord :: (us ++ .char ':' ::
            (vs ++ .keyword .elseWord :: .char ':' :: (ws ++ t :: ts))) := by simp
      rw [htokens]
      refine (Leads.accept_of_ne (by decide)).step ?_
      refine (Leads.accept_self (by simp)).step ?_
      refine (hcondition.leads (by omega) (by decide)).step ?_
      refine (Leads.require _ (by simp)).step ?_
      refine (Leads.suite ih hbody (by omega)).step ?_
      refine (Leads.accept_self (by simp)).step ?_
      refine (Leads.require _ (by simp)).step ?_
      exact (Leads.suite ih halternative (by omega)).step .refl
    | @classDefinition _ Γ' us vs name parent? methods hnew hbase hmethods hne =>
      simp only [List.length_cons, List.length_append, blockTokens] at hn
      have htokens : Token.keyword .classWord :: .name name :: (us ++ .char ':' :: blockTokens vs) ++
          t :: ts = .keyword .classWord :: .name name ::
            (us ++ .char ':' :: (blockTokens vs ++ t :: ts)) := by simp
      rw [htokens]
      refine (Leads.accept_self (by simp)).step ?_
      exact Leads.classDefinition ih hnew hbase hmethods (by omega)

/-- Every sequence of statements is read up to the end of the input. -/
theorem Leads.statements {body : List Node}
    (h : Many (DerivesStatement Scope.constructible?) Γ us body Γ') (hn : us.length < n) :
    Leads (statements n) Γ (us ++ [Token.endOfInput]) (pure body) Γ' [.endOfInput] := by
  have hbody : Leads (Parse.many atEnd (statement n) n) Γ (us ++ [Token.endOfInput]) (pure body) Γ'
      [.endOfInput] := by
    refine many (· ≠ .keyword .elseWord) (fun Γ => atEnd_true) (fun Γ t ts ht => atEnd_false ht)
      (by decide) ?_ (readsStatements n) h hn hn
    intro Γ us e Γ' h
    obtain ⟨t, ts, rfl, ht⟩ := h.exists_starts
    refine ⟨t, ts, rfl, ?_, ?_⟩
    · rintro rfl
      exact absurd ht (by decide)
    · rintro rfl
      exact absurd ht (by decide)
  exact hbody.step ((Leads.report _).step refl)

end Parse

end Offside
