import Offside.Parse.Expression
import Offside.Proofs.Stream

set_option autoImplicit false

/-! # Judgements about rules

Two judgements tell what a rule does without a look inside the stream. `Leads` is about tokens that
are shown: on them the rule goes on as another rule does on what is left of them. `Meets` is about
tokens that were read: a result comes with the tokens that were consumed for it, and an error is
excused by the stream or by the number of tokens that were consumed before it.

Both are proved along the text of a rule, with one lemma for each step that a rule can take. -/

namespace Offside

/-- What a rule sees besides the stream. -/
structure Scope where
  classes : List (String × ClassRef)
  table : ClassTable

/-- The scope of a state. -/
def RuleState.scope {σ : Type} (st : RuleState σ) : Scope := ⟨st.classes, st.table⟩

/-- A state is its stream and its scope. -/
theorem ParseState.eq_of_scope_eq {st st' : ParseState} (h : st'.scope = st.scope) :
    st' = { st with stream := st'.stream } := by
  obtain ⟨stream', classes', table'⟩ := st'
  obtain ⟨rfl, rfl⟩ := Scope.mk.inj h
  rfl

/-- The class of which a call of a single name makes an object. The name that prints its argument
stands for no class here, even where a class has it. -/
def Scope.constructible? (Γ : Scope) (name : String) : Option ClassRef :=
  if name = Parse.strFunction then none else Γ.classes.lookup name

namespace Parse

variable {σ α β : Type}

/-- The result of a rule in a state, and the state in which the rule leaves off. -/
def result (p : Rule σ α) (st : RuleState σ) : Except Error α × RuleState σ := p.run.run st

/-! ## Steps of a rule -/

theorem result_pure (x : α) (st : RuleState σ) : result (pure x) st = (.ok x, st) := rfl

theorem result_throw (e : Error) (st : RuleState σ) :
    result (throw e : Rule σ α) st = (.error e, st) := rfl

theorem result_bind (p : Rule σ α) (f : α → Rule σ β) (st : RuleState σ) :
    result (p >>= f) st =
      match result p st with
      | (.ok x, st') => result (f x) st'
      | (.error e, st') => (.error e, st') := by
  show (ExceptT.bind p f).run.run st = _
  simp only [ExceptT.bind, ExceptT.run, ExceptT.mk, StateT.run, result]
  cases hp : p st with
  | mk r st' =>
    simp only [bind, StateT.bind, hp]
    cases r <;> rfl

theorem result_bind_of_ok {p : Rule σ α} {f : α → Rule σ β} {st st' : RuleState σ} {x : α}
    (h : result p st = (.ok x, st')) : result (p >>= f) st = result (f x) st' := by
  rw [result_bind, h]

theorem result_bind_of_error {p : Rule σ α} {f : α → Rule σ β} {st st' : RuleState σ} {e : Error}
    (h : result p st = (.error e, st')) : result (p >>= f) st = (.error e, st') := by
  rw [result_bind, h]

theorem result_current (st : ParseState) : result current st = (.ok st.stream.current, st) := rfl

theorem result_class? (name : String) (st : ParseState) :
    result (class? name) st = (.ok (st.classes.lookup name), st) := rfl

theorem result_report (r : LogRecord) (st : ParseState) :
    result (report r) st = (.ok (), { st with stream := st.stream.report r }) := rfl

theorem result_advance_of_ok {st : ParseState} {t : Token} {s : TokenStream}
    (h : st.stream.advance = (.ok t, s)) :
    result advance st = (.ok (), { st with stream := s }) := by
  simp only [result, advance, ExceptT.run, ExceptT.mk, StateT.run, TokenSupply.advance, h]

theorem result_advance_of_error {st : ParseState} {e : ReadError} {s : TokenStream}
    (h : st.stream.advance = (.error e, s)) :
    result advance st = (.error (.ofRead e), { st with stream := s }) := by
  simp only [result, advance, ExceptT.run, ExceptT.mk, StateT.run, TokenSupply.advance, h]

theorem result_fail (cause : SyntaxCause) (st : ParseState) :
    ∃ e, result (fail cause : Parse α) st = (.error (.syntactic e), st) :=
  ⟨_, rfl⟩

/-! ## Tokens that are shown -/

/-- In a scope and on tokens, `p` goes on as `q` does in a scope and on tokens of its own. -/
def Leads (p : Parse α) (Γ : Scope) (ts : List Token) (q : Parse α) (Γ' : Scope)
    (ts' : List Token) : Prop :=
  ∀ st : ParseState, st.scope = Γ → st.stream.Shows ts →
    ∃ st' : ParseState, st'.scope = Γ' ∧ st'.stream.Shows ts' ∧ result p st = result q st'

namespace Leads

variable {p q r : Parse α} {f : α → Parse β} {q' : Parse β} {Γ Γ' Γ'' : Scope}
  {ts ts' ts'' : List Token} {t u : Token} {x : α}

theorem refl : Leads p Γ ts p Γ ts :=
  fun st hΓ hs => ⟨st, hΓ, hs, rfl⟩

theorem trans (h₁ : Leads p Γ ts q Γ' ts') (h₂ : Leads q Γ' ts' r Γ'' ts'') :
    Leads p Γ ts r Γ'' ts'' := by
  intro st hΓ hs
  obtain ⟨st₁, hΓ₁, hs₁, he₁⟩ := h₁ st hΓ hs
  obtain ⟨st₂, hΓ₂, hs₂, he₂⟩ := h₂ st₁ hΓ₁ hs₁
  exact ⟨st₂, hΓ₂, hs₂, he₁.trans he₂⟩

/-- The first part of a rule may go on as another one. -/
theorem bind (h : Leads p Γ ts q Γ' ts') : Leads (p >>= f) Γ ts (q >>= f) Γ' ts' := by
  intro st hΓ hs
  obtain ⟨st', hΓ', hs', he⟩ := h st hΓ hs
  exact ⟨st', hΓ', hs', by rw [result_bind, result_bind, he]⟩

/-- The first part of a rule hands its result on. -/
theorem step (h : Leads p Γ ts (pure x) Γ' ts') (hf : Leads (f x) Γ' ts' q' Γ'' ts'') :
    Leads (p >>= f) Γ ts q' Γ'' ts'' := by
  intro st hΓ hs
  obtain ⟨st₁, hΓ₁, hs₁, he₁⟩ := h st hΓ hs
  obtain ⟨st₂, hΓ₂, hs₂, he₂⟩ := hf st₁ hΓ₁ hs₁
  exact ⟨st₂, hΓ₂, hs₂, (result_bind_of_ok he₁).trans he₂⟩

theorem current : Leads current Γ (t :: ts) (pure t) Γ (t :: ts) :=
  fun st hΓ hs => ⟨st, hΓ, hs, by rw [result_current, hs.current_eq, result_pure]⟩

theorem class? (name : String) :
    Leads (class? name) Γ ts (pure (Γ.classes.lookup name)) Γ ts :=
  fun st hΓ hs => ⟨st, hΓ, hs, by rw [result_class?, ← hΓ]; rfl⟩

theorem report (r : LogRecord) : Leads (report r) Γ ts (pure ()) Γ ts := by
  intro st hΓ hs
  exact ⟨{ st with stream := st.stream.report r }, hΓ, (TokenStream.shows_report_iff r).2 hs, rfl⟩

theorem advance (hts : ts ≠ []) : Leads advance Γ (t :: ts) (pure ()) Γ ts := by
  intro st hΓ hs
  obtain ⟨u, us, rfl⟩ := List.exists_cons_of_ne_nil hts
  obtain ⟨s, hadvance, hs'⟩ := hs.exists_advance
  exact ⟨{ st with stream := s }, hΓ, hs', result_advance_of_ok hadvance⟩

theorem accept_self (hts : ts ≠ []) : Leads (accept t) Γ (t :: ts) (pure true) Γ ts := by
  refine current.step ?_
  rw [if_pos rfl]
  exact (advance hts).step refl

theorem accept_of_ne (h : u ≠ t) : Leads (accept t) Γ (u :: ts) (pure false) Γ (u :: ts) := by
  refine current.step ?_
  rw [if_neg h]
  exact refl

theorem require (cause : SyntaxCause) (hts : ts ≠ []) :
    Leads (require t cause) Γ (t :: ts) (pure ()) Γ ts := by
  refine current.step ?_
  rw [if_pos rfl]
  exact advance hts

theorem requireName (name : String) (cause : SyntaxCause) (hts : ts ≠ []) :
    Leads (requireName cause) Γ (.name name :: ts) (pure name) Γ ts :=
  current.step ((advance hts).step refl)

/-- What a rule gives where it leads to a result. -/
theorem result_eq {st : ParseState} (h : Leads p st.scope ts (pure x) Γ' ts')
    (hs : st.stream.Shows ts) :
    ∃ st' : ParseState, result p st = (.ok x, st') ∧ st'.scope = Γ' ∧ st'.stream.Shows ts' := by
  obtain ⟨st', hΓ', hs', he⟩ := h st rfl hs
  exact ⟨st', he, hΓ', hs'⟩

end Leads

/-! ## Tokens that were read -/

/-- Behind some tokens of the stream `s` stands a text that cannot be read. -/
def FailsAhead (s : TokenStream) (e : ReadError) : Prop :=
  ∃ us s' s'', s.Consumes us s' ∧ s'.current ≠ .endOfInput ∧ s'.advance = (.error e, s'')

theorem FailsAhead.of_consumes {s s' : TokenStream} {us : List Token} {e : ReadError}
    (hs : s.Consumes us s') (h : FailsAhead s' e) : FailsAhead s e := by
  obtain ⟨vs, s₁, s₂, hs₁, hend, hadvance⟩ := h
  exact ⟨us ++ vs, s₁, s₂, hs.trans hs₁, hend, hadvance⟩

/-- Why a rule may fail from the stream `s` on: the tokens are not those of a program, the text
behind them cannot be read, or `n` tokens were consumed. -/
def Excused (n : Nat) (s : TokenStream) : Error → Prop
  | .syntactic _ => True
  | .lexical e => FailsAhead s (.lexical e)
  | .limit .depth => ∃ us s', s.Consumes us s' ∧ n ≤ us.length
  | .limit (.digits f) => FailsAhead s (.digits f)
  | .runtime _ => False

theorem Excused.of_failsAhead {n : Nat} {s : TokenStream} {e : ReadError} (h : FailsAhead s e) :
    Excused n s (.ofRead e) := by
  cases e <;> exact h

theorem Excused.of_consumes {n : Nat} {s s' : TokenStream} {us : List Token} {e : Error}
    (hs : s.Consumes us s') (h : Excused (n - us.length) s' e) : Excused n s e := by
  cases e with
  | syntactic => trivial
  | lexical e => exact FailsAhead.of_consumes hs h
  | limit l =>
    cases l with
    | depth =>
      obtain ⟨vs, s₁, hs₁, hn⟩ := h
      exact ⟨us ++ vs, s₁, hs.trans hs₁, by rw [List.length_append]; omega⟩
    | digits f => exact FailsAhead.of_consumes hs h
  | runtime => exact h

theorem Excused.mono {m n : Nat} {s : TokenStream} {e : Error} (hn : n ≤ m) (h : Excused m s e) :
    Excused n s e := by
  cases e with
  | syntactic => trivial
  | lexical e => exact h
  | limit l =>
    cases l with
    | depth =>
      obtain ⟨us, s', hs, hm⟩ := h
      exact ⟨us, s', hs, Nat.le_trans hn hm⟩
    | digits f => exact h
  | runtime => exact h

/-- In the state `st`, a result of `p` has the property `Q` together with the tokens consumed for it
and the scope behind it, and an error is excused. -/
def Meets (n : Nat) (p : Parse α) (st : ParseState) (Q : List Token → α → Scope → Prop) : Prop :=
  match result p st with
  | (.ok x, st') => ∃ us, st.stream.Consumes us st'.stream ∧ Q us x st'.scope
  | (.error e, _) => Excused n st.stream e

namespace Meets

variable {m n : Nat} {p : Parse α} {f : α → Parse β} {st : ParseState}
  {Q Q' : List Token → α → Scope → Prop} {R : List Token → β → Scope → Prop}

theorem of_ok {st' : ParseState} {x : α} {us : List Token} (h : result p st = (.ok x, st'))
    (hs : st.stream.Consumes us st'.stream) (hQ : Q us x st'.scope) : Meets n p st Q := by
  rw [Meets, h]
  exact ⟨us, hs, hQ⟩

theorem of_error {st' : ParseState} {e : Error} (h : result p st = (.error e, st'))
    (he : Excused n st.stream e) : Meets n p st Q := by
  rw [Meets, h]
  exact he

theorem pure {x : α} (h : Q [] x st.scope) : Meets n (pure x) st Q :=
  .of_ok (result_pure x st) (.refl _) h

theorem fail (cause : SyntaxCause) : Meets n (fail cause) st Q := by
  obtain ⟨e, he⟩ := result_fail (α := α) cause st
  exact .of_error he trivial

theorem tooDeep : Meets 0 (throw (.limit .depth)) st Q :=
  .of_error (result_throw (.limit .depth) st) ⟨[], st.stream, .refl _, Nat.le_refl _⟩

theorem mono (h : Meets m p st Q) (hn : n ≤ m) (hQ : ∀ us x Γ, Q us x Γ → Q' us x Γ) :
    Meets n p st Q' := by
  unfold Meets at h ⊢
  split at h
  · obtain ⟨us, hs, hq⟩ := h
    exact ⟨us, hs, hQ us _ _ hq⟩
  · exact h.mono hn

theorem bind (h : Meets n p st Q)
    (hf : ∀ us x st', Q us x st'.scope →
      Meets (n - us.length) (f x) st' fun vs => R (us ++ vs)) :
    Meets n (p >>= f) st R := by
  unfold Meets at h
  split at h
  · rename_i x st₁ hp
    obtain ⟨us, hs, hq⟩ := h
    have hfx := hf us x st₁ hq
    unfold Meets at hfx ⊢
    rw [result_bind_of_ok hp]
    split at hfx
    · obtain ⟨vs, hs₁, hr⟩ := hfx
      exact ⟨us ++ vs, hs.trans hs₁, hr⟩
    · exact .of_consumes hs hfx
  · rename_i e st₁ hp
    exact .of_error (result_bind_of_error hp) h

/-! The steps that look at the stream tell what they saw to what follows them. -/

variable {t : Token} {g : Bool → Parse β} {k : Unit → Parse β} {l : String → Parse β}

theorem current_bind {c : Token → Parse β} (h : Meets n (c st.stream.current) st R) :
    Meets n (current >>= c) st R := by
  rwa [Meets, result_bind_of_ok (result_current st)]

theorem class?_bind {c : Option ClassRef → Parse β} {name : String}
    (h : Meets n (c (st.classes.lookup name)) st R) : Meets n (class? name >>= c) st R := by
  rwa [Meets, result_bind_of_ok (result_class? name st)]

theorem report_bind {r : LogRecord}
    (h : ∀ st' : ParseState, st'.scope = st.scope → Meets n (k ()) st' R) :
    Meets n (report r >>= k) st R := by
  refine bind (Q := fun us _ Γ => us = [] ∧ Γ = st.scope) ?_ ?_
  · exact .of_ok (result_report r st) (.report r (.refl _)) ⟨rfl, rfl⟩
  · rintro us x st' ⟨rfl, hΓ⟩
    exact h st' hΓ

theorem advance (hend : st.stream.current ≠ .endOfInput) :
    Meets n advance st fun us _ Γ => us = [st.stream.current] ∧ Γ = st.scope := by
  cases ha : st.stream.advance with
  | mk r s =>
    cases r with
    | ok t => exact .of_ok (result_advance_of_ok ha) (.advance hend ha (.refl _)) ⟨rfl, rfl⟩
    | error e =>
      have hfails : FailsAhead st.stream e := ⟨[], st.stream, s, .refl _, hend, ha⟩
      exact .of_error (result_advance_of_error ha) (.of_failsAhead hfails)

theorem advance_bind (hend : st.stream.current ≠ .endOfInput)
    (h : ∀ st' : ParseState, st'.scope = st.scope →
      Meets (n - 1) (k ()) st' fun vs => R (st.stream.current :: vs)) :
    Meets n (Parse.advance >>= k) st R := by
  refine bind (advance hend) ?_
  rintro us x st' ⟨rfl, hΓ⟩
  exact h st' hΓ

theorem accept_bind (ht : t ≠ .endOfInput)
    (htrue : ∀ st' : ParseState, st'.scope = st.scope →
      Meets (n - 1) (g true) st' fun vs => R (t :: vs))
    (hfalse : st.stream.current ≠ t → Meets n (g false) st R) :
    Meets n (accept t >>= g) st R := by
  by_cases hc : st.stream.current = t
  · refine bind (Q := fun us b Γ => (us = [t] ∧ b = true) ∧ Γ = st.scope) ?_ ?_
    · refine current_bind ?_
      rw [if_pos hc]
      refine advance_bind (by rwa [hc]) fun st' hΓ => ?_
      exact .pure ⟨⟨by rw [hc], rfl⟩, hΓ⟩
    · rintro us b st' ⟨⟨rfl, rfl⟩, hΓ⟩
      exact htrue st' hΓ
  · have haccept : result (accept t) st = (.ok false, st) := by
      show result (current >>= _) st = _
      rw [result_bind_of_ok (result_current st), if_neg hc, result_pure]
    rw [Meets, result_bind_of_ok haccept]
    exact hfalse hc

theorem require_bind {cause : SyntaxCause} (ht : t ≠ .endOfInput)
    (h : ∀ st' : ParseState, st'.scope = st.scope →
      Meets (n - 1) (k ()) st' fun vs => R (t :: vs)) :
    Meets n (require t cause >>= k) st R := by
  refine bind (Q := fun us _ Γ => us = [t] ∧ Γ = st.scope) ?_ ?_
  · refine current_bind ?_
    by_cases hc : st.stream.current = t
    · rw [if_pos hc]
      exact hc ▸ advance (by rwa [hc])
    · rw [if_neg hc]
      exact .fail cause
  · rintro us x st' ⟨rfl, hΓ⟩
    exact h st' hΓ

theorem requireName {cause : SyntaxCause} :
    Meets n (requireName cause) st fun us name Γ => us = [.name name] ∧ Γ = st.scope := by
  refine current_bind ?_
  split
  · rename_i name hc
    refine advance_bind (by simp [hc]) fun st' hΓ => ?_
    exact .pure ⟨by rw [hc], hΓ⟩
  · exact .fail cause

theorem requireName_bind {cause : SyntaxCause}
    (h : ∀ (name : String) (st' : ParseState), st'.scope = st.scope →
      Meets (n - 1) (l name) st' fun vs => R (.name name :: vs)) :
    Meets n (Parse.requireName cause >>= l) st R := by
  refine bind requireName ?_
  rintro us name st' ⟨rfl, hΓ⟩
  exact h name st' hΓ

end Meets

end Parse

end Offside
