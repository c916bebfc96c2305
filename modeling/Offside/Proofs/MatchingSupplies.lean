import Offside.Proofs.Rules

set_option autoImplicit false

/-! # Rules over two supplies

A rule sees of its supply no more than the current token, the line behind it and how each move ends.
A `Matching` relates the positions of two supplies that are alike in this. From matching positions a
rule then does the same, over the one supply and over the other: it yields the same, in matching
positions, or fails with the same error.

Some errors of the first rule may be excused, and the second one then does what it likes. Where
reaching the bound is excused, the second rule may have a higher bound. -/

namespace Offside

/-- The positions of two supplies that are alike for a rule. -/
structure Matching (σ τ : Type) [TokenSupply σ] [TokenSupply τ] where
  /-- The two positions match. -/
  At : σ → τ → Prop
  /-- What the two positions have in common where both rules fail. -/
  Left : σ → τ → Prop
  /-- Errors in the first supply at which the second one may go on otherwise. -/
  Excused : Error → Prop
  left_of_at : ∀ {s t}, At s t → Left s t
  current_eq : ∀ {s t}, At s t → TokenSupply.current t = TokenSupply.current s
  line_eq : ∀ {s t}, At s t → TokenSupply.line t = TokenSupply.line s
  at_report : ∀ {s t} {r : LogRecord}, r.component = "mython.parser" → At s t →
    At (TokenSupply.report s r) (TokenSupply.report t r)
  advance_of_ok : ∀ {s t s' u}, At s t → TokenSupply.advance s = (.ok u, s') →
    ∃ t', TokenSupply.advance t = (.ok u, t') ∧ At s' t'
  advance_of_error : ∀ {s t s' e}, At s t → TokenSupply.advance s = (.error e, s') →
    Excused (.ofRead e) ∨ ∃ t', TokenSupply.advance t = (.error e, t') ∧ Left s' t'

open Parse

namespace Matching

variable {σ τ α β : Type} [TokenSupply σ] [TokenSupply τ] (M : Matching σ τ)

/-- The two rules stand at matching positions and know the same classes. -/
structure States (st : RuleState σ) (st' : RuleState τ) : Prop where
  stream : M.At st.stream st'.stream
  scope_eq : st'.scope = st.scope

/-- From matching states the two rules do the same. -/
def Agrees (p : Rule σ α) (q : Rule τ α) : Prop :=
  ∀ st st', M.States st st' →
    match result p st with
    | (.ok x, st₁) => ∃ st₁', result q st' = (.ok x, st₁') ∧ M.States st₁ st₁'
    | (.error e, st₁) => M.Excused e ∨
        ∃ st₁', result q st' = (.error e, st₁') ∧ M.Left st₁.stream st₁'.stream

/-- The second bound is no lower than the first, and is the same unless reaching it is excused. -/
def Bounds (n m : Nat) : Prop := n = m ∨ n ≤ m ∧ M.Excused (.limit .depth)

variable {M} {n m : Nat}

theorem Bounds.refl (n : Nat) : M.Bounds n n := .inl rfl

theorem Bounds.exists_succ (h : M.Bounds (n + 1) m) : ∃ k, m = k + 1 ∧ M.Bounds n k := by
  rcases h with rfl | ⟨hle, hdeep⟩
  · exact ⟨n, rfl, .refl n⟩
  · exact ⟨m - 1, by omega, .inr ⟨by omega, hdeep⟩⟩

theorem States.classes_eq {st : RuleState σ} {st' : RuleState τ} (h : M.States st st') :
    st'.classes = st.classes :=
  congrArg Scope.classes h.scope_eq

theorem States.table_eq {st : RuleState σ} {st' : RuleState τ} (h : M.States st st') :
    st'.table = st.table :=
  congrArg Scope.table h.scope_eq

/-- Matching positions are matching states where no class of the source has been read. -/
theorem States.start {s : σ} {t : τ} (known : ClassTable) (h : M.At s t) :
    M.States ⟨s, [], known⟩ ⟨t, [], known⟩ :=
  ⟨h, rfl⟩

namespace Agrees

variable {p : Rule σ α} {q : Rule τ α} {f : α → Rule σ β} {g : α → Rule τ β}

/-! ## What the first rule does -/

theorem of_ok {st st₁ : RuleState σ} {st' : RuleState τ} {x : α} (h : M.Agrees p q)
    (hst : M.States st st') (hp : result p st = (.ok x, st₁)) :
    ∃ st₁', result q st' = (.ok x, st₁') ∧ M.States st₁ st₁' := by
  have hpq := h st st' hst
  rwa [hp] at hpq

theorem of_error {st st₁ : RuleState σ} {st' : RuleState τ} {e : Error} (h : M.Agrees p q)
    (hst : M.States st st') (hp : result p st = (.error e, st₁)) (he : ¬ M.Excused e) :
    ∃ st₁', result q st' = (.error e, st₁') ∧ M.Left st₁.stream st₁'.stream := by
  have hpq := h st st' hst
  rw [hp] at hpq
  exact hpq.resolve_left he

/-! ## Steps of a rule -/

theorem pure (x : α) : M.Agrees (Pure.pure x) (Pure.pure x) :=
  fun _ st' hst => ⟨st', rfl, hst⟩

theorem throw (e : Error) : M.Agrees (MonadExcept.throw e : Rule σ α) (MonadExcept.throw e) :=
  fun _ st' hst => .inr ⟨st', rfl, M.left_of_at hst.stream⟩

theorem bind (h : M.Agrees p q) (hf : ∀ x, M.Agrees (f x) (g x)) :
    M.Agrees (p >>= f) (q >>= g) := by
  intro st st' hst
  have hpq := h st st' hst
  rw [result_bind]
  cases hp : result p st with
  | mk r st₁ =>
    rw [hp] at hpq
    cases r with
    | ok x =>
      obtain ⟨st₁', hq, hst₁⟩ := hpq
      rw [result_bind_of_ok hq]
      exact hf x st₁ st₁' hst₁
    | error e =>
      refine hpq.imp_right ?_
      rintro ⟨st₁', hq, hleft⟩
      exact ⟨st₁', result_bind_of_error hq, hleft⟩

/-- At the bound zero the first rule fails. -/
theorem atBound (hn : M.Bounds 0 m) (hq : m = 0 → q = MonadExcept.throw (.limit .depth)) :
    M.Agrees (MonadExcept.throw (.limit .depth)) q := by
  rcases hn with hm | ⟨-, hdeep⟩
  · rw [hq hm.symm]
    exact .throw (.limit .depth)
  · exact fun _ _ _ => .inl hdeep

/-- Rules that are told for each bound, and fail at the bound zero. -/
theorem of_bounds {r : Nat → Rule σ α} {r' : Nat → Rule τ α}
    (h₀ : r 0 = MonadExcept.throw (.limit .depth)) (h₀' : r' 0 = MonadExcept.throw (.limit .depth))
    (hsucc : ∀ n m, M.Bounds n m → M.Agrees (r n) (r' m) → M.Agrees (r (n + 1)) (r' (m + 1)))
    (hn : M.Bounds n m) : M.Agrees (r n) (r' m) := by
  induction n generalizing m with
  | zero =>
    rw [h₀]
    exact .atBound hn fun hm => hm ▸ h₀'
  | succ n ih =>
    obtain ⟨k, rfl, hk⟩ := hn.exists_succ
    exact hsucc n k hk (ih hk)

theorem ite {c : Prop} [Decidable c] {p' : Rule σ α} {q' : Rule τ α} (h : M.Agrees p q)
    (h' : M.Agrees p' q') : M.Agrees (if c then p else p') (if c then q else q') := by
  by_cases hc : c
  · rwa [if_pos hc, if_pos hc]
  · rwa [if_neg hc, if_neg hc]

theorem current : M.Agrees current current := by
  intro st st' hst
  refine ⟨st', ?_, hst⟩
  show (Except.ok (TokenSupply.current st'.stream), st') = _
  rw [M.current_eq hst.stream]

theorem advance : M.Agrees advance advance := by
  intro st st' hst
  cases ha : TokenSupply.advance st.stream with
  | mk r s =>
    cases r with
    | ok t =>
      have hp : result Parse.advance st = (.ok (), { st with stream := s }) := by
        simp only [result, Parse.advance, ExceptT.run, ExceptT.mk, StateT.run, ha]
      obtain ⟨s', ha', hs⟩ := M.advance_of_ok hst.stream ha
      rw [hp]
      refine ⟨{ st' with stream := s' }, ?_, hs, hst.scope_eq⟩
      simp only [result, Parse.advance, ExceptT.run, ExceptT.mk, StateT.run, ha']
    | error e =>
      have hp : result Parse.advance st = (.error (.ofRead e), { st with stream := s }) := by
        simp only [result, Parse.advance, ExceptT.run, ExceptT.mk, StateT.run, ha]
      rw [hp]
      refine (M.advance_of_error hst.stream ha).imp_right ?_
      rintro ⟨s', ha', hleft⟩
      refine ⟨{ st' with stream := s' }, ?_, hleft⟩
      simp only [result, Parse.advance, ExceptT.run, ExceptT.mk, StateT.run, ha']

theorem fail (cause : SyntaxCause) : M.Agrees (fail cause : Rule σ α) (Parse.fail cause) := by
  intro st st' hst
  refine .inr ⟨st', ?_, M.left_of_at hst.stream⟩
  show (Except.error (Error.syntactic ⟨cause, TokenSupply.line st'.stream,
    TokenSupply.current st'.stream⟩), st') = _
  rw [M.line_eq hst.stream, M.current_eq hst.stream]

theorem report {r : LogRecord} (hr : r.component = "mython.parser") :
    M.Agrees (report r) (Parse.report r) :=
  fun _ st' hst => ⟨{ st' with stream := TokenSupply.report st'.stream r }, rfl,
    M.at_report hr hst.stream, hst.scope_eq⟩

theorem class? (name : String) : M.Agrees (class? name) (Parse.class? name) := by
  intro st st' hst
  refine ⟨st', ?_, hst⟩
  show (Except.ok (st'.classes.lookup name), st') = _
  rw [hst.classes_eq]

theorem className (c : ClassRef) : M.Agrees (className c) (Parse.className c) := by
  intro st st' hst
  refine ⟨st', ?_, hst⟩
  show (Except.ok (st'.table.name c), st') = _
  rw [hst.table_eq]

theorem defineClass (name : String) (parent? : Option ClassRef) :
    M.Agrees (defineClass name parent?) (Parse.defineClass name parent?) := by
  intro st st' hst
  refine ⟨{ st' with
    classes := st.classes ++ [(name, st.table.next)]
    table := st.table.add ⟨name, parent?, []⟩ }, ?_, hst.stream, rfl⟩
  rw [← hst.classes_eq, ← hst.table_eq]
  rfl

theorem setMethods (c : ClassRef) (methods : List Method) :
    M.Agrees (setMethods c methods) (Parse.setMethods c methods) := by
  intro st st' hst
  refine ⟨{ st' with table := st.table.setMethods c methods }, ?_, hst.stream, ?_⟩
  · rw [← hst.table_eq]
    rfl
  · show (⟨st'.classes, _⟩ : Scope) = ⟨st.classes, _⟩
    rw [hst.classes_eq]

/-! ## Single tokens -/

theorem accept (t : Token) : M.Agrees (accept t) (Parse.accept t) :=
  .bind .current fun _ => .ite (.bind .advance fun _ => .pure true) (.pure false)

theorem require (t : Token) (cause : SyntaxCause) :
    M.Agrees (require t cause) (Parse.require t cause) :=
  .bind .current fun _ => .ite .advance (.fail cause)

theorem requireName (cause : SyntaxCause) :
    M.Agrees (requireName cause) (Parse.requireName cause) := by
  refine .bind .current fun t => ?_
  cases t with
  | name name => exact .bind .advance fun _ => .pure name
  | _ => exact .fail cause

theorem atEnd : M.Agrees atEnd Parse.atEnd :=
  .bind .current fun _ => .pure _

/-! ## Repetition -/

theorem many {done : Rule σ Bool} {done' : Rule τ Bool} (hdone : M.Agrees done done')
    (h : M.Agrees p q) : M.Bounds n m → M.Agrees (many done p n) (Parse.many done' q m) := by
  refine of_bounds rfl rfl fun n m _ ih => ?_
  refine .bind hdone fun b => ?_
  cases b with
  | true => exact .pure []
  | false => exact .bind h fun x => .bind ih fun xs => .pure (x :: xs)

theorem commaSeparated (h : M.Agrees p q) :
    M.Bounds n m → M.Agrees (commaSeparated p n) (Parse.commaSeparated q m) := by
  refine of_bounds rfl rfl fun n m _ ih => ?_
  refine .bind h fun x => .bind (.accept _) fun b => ?_
  cases b with
  | true => exact .bind ih fun xs => .pure (x :: xs)
  | false => exact .pure [x]

variable {operand : Rule σ Node} {operand' : Rule τ Node}

theorem chain (join? : Token → Option (Node → Node → Node)) (h : M.Agrees operand operand')
    (left : Node) (hn : M.Bounds n m) :
    M.Agrees (chain join? operand n left) (Parse.chain join? operand' m left) := by
  induction n generalizing m left with
  | zero => exact .atBound hn fun hm => hm ▸ rfl
  | succ n ih =>
    obtain ⟨k, rfl, hk⟩ := hn.exists_succ
    refine .bind .current fun t => ?_
    cases join? t with
    | none => exact .pure left
    | some join => exact .bind .advance fun _ => .bind h fun right => ih (join left right) hk

theorem leftChain (join? : Token → Option (Node → Node → Node)) (h : M.Agrees operand operand')
    (hn : M.Bounds n m) :
    M.Agrees (leftChain join? operand n) (Parse.leftChain join? operand' m) :=
  .bind h fun first => .chain join? h first hn

theorem signed (sign : Token) (change : Node → Node) (h : M.Agrees operand operand') :
    M.Bounds n m →
      M.Agrees (signed sign change operand n) (Parse.signed sign change operand' m) := by
  refine of_bounds rfl rfl fun n m _ ih => ?_
  refine .bind (.accept sign) fun b => ?_
  cases b with
  | true => exact .bind ih fun inner => .pure (change inner)
  | false => exact h

end Agrees

end Matching

end Offside
