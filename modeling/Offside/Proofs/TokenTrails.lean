import Offside.Proofs.Rules

set_option autoImplicit false

/-! # The trail of a rule

A `Trail` is a supply that keeps the tokens that were current when it was moved, whether the move
succeeded or not. Over a trail the moves of a rule can be counted, also where the rule fails.

`Passes` tells how many tokens a rule has passed where it gives a result, and that it makes no move at
the end of the input, whatever it gives. It is shown along the text of a rule. A loop is shown as
rounds one after the other, and it is the rounds that pass tokens. -/

namespace Offside

/-- A supply, and the tokens that were current when it was moved. -/
structure Trail (σ : Type) where
  supply : σ
  passed : List Token
  deriving DecidableEq, Repr, Inhabited

instance {σ : Type} [TokenSupply σ] : TokenSupply (Trail σ) where
  current t := TokenSupply.current t.supply
  line t := TokenSupply.line t.supply
  advance t :=
    let (r, supply) := TokenSupply.advance t.supply
    (r, ⟨supply, t.passed ++ [TokenSupply.current t.supply]⟩)
  report t r := { t with supply := TokenSupply.report t.supply r }

/-- The number of moves that were made. -/
def Trail.position {σ : Type} (t : Trail σ) : Nat := t.passed.length

namespace Parse

variable {σ α β : Type}

/-! ## Passing tokens -/

/-- From the state `st` on, `p` makes no move at the end of the input, and where it gives a result `x`
it has made at least `least x` moves. -/
def PassesFrom (st : RuleState (Trail σ)) (p : Rule (Trail σ) α) (least : α → Nat) : Prop :=
  ∃ us, (result p st).2.stream.passed = st.stream.passed ++ us ∧ .endOfInput ∉ us ∧
    ∀ x, (result p st).1 = .ok x → least x ≤ us.length

/-- So it is from every state on. -/
def Passes (p : Rule (Trail σ) α) (least : α → Nat) : Prop := ∀ st, PassesFrom st p least

variable {st : RuleState (Trail σ)} {p : Rule (Trail σ) α} {f : α → Rule (Trail σ) β}
  {least : α → Nat} {more : β → Nat}

/-- A rule that leaves the trail as it is has made no moves. -/
theorem PassesFrom.of_passed_eq (h : (result p st).2.stream.passed = st.stream.passed)
    (hleast : ∀ x, (result p st).1 = .ok x → least x = 0) : PassesFrom st p least :=
  ⟨[], by rw [h, List.append_nil], List.not_mem_nil, fun x hx => Nat.le_of_eq (hleast x hx)⟩

theorem PassesFrom.mono (h : PassesFrom st p least) {fewer : α → Nat}
    (hle : ∀ x, fewer x ≤ least x) : PassesFrom st p fewer := by
  obtain ⟨us, hpassed, hend, hleast⟩ := h
  exact ⟨us, hpassed, hend, fun x hx => Nat.le_trans (hle x) (hleast x hx)⟩

/-- The moves of two rules one after the other add up. -/
theorem PassesFrom.bind (h : PassesFrom st p least)
    (hf : ∀ x, Passes (f x) fun y => more y - least x) : PassesFrom st (p >>= f) more := by
  obtain ⟨us, hpassed, hend, hleast⟩ := h
  cases hp : result p st with
  | mk r st' =>
    rw [hp] at hpassed hleast
    cases r with
    | ok x =>
      obtain ⟨vs, hpassed', hend', hmore⟩ := hf x st'
      rw [PassesFrom, result_bind_of_ok hp]
      refine ⟨us ++ vs, ?_, ?_, ?_⟩
      · rw [hpassed', hpassed, List.append_assoc]
      · rw [List.mem_append, not_or]
        exact ⟨hend, hend'⟩
      · intro y hy
        have hx := hleast x rfl
        have hyx : more y - least x ≤ vs.length := hmore y hy
        rw [List.length_append]
        omega
    | error e =>
      rw [PassesFrom, result_bind_of_error hp]
      exact ⟨us, hpassed, hend, nofun⟩

/-- A move at a token other than the end passes that token. -/
theorem PassesFrom.advance [TokenSupply σ] (hend : TokenSupply.current st.stream ≠ .endOfInput) :
    PassesFrom st advance fun _ => 1 := by
  refine ⟨[TokenSupply.current st.stream], ?_, ?_, fun _ _ => Nat.le_refl 1⟩
  · cases ha : TokenSupply.advance st.stream.supply with
    | mk r supply =>
      cases r <;>
        simp only [result, Parse.advance, ExceptT.run, ExceptT.mk, StateT.run,
          TokenSupply.advance, ha] <;> rfl
  · simpa using hend.symm

namespace Passes

theorem mono (h : Passes p least) {fewer : α → Nat} (hle : ∀ x, fewer x ≤ least x) :
    Passes p fewer :=
  fun st => (h st).mono hle

theorem bind (h : Passes p least) (hf : ∀ x, Passes (f x) fun y => more y - least x) :
    Passes (p >>= f) more :=
  fun st => (h st).bind hf

theorem pure {x : α} (hx : least x = 0) :
    Passes (Pure.pure x : Rule (Trail σ) α) least := by
  refine fun _ => .of_passed_eq rfl fun y hy => ?_
  obtain rfl : x = y := Except.ok.inj hy
  exact hx

theorem throw (e : Error) : Passes (MonadExcept.throw e : Rule (Trail σ) α) least :=
  fun _ => .of_passed_eq rfl nofun

theorem ite {c : Prop} [Decidable c] {p' : Rule (Trail σ) α} (h : Passes p least)
    (h' : Passes p' least) : Passes (if c then p else p') least := by
  by_cases hc : c
  · rwa [if_pos hc]
  · rwa [if_neg hc]

/-! ## Steps that pass no token -/

theorem class? (name : String) :
    Passes (class? name : Rule (Trail σ) (Option ClassRef)) fun _ => 0 :=
  fun _ => .of_passed_eq rfl fun _ _ => rfl

theorem className (c : ClassRef) : Passes (className c : Rule (Trail σ) String) fun _ => 0 :=
  fun _ => .of_passed_eq rfl fun _ _ => rfl

theorem parentName (parent? : Option ClassRef) :
    Passes (parent?.mapM Parse.className : Rule (Trail σ) (Option String)) fun _ => 0 := by
  cases parent? with
  | none => exact .pure rfl
  | some c => exact (className c).bind fun name => .pure rfl

theorem defineClass (name : String) (parent? : Option ClassRef) :
    Passes (defineClass name parent? : Rule (Trail σ) ClassRef) fun _ => 0 :=
  fun _ => .of_passed_eq rfl fun _ _ => rfl

theorem setMethods (c : ClassRef) (methods : List Method) :
    Passes (setMethods c methods : Rule (Trail σ) Unit) fun _ => 0 :=
  fun _ => .of_passed_eq rfl fun _ _ => rfl

variable [TokenSupply σ] {t : Token}

theorem report (r : LogRecord) : Passes (report r : Rule (Trail σ) Unit) fun _ => 0 :=
  fun _ => .of_passed_eq rfl fun _ _ => rfl

theorem atEnd : Passes (atEnd : Rule (Trail σ) Bool) fun _ => 0 :=
  fun _ => .of_passed_eq rfl fun _ _ => rfl

theorem fail (cause : SyntaxCause) : Passes (fail cause : Rule (Trail σ) α) least :=
  fun _ => .of_passed_eq rfl nofun

/-- What follows a look at the current token knows the token that it saw. -/
theorem current_bind {f : Token → Rule (Trail σ) β}
    (h : ∀ st t, TokenSupply.current st.stream = t → PassesFrom st (f t) more) :
    Passes (Parse.current >>= f) more :=
  fun st => h st _ rfl

/-- So it is where what follows does not move at the token that was seen. -/
theorem look {f : Token → Rule (Trail σ) β} (h : ∀ t, Passes (f t) more) :
    Passes (Parse.current >>= f) more :=
  current_bind fun st t _ => h t st

/-! ## Single tokens -/

theorem accept (ht : t ≠ .endOfInput) : Passes (accept t : Rule (Trail σ) Bool) Bool.toNat := by
  refine current_bind fun st u hu => ?_
  by_cases hc : u = t
  · rw [if_pos hc]
    exact (PassesFrom.advance (by rwa [hu, hc])).bind fun _ => .pure rfl
  · rw [if_neg hc]
    exact Passes.pure (x := false) rfl st

theorem require (cause : SyntaxCause) (ht : t ≠ .endOfInput) :
    Passes (require t cause : Rule (Trail σ) Unit) fun _ => 1 := by
  refine current_bind fun st u hu => ?_
  by_cases hc : u = t
  · rw [if_pos hc]
    exact .advance (by rwa [hu, hc])
  · rw [if_neg hc]
    exact Passes.fail cause st

theorem requireName (cause : SyntaxCause) :
    Passes (requireName cause : Rule (Trail σ) String) fun _ => 1 := by
  refine current_bind fun st u hu => ?_
  cases u with
  | name name => exact (PassesFrom.advance (by simp [hu])).bind fun _ => .pure rfl
  | _ => exact Passes.fail cause st

end Passes

/-! ## Loops -/

section

variable {τ ρ : Type}

/-- Rounds one after the other, until one gives a result. -/
def rounds (round : ρ → Rule τ (ρ ⊕ α)) : Nat → ρ → Rule τ α
  | 0, _ => throw (.limit .depth)
  | n + 1, r => do
    match ← round r with
    | .inl r => rounds round n r
    | .inr x => return x

/-- A round of `many`, behind the items `xs`. -/
def manyRound (done : Rule τ Bool) (item : Rule τ α) (xs : List α) :
    Rule τ (List α ⊕ List α) := do
  if ← done then return .inr xs
  let x ← item
  return .inl (xs ++ [x])

/-- A round of `commaSeparated`, behind the items `xs`. -/
def commaRound [TokenSupply τ] (item : Rule τ α) (xs : List α) : Rule τ (List α ⊕ List α) := do
  let x ← item
  if ← accept (.char ',') then return .inl (xs ++ [x]) else return .inr (xs ++ [x])

/-- A round of `chain`, behind the operands that are joined to `left`. -/
def chainRound [TokenSupply τ] (join? : Token → Option (Node → Node → Node))
    (operand : Rule τ Node) (left : Node) : Rule τ (Node ⊕ Node) := do
  match join? (← current) with
  | none => return .inr left
  | some join =>
    advance
    let right ← operand
    return .inl (join left right)

theorem rounds_manyRound (done : Rule τ Bool) (item : Rule τ α) (n : Nat) (xs : List α) :
    rounds (manyRound done item) n xs = (xs ++ ·) <$> many done item n := by
  induction n generalizing xs with
  | zero => rfl
  | succ n ih =>
    simp only [rounds, manyRound, many, bind_assoc, map_bind]
    congr 1
    funext b
    cases b with
    | true => simp
    | false => simp [ih]

theorem many_eq_rounds (done : Rule τ Bool) (item : Rule τ α) (n : Nat) :
    many done item n = rounds (manyRound done item) n [] := by
  simp [rounds_manyRound]

theorem rounds_commaRound [TokenSupply τ] (item : Rule τ α) (n : Nat) (xs : List α) :
    rounds (commaRound item) n xs = (xs ++ ·) <$> commaSeparated item n := by
  induction n generalizing xs with
  | zero => rfl
  | succ n ih =>
    simp only [rounds, commaRound, commaSeparated, bind_assoc, map_bind]
    congr 1
    funext x
    congr 1
    funext b
    cases b with
    | true => simp [ih]
    | false => simp

theorem commaSeparated_eq_rounds [TokenSupply τ] (item : Rule τ α) (n : Nat) :
    commaSeparated item n = rounds (commaRound item) n [] := by
  simp [rounds_commaRound]

theorem chain_eq_rounds [TokenSupply τ] (join? : Token → Option (Node → Node → Node))
    (operand : Rule τ Node) (n : Nat) (left : Node) :
    chain join? operand n left = rounds (chainRound join? operand) n left := by
  induction n generalizing left with
  | zero => rfl
  | succ n ih =>
    simp only [rounds, chainRound, chain, bind_assoc]
    congr 1
    funext t
    cases join? t with
    | none => simp
    | some join => simp [ih]

end

/-- What a round passes at least: a token, if it is not the last one. -/
def onward {ρ α : Type} : ρ ⊕ α → Nat
  | .inl _ => 1
  | .inr _ => 0

namespace Passes

variable {ρ : Type} {item : Rule (Trail σ) α} {operand : Rule (Trail σ) Node}

theorem rounds {round : ρ → Rule (Trail σ) (ρ ⊕ α)} (h : ∀ r, Passes (round r) onward) (n : Nat) (r : ρ) :
    Passes (Parse.rounds round n r) fun _ => 0 := by
  induction n generalizing r with
  | zero => exact .throw (.limit .depth)
  | succ n ih =>
    refine (h r).bind fun next => ?_
    cases next with
    | inl r => exact (ih r).mono fun _ => Nat.zero_le _
    | inr x => exact .pure rfl

theorem manyRound {done : Rule (Trail σ) Bool} (hdone : Passes done fun _ => 0)
    (hitem : Passes item fun _ => 1) (xs : List α) :
    Passes (Parse.manyRound done item xs) onward := by
  refine hdone.bind fun b => ?_
  cases b with
  | true => exact .pure rfl
  | false => exact hitem.bind fun x => .pure rfl

variable [TokenSupply σ]

theorem commaRound (hitem : Passes item fun _ => 1) (xs : List α) :
    Passes (Parse.commaRound item xs) onward := by
  refine hitem.bind fun x => (accept (by simp)).bind fun b => ?_
  cases b with
  | true => exact .pure rfl
  | false => exact .pure rfl

theorem chainRound {join? : Token → Option (Node → Node → Node)} (hjoin : join? .endOfInput = none)
    (h : Passes operand fun _ => 1) (left : Node) :
    Passes (Parse.chainRound join? operand left) onward := by
  refine current_bind fun st t ht => ?_
  cases hj : join? t with
  | none => exact Passes.pure (by rfl) st
  | some join =>
    have hend : t ≠ .endOfInput := by
      rintro rfl
      simp [hjoin] at hj
    refine (PassesFrom.advance (ht ▸ hend)).bind fun _ => ?_
    exact h.bind fun right => .pure rfl

end Passes

end Parse

end Offside
