import Offside.Program.Source
import Offside.Proofs.Depth

set_option autoImplicit false

/-! # The two ways to hand back what is returned

A method hands back the value returned in it either as it is or in its printed form. For texts and
empty values the two are one, so a run in which nothing else is returned goes the same way in both.

To speak of the values that are returned in a run, a run is *guarded*: it is interrupted where a value
comes to the end of a method that is not accepted. -/

namespace Offside

/-- Texts and the empty value. -/
def Value.isPlain : Value → Bool
  | empty | string _ => true
  | number _ | bool _ | classObject _ | object _ => false

namespace Run

/-! ## Guarded runs -/

/-- Runs a tree, but hands back no value that is not accepted. -/
def stepGuarded (accepts : Value → Bool) (σ : Setting) (execute : Node → Run Value)
    (render : Value → Run String) : Node → Run Value
  | .methodBody body => do
    match ← returnedBy (execute body) with
    | some v => if accepts v then methodResult σ render v else throw .tooDeep
    | none => return .empty
  | n => step σ execute render n

mutual

/-- Runs a tree within a depth and up to the first value returned that is not accepted. -/
def executeGuarded (accepts : Value → Bool) (σ : Setting) : Nat → Node → Run Value
  | 0, _ => throw .tooDeep
  | depth + 1, node =>
    stepGuarded accepts σ (executeGuarded accepts σ depth) (renderGuarded accepts σ depth) node

/-- The printed form of a value, within a depth and up to the first value returned that is not
accepted. -/
def renderGuarded (accepts : Value → Bool) (σ : Setting) : Nat → Value → Run String
  | 0, _ => throw .tooDeep
  | depth + 1, v =>
    renderStep σ (executeGuarded accepts σ depth) (renderGuarded accepts σ depth) v

end

/-- All values returned in methods while the tree runs are accepted: guarding the run changes nothing.
-/
def ReturnsOnly (accepts : Value → Bool) (σ : Setting) (depth : Nat) (n : Node) (st : RunState) :
    Prop :=
  outcome (executeGuarded accepts σ depth n) st = outcome (execute σ depth n) st

/-- Every run returns nothing but values. -/
theorem executeGuarded_of_forall {accepts : Value → Bool} (h : ∀ v, accepts v) (σ : Setting)
    (depth : Nat) :
    executeGuarded accepts σ depth = execute σ depth ∧
      renderGuarded accepts σ depth = render σ depth := by
  induction depth with
  | zero => exact ⟨rfl, rfl⟩
  | succ depth ih =>
    obtain ⟨hexecute, hrender⟩ := ih
    constructor
    · funext n
      rw [executeGuarded, execute, hexecute, hrender]
      cases n with
      | methodBody body =>
        simp only [stepGuarded, h, if_true]
        rfl
      | _ => rfl
    · funext v
      rw [renderGuarded, render, hexecute, hrender]

/-! ## Handing back plain values -/

/-- Either way hands a plain value back as it is. -/
theorem methodResult_of_isPlain (σ : Setting) {render : Value → Run String} {v : Value}
    (hv : v.isPlain) (hrender : ∀ s, render (.string s) = pure s) :
    methodResult σ render v = pure v := by
  cases v with
  | empty => simp [methodResult]
  | string s => simp [methodResult, hrender]
  | number | bool | classObject | object => simp [Value.isPlain] at hv

section

variable {accepts : Value → Bool} {σ σ' : Setting} (htable : σ'.table = σ.table)
  (hmode : σ'.typedReturns = σ.typedReturns ∨ ∀ v, accepts v → v.isPlain)
include htable hmode

/-- Where an accepted value is handed back in a guarded run, it is in the other run. -/
theorem agrees_stepGuarded {depth : Nat} {body : Node} {i : Place} {st st' : RunState}
    (h : (Simulation.cut htable).Simulates (executeGuarded accepts σ depth) (execute σ' depth)
      (renderGuarded accepts σ depth) (render σ' depth))
    (hmatch : (Simulation.cut htable).Matches i st st') :
    (Simulation.cut htable).AgreesAt i (Simulation.cut htable).Fits
      (executeGuarded accepts σ (depth + 1) (.methodBody body))
      (execute σ' (depth + 1) (.methodBody body)) st st' := by
  cases depth with
  | zero =>
    have hdeep : Stops (returnedBy (executeGuarded accepts σ 0 body)) st .tooDeep st := rfl
    exact .tooDeep trivial hdeep.bind
  | succ depth =>
    have hbody := h.execute (Simulation.admits_cut htable i body) hmatch
    apply Simulation.AgreesAt.bind hbody.returnedBy
    intro v? st₁ st₁' hmatch₁ _ _
    cases v? with
    | none => exact .pure hmatch₁ trivial
    | some v =>
      show (Simulation.cut htable).AgreesAt i _
        (if accepts v then methodResult σ (renderGuarded accepts σ (depth + 1)) v
          else throw .tooDeep)
        (methodResult σ' (render σ' (depth + 1)) v) st₁ st₁'
      by_cases hv : accepts v
      · rw [if_pos hv]
        rcases hmode with hmode | hplain
        · exact h.methodResult hmatch₁ hmode trivial
        · rw [methodResult_of_isPlain σ (hplain v hv) fun _ => rfl,
            methodResult_of_isPlain σ' (hplain v hv) fun _ => rfl]
          exact .pure hmatch₁ trivial
      · rw [if_neg hv]
        exact .tooDeep trivial (stops_throw_iff.2 ⟨rfl, rfl⟩)

/-- A guarded run agrees with the run in the same mode, and with that in the other mode if it accepts
plain values only. -/
theorem simulates_guarded (depth : Nat) :
    (Simulation.cut htable).Simulates (executeGuarded accepts σ depth) (execute σ' depth)
      (renderGuarded accepts σ depth) (render σ' depth) := by
  induction depth with
  | zero =>
    constructor
    · intro i n st st' _ _
      exact .tooDeep trivial (stops_throw_iff.2 ⟨rfl, rfl⟩)
    · intro i v st st' _ _
      exact .tooDeep trivial (stops_throw_iff.2 ⟨rfl, rfl⟩)
  | succ depth ih =>
    constructor
    · intro i n st st' hn hmatch
      cases n with
      | methodBody body => exact agrees_stepGuarded htable hmode ih hmatch
      | _ => exact ih.step hn (by simp) hmatch
    · intro i v st st' hmatch hv
      exact ih.renderStep hmatch hv

theorem outcome_execute_of_guarded {depth : Nat} {n : Node} {st : RunState}
    (h : (outcome (executeGuarded accepts σ depth n) st).1 ≠ .error .tooDeep) :
    outcome (execute σ' depth n) st = outcome (executeGuarded accepts σ depth n) st :=
  Invariant.eq_of_agreesAt ((simulates_guarded htable hmode depth).execute
    (Simulation.admits_cut htable .own n) ⟨rfl, trivial⟩) h

end

/-- A guarded run that comes to its end is the run that it guards. -/
theorem ReturnsOnly.of_ends {accepts : Value → Bool} {σ : Setting} {depth : Nat} {n : Node}
    {st : RunState} (h : (outcome (executeGuarded accepts σ depth n) st).1 ≠ .error .tooDeep) :
    ReturnsOnly accepts σ depth n st :=
  (outcome_execute_of_guarded rfl (.inl rfl) h).symm

theorem outcome_ne_tooDeep_of_program {σ : Setting} {depth : Nat} {body : Node} {st : RunState}
    (h : (program σ depth body st).1 ≠ some (.limit .depth)) :
    (outcome (execute σ depth body) st).1 ≠ .error .tooDeep := by
  rw [program_eq] at h
  intro hdeep
  cases hr : outcome (execute σ depth body) st with
  | mk r st' =>
    rw [hr] at h hdeep
    obtain rfl := hdeep
    exact h rfl

end Run

open Run

/-- A program that comes to its end in one of the two modes, and in which methods return nothing but
texts and empty values, runs in the same way in the other mode: to the same error or without one, and
to the same bindings, objects, output, addresses and log, within the same depth. -/
theorem program_eq_of_plain_returns (p : Program) (typedReturns : Bool) (depth : Nat) (st : RunState)
    (hends : (Run.program ⟨p.table, typedReturns⟩ depth p.body st).1 ≠ some (.limit .depth))
    (hplain : ReturnsOnly Value.isPlain ⟨p.table, typedReturns⟩ depth p.body st) :
    Run.program ⟨p.table, !typedReturns⟩ depth p.body st =
      Run.program ⟨p.table, typedReturns⟩ depth p.body st := by
  have hguarded := outcome_ne_tooDeep_of_program hends
  rw [← hplain] at hguarded
  let σ : Setting := ⟨p.table, typedReturns⟩
  let σ' : Setting := ⟨p.table, !typedReturns⟩
  have htable : σ'.table = σ.table := rfl
  have hother := outcome_execute_of_guarded htable (.inr fun _ hv => hv) hguarded
  rw [program_eq, program_eq, hother, hplain]

/-- A method that returns a text, one that returns nothing, and one that has no `return`. -/
theorem program_eq_of_text_returns :
    ∃ p, (Program.ofSource .empty ("class A:\n  def f():\n    return 'x'\n" ++
        "  def g():\n    return\n  def h():\n    print 1\n" ++
        "a = A()\nprint a.f(), a.g(), a.h()\n")).1.toOption = some p ∧
      Run.program ⟨p.table, true⟩ 20 p.body .initial =
        Run.program ⟨p.table, false⟩ 20 p.body .initial := by
  let cls : ClassDecl := ⟨"A", none, [
    ⟨"f", [], .methodBody (.sequence [.returnValue (.constant (.string "x"))])⟩,
    ⟨"g", [], .methodBody (.sequence [.returnValue (.constant .empty)])⟩,
    ⟨"h", [], .methodBody (.sequence [.print [.constant (.number 1)]])⟩]⟩
  let a : Node := .path ⟨"a", []⟩
  let p : Program := ⟨[("A", ⟨0⟩)], ⟨#[cls]⟩, [.classDefinition ⟨0⟩, .assign "a" (.construct ⟨0⟩ []),
    .print [.call a "f" [], .call a "g" [], .call a "h" []]]⟩
  have hends : (Run.program ⟨p.table, false⟩ 20 p.body .initial).1 ≠ some (.limit .depth) := by
    decide +kernel
  have hguarded : (outcome (executeGuarded Value.isPlain ⟨p.table, false⟩ 20 p.body)
      .initial).1.toOption.isSome := by
    decide +kernel
  have hplain : ReturnsOnly Value.isPlain ⟨p.table, false⟩ 20 p.body .initial := by
    apply ReturnsOnly.of_ends
    intro hdeep
    rw [hdeep] at hguarded
    simp [Except.toOption] at hguarded
  exact ⟨p, by decide +kernel, program_eq_of_plain_returns p false 20 .initial hends hplain⟩

end Offside
