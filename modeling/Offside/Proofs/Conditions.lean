import Offside.Proofs.Endings

set_option autoImplicit false

/-! # Conditions

A condition is run, and what comes next depends on whether its value holds. That is a *branch*. The
Boolean operators and the conditionals are branches over how their parts end, with the truth values as
the plainest endings. A branch over a branch is a branch with the outer one at both of its ends, and
this law gives all laws of the operators, whatever their operands print, change, raise or return.

So an operand behind one that decides the value does not matter at all: it is never run. -/

namespace Offside

namespace Run

/-- The ways in which something may end, from each state. -/
abbrev Ending := RunState → Except Interrupt Value × RunState → Prop

/-- Ending at once with a value. -/
def Done (v : Value) : Ending := fun st r => r = (.ok v, st)

/-- Run the first one; go on with `yes` if its value has the truth value `x`, and with `no` if not. -/
inductive Branch (x : Bool) (condition yes no : Ending) : Ending
  | stops {st st' : RunState} {i : Interrupt} (h : condition st (.error i, st')) :
    Branch x condition yes no st (.error i, st')
  | yes {st st₁ : RunState} {v : Value} {r : Except Interrupt Value × RunState}
    (h : condition st (.ok v, st₁)) (hv : v.isTrue = x) (hr : yes st₁ r) :
    Branch x condition yes no st r
  | no {st st₁ : RunState} {v : Value} {r : Except Interrupt Value × RunState}
    (h : condition st (.ok v, st₁)) (hv : v.isTrue = !x) (hr : no st₁ r) :
    Branch x condition yes no st r

/-- From every state the trees end in the same ways: with the same value, `return` or error, and the
same bindings, objects and text printed. -/
def EndAlike (σ : Setting) (m n : Node) : Prop :=
  ∀ st r, Ends σ m st r ↔ Ends σ n st r

/-- The operator whose value is decided by an operand with the truth value `x`. -/
def decidedBy : Bool → Node → Node → Node
  | true => .or
  | false => .and

/-- The tree joins these operands from left to right, bracketed in any way. -/
inductive Joins (join : Node → Node → Node) : Node → List Node → Prop
  | operand (n : Node) : Joins join n [n]
  | join {m n : Node} {ms ns : List Node} (hm : Joins join m ms) (hn : Joins join n ns) :
    Joins join (join m n) (ms ++ ns)

/-! ## Branches -/

section

variable {x y : Bool} {condition yes yes' no no' : Ending}

/-- To ask for the opposite is to change the two ends. -/
theorem branch_not : Branch (!x) condition yes no = Branch x condition no yes := by
  funext st r
  refine propext ⟨?_, ?_⟩
  · rintro (h | ⟨h, hv, hr⟩ | ⟨h, hv, hr⟩)
    · exact .stops h
    · exact .no h hv hr
    · exact .yes h (by rwa [Bool.not_not] at hv) hr
  · rintro (h | ⟨h, hv, hr⟩ | ⟨h, hv, hr⟩)
    · exact .stops h
    · exact .no h (by rwa [Bool.not_not]) hr
    · exact .yes h hv hr

theorem branch_false : Branch false condition yes no = Branch true condition no yes :=
  branch_not (x := true)

/-- A truth value at once goes on as it says. -/
@[simp] theorem branch_bool : Branch x (Done (.bool x)) yes no = yes := by
  funext st r
  refine propext ⟨?_, fun hr => .yes rfl rfl hr⟩
  rintro (⟨⟨⟩⟩ | ⟨⟨⟩, -, hr⟩ | ⟨⟨⟩, hv, -⟩)
  · exact hr
  · cases x <;> cases hv

@[simp] theorem branch_not_bool : Branch (!x) (Done (.bool x)) yes no = no := by
  rw [branch_not, branch_bool]

@[simp] theorem branch_bool_not : Branch x (Done (.bool !x)) yes no = no := by
  rw [← branch_not, branch_bool]

/-- A branch over a branch is a branch with the outer one at both ends. -/
theorem branch_branch :
    Branch x (Branch y condition yes no) yes' no' =
      Branch y condition (Branch x yes yes' no') (Branch x no yes' no') := by
  funext st r
  refine propext ⟨?_, ?_⟩
  · rintro ((h | ⟨h, hv, hi⟩ | ⟨h, hv, hi⟩) | ⟨_ | ⟨h, hv, hw⟩ | ⟨h, hv, hw⟩, hx, hr⟩ |
      ⟨_ | ⟨h, hv, hw⟩ | ⟨h, hv, hw⟩, hx, hr⟩)
    · exact .stops h
    · exact .yes h hv (.stops hi)
    · exact .no h hv (.stops hi)
    · exact .yes h hv (.yes hw hx hr)
    · exact .no h hv (.yes hw hx hr)
    · exact .yes h hv (.no hw hx hr)
    · exact .no h hv (.no hw hx hr)
  · rintro (h | ⟨h, hv, hi | ⟨hw, hx, hr⟩ | ⟨hw, hx, hr⟩⟩ |
      ⟨h, hv, hi | ⟨hw, hx, hr⟩ | ⟨hw, hx, hr⟩⟩)
    · exact .stops (.stops h)
    · exact .stops (.yes h hv hi)
    · exact .yes (.yes h hv hw) hx hr
    · exact .no (.yes h hv hw) hx hr
    · exact .stops (.no h hv hi)
    · exact .yes (.no h hv hw) hx hr
    · exact .no (.no h hv hw) hx hr

end

/-! ## Forms of trees that branch -/

section

variable {σ : Setting} {a b c m n : Node} {nodes before after : List Node} {x : Bool}

theorem ends_constant (v : Value) : Ends σ (.constant v) = Done v := by
  funext st r
  rw [ends_iff_comesTo_step]
  refine propext ⟨?_, ?_⟩
  · rintro ⟨-, -, rfl⟩
    rfl
  · rintro rfl
    exact ⟨by simp, 0, rfl⟩

/-- What goes on as the value of a tree says ends as a branch over that tree. -/
theorem comesTo_ite_eq {yes no : Nat → Run Value} (hyes : Settled yes) (hno : Settled no) :
    ComesTo (fun depth => execute σ depth a >>= fun v => if v.isTrue then yes depth else no depth) =
      Branch true (Ends σ a) (ComesTo yes) (ComesTo no) := by
  have hrest : ∀ v : Value, Settled fun depth => if v.isTrue then yes depth else no depth := by
    intro v
    split
    · exact hyes
    · exact hno
  funext st r
  rw [comesTo_bind_iff (settled_execute σ a) hrest]
  refine propext ⟨?_, ?_⟩
  · rintro (⟨i, st₁, hi, rfl⟩ | ⟨v, st₁, hv, hr⟩)
    · exact .stops hi
    · by_cases hx : v.isTrue
      · simp only [if_pos hx] at hr
        exact .yes hv hx hr
      · simp only [if_neg hx] at hr
        exact .no hv (by simpa using hx) hr
  · rintro (hi | ⟨hv, hx, hr⟩ | ⟨hv, hx, hr⟩)
    · exact .inl ⟨_, _, hi, rfl⟩
    · exact .inr ⟨_, _, hv, by simpa only [if_pos hx] using hr⟩
    · exact .inr ⟨_, _, hv, by simpa [hx] using hr⟩

theorem comesTo_pure (v : Value) : ComesTo (fun _ => pure v) = Done v := by
  funext st r
  rw [comesTo_const_iff]
  refine propext ⟨fun h => h.2.symm, ?_⟩
  rintro rfl
  exact ⟨by simp, rfl⟩

theorem ends_ifElse :
    Ends σ (.ifElse a b c) = Branch true (Ends σ a) (Ends σ b) (Ends σ c) := by
  funext st r
  rw [ends_iff_comesTo_step]
  exact congrFun₂ (comesTo_ite_eq (settled_execute σ b) (settled_execute σ c)) st r

theorem ends_ifThen : Ends σ (.ifThen a b) = Branch true (Ends σ a) (Ends σ b) (Done .empty) := by
  funext st r
  rw [ends_iff_comesTo_step, ← comesTo_pure]
  exact congrFun₂ (comesTo_ite_eq (settled_execute σ b) (.const _)) st r

theorem ends_not (x : Bool) :
    Ends σ (.not a) = Branch x (Ends σ a) (Done (.bool !x)) (Done (.bool x)) := by
  have hstep : (fun depth => execute σ depth a >>= fun v => pure (.bool !v.isTrue)) =
      fun depth => execute σ depth a >>= fun v =>
        if v.isTrue then (pure (.bool false) : Run Value) else pure (.bool true) := by
    funext depth
    refine bind_congr fun v => ?_
    cases v.isTrue <;> rfl
  have htrue : Ends σ (.not a) =
      Branch true (Ends σ a) (Done (.bool false)) (Done (.bool true)) := by
    funext st r
    rw [ends_iff_comesTo_step, ← comesTo_pure, ← comesTo_pure,
      ← comesTo_ite_eq (.const _) (.const _), ← hstep]
    rfl
  cases x with
  | true => exact htrue
  | false =>
    rw [htrue, branch_false]
    rfl

theorem ends_decidedBy (x : Bool) (a b : Node) :
    Ends σ (decidedBy x a b) =
      Branch x (Ends σ a) (Done (.bool x))
        (Branch x (Ends σ b) (Done (.bool x)) (Done (.bool !x))) := by
  -- whatever an operand at the end gives, its truth value is taken
  have hlast : (fun depth => execute σ depth b >>= fun w => pure (.bool w.isTrue)) =
      fun depth => execute σ depth b >>= fun w =>
        if w.isTrue then (pure (.bool true) : Run Value) else pure (.bool false) := by
    funext depth
    refine bind_congr fun w => ?_
    cases w.isTrue <;> rfl
  have htruth : ComesTo (fun depth => execute σ depth b >>= fun w => pure (.bool w.isTrue)) =
      Branch true (Ends σ b) (Done (.bool true)) (Done (.bool false)) := by
    rw [hlast, comesTo_ite_eq (.const _) (.const _), comesTo_pure, comesTo_pure]
  have hsettled : Settled fun depth =>
      execute σ depth b >>= fun w => (pure (.bool w.isTrue) : Run Value) :=
    (settled_execute σ b).bind fun _ => .const _
  cases x with
  | true =>
    funext st r
    rw [Bool.not_true, ← htruth, ← comesTo_pure, ← comesTo_ite_eq (.const _) hsettled]
    exact propext ends_iff_comesTo_step
  | false =>
    funext st r
    rw [branch_false, branch_false, Bool.not_false, ← htruth, ← comesTo_pure,
      ← comesTo_ite_eq hsettled (.const _)]
    exact propext ends_iff_comesTo_step

/-! ## The laws of the operators -/

theorem endAlike_iff : EndAlike σ m n ↔ Ends σ m = Ends σ n := by
  constructor
  · intro h
    funext st r
    exact propext (h st r)
  · rintro h st r
    rw [h]

/-- A branch over an operator is a branch over its left operand and then, if that does not decide,
over the right one. -/
theorem branch_decidedBy (x : Bool) (a b : Node) (yes no : Ending) :
    Branch x (Ends σ (decidedBy x a b)) yes no =
      Branch x (Ends σ a) yes (Branch x (Ends σ b) yes no) := by
  rw [ends_decidedBy, branch_branch, branch_branch]
  simp

theorem endAlike_assoc (x : Bool) :
    EndAlike σ (decidedBy x (decidedBy x a b) c) (decidedBy x a (decidedBy x b c)) := by
  rw [endAlike_iff, ends_decidedBy x (decidedBy x a b), branch_decidedBy, ends_decidedBy x a,
    branch_decidedBy]

/-- The negation of an operator is the other operator of the negations. -/
theorem endAlike_not (x : Bool) :
    EndAlike σ (.not (decidedBy x a b)) (decidedBy (!x) (.not a) (.not b)) := by
  have hnot (n : Node) (yes no : Ending) :
      Branch (!x) (Ends σ (.not n)) yes no = Branch x (Ends σ n) yes no := by
    rw [ends_not x, branch_branch]
    simp
  rw [endAlike_iff, ends_not x, branch_decidedBy, ends_decidedBy, hnot, hnot, Bool.not_not]

/-- A double negation leaves the truth value. -/
theorem endAlike_not_not (x : Bool) :
    EndAlike σ (.not (.not a)) (decidedBy x a (.constant (.bool !x))) := by
  rw [endAlike_iff, ends_not (!x), ends_not x, branch_branch, ends_decidedBy, ends_constant]
  simp

theorem endAlike_ifElse_not : EndAlike σ (.ifElse (.not a) b c) (.ifElse a c b) := by
  rw [endAlike_iff, ends_ifElse, ends_ifElse, ends_not true, branch_branch, branch_bool_not,
    branch_bool]

theorem endAlike_ifThen_and : EndAlike σ (.ifThen (.and a b) c) (.ifThen a (.ifThen b c)) := by
  have hand := branch_decidedBy (σ := σ) false a b (Done .empty) (Ends σ c)
  rw [branch_false, branch_false, branch_false] at hand
  rw [endAlike_iff, ends_ifThen, ends_ifThen, ends_ifThen]
  exact hand

/-! ## Operands that are never run -/

/-- A branch over operands that are joined is a branch over one after the other. -/
theorem Joins.branch_eq (h : Joins (decidedBy x) n nodes) (yes no : Ending) :
    Branch x (Ends σ n) yes no =
      nodes.foldr (fun m rest => Branch x (Ends σ m) yes rest) no := by
  induction h generalizing no with
  | operand n => rfl
  | join hm hn ihm ihn => rw [branch_decidedBy, ihn, ihm, List.foldr_append]

theorem foldr_branch_of_decided {yes no : Ending} {st st₁ st₂ : RunState} {vs : List Value}
    {w : Value} {r : Except Interrupt Value × RunState} (hbefore : GivesInTurn σ before st vs st₁)
    (hvs : ∀ v ∈ vs, v.isTrue = !x) (hm : Ends σ m st₁ (.ok w, st₂)) (hw : w.isTrue = x)
    (hr : yes st₂ r) :
    (before ++ m :: after).foldr (fun m rest => Branch x (Ends σ m) yes rest) no st r := by
  obtain ⟨depth, hbefore⟩ := hbefore
  induction hbefore with
  | nil st => exact .yes hm hw hr
  | cons hn hrest ih =>
    refine .no ⟨by simp, depth, hn⟩ (hvs _ List.mem_cons_self) ?_
    exact ih (fun v hv => hvs v (List.mem_cons_of_mem _ hv)) hm

/-- The first operand with the truth value that decides ends the whole, whatever stands behind it. -/
theorem Joins.ends_of_decided {st st₁ st₂ : RunState} {vs : List Value} {w : Value}
    (h : Joins (decidedBy x) (decidedBy x a b) (before ++ m :: after))
    (hbefore : GivesInTurn σ before st vs st₁) (hvs : ∀ v ∈ vs, v.isTrue = !x)
    (hm : Ends σ m st₁ (.ok w, st₂)) (hw : w.isTrue = x) :
    Ends σ (decidedBy x a b) st (.ok (.bool x), st₂) := by
  have hbranch := h.branch_eq (σ := σ) (Done (.bool x)) (Done (.bool !x))
  rw [branch_decidedBy, ← ends_decidedBy] at hbranch
  rw [hbranch]
  exact foldr_branch_of_decided hbefore hvs hm hw rfl

/-- What the right operand would do is not even asked for if the left one decides. -/
theorem gives_step_of_decided {execute : Node → Run Value} {render : Value → Run String}
    {st st₁ : RunState} {v : Value} (ha : Gives (execute a) st v st₁) (hv : v.isTrue = x) :
    Gives (step σ execute render (decidedBy x a b)) st (.bool x) st₁ := by
  cases x with
  | true =>
    refine ha.bind ?_
    rw [if_pos hv]
    exact gives_pure _ _
  | false =>
    refine ha.bind ?_
    rw [if_neg (by simp [hv])]
    exact gives_pure _ _

end

end Run

open Run

/-- The Boolean operators are associative, a negation turns one into the other and into its opposite,
and conditionals may be turned round or taken apart: each pair of trees ends in the same ways from
every state. Where operands are joined by one operator, the first one that decides the value ends the
whole in the state that it leaves, whatever trees stand behind it. A step for such a form never asks
for the right operand if the left one decides, whatever it is that runs trees. -/
theorem boolean_laws (σ : Setting) (a b c : Node) :
    EndAlike σ (.or (.or a b) c) (.or a (.or b c)) ∧
    EndAlike σ (.and (.and a b) c) (.and a (.and b c)) ∧
    EndAlike σ (.not (.or a b)) (.and (.not a) (.not b)) ∧
    EndAlike σ (.not (.and a b)) (.or (.not a) (.not b)) ∧
    EndAlike σ (.not (.not a)) (.or a (.constant (.bool false))) ∧
    EndAlike σ (.ifElse (.not a) b c) (.ifElse a c b) ∧
    EndAlike σ (.ifThen (.and a b) c) (.ifThen a (.ifThen b c)) ∧
    (∀ x before m after, Joins (decidedBy x) (decidedBy x a b) (before ++ m :: after) →
      ∀ st vs st₁ w st₂, GivesInTurn σ before st vs st₁ → (∀ v ∈ vs, v.isTrue = !x) →
        Ends σ m st₁ (.ok w, st₂) → w.isTrue = x →
          Ends σ (decidedBy x a b) st (.ok (.bool x), st₂)) ∧
    ∀ execute render st v st₁, Gives (execute a) st v st₁ →
      Gives (step σ execute render (decidedBy v.isTrue a b)) st (.bool v.isTrue) st₁ :=
  ⟨endAlike_assoc true, endAlike_assoc false, endAlike_not true, endAlike_not false,
    endAlike_not_not true, endAlike_ifElse_not, endAlike_ifThen_and,
    fun _ _ _ _ h _ _ _ _ _ hbefore hvs hm hw => h.ends_of_decided hbefore hvs hm hw,
    fun _ _ _ _ _ ha => gives_step_of_decided ha rfl⟩

/-- An empty text does not decide and a number does, so that the unknown name behind them does no
harm, as it does by itself. -/
theorem or_with_unknown_name :
    let σ : Setting := ⟨.empty, true⟩
    let st := RunState.initial
    let st' : RunState := { st with output := "\n" }
    let a := Node.printValue (.constant (.string ""))
    let b := Node.constant (.number 5)
    let c := Node.path ⟨"x", []⟩
    Ends σ (.or (.or a b) c) st (.ok (.bool true), st') ∧
      Ends σ (.or a (.or b c)) st (.ok (.bool true), st') ∧
      Ends σ c st (.error (.failed (.undefinedName "x")), st) := by
  intro σ st st' a b c
  have ha : outcome (execute σ 3 a) st = (.ok (.string ""), st') := by decide +kernel
  have hjoins : Joins (decidedBy true) (.or (.or a b) c) ([a] ++ [b] ++ [c]) :=
    .join (.join (.operand a) (.operand b)) (.operand c)
  obtain ⟨-, -, -, -, -, -, -, hdecided, -⟩ := boolean_laws σ (.or a b) c b
  obtain ⟨hassoc, -⟩ := boolean_laws σ a b c
  have hends : Ends σ (.or (.or a b) c) st (.ok (.bool true), st') :=
    hdecided true [a] b [c] hjoins st [.string ""] st' (.number 5) st'
      ⟨3, .cons ha (.nil st')⟩ (by decide) ⟨by simp, 1, rfl⟩ rfl
  exact ⟨hends, (hassoc st _).1 hends, by simp, 1, by decide +kernel⟩

end Offside
