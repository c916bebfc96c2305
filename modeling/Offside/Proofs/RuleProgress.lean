import Offside.Parse.Statement
import Offside.Proofs.TokenTrails

set_option autoImplicit false

/-! # The rules of the language pass tokens

Every rule for an expression, a statement, a block, a method or a class passes a token where it gives
a result. So every round of a loop over such a rule does, and no loop stays where it is. -/

namespace Offside.Parse.Passes

variable {σ : Type}

/-! ## Loops over rules that pass a token -/

theorem many {α : Type} {done : Rule (Trail σ) Bool} {item : Rule (Trail σ) α}
    (hdone : Passes done fun _ => 0) (hitem : Passes item fun _ => 1) (n : Nat) :
    Passes (many done item n) fun _ => 0 := by
  rw [many_eq_rounds]
  exact .rounds (.manyRound hdone hitem) n []

variable [TokenSupply σ] {test inner : Rule (Trail σ) Node}

theorem commaSeparated {α : Type} {item : Rule (Trail σ) α} (hitem : Passes item fun _ => 1)
    (n : Nat) : Passes (commaSeparated item n) fun _ => 0 := by
  rw [commaSeparated_eq_rounds]
  exact .rounds (.commaRound hitem) n []

theorem leftChain {join? : Token → Option (Node → Node → Node)} {operand : Rule (Trail σ) Node}
    (hjoin : join? .endOfInput = none) (h : Passes operand fun _ => 1) (n : Nat) :
    Passes (leftChain join? operand n) fun _ => 1 := by
  refine h.bind fun first => ?_
  rw [chain_eq_rounds]
  exact .rounds (.chainRound hjoin h) n first

theorem signed {sign : Token} (hsign : sign ≠ .endOfInput) (change : Node → Node)
    {operand : Rule (Trail σ) Node} (h : Passes operand fun _ => 1) (n : Nat) :
    Passes (signed sign change operand n) fun _ => 1 := by
  induction n with
  | zero => exact .throw (.limit .depth)
  | succ n ih =>
    refine (accept hsign).bind fun b => ?_
    cases b with
    | true => exact ih.bind fun inner => .pure rfl
    | false => exact h

/-! ## Operands -/

theorem members (n : Nat) : Passes (members n : Rule (Trail σ) (List String)) fun _ => 0 := by
  induction n with
  | zero => exact .throw (.limit .depth)
  | succ n ih =>
    refine (accept (by simp)).bind fun b => ?_
    cases b with
    | true => exact (requireName _).bind fun name => ih.bind fun rest => .pure rfl
    | false => exact .pure rfl

theorem arguments (h : Passes test fun _ => 1) (n : Nat) :
    Passes (arguments test n) fun _ => 1 := by
  have hclose : ∀ args : List Node,
      Passes (do Parse.require (.char ')') .noClosingParenthesis; return args : Rule (Trail σ) _)
        fun _ => 1 :=
    fun _ => (require _ (by simp)).bind fun _ => .pure rfl
  exact look fun t => ite (hclose []) ((commaSeparated h n).bind hclose)

theorem callNode (path : DottedPath) (args : List Node) :
    Passes (callNode path args : Rule (Trail σ) Node) fun _ => 0 := by
  unfold Parse.callNode
  cases path.split? with
  | some p => exact .pure rfl
  | none =>
    refine .ite ?_ ((class? _).bind fun c? => ?_)
    · match args with
      | [argument] => exact .pure rfl
      | [] => exact .fail _
      | _ :: _ :: _ => exact .fail _
    · cases c? with
      | some c => exact .pure rfl
      | none => exact .fail _

theorem nameExpression (h : Passes test fun _ => 1) (n : Nat) (first : String) :
    Passes (nameExpression test n first) fun _ => 0 := by
  refine (members n).bind fun rest => (accept (by simp)).bind fun b => ?_
  cases b with
  | true => exact (arguments h n).bind fun args => callNode ⟨first, rest⟩ args
  | false => exact .pure rfl

theorem primary (h : Passes test fun _ => 1) (n : Nat) : Passes (primary test n) fun _ => 1 := by
  refine current_bind fun st t ht => ?_
  have hadvance : t ≠ .endOfInput → PassesFrom st Parse.advance fun _ => 1 :=
    fun hend => .advance (ht ▸ hend)
  cases t with
  | number value => exact (hadvance (by simp)).bind fun _ => .pure rfl
  | string text => exact (hadvance (by simp)).bind fun _ => .pure rfl
  | keyword word =>
    cases word with
    | trueWord | falseWord | noneWord => exact (hadvance (by simp)).bind fun _ => .pure rfl
    | _ => exact Passes.fail _ st
  | name first => exact (hadvance (by simp)).bind fun _ => nameExpression h n first
  | char c =>
    by_cases hc : c = '('
    · subst hc
      exact (hadvance (by simp)).bind fun _ => h.bind fun e =>
        (require _ (by simp)).bind fun _ => .pure rfl
    · simp only [Token.char.injEq, hc, imp_self]
      exact Passes.fail _ st
  | _ => exact Passes.fail _ st

/-! ## Levels -/

theorem unary (h : Passes test fun _ => 1) (n : Nat) : Passes (unary test n) fun _ => 1 :=
  signed (by simp) _ (primary h n) n

theorem product (h : Passes test fun _ => 1) (n : Nat) : Passes (product test n) fun _ => 1 :=
  leftChain rfl (unary h n) n

theorem sum (h : Passes test fun _ => 1) (n : Nat) : Passes (sum test n) fun _ => 1 :=
  leftChain rfl (product h n) n

theorem comparison (h : Passes test fun _ => 1) (n : Nat) :
    Passes (comparison test n) fun _ => 1 := by
  refine (sum h n).bind fun left => current_bind fun st t ht => ?_
  cases hc : comparator? t with
  | none => exact Passes.pure (x := left) rfl st
  | some c =>
    have hend : t ≠ .endOfInput := by
      rintro rfl
      simp [comparator?] at hc
    exact (PassesFrom.advance (ht ▸ hend)).bind fun _ => (sum h n).bind fun right => .pure rfl

theorem negation (h : Passes test fun _ => 1) (n : Nat) : Passes (negation test n) fun _ => 1 :=
  signed (by simp) _ (comparison h n) n

theorem conjunction (h : Passes test fun _ => 1) (n : Nat) :
    Passes (conjunction test n) fun _ => 1 :=
  leftChain rfl (negation h n) n

theorem disjunction (h : Passes test fun _ => 1) (n : Nat) :
    Passes (disjunction test n) fun _ => 1 :=
  leftChain rfl (conjunction h n) n

theorem expression (n : Nat) : Passes (expression n : Rule (Trail σ) Node) fun _ => 1 := by
  induction n with
  | zero => exact .throw (.limit .depth)
  | succ n ih => exact disjunction ih n

/-! ## Lines -/

theorem returned (n : Nat) : Passes (returned n : Rule (Trail σ) Node) fun _ => 0 :=
  look fun _ => ite (.pure rfl) ((expression n).mono fun _ => Nat.zero_le 1)

theorem printed (n : Nat) : Passes (printed n : Rule (Trail σ) (List Node)) fun _ => 0 :=
  look fun _ => ite (.pure rfl) (commaSeparated (expression n) n)

theorem assignment (n : Nat) : Passes (assignment n : Rule (Trail σ) Node) fun _ => 1 := by
  refine (expression n).bind fun target => (accept (by simp)).bind fun b => ?_
  cases b with
  | true =>
    cases target with
    | path path => exact (expression n).bind fun value => .pure rfl
    | _ => exact .fail _
  | false => exact .pure rfl

theorem simpleStatement (n : Nat) :
    Passes (simpleStatement n : Rule (Trail σ) Node) fun _ => 1 := by
  refine (accept (by simp)).bind fun b => ?_
  cases b with
  | true => exact (returned n).bind fun value => .pure rfl
  | false =>
    refine (accept (by simp)).bind fun b => ?_
    cases b with
    | true => exact (printed n).bind fun args => .pure rfl
    | false => exact assignment n

/-! ## Blocks -/

/-- Until the step out of a block. -/
theorem acceptDedent : Passes (Parse.accept .dedent : Rule (Trail σ) Bool) fun _ => 0 :=
  (accept (by simp)).mono fun _ => Nat.zero_le _

theorem suite (h : Passes inner fun _ => 1) (n : Nat) : Passes (suite inner n) fun _ => 1 :=
  (require _ (by simp)).bind fun _ => (require _ (by simp)).bind fun _ =>
    (many acceptDedent h n).bind fun _ => .pure rfl

theorem conditional (h : Passes inner fun _ => 1) (n : Nat) :
    Passes (conditional inner n) fun _ => 1 := by
  refine (expression n).bind fun condition => (require _ (by simp)).bind fun _ =>
    (suite h n).bind fun body => (accept (by simp)).bind fun b => ?_
  cases b with
  | true =>
    exact (require _ (by simp)).bind fun _ => (suite h n).bind fun alternative => .pure rfl
  | false => exact .pure rfl

/-! ## Classes -/

theorem parameters (n : Nat) : Passes (parameters n : Rule (Trail σ) (List String)) fun _ => 0 :=
  look fun _ => ite (.pure rfl) (commaSeparated (requireName _) n)

theorem method (h : Passes inner fun _ => 1) (n : Nat) : Passes (method inner n) fun _ => 1 :=
  (require _ (by simp)).bind fun _ => (requireName _).bind fun _ =>
    (require _ (by simp)).bind fun _ => (parameters n).bind fun _ =>
      (require _ (by simp)).bind fun _ => (require _ (by simp)).bind fun _ =>
        (suite h n).bind fun _ => .pure rfl

theorem baseClass : Passes (baseClass : Rule (Trail σ) (Option ClassRef)) fun _ => 0 := by
  refine (accept (by simp)).bind fun b => ?_
  cases b with
  | true =>
    refine (requireName _).bind fun name => (class? name).bind fun c? => ?_
    cases c? with
    | none => exact .fail _
    | some c => exact (require _ (by simp)).bind fun _ => .pure rfl
  | false => exact .pure rfl

theorem classDefinition (h : Passes inner fun _ => 1) (n : Nat) :
    Passes (classDefinition inner n) fun _ => 1 := by
  refine (requireName _).bind fun name => (class? name).bind fun c? => ?_
  have hfail : Passes (Parse.fail (.classDefined name) : Rule (Trail σ) Unit) fun _ => 0 := fail _
  -- Both branches go on with the rest of the definition, the first one behind the failure.
  refine ite (hfail.bind fun _ => ?_) ?_ <;>
    exact baseClass.bind fun parent? => (require _ (by simp)).bind fun _ =>
      (require _ (by simp)).bind fun _ => (require _ (by simp)).bind fun _ =>
        (defineClass name parent?).bind fun c =>
          (many acceptDedent (method h n) n).bind fun methods =>
            (setMethods c methods).bind fun _ => (parentName parent?).bind fun _ =>
              (report _).bind fun _ => .pure rfl

/-! ## Statements and programs -/

theorem statement (n : Nat) : Passes (statement n : Rule (Trail σ) Node) fun _ => 1 := by
  induction n with
  | zero => exact .throw (.limit .depth)
  | succ n ih =>
    refine (accept (by simp)).bind fun b => ?_
    cases b with
    | true => exact (classDefinition ih n).mono fun _ => Nat.zero_le 1
    | false =>
      refine (accept (by simp)).bind fun b => ?_
      cases b with
      | true => exact (conditional ih n).mono fun _ => Nat.zero_le 1
      | false =>
        exact (simpleStatement n).bind fun s => (require _ (by simp)).bind fun _ => .pure rfl

theorem statements (n : Nat) : Passes (statements n : Rule (Trail σ) (List Node)) fun _ => 0 :=
  (many atEnd (statement n) n).bind fun _ => (report _).bind fun _ => .pure rfl

end Offside.Parse.Passes
