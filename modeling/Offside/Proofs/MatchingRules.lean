import Offside.Parse.Statement
import Offside.Proofs.MatchingSupplies

set_option autoImplicit false

/-! # The rules of the language over two supplies

Every rule, from dotted paths up to whole programs, does the same from matching positions of two
supplies. Each is shown along its text, from the rules that it is made of. -/

namespace Offside.Matching.Agrees

open Parse

variable {σ τ : Type} [TokenSupply σ] [TokenSupply τ] {M : Matching σ τ} {n m : Nat}
  {test inner : Rule σ Node} {test' inner' : Rule τ Node}

/-! ## Operands -/

theorem members : M.Bounds n m → M.Agrees (members n) (Parse.members m) := by
  refine of_bounds rfl rfl fun n m _ ih => ?_
  refine .bind (.accept _) fun b => ?_
  cases b with
  | true => exact .bind (.requireName _) fun name => .bind ih fun rest => .pure (name :: rest)
  | false => exact .pure []

theorem arguments (h : M.Agrees test test') (hn : M.Bounds n m) :
    M.Agrees (arguments test n) (Parse.arguments test' m) := by
  have hclose : ∀ args : List Node,
      M.Agrees (do Parse.require (.char ')') .noClosingParenthesis; return args)
        (do Parse.require (.char ')') .noClosingParenthesis; return args) :=
    fun _ => .bind (.require _ _) fun _ => .pure _
  refine .bind .current fun t => ?_
  exact .ite (hclose []) (.bind (.commaSeparated h hn) hclose)

theorem callNode (path : DottedPath) (args : List Node) :
    M.Agrees (callNode path args) (Parse.callNode path args) := by
  unfold Parse.callNode
  cases path.split? with
  | some p => exact .pure _
  | none =>
    refine .ite ?_ (.bind (.class? _) fun c? => ?_)
    · match args with
      | [argument] => exact .pure _
      | [] => exact .fail _
      | _ :: _ :: _ => exact .fail _
    · cases c? with
      | some c => exact .pure _
      | none => exact .fail _

theorem nameExpression (h : M.Agrees test test') (hn : M.Bounds n m) (first : String) :
    M.Agrees (nameExpression test n first) (Parse.nameExpression test' m first) := by
  refine .bind (.members hn) fun rest => .bind (.accept _) fun b => ?_
  cases b with
  | true => exact .bind (.arguments h hn) fun args => .callNode ⟨first, rest⟩ args
  | false => exact .pure _

theorem primary (h : M.Agrees test test') (hn : M.Bounds n m) :
    M.Agrees (primary test n) (Parse.primary test' m) := by
  have hconstant : ∀ v : Value, M.Agrees (do Parse.advance; return Node.constant v)
      (do Parse.advance; return Node.constant v) :=
    fun v => .bind .advance fun _ => .pure _
  refine .bind .current fun t => ?_
  cases t with
  | number value => exact hconstant _
  | string text => exact hconstant _
  | keyword word =>
    cases word with
    | trueWord => exact hconstant _
    | falseWord => exact hconstant _
    | noneWord => exact hconstant _
    | _ => exact .fail _
  | name first => exact .bind .advance fun _ => .nameExpression h hn first
  | char c =>
    by_cases hc : c = '('
    · subst hc
      exact .bind .advance fun _ => .bind h fun e => .bind (.require _ _) fun _ => .pure e
    · simp only [Token.char.injEq, hc, imp_self]
      exact .fail _
  | _ => exact .fail _

/-! ## Levels -/

theorem unary (h : M.Agrees test test') (hn : M.Bounds n m) :
    M.Agrees (unary test n) (Parse.unary test' m) :=
  .signed _ _ (.primary h hn) hn

theorem product (h : M.Agrees test test') (hn : M.Bounds n m) :
    M.Agrees (product test n) (Parse.product test' m) :=
  .leftChain _ (.unary h hn) hn

theorem sum (h : M.Agrees test test') (hn : M.Bounds n m) :
    M.Agrees (sum test n) (Parse.sum test' m) :=
  .leftChain _ (.product h hn) hn

theorem comparison (h : M.Agrees test test') (hn : M.Bounds n m) :
    M.Agrees (comparison test n) (Parse.comparison test' m) := by
  refine .bind (.sum h hn) fun left => .bind .current fun t => ?_
  cases comparator? t with
  | none => exact .pure left
  | some c => exact .bind .advance fun _ => .bind (.sum h hn) fun right => .pure _

theorem negation (h : M.Agrees test test') (hn : M.Bounds n m) :
    M.Agrees (negation test n) (Parse.negation test' m) :=
  .signed _ _ (.comparison h hn) hn

theorem conjunction (h : M.Agrees test test') (hn : M.Bounds n m) :
    M.Agrees (conjunction test n) (Parse.conjunction test' m) :=
  .leftChain _ (.negation h hn) hn

theorem disjunction (h : M.Agrees test test') (hn : M.Bounds n m) :
    M.Agrees (disjunction test n) (Parse.disjunction test' m) :=
  .leftChain _ (.conjunction h hn) hn

theorem expression : M.Bounds n m → M.Agrees (expression n) (Parse.expression m) :=
  of_bounds rfl rfl fun _ _ hn ih => .disjunction ih hn

/-! ## Lines -/

theorem returned (hn : M.Bounds n m) : M.Agrees (returned n) (Parse.returned m) :=
  .bind .current fun _ => .ite (.pure _) (.expression hn)

theorem printed (hn : M.Bounds n m) : M.Agrees (printed n) (Parse.printed m) :=
  .bind .current fun _ => .ite (.pure []) (.commaSeparated (.expression hn) hn)

theorem assignment (hn : M.Bounds n m) : M.Agrees (assignment n) (Parse.assignment m) := by
  refine .bind (.expression hn) fun target => .bind (.accept _) fun b => ?_
  cases b with
  | true =>
    cases target with
    | path path => exact .bind (.expression hn) fun value => .pure _
    | _ => exact .fail _
  | false => exact .pure target

theorem simpleStatement (hn : M.Bounds n m) :
    M.Agrees (simpleStatement n) (Parse.simpleStatement m) := by
  refine .bind (.accept _) fun b => ?_
  cases b with
  | true => exact .bind (.returned hn) fun value => .pure _
  | false =>
    refine .bind (.accept _) fun b => ?_
    cases b with
    | true => exact .bind (.printed hn) fun args => .pure _
    | false => exact .assignment hn

/-! ## Blocks -/

theorem suite (h : M.Agrees inner inner') (hn : M.Bounds n m) :
    M.Agrees (suite inner n) (Parse.suite inner' m) :=
  .bind (.require _ _) fun _ => .bind (.require _ _) fun _ =>
    .bind (.many (.accept _) h hn) fun _ => .pure _

theorem conditional (h : M.Agrees inner inner') (hn : M.Bounds n m) :
    M.Agrees (conditional inner n) (Parse.conditional inner' m) := by
  refine .bind (.expression hn) fun condition => .bind (.require _ _) fun _ =>
    .bind (.suite h hn) fun body => .bind (.accept _) fun b => ?_
  cases b with
  | true => exact .bind (.require _ _) fun _ => .bind (.suite h hn) fun alternative => .pure _
  | false => exact .pure _

/-! ## Classes -/

theorem parameters (hn : M.Bounds n m) : M.Agrees (parameters n) (Parse.parameters m) :=
  .bind .current fun _ => .ite (.pure []) (.commaSeparated (.requireName _) hn)

theorem method (h : M.Agrees inner inner') (hn : M.Bounds n m) :
    M.Agrees (method inner n) (Parse.method inner' m) :=
  .bind (.require _ _) fun _ => .bind (.requireName _) fun _ => .bind (.require _ _) fun _ =>
    .bind (.parameters hn) fun _ => .bind (.require _ _) fun _ => .bind (.require _ _) fun _ =>
      .bind (.suite h hn) fun _ => .pure _

theorem baseClass : M.Agrees baseClass Parse.baseClass := by
  refine .bind (.accept _) fun b => ?_
  cases b with
  | true =>
    refine .bind (.requireName _) fun name => .bind (.class? name) fun c? => ?_
    cases c? with
    | none => exact .fail _
    | some c => exact .bind (.require _ _) fun _ => .pure _
  | false => exact .pure none

theorem parentName (parent? : Option ClassRef) :
    M.Agrees (parent?.mapM Parse.className) (parent?.mapM Parse.className) := by
  cases parent? with
  | none => exact .pure none
  | some c => exact .bind (.className c) fun name => .pure _

theorem classDefinition (h : M.Agrees inner inner') (hn : M.Bounds n m) :
    M.Agrees (classDefinition inner n) (Parse.classDefinition inner' m) := by
  refine .bind (.requireName _) fun name => .bind (.class? name) fun c? => ?_
  -- Both branches go on with the rest of the definition, the first one behind the failure.
  refine .ite (.bind (.fail _) fun _ => ?_) ?_ <;>
    exact .bind .baseClass fun parent? => .bind (.require _ _) fun _ =>
      .bind (.require _ _) fun _ => .bind (.require _ _) fun _ =>
        .bind (.defineClass name parent?) fun c =>
          .bind (.many (.accept _) (.method h hn) hn) fun methods =>
            .bind (.setMethods c methods) fun _ => .bind (.parentName parent?) fun _ =>
              .bind (.report rfl) fun _ => .pure _

/-! ## Statements and programs -/

theorem statement : M.Bounds n m → M.Agrees (Parse.statement n) (Parse.statement m) := by
  refine of_bounds rfl rfl fun n m hn ih => ?_
  refine .bind (.accept _) fun b => ?_
  cases b with
  | true => exact .classDefinition ih hn
  | false =>
    refine .bind (.accept _) fun b => ?_
    cases b with
    | true => exact .conditional ih hn
    | false => exact .bind (.simpleStatement hn) fun s => .bind (.require _ _) fun _ => .pure s

theorem statements (hn : M.Bounds n m) : M.Agrees (statements n) (Parse.statements m) :=
  .bind (.many .atEnd (.statement hn) hn) fun body => .bind (.report rfl) fun _ => .pure body

end Offside.Matching.Agrees
