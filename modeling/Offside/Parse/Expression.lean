import Offside.Parse.Basic

set_option autoImplicit false

/-! # Expressions

The grammar of expressions, from the loosest binding to the tightest:

* `or`, `and` and then `not`, which may be repeated;
* at most one comparison;
* sums and differences, then products and quotients, both from the left;
* a minus sign, which may be repeated and stands for a difference from zero;
* a literal, an expression in parentheses, a dotted path, or a call. A call of a single name either
  prints its one argument, when the name is `str`, or makes an object of a class.

Each level is a rule over the rule `test` for expressions inside parentheses, and `expression` ties
the knot. -/

namespace Offside.Parse

variable {σ : Type} [TokenSupply σ]

/-! ## Operators -/

/-- What `or` makes of its operands. -/
def disjunction? : Token → Option (Node → Node → Node)
  | .keyword .orWord => some .or
  | _ => none

/-- What `and` makes of its operands. -/
def conjunction? : Token → Option (Node → Node → Node)
  | .keyword .andWord => some .and
  | _ => none

/-- What the additive signs make of their operands. -/
def additive? : Token → Option (Node → Node → Node)
  | .char '+' => some (.arithmetic .add)
  | .char '-' => some (.arithmetic .sub)
  | _ => none

/-- What the multiplicative signs make of their operands. -/
def multiplicative? : Token → Option (Node → Node → Node)
  | .char '*' => some (.arithmetic .mul)
  | .char '/' => some (.arithmetic .div)
  | _ => none

/-- The comparison that a token stands for. -/
def comparator? : Token → Option Comparator
  | .paired .equal => some .equal
  | .paired .notEqual => some .notEqual
  | .paired .lessOrEqual => some .lessOrEqual
  | .paired .greaterOrEqual => some .greaterOrEqual
  | .char '<' => some .less
  | .char '>' => some .greater
  | _ => none

/-- The negative of an expression. -/
def negative (e : Node) : Node :=
  .arithmetic .sub (.constant (.number 0)) e

/-! ## Operands -/

/-- The name whose call gives the printed form of its argument. -/
def strFunction : String := "str"

/-- The names behind the dots of a path. -/
def members : Nat → Rule σ (List String)
  | 0 => throw (.limit .depth)
  | n + 1 => do
    if ← accept (.char '.') then
      let name ← requireName .noMemberName
      let rest ← members n
      return name :: rest
    else return []

/-- The arguments of a call, from behind the opening parenthesis on. -/
def arguments (test : Rule σ Node) (n : Nat) : Rule σ (List Node) := do
  let args ← if (← current) = .char ')' then pure [] else commaSeparated test n
  require (.char ')') .noClosingParenthesis
  return args

/-- The tree of a call. The call of a single name must be that of `str` with one argument or that of
a class. -/
def callNode (path : DottedPath) (args : List Node) : Rule σ Node := do
  match path.split? with
  | some (receiver, method) => return .call (.path receiver) method args
  | none =>
    if path.first = strFunction then
      match args with
      | [argument] => return .stringify argument
      | _ => fail .oneArgumentNeeded
    else
      match ← class? path.first with
      | some c => return .construct c args
      | none => fail (.unknownClass path.first)

/-- A path that begins with `first`, or a call of one, from behind that name on. -/
def nameExpression (test : Rule σ Node) (n : Nat) (first : String) : Rule σ Node := do
  let rest ← members n
  if ← accept (.char '(') then
    let args ← arguments test n
    callNode ⟨first, rest⟩ args
  else return .path ⟨first, rest⟩

/-- A literal, an expression in parentheses, a path or a call. -/
def primary (test : Rule σ Node) (n : Nat) : Rule σ Node := do
  match ← current with
  | .number value =>
    advance
    return .constant (.number value)
  | .string text =>
    advance
    return .constant (.string text)
  | .keyword .trueWord =>
    advance
    return .constant (.bool true)
  | .keyword .falseWord =>
    advance
    return .constant (.bool false)
  | .keyword .noneWord =>
    advance
    return .constant .empty
  | .char '(' =>
    advance
    let e ← test
    require (.char ')') .noClosingParenthesis
    return e
  | .name first =>
    advance
    nameExpression test n first
  | _ => fail .noExpression

/-! ## Levels -/

/-- An operand after any number of minus signs. -/
def unary (test : Rule σ Node) (n : Nat) : Rule σ Node :=
  signed (.char '-') negative (primary test n) n

/-- Products and quotients. -/
def product (test : Rule σ Node) (n : Nat) : Rule σ Node :=
  leftChain multiplicative? (unary test n) n

/-- Sums and differences. -/
def sum (test : Rule σ Node) (n : Nat) : Rule σ Node :=
  leftChain additive? (product test n) n

/-- Two sums compared, or one sum. -/
def comparison (test : Rule σ Node) (n : Nat) : Rule σ Node := do
  let left ← sum test n
  match comparator? (← current) with
  | none => return left
  | some c =>
    advance
    let right ← sum test n
    return .compare c left right

/-- A comparison after any number of `not`. -/
def negation (test : Rule σ Node) (n : Nat) : Rule σ Node :=
  signed (.keyword .notWord) .not (comparison test n) n

/-- Operands of `and`. -/
def conjunction (test : Rule σ Node) (n : Nat) : Rule σ Node :=
  leftChain conjunction? (negation test n) n

/-- Operands of `or`. -/
def disjunction (test : Rule σ Node) (n : Nat) : Rule σ Node :=
  leftChain disjunction? (conjunction test n) n

/-- An expression of at most `n` tokens. -/
def expression : Nat → Rule σ Node
  | 0 => throw (.limit .depth)
  | n + 1 => disjunction (expression n) n

end Offside.Parse
