import Offside.Parse.Expression

set_option autoImplicit false

/-! # The grammar of expressions

`Derives` tells which tokens are an expression and of which tree, apart from any way to read them.
Operators of one level group from the left, so the left operand of such an operator is of the level
itself and the right one of the next; a sign before an operand may be repeated; two sums are
compared at most once.

What a single name in front of arguments stands for is a parameter of the grammar: a class, or none.

With the grammar go two tables: the tokens that a level can begin with, and the tokens with which
something that is already of a level could go on. -/

namespace Offside

open Parse (strFunction negative)

/-- The levels of expressions, from the loosest binding to the tightest. -/
inductive Level
  | test
  | conjunction
  | negation
  | comparison
  | sum
  | product
  | unary
  | primary
  deriving DecidableEq, Repr, Inhabited

/-- How a comparison is written. -/
def Comparator.token : Comparator → Token
  | equal => .paired .equal
  | notEqual => .paired .notEqual
  | lessOrEqual => .paired .lessOrEqual
  | greaterOrEqual => .paired .greaterOrEqual
  | less => .char '<'
  | greater => .char '>'

/-- How a path is written. -/
def DottedPath.tokens (p : DottedPath) : List Token :=
  .name p.first :: p.rest.flatMap fun name => [.char '.', .name name]

/-- How several things are written with commas between them. -/
def commaTokens (parts : List (List Token)) : List Token := [.char ','].intercalate parts

/-- How things are written behind the name of what they are given to. -/
def argumentTokens (parts : List (List Token)) : List Token :=
  .char '(' :: (commaTokens parts ++ [.char ')'])

@[simp] theorem commaTokens_singleton (part : List Token) : commaTokens [part] = part :=
  List.intercalate_singleton

theorem commaTokens_cons_cons (a b : List Token) (parts : List (List Token)) :
    commaTokens (a :: b :: parts) = a ++ .char ',' :: commaTokens (b :: parts) := by
  simp [commaTokens, List.intercalate_cons_cons]

/-- What several parts begin with is what the first one begins with. -/
theorem exists_commaTokens_cons (t : Token) (ts : List Token) (parts : List (List Token)) :
    ∃ us, commaTokens ((t :: ts) :: parts) = t :: us := by
  cases parts with
  | nil => exact ⟨ts, commaTokens_singleton _⟩
  | cons b parts => exact ⟨_, commaTokens_cons_cons _ b parts⟩

/-- A part is no longer than all with the commas between them. -/
theorem length_le_commaTokens {parts : List (List Token)} {part : List Token} (h : part ∈ parts) :
    part.length ≤ (commaTokens parts).length := by
  induction parts with
  | nil => simp at h
  | cons a parts ih =>
    cases parts with
    | nil =>
      obtain rfl := List.mem_singleton.1 h
      exact Nat.le_of_eq (by rw [commaTokens_singleton])
    | cons b parts =>
      rw [commaTokens_cons_cons, List.length_append, List.length_cons]
      rcases List.mem_cons.1 h with rfl | h
      · omega
      · have := ih h
        omega

/-- There are no more parts than tokens of them. -/
theorem length_parts_le {parts : List (List Token)} (h : ∀ part ∈ parts, part ≠ []) :
    parts.length ≤ (commaTokens parts).length := by
  induction parts with
  | nil => exact Nat.zero_le _
  | cons a parts ih =>
    have ha := List.length_pos_iff.2 (h a (List.mem_cons_self ..))
    have hparts := ih fun part hm => h part (List.mem_cons_of_mem _ hm)
    cases parts with
    | nil =>
      rw [commaTokens_singleton]
      exact ha
    | cons b parts =>
      rw [commaTokens_cons_cons, List.length_append]
      simp only [List.length_cons] at hparts ⊢
      omega

/-- The tokens are an expression of this level, and this is its tree. -/
inductive Derives (class? : String → Option ClassRef) : Level → List Token → Node → Prop
  | ofConjunction {us : List Token} {e : Node} (h : Derives class? .conjunction us e) :
      Derives class? .test us e
  | or {us vs : List Token} {left right : Node} (hleft : Derives class? .test us left)
      (hright : Derives class? .conjunction vs right) :
      Derives class? .test (us ++ .keyword .orWord :: vs) (.or left right)
  | ofNegation {us : List Token} {e : Node} (h : Derives class? .negation us e) :
      Derives class? .conjunction us e
  | and {us vs : List Token} {left right : Node} (hleft : Derives class? .conjunction us left)
      (hright : Derives class? .negation vs right) :
      Derives class? .conjunction (us ++ .keyword .andWord :: vs) (.and left right)
  | ofComparison {us : List Token} {e : Node} (h : Derives class? .comparison us e) :
      Derives class? .negation us e
  | not {us : List Token} {e : Node} (h : Derives class? .negation us e) :
      Derives class? .negation (.keyword .notWord :: us) (.not e)
  | ofSum {us : List Token} {e : Node} (h : Derives class? .sum us e) :
      Derives class? .comparison us e
  | compare {us vs : List Token} {left right : Node} (c : Comparator)
      (hleft : Derives class? .sum us left) (hright : Derives class? .sum vs right) :
      Derives class? .comparison (us ++ c.token :: vs) (.compare c left right)
  | ofProduct {us : List Token} {e : Node} (h : Derives class? .product us e) :
      Derives class? .sum us e
  | add {us vs : List Token} {left right : Node} (hleft : Derives class? .sum us left)
      (hright : Derives class? .product vs right) :
      Derives class? .sum (us ++ .char '+' :: vs) (.arithmetic .add left right)
  | sub {us vs : List Token} {left right : Node} (hleft : Derives class? .sum us left)
      (hright : Derives class? .product vs right) :
      Derives class? .sum (us ++ .char '-' :: vs) (.arithmetic .sub left right)
  | ofUnary {us : List Token} {e : Node} (h : Derives class? .unary us e) :
      Derives class? .product us e
  | mul {us vs : List Token} {left right : Node} (hleft : Derives class? .product us left)
      (hright : Derives class? .unary vs right) :
      Derives class? .product (us ++ .char '*' :: vs) (.arithmetic .mul left right)
  | div {us vs : List Token} {left right : Node} (hleft : Derives class? .product us left)
      (hright : Derives class? .unary vs right) :
      Derives class? .product (us ++ .char '/' :: vs) (.arithmetic .div left right)
  | ofPrimary {us : List Token} {e : Node} (h : Derives class? .primary us e) :
      Derives class? .unary us e
  | negative {us : List Token} {e : Node} (h : Derives class? .unary us e) :
      Derives class? .unary (.char '-' :: us) (negative e)
  | number (value : Nat) : Derives class? .primary [.number value] (.constant (.number value))
  | string (text : String) : Derives class? .primary [.string text] (.constant (.string text))
  | true : Derives class? .primary [.keyword .trueWord] (.constant (.bool true))
  | false : Derives class? .primary [.keyword .falseWord] (.constant (.bool false))
  | none : Derives class? .primary [.keyword .noneWord] (.constant .empty)
  | parentheses {us : List Token} {e : Node} (h : Derives class? .test us e) :
      Derives class? .primary (.char '(' :: (us ++ [.char ')'])) e
  | path (p : DottedPath) : Derives class? .primary p.tokens (.path p)
  | call {p receiver : DottedPath} {method : String} {args : List (List Token × Node)}
      (hp : p.split? = some (receiver, method))
      (hargs : ∀ a ∈ args, Derives class? .test a.1 a.2) :
      Derives class? .primary (p.tokens ++ argumentTokens (args.map Prod.fst))
        (.call (.path receiver) method (args.map Prod.snd))
  | stringify {us : List Token} {e : Node} (h : Derives class? .test us e) :
      Derives class? .primary (.name strFunction :: argumentTokens [us]) (.stringify e)
  | construct {name : String} {c : ClassRef} {args : List (List Token × Node)}
      (hc : class? name = some c) (hargs : ∀ a ∈ args, Derives class? .test a.1 a.2) :
      Derives class? .primary (.name name :: argumentTokens (args.map Prod.fst))
        (.construct c (args.map Prod.snd))

/-- An operand is an expression. -/
theorem Derives.test_of_primary {class? : String → Option ClassRef} {us : List Token} {e : Node}
    (h : Derives class? .primary us e) : Derives class? .test us e :=
  .ofConjunction (.ofNegation (.ofComparison (.ofSum (.ofProduct (.ofUnary (.ofPrimary h))))))

/-! ## How expressions begin -/

/-- Whether an operand can begin with the token. -/
def Token.startsPrimary : Token → Bool
  | .number _ | .string _ | .name _ => true
  | .keyword .trueWord | .keyword .falseWord | .keyword .noneWord => true
  | .char c => c = '('
  | _ => false

/-- Whether an expression of a level can begin with the token. -/
def Level.starts : Level → Token → Bool
  | .primary, t => t.startsPrimary
  | .unary, t | .product, t | .sum, t | .comparison, t => t = .char '-' || t.startsPrimary
  | .negation, t | .conjunction, t | .test, t =>
    t = .keyword .notWord || (t = .char '-' || t.startsPrimary)

/-! ## How expressions go on -/

/-- The tokens that may follow an expression within a longer one, the loosest binding first. -/
def continuations : List Token :=
  [.keyword .orWord, .keyword .andWord, .paired .equal, .paired .notEqual, .paired .lessOrEqual,
    .paired .greaterOrEqual, .char '<', .char '>', .char '+', .char '-', .char '*', .char '/',
    .char '.', .char '(']

/-- The tokens that may follow something of a level within a longer thing of this level. -/
def Level.continuations : Level → List Token
  | .test => Offside.continuations
  | .conjunction => Offside.continuations.drop 1
  | .negation | .comparison => Offside.continuations.drop 2
  | .sum => Offside.continuations.drop 8
  | .product => Offside.continuations.drop 10
  | .unary | .primary => Offside.continuations.drop 12

variable {class? : String → Option ClassRef} {l : Level} {us : List Token} {e : Node}

/-- An expression has a first token, and it is one that its level can begin with. -/
theorem Derives.exists_starts (h : Derives class? l us e) :
    ∃ t ts, us = t :: ts ∧ l.starts t = Bool.true := by
  induction h with
  | or hleft hright ihleft _ | and hleft hright ihleft _ | compare _ hleft hright ihleft _
  | add hleft hright ihleft _ | sub hleft hright ihleft _ | mul hleft hright ihleft _
  | div hleft hright ihleft _ =>
    obtain ⟨t, ts, rfl, ht⟩ := ihleft
    exact ⟨t, _, rfl, by simpa [Level.starts] using ht⟩
  | ofConjunction h ih | ofNegation h ih | ofSum h ih | ofProduct h ih | ofUnary h ih =>
    obtain ⟨t, ts, rfl, ht⟩ := ih
    exact ⟨t, ts, rfl, ht⟩
  | ofComparison h ih | ofPrimary h ih =>
    obtain ⟨t, ts, rfl, ht⟩ := ih
    exact ⟨t, ts, rfl, Bool.or_eq_true_iff.2 (.inr ht)⟩
  | not h ih => exact ⟨_, _, rfl, rfl⟩
  | negative h ih => exact ⟨_, _, rfl, rfl⟩
  | number | string | true | false | none | path | call | stringify | construct =>
    exact ⟨_, _, rfl, rfl⟩
  | parentheses h ih => exact ⟨_, _, rfl, rfl⟩

/-- No expression begins with a token that its level cannot begin with. -/
theorem Derives.head_ne {t u : Token} {ts : List Token} (h : Derives class? l (t :: ts) e)
    (hu : l.starts u = Bool.false) : t ≠ u := by
  obtain ⟨v, vs, hv, hstarts⟩ := h.exists_starts
  rintro rfl
  obtain ⟨rfl, -⟩ := List.cons.inj hv
  rw [hu] at hstarts
  exact Bool.false_ne_true hstarts

theorem Derives.ne_nil (h : Derives class? l us e) : us ≠ [] := by
  obtain ⟨t, ts, rfl, -⟩ := h.exists_starts
  exact List.cons_ne_nil t ts

end Offside
