import Offside.TokenStream

set_option autoImplicit false

/-! # Supplies of tokens

What rules read from: a current token, the line behind it, and a move to the next token. A
`TokenStream` is a supply that cuts the text into tokens one at a time, as they are asked for.
`ListedTokens` is a supply for which the whole text was cut before. -/

namespace Offside

/-- Where tokens come from, one at a time. -/
class TokenSupply (σ : Type) where
  current : σ → Token
  /-- The line behind the current token. -/
  line : σ → Nat
  /-- Moves to the next token. -/
  advance : σ → Except ReadError Token × σ
  /-- Adds a record to the log, if there is one. -/
  report : σ → LogRecord → σ

instance : TokenSupply TokenStream where
  current := TokenStream.current
  line := TokenStream.line
  advance := TokenStream.advance
  report := TokenStream.report

/-- Tokens that were listed before, each with the line behind it, from the current one on, and the
error behind the last one, if the listing ended with one. -/
structure ListedTokens where
  current : Token × Nat
  rest : List (Token × Nat)
  error? : Option ReadError
  deriving DecidableEq, Repr, Inhabited

namespace ListedTokens

/-- Moves to the next token of the list. Behind the last one stands the error; where there is none,
the last token stays. -/
def advance (l : ListedTokens) : Except ReadError Token × ListedTokens :=
  match l.rest, l.error? with
  | next :: rest, _ => (.ok next.1, { l with current := next, rest })
  | [], some e => (.error e, l)
  | [], none => (.ok l.current.1, l)

end ListedTokens

instance : TokenSupply ListedTokens where
  current l := l.current.1
  line l := l.current.2
  advance := ListedTokens.advance
  report l _ := l

end Offside
