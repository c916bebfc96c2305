import Offside.Parse.Statement

set_option autoImplicit false

/-! # Programs from sources

`Program.ofSource` reads a whole source, cutting it into tokens on the way, and `Program.ofListing`
reads tokens that were cut before. Classes that are known from other sources stay known, and
the new ones come behind them, so a class of one source is never a class of another.
`Program.sameSource` tells whether two sources have equal statements. -/

namespace Offside.Program

/-- A bound on the tokens of a source, with room for the rules that read none of their own. -/
def tokenBound (source : String) : Nat := source.length + 4

/-- The same bound where the tokens are listed. -/
def listedBound (entries : List (Token × Nat)) : Nat := entries.length + 2

/-- Reads a source, given the classes known from others, and tells what happened on the way. -/
def ofSource (known : ClassTable) (source : String) : Except Error Program × Log :=
  match TokenStream.ofString source with
  | .error e => (.error (.ofRead e), #[])
  | .ok stream =>
    match (Parse.statements (tokenBound source)).run.run ⟨stream, [], known⟩ with
    | (.ok body, st) => (.ok ⟨st.classes, st.table, body⟩, st.stream.scanner.log)
    | (.error e, st) => (.error e, st.stream.scanner.log)

/-- Reads a source from its tokens, each with the line behind it, and the error behind the last one,
if the listing of the source ended with one. Nothing at all is a source without statements. -/
def ofListing (known : ClassTable) (entries : List (Token × Nat)) (error? : Option ReadError) :
    Except Error Program :=
  match entries, error? with
  | [], some e => .error (.ofRead e)
  | [], none => .ok ⟨[], known, []⟩
  | first :: rest, error? =>
    let start : RuleState ListedTokens := ⟨⟨first, rest, error?⟩, [], known⟩
    match (Parse.statements (listedBound (first :: rest))).run.run start with
    | (.ok body, st) => .ok ⟨st.classes, st.table, body⟩
    | (.error e, _) => .error e

/-- Whether two sources have equal statements, if both are programs. A class in one of them differs
from every class in the other. -/
def sameSource (first second : String) : Except Error Bool := do
  let p ← (ofSource .empty first).1
  let q ← (ofSource p.table second).1
  return p.body.same q.body

end Offside.Program
