import Offside.Run.Step

set_option autoImplicit false

/-! # Running trees

A tree runs within a depth: each part, each body of a method and each link of a chain of `__str__`
calls is one deeper than what runs it, and a step at depth zero is interrupted. Running the
statements of a program ends with an error or without one. -/

namespace Offside.Run

mutual

/-- Runs a tree within a depth. -/
def execute (σ : Setting) : Nat → Node → Run Value
  | 0, _ => throw .tooDeep
  | depth + 1, node => step σ (execute σ depth) (render σ depth) node

/-- The printed form of a value, within a depth. -/
def render (σ : Setting) : Nat → Value → Run String
  | 0, _ => throw .tooDeep
  | depth + 1, v => renderStep σ (execute σ depth) (render σ depth) v

end

/-- The error that an interrupted program ends with: a `return` that leaves no method is one. -/
def errorOf : Interrupt → Error
  | .returned _ => .runtime .returnOutsideMethod
  | .failed e => .runtime e
  | .tooDeep => .limit .depth
  | .tooManyDigits => .limit (.digits .writing)

/-- Runs the statements of a program. -/
def program (σ : Setting) (depth : Nat) (body : Node) (st : RunState) : Option Error × RunState :=
  match (execute σ depth body).run.run st with
  | (.ok _, st') => (none, st')
  | (.error interrupt, st') => (some (errorOf interrupt), st')

end Offside.Run
