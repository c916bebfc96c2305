import Offside.Program.ClassTable

set_option autoImplicit false

/-! # Programs

What is left of a source when its text is gone: the classes it defines, by name, and its statements
outside of classes. -/

namespace Offside

/-- The classes and the statements of a source. -/
structure Program where
  /-- The classes of this program, in the order of their definition. -/
  classes : List (String × ClassRef)
  /-- The declarations of these classes, among those of all classes known. -/
  table : ClassTable
  statements : List Node
  deriving DecidableEq, Repr, Inhabited

/-- The statements as one tree. -/
def Program.body (p : Program) : Node := .sequence p.statements

end Offside
