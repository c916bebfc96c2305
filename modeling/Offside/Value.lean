set_option autoImplicit false

/-! # Values

What a name can be bound to. Numbers, texts and truth values are themselves; classes and objects
are references, so that two names can share one object. -/

namespace Offside

/-- A class, as a position in the table of classes. -/
structure ClassRef where
  index : Nat
  deriving DecidableEq, Repr, Inhabited

/-- An object, as a position in the heap. -/
structure ObjectRef where
  index : Nat
  deriving DecidableEq, Repr, Inhabited

/-- A value. `empty` is what `None` denotes. -/
inductive Value
  | empty
  | number (n : Int)
  | string (s : String)
  | bool (b : Bool)
  | classObject (c : ClassRef)
  | object (o : ObjectRef)
  deriving DecidableEq, Repr, Inhabited

namespace Value

/-- Whether a condition with this value holds: a number other than zero, a text that is not empty,
and `True` do; everything else does not. -/
def isTrue : Value → Bool
  | bool b => b
  | string s => s != ""
  | number n => n != 0
  | empty | classObject _ | object _ => false

@[simp] theorem isTrue_bool (b : Bool) : (bool b).isTrue = b := rfl

end Value

end Offside
