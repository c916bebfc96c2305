import Offside.Run.Basic

set_option autoImplicit false

/-! # Methods

Calling a method of an object. The method is the one that the class of the object answers the name
with, and it must have as many parameters as there are arguments. Its body runs on a frame that binds
`self` to the object and then the parameters to the arguments.

Five names are called by the language itself: `__init__`, `__str__`, `__eq__`, `__lt__` and
`__add__`. -/

namespace Offside

/-- Called on a new object. -/
def initName : String := "__init__"

/-- Called to print an object. -/
def strName : String := "__str__"

/-- Called to compare an object for equality. -/
def eqName : String := "__eq__"

/-- Called to compare an object for order. -/
def ltName : String := "__lt__"

/-- Called to add to an object. -/
def addName : String := "__add__"

/-- The name of the receiver inside a method. -/
def selfName : String := "self"

/-- The method of a class with a given name and number of parameters. -/
def ClassTable.methodOf? (t : ClassTable) (c : ClassRef) (name : String) (arguments : Nat) :
    Option Method :=
  (t.method? c name).filter fun m => m.parameters.length == arguments

/-- The bindings with which a method starts. -/
def Method.frame (m : Method) (receiver : ObjectRef) (arguments : List Value) : Bindings :=
  (Bindings.empty.set selfName (.object receiver)).setAll (m.parameters.zip arguments)

namespace Run

/-- Whether an object has a method with a given name and number of parameters. -/
def hasMethod (σ : Setting) (o : ObjectRef) (name : String) (arguments : Nat) : Run Bool := do
  return (σ.table.methodOf? (← classOf o) name arguments).isSome

/-- Calls a method of an object, where `execute` runs its body. -/
def invoke (σ : Setting) (execute : Node → Run Value) (o : ObjectRef) (name : String)
    (arguments : List Value) : Run Value := do
  let cls ← classOf o
  match σ.table.methodOf? cls name arguments.length with
  | none => fail (.methodNotFound (σ.table.name cls) name arguments.length)
  | some m =>
    report (.calling (σ.table.name cls) name arguments.length)
    withFrame (m.frame o arguments) (execute m.body)

end Run

end Offside
