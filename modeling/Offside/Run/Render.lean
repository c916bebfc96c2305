import Offside.Run.Method

set_option autoImplicit false

/-! # Printed forms

The text that printing a value writes. An object with a method `__str__` prints as what that method
returns, which may be an object again; any other object shows its class and its address. -/

namespace Offside.Run

/-- An object without a text of its own. -/
def showAddress (className : String) (address : Nat) : String :=
  s!"<{className} object at 0x" ++ String.ofList (Nat.toDigits 16 address) ++ ">"

/-- The decimal form of a number, unless it has too many digits. -/
def showNumber (n : Int) : Run String :=
  if Text.isWritable n.natAbs then return toString n else throw .tooManyDigits

/-- The printed form of a value, where `execute` runs a method and `render` gives the printed form of
what it returns. -/
def renderStep (σ : Setting) (execute : Node → Run Value) (render : Value → Run String) :
    Value → Run String
  | .empty => return "None"
  | .number n => showNumber n
  | .string s => return s
  | .bool b => return if b then "True" else "False"
  | .classObject c => return "Class " ++ σ.table.name c
  | .object o => do
    if ← hasMethod σ o strName 0 then
      let v ← invoke σ execute o strName []
      render v
    else
      let cls ← classOf o
      return showAddress (σ.table.name cls) (← address o)

end Offside.Run
