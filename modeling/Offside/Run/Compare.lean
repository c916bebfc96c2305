import Offside.Run.Method

set_option autoImplicit false

/-! # Comparisons

Two numbers, two texts or two truth values are compared directly. An object on the left decides by
its methods `__eq__` and `__lt__`. Two empty values are equal; everything else cannot be compared.
All six comparisons come from equality and order. -/

namespace Offside

namespace Value

/-- Equality of two values of one plain kind. -/
def plainEqual? : Value → Value → Option Bool
  | .number a, .number b => some (a == b)
  | .string a, .string b => some (a == b)
  | .bool a, .bool b => some (a == b)
  | _, _ => none

/-- Order of two values of one plain kind: texts by code points, `False` before `True`. -/
def plainLess? : Value → Value → Option Bool
  | .number a, .number b => some (decide (a < b))
  | .string a, .string b => some (decide (a < b))
  | .bool a, .bool b => some (!a && b)
  | _, _ => none

end Value

namespace Run

/-- Fails because two values cannot be compared for equality. -/
def noEquality (σ : Setting) (left right : Value) : Run Bool := do
  fail (.noEquality (← typeName σ left) (← typeName σ right))

/-- Fails because two values cannot be compared for order. -/
def noOrdering (σ : Setting) (left right : Value) : Run Bool := do
  fail (.noOrdering (← typeName σ left) (← typeName σ right))

/-- Whether two values are equal. -/
def equal (σ : Setting) (execute : Node → Run Value) (left right : Value) : Run Bool := do
  match left.plainEqual? right with
  | some b => return b
  | none =>
    match left with
    | .object o =>
      if ← hasMethod σ o eqName 1 then
        let v ← invoke σ execute o eqName [right]
        return v.isTrue
      else noEquality σ left right
    | .empty => if right = .empty then return true else noEquality σ left right
    | _ => noEquality σ left right

/-- Whether the left value comes before the right one. -/
def less (σ : Setting) (execute : Node → Run Value) (left right : Value) : Run Bool := do
  match left.plainLess? right with
  | some b => return b
  | none =>
    match left with
    | .object o =>
      if ← hasMethod σ o ltName 1 then
        let v ← invoke σ execute o ltName [right]
        return v.isTrue
      else noOrdering σ left right
    | _ => noOrdering σ left right

/-- Compares two values. -/
def compare (σ : Setting) (execute : Node → Run Value) (c : Comparator) (left right : Value) :
    Run Bool := do
  match c with
  | .equal => equal σ execute left right
  | .notEqual => return !(← equal σ execute left right)
  | .less => less σ execute left right
  | .greater =>
    if ← less σ execute left right then return false
    else return !(← equal σ execute left right)
  | .lessOrEqual =>
    if ← less σ execute left right then return true
    else equal σ execute left right
  | .greaterOrEqual => return !(← less σ execute left right)

end Run

end Offside
