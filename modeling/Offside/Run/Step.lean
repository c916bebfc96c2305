import Offside.Run.Compare
import Offside.Run.Path
import Offside.Run.Render

set_option autoImplicit false

/-! # One step of a run

What each form of tree does, given `execute` for its parts and for the bodies of methods, and
`render` for printed forms. Parts run from left to right. -/

namespace Offside

/-- The result of an operation on two numbers; a quotient is cut off towards zero. -/
def ArithmeticOp.apply (op : ArithmeticOp) (a b : Int) : Except RuntimeError Int :=
  match op with
  | add => .ok (a + b)
  | sub => .ok (a - b)
  | mul => .ok (a * b)
  | div => if b = 0 then .error .divisionByZero else .ok (a.tdiv b)

namespace Run

section

variable (σ : Setting) (execute : Node → Run Value) (render : Value → Run String)

/-- Runs trees one after the other and collects their values. -/
def executeAll : List Node → Run (List Value)
  | [] => return []
  | node :: rest => do
    let v ← execute node
    let vs ← executeAll rest
    return v :: vs

/-- Runs trees one after the other. -/
def executeEach : List Node → Run Unit
  | [] => return ()
  | node :: rest => do
    let _ ← execute node
    executeEach rest

/-! ## Objects -/

/-- The object that a value is, which is needed for `use`. -/
def expectObject (use : ObjectUse) : Value → Run ObjectRef
  | .object o => return o
  | v => do fail (.objectNeeded use (← typeName σ v))

/-- Makes an object. Its method `__init__` is called if it takes that many arguments; otherwise the
arguments are not even looked at. -/
def executeConstruct (cls : ClassRef) (args : List Node) : Run Value := do
  let o ← construct cls
  if ← hasMethod σ o initName args.length then
    let vs ← executeAll execute args
    let _ ← invoke σ execute o initName vs
  return .object o

/-- What a method hands back when `v` is returned in it. -/
def methodResult (v : Value) : Run Value :=
  if σ.typedReturns || v = .empty then return v
  else return .string (← render v)

/-! ## Printing -/

/-- Prints the value of one argument. -/
def printArgument (node : Node) : Run Unit := do
  let v ← execute node
  write (← render v)

/-- Prints the values of further arguments, with a space before each. -/
def printFurther : List Node → Run Unit
  | [] => return ()
  | node :: rest => do
    write " "
    printArgument execute render node
    printFurther rest

/-- Prints the values of arguments on one line. -/
def printLine (args : List Node) : Run Unit := do
  match args with
  | [] => pure ()
  | node :: rest =>
    printArgument execute render node
    printFurther execute render rest
  write "\n"

/-- Prints one value on a line, nothing for an empty one. -/
def printOne (v : Value) : Run Unit := do
  if v ≠ .empty then write (← render v)
  write "\n"

/-! ## Operations -/

/-- An operation on two values. Numbers are calculated with; of the other values only texts and
objects can be added to. -/
def operate (op : ArithmeticOp) (left right : Value) : Run Value := do
  match left, right with
  | .number a, .number b =>
    match op.apply a b with
    | .ok n => return .number n
    | .error e => fail e
  | _, _ =>
    match op, left, right with
    | .add, .string a, .string b => return .string (a ++ b)
    | .add, .object o, _ => invoke σ execute o addName [right]
    | _, _, _ => fail (.unsupportedOperands op (← typeName σ left) (← typeName σ right))

/-! ## All forms -/

/-- Runs a tree. -/
def step : Node → Run Value
  | .constant v => return v
  | .path p => resolve σ p
  | .assign name value => do
    let v ← execute value
    bindName name v
    return v
  | .assignField object field value => do
    let o ← expectObject σ (.fieldAssignment field) (← execute object)
    let v ← execute value
    setField o field v
    return v
  | .print args => do
    printLine execute render args
    return .empty
  | .printValue argument => do
    let v ← execute argument
    printOne render v
    return v
  | .call receiver method args => do
    let o ← expectObject σ (.methodCall method) (← execute receiver)
    let vs ← executeAll execute args
    invoke σ execute o method vs
  | .construct cls args => executeConstruct σ execute cls args
  | .stringify argument => do
    let v ← execute argument
    return .string (← render v)
  | .not argument => do
    let v ← execute argument
    return .bool !v.isTrue
  | .and left right => do
    let v ← execute left
    if v.isTrue then
      let w ← execute right
      return .bool w.isTrue
    else return .bool false
  | .or left right => do
    let v ← execute left
    if v.isTrue then return .bool true
    else
      let w ← execute right
      return .bool w.isTrue
  | .arithmetic op left right => do
    let v ← execute left
    let w ← execute right
    operate σ execute op v w
  | .compare c left right => do
    let v ← execute left
    let w ← execute right
    return .bool (← compare σ execute c v w)
  | .sequence statements => do
    executeEach execute statements
    return .empty
  | .returnValue value => do
    let v ← execute value
    throw (.returned v)
  | .methodBody body => do
    match ← returnedBy (execute body) with
    | some v => methodResult σ render v
    | none => return .empty
  | .classDefinition cls => do
    bindName (σ.table.name cls) (.classObject cls)
    return .classObject cls
  | .ifThen condition body => do
    let v ← execute condition
    if v.isTrue then execute body else return .empty
  | .ifElse condition body alternative => do
    let v ← execute condition
    if v.isTrue then execute body else execute alternative

end

end Run

end Offside
