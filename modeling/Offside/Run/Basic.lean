import Offside.Error
import Offside.Heap
import Offside.Log
import Offside.Program.ClassTable

set_option autoImplicit false

/-! # Runs

What a run reads and changes. A step of a run may yield a result, or be interrupted: by a `return`
on its way to the method it leaves, by an error, because it went too deep, or because it was to write
a number with too many digits. An interrupted step leaves the state as it was at that moment.

The bindings of the body that is running are the *frame*. `withFrame` runs a body on a frame of its
own and restores the frame of its caller, whatever happens. -/

namespace Offside

/-- Why a step did not come to its end. -/
inductive Interrupt
  | returned (value : Value)
  | failed (e : RuntimeError)
  | tooDeep
  | tooManyDigits
  deriving DecidableEq, Repr, Inhabited

/-- What a run changes. -/
structure RunState where
  /-- The bindings of the body that is running. -/
  frame : Bindings
  heap : Heap
  /-- All text printed. -/
  output : String
  /-- The objects that were shown by their address, in the order in which each was first shown. -/
  shown : List ObjectRef
  log : Log
  deriving DecidableEq, Repr, Inhabited

/-- The state before anything has run. -/
def RunState.initial : RunState := ⟨.empty, .empty, "", [], #[]⟩

/-- What a run depends on and does not change. -/
structure Setting where
  table : ClassTable
  /-- Whether a method hands back the value it returns as it is, and not in its printed form. -/
  typedReturns : Bool
  deriving DecidableEq, Repr, Inhabited

/-- A step of a run with a result in `α`. -/
abbrev Run (α : Type) := ExceptT Interrupt (StateM RunState) α

namespace Run

/-- Fails. -/
def fail {α : Type} (e : RuntimeError) : Run α := throw (.failed e)

/-! ## Frames -/

/-- Binds a name. -/
def bindName (name : String) (value : Value) : Run Unit :=
  modify fun st => { st with frame := st.frame.set name value }

theorem run_bindName (name : String) (value : Value) (st : RunState) :
    (bindName name value).run.run st = (.ok (), { st with frame := st.frame.set name value }) :=
  rfl

/-- Runs `body` on the bindings `frame`, and restores those of the caller. -/
def withFrame {α : Type} (frame : Bindings) (body : Run α) : Run α :=
  ExceptT.mk fun st =>
    let (result, st') := body.run.run { st with frame }
    (result, { st' with frame := st.frame })

/-- What runs on a frame of its own leaves the bindings of its caller alone. -/
theorem frame_withFrame {α : Type} (frame : Bindings) (body : Run α) (st : RunState) :
    ((withFrame frame body).run.run st).2.frame = st.frame := rfl

/-- Runs `body` up to a `return` in it. The result is the value returned, if any was. -/
def returnedBy {α : Type} (body : Run α) : Run (Option Value) :=
  ExceptT.mk fun st =>
    match body.run.run st with
    | (.ok _, st') => (.ok none, st')
    | (.error (.returned value), st') => (.ok (some value), st')
    | (.error interrupt, st') => (.error interrupt, st')

/-- No `return` gets past `returnedBy`. -/
theorem returnedBy_ne_returned {α : Type} (body : Run α) (st : RunState) (v : Value) :
    ((returnedBy body).run.run st).1 ≠ .error (.returned v) := by
  simp only [returnedBy, ExceptT.run, ExceptT.mk, StateT.run]
  split
  · simp
  · simp
  · next interrupt _ h _ =>
    intro hv
    injection hv with hv
    exact h v hv

/-! ## Output and log -/

/-- Prints a text. -/
def write (text : String) : Run Unit :=
  modify fun st => { st with output := st.output ++ text }

theorem run_write (text : String) (st : RunState) :
    (write text).run.run st = (.ok (), { st with output := st.output ++ text }) := rfl

/-- Adds a record to the log. -/
def report (r : LogRecord) : Run Unit :=
  modify fun st => { st with log := st.log.push r }

/-! ## Objects -/

/-- Makes an object without fields. -/
def construct (cls : ClassRef) : Run ObjectRef := do
  let o := (← get).heap.next
  modify fun st => { st with heap := st.heap.add cls }
  return o

theorem run_construct (cls : ClassRef) (st : RunState) :
    (construct cls).run.run st = (.ok st.heap.next, { st with heap := st.heap.add cls }) := rfl

/-- Sets a field of an object. -/
def setField (o : ObjectRef) (field : String) (value : Value) : Run Unit :=
  modify fun st => { st with heap := st.heap.setField o field value }

theorem run_setField (o : ObjectRef) (field : String) (value : Value) (st : RunState) :
    (setField o field value).run.run st =
      (.ok (), { st with heap := st.heap.setField o field value }) := rfl

/-- The class of an object. -/
def classOf (o : ObjectRef) : Run ClassRef := do
  return ((← get).heap.get o).cls

/-- The address under which an object is shown. Addresses count from 1 in the order in which objects
are first shown, and an object keeps its address. -/
def address (o : ObjectRef) : Run Nat := do
  let shown := (← get).shown
  match shown.idxOf? o with
  | some i => return i + 1
  | none =>
    modify fun st => { st with shown := st.shown ++ [o] }
    return shown.length + 1

end Run

/-- The name of the type of a value: that of its class for an object. -/
def Setting.typeName (σ : Setting) (h : Heap) : Value → String
  | .empty => "None"
  | .number _ => "Number"
  | .string _ => "String"
  | .bool _ => "Bool"
  | .classObject _ => "Class"
  | .object o => σ.table.name (h.get o).cls

/-- The name of the type of a value in the current state. -/
def Run.typeName (σ : Setting) (v : Value) : Run String := do
  return σ.typeName (← get).heap v

end Offside
