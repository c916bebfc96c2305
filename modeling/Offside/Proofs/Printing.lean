import Offside.Proofs.Depth

set_option autoImplicit false

/-! # Printing without a detour

`Run.step` prints a value by making its printed form and writing that. The alternative is to hand the
value on to the place where its text is to go, which may be the output or a text that is being put
together: an object with a method `__str__` hands on what the method returns, and in the end one
value writes itself.

Here the alternative is told in full, `printTo` for a value and `executeDirect` for a tree, and shown
to be the same. What it writes it writes at its end, behind all that methods print, or not at all. -/

namespace Offside

/-! ## Steps with a text of their own -/

/-- Where a value is printed to. -/
inductive Destination
  /-- The output of the run. -/
  | output
  /-- The text that is being put together. -/
  | aside

/-- A step of a run that puts a text together beside what it does. -/
abbrev Writing (α : Type) := ExceptT Interrupt (StateM (RunState × String)) α

/-- What stands at a destination after a text is added there. -/
def Destination.add (dest : Destination) (text : String) (st : RunState) (written : String) :
    RunState × String :=
  match dest with
  | output => ({ st with output := st.output ++ text }, written)
  | aside => (st, written ++ text)

namespace Writing

variable {α β : Type}

/-- How a step ends, and what it leaves. -/
def outcome (x : Writing α) (st : RunState) (written : String) :
    Except Interrupt α × RunState × String :=
  x.run.run (st, written)

/-- A step that leaves the text alone. -/
def ofRun (x : Run α) : Writing α :=
  ExceptT.mk fun (st, written) =>
    let (r, st') := Run.outcome x st
    (r, st', written)

/-- Adds a text at a destination. -/
def write (dest : Destination) (text : String) : Writing Unit :=
  modify fun (st, written) => dest.add text st written

/-- The text that a step puts together. -/
def text (x : Writing Unit) : Run String :=
  ExceptT.mk fun st =>
    match outcome x st "" with
    | (.ok _, st', written) => (.ok written, st')
    | (.error i, st', _) => (.error i, st')

/-- A step without the text that it puts together. -/
def toRun (x : Writing α) : Run α :=
  ExceptT.mk fun st =>
    match outcome x st "" with
    | (r, st', _) => (r, st')

theorem ext {x y : Writing α} (h : ∀ st written, outcome x st written = outcome y st written) :
    x = y :=
  funext fun s => h s.1 s.2

theorem outcome_bind (x : Writing α) (f : α → Writing β) (st : RunState) (written : String) :
    outcome (x >>= f) st written =
      match outcome x st written with
      | (.ok a, st', written') => outcome (f a) st' written'
      | (.error i, st', written') => (.error i, st', written') := by
  show (ExceptT.bind x f).run.run (st, written) = _
  simp only [ExceptT.bind, ExceptT.run, ExceptT.mk, StateT.run, outcome]
  cases hx : x (st, written) with
  | mk r s =>
    simp only [bind, StateT.bind, hx]
    cases r <;> rfl

theorem outcome_ofRun (x : Run α) (st : RunState) (written : String) :
    outcome (ofRun x) st written =
      match Run.outcome x st with
      | (r, st') => (r, st', written) := rfl

theorem outcome_write (dest : Destination) (s : String) (st : RunState) (written : String) :
    outcome (write dest s) st written = (.ok (), dest.add s st written) := rfl

theorem outcome_text (x : Writing Unit) (st : RunState) :
    Run.outcome x.text st =
      match outcome x st "" with
      | (.ok _, st', written) => (.ok written, st')
      | (.error i, st', _) => (.error i, st') := rfl

theorem outcome_toRun (x : Writing α) (st : RunState) :
    Run.outcome x.toRun st =
      match outcome x st "" with
      | (r, st', _) => (r, st') := rfl

theorem ofRun_pure (a : α) : ofRun (Pure.pure a) = Pure.pure a := rfl

theorem ofRun_bind (x : Run α) (f : α → Run β) :
    ofRun (x >>= f) = ofRun x >>= fun a => ofRun (f a) := by
  apply ext
  intro st written
  rw [outcome_ofRun, Run.outcome_bind, outcome_bind, outcome_ofRun]
  rcases Run.outcome x st with ⟨_ | _, _⟩ <;> rfl

end Writing

namespace Run

/-- All that a step does to a state. -/
theorem ext {α : Type} {x y : Run α} (h : ∀ st, outcome x st = outcome y st) : x = y := funext h

section

variable (σ : Setting) (execute : Node → Run Value) (printTo : Destination → Value → Writing Unit)

/-! ## Handing values on -/

/-- Prints the decimal form of a number to a destination, unless it has too many digits. -/
def printNumber (dest : Destination) (n : Int) : Writing Unit :=
  if Text.isWritable n.natAbs then .write dest (toString n) else .ofRun (throw .tooManyDigits)

/-- Prints a value to a destination, where `execute` runs a method and `printTo` prints what it
returns. -/
def printToStep (dest : Destination) : Value → Writing Unit
  | .empty => .write dest "None"
  | .number n => printNumber dest n
  | .string s => .write dest s
  | .bool b => .write dest (if b then "True" else "False")
  | .classObject c => .write dest ("Class " ++ σ.table.name c)
  | .object o => do
    if ← .ofRun (hasMethod σ o strName 0) then
      let v ← .ofRun (invoke σ execute o strName [])
      printTo dest v
    else
      let cls ← .ofRun (classOf o)
      .write dest (showAddress (σ.table.name cls) (← .ofRun (address o)))

/-- Prints the values of arguments, with a space before each but the first one of a line. -/
def printEach (first : Bool) : List Node → Run Unit
  | [] => return ()
  | node :: rest => do
    if !first then Run.write " "
    let v ← execute node
    (printTo .output v).toRun
    printEach false rest

/-- Runs a tree, with printed values handed on to the output. -/
def stepDirect : Node → Run Value
  | .print args => do
    printEach execute printTo true args
    Run.write "\n"
    return .empty
  | .printValue argument => do
    let v ← execute argument
    if v ≠ .empty then (printTo .output v).toRun
    Run.write "\n"
    return v
  | n => step σ execute (fun v => (printTo .aside v).text) n

end

mutual

/-- Runs a tree within a depth, with printed values handed on to the output. -/
def executeDirect (σ : Setting) : Nat → Node → Run Value
  | 0, _ => throw .tooDeep
  | depth + 1, node => stepDirect σ (executeDirect σ depth) (printTo σ depth) node

/-- Prints a value to a destination, within a depth. -/
def printTo (σ : Setting) : Nat → Destination → Value → Writing Unit
  | 0, _, _ => .ofRun (throw .tooDeep)
  | depth + 1, dest, v => printToStep σ (executeDirect σ depth) (printTo σ depth) dest v

end

/-! ## Handing on is writing the printed form -/

section

variable {σ : Setting} {execute : Node → Run Value} {render : Value → Run String}
  {printTo : Destination → Value → Writing Unit} {dest : Destination}

/-- Makes the printed form of a value and adds it at a destination. -/
def writeForm (render : Value → Run String) (dest : Destination) (v : Value) : Writing Unit := do
  Writing.write dest (← .ofRun (render v))

theorem printToStep_eq (v : Value) :
    printToStep σ execute (writeForm render) dest v =
      writeForm (renderStep σ execute render) dest v := by
  cases v with
  | object o =>
    simp only [printToStep, writeForm, renderStep, Writing.ofRun_bind, bind_assoc]
    congr 1
    funext found
    cases found with
    | true => simp only [if_true, Writing.ofRun_bind, bind_assoc]
    | false =>
      simp only [Bool.false_eq_true, if_false, Writing.ofRun_bind, bind_assoc, Writing.ofRun_pure,
        pure_bind]
  | number n =>
    simp only [printToStep, printNumber, writeForm, renderStep, showNumber]
    split <;> rfl
  | empty | string | bool | classObject => rfl

/-- The text put together for a value is its printed form. -/
theorem text_writeForm (v : Value) : (writeForm render .aside v).text = render v := by
  apply ext
  intro st
  rw [Writing.outcome_text, writeForm, Writing.outcome_bind, Writing.outcome_ofRun]
  rcases outcome (render v) st with ⟨_ | text, _⟩
  · rfl
  · simp [Writing.outcome_write, Destination.add]

theorem toRun_writeForm (v : Value) :
    (writeForm render .output v).toRun = (do Run.write (← render v)) := by
  apply ext
  intro st
  rw [Writing.outcome_toRun, writeForm, Writing.outcome_bind, Writing.outcome_ofRun, outcome_bind]
  rcases outcome (render v) st with ⟨_ | _, _⟩ <;> rfl

theorem printEach_further (nodes : List Node) :
    printEach execute (writeForm render) false nodes = printFurther execute render nodes := by
  induction nodes with
  | nil => rfl
  | cons node rest ih =>
    simp only [printEach, printFurther, printArgument, toRun_writeForm, ih, bind_assoc,
      Bool.not_false, if_true]

theorem printEach_line (nodes : List Node) :
    (do printEach execute (writeForm render) true nodes; Run.write "\n") =
      printLine execute render nodes := by
  cases nodes with
  | nil => rfl
  | cons node rest =>
    simp only [printEach, printLine, printArgument, toRun_writeForm, printEach_further, bind_assoc,
      Bool.not_true, Bool.false_eq_true, if_false]

theorem stepDirect_eq (n : Node) :
    stepDirect σ execute (writeForm render) n = step σ execute render n := by
  cases n with
  | print args =>
    have hline : (do printEach execute (writeForm render) true args; Run.write "\n") =
        printLine execute render args := printEach_line args
    simp only [stepDirect, step, ← hline, bind_assoc]
  | printValue argument =>
    simp only [stepDirect, step, printOne, toRun_writeForm]
    congr 1
    funext v
    by_cases hv : v = .empty
    · simp [hv]
    · simp [hv]
  | _ => simp only [stepDirect, text_writeForm]

end

/-- Handing printed values on changes nothing, and what is handed on is written at its end. -/
theorem executeDirect_eq (σ : Setting) (depth : Nat) :
    executeDirect σ depth = execute σ depth ∧ printTo σ depth = writeForm (render σ depth) := by
  induction depth with
  | zero => exact ⟨rfl, rfl⟩
  | succ depth ih =>
    obtain ⟨hexecute, hprint⟩ := ih
    constructor
    · funext n
      show stepDirect σ (executeDirect σ depth) (printTo σ depth) n = _
      rw [hexecute, hprint]
      exact stepDirect_eq n
    · funext dest v
      show printToStep σ (executeDirect σ depth) (printTo σ depth) dest v = _
      rw [hexecute, hprint]
      exact printToStep_eq v

/-! ## Printing printed forms -/

section

variable (σ : Setting) (depth : Nat)

theorem render_string (s : String) : render σ (depth + 1) (.string s) = pure s := rfl

theorem execute_print (nodes : List Node) :
    execute σ (depth + 1) (.print nodes) =
      (do
        printLine (execute σ depth) (render σ depth) nodes
        return Value.empty) := rfl

theorem execute_stringify (e : Node) :
    execute σ (depth + 1) (.stringify e) =
      (do
        let v ← execute σ depth e
        return .string (← render σ depth v)) := rfl

theorem printArgument_stringify (node : Node) :
    printArgument (execute σ (depth + 1)) (render σ (depth + 1)) (.stringify node) =
      printArgument (execute σ depth) (render σ depth) node := by
  simp only [printArgument, execute_stringify, bind_assoc, pure_bind, render_string]

theorem printFurther_stringify (nodes : List Node) :
    printFurther (execute σ (depth + 1)) (render σ (depth + 1)) (nodes.map .stringify) =
      printFurther (execute σ depth) (render σ depth) nodes := by
  induction nodes with
  | nil => rfl
  | cons node rest ih =>
    simp only [List.map_cons, printFurther, printArgument_stringify, ih]

theorem printLine_stringify (nodes : List Node) :
    printLine (execute σ (depth + 1)) (render σ (depth + 1)) (nodes.map .stringify) =
      printLine (execute σ depth) (render σ depth) nodes := by
  cases nodes with
  | nil => rfl
  | cons node rest =>
    simp only [List.map_cons, printLine, printArgument_stringify, printFurther_stringify]

/-- Printing printed forms goes one step deeper than printing, and does the same. -/
theorem execute_print_stringify (nodes : List Node) :
    execute σ (depth + 2) (.print (nodes.map .stringify)) =
      execute σ (depth + 1) (.print nodes) := by
  rw [execute_print, printLine_stringify, execute_print]

/-- A printed form is its own printed form. -/
theorem execute_stringify_stringify (e : Node) :
    execute σ (depth + 2) (.stringify (.stringify e)) = execute σ (depth + 1) (.stringify e) := by
  rw [execute_stringify σ (depth + 1)]
  simp only [execute_stringify σ depth, bind_assoc, pure_bind, render_string]

end

end Run

open Run

/-- Printing values and printing their printed forms end in the same ways, and so do making a
printed form once and twice. A run in which printed values are handed on to the output ends as one in
which their printed forms are written. Either way the output first goes on with what methods print;
then the printed form comes to its destination, as a whole, or nothing does if there is none. -/
theorem print_eq_print_stringify (σ : Setting) (st : RunState) :
    (∀ nodes r, Ends σ (.print nodes) st r ↔ Ends σ (.print (nodes.map .stringify)) st r) ∧
      (∀ e r, Ends σ (.stringify e) st r ↔ Ends σ (.stringify (.stringify e)) st r) ∧
      (∀ depth n, outcome (executeDirect σ depth n) st = outcome (execute σ depth n) st) ∧
      ∀ depth v, ∃ r st' said,
        outcome (render σ depth v) st = (r, st') ∧ st'.output = st.output ++ said ∧
          ∀ dest written, Writing.outcome (printTo σ depth dest v) st written =
            match r with
            | .ok text => (.ok (), dest.add text st' written)
            | .error i => (.error i, st', written) := by
  refine ⟨?_, ?_, ?_, ?_⟩
  · intro nodes r
    exact ends_iff_of_deeper (fun depth => by rw [execute_print_stringify]) r
  · intro e r
    exact ends_iff_of_deeper (fun depth => by rw [execute_stringify_stringify]) r
  · intro depth n
    rw [(executeDirect_eq σ depth).1]
  · intro depth v
    obtain ⟨said, hsaid⟩ := output_render σ depth v st
    cases hr : outcome (render σ depth v) st with
    | mk r st' =>
      rw [hr] at hsaid
      refine ⟨r, st', said, rfl, hsaid, ?_⟩
      intro dest written
      rw [(executeDirect_eq σ depth).2, writeForm, Writing.outcome_bind, Writing.outcome_ofRun, hr]
      cases r <;> rfl

end Offside
