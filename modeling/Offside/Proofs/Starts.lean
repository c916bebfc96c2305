import Offside.Proofs.Calls
import Offside.Proofs.Parts

set_option autoImplicit false

/-! # Which parts of a tree are run, and when

While a tree runs it starts parts of it, from left to right and each from the state that the ones
before it left, on the same bindings. `StartsStatement` tells this for the statements in blocks and
`StartsOperand` for everything else. What methods do on bindings of their own starts no parts.

If a part stops, the tree stops in the same way. The other way round, a tree that stops with a
`return` is that `return`, or a part of it that was started stops with the `return`. -/

namespace Offside.Run

section

variable (σ : Setting) (execute : Node → Run Value) (render : Value → Run String)

/-! ## Starting parts -/

/-- Prints the values of the arguments before another one, up to that one. -/
def printBefore : List Node → Run Unit
  | [] => return ()
  | node :: rest => do
    printArgument execute render node
    printFurther execute render rest
    write " "

/-- The tree, run from the first state, starts a statement of a block from the second one. -/
inductive StartsStatement : Node → RunState → Node → RunState → Prop
  | sequence {before after : List Node} {m : Node} {st st₁ : RunState}
      (hbefore : Gives (executeEach execute before) st () st₁) :
      StartsStatement (.sequence (before ++ m :: after)) st m st₁
  | ifThen {condition body : Node} {v : Value} {st st₁ : RunState}
      (hcondition : Gives (execute condition) st v st₁) (hv : v.isTrue = true) :
      StartsStatement (.ifThen condition body) st body st₁
  | ifElse_body {condition body alternative : Node} {v : Value} {st st₁ : RunState}
      (hcondition : Gives (execute condition) st v st₁) (hv : v.isTrue = true) :
      StartsStatement (.ifElse condition body alternative) st body st₁
  | ifElse_alternative {condition body alternative : Node} {v : Value} {st st₁ : RunState}
      (hcondition : Gives (execute condition) st v st₁) (hv : v.isTrue = false) :
      StartsStatement (.ifElse condition body alternative) st alternative st₁

/-- The tree, run from the first state, starts an operand from the second one. -/
inductive StartsOperand : Node → RunState → Node → RunState → Prop
  | assign {name : String} {value : Node} {st : RunState} :
      StartsOperand (.assign name value) st value st
  | assignField_object {object value : Node} {field : String} {st : RunState} :
      StartsOperand (.assignField object field value) st object st
  | assignField_value {object value : Node} {field : String} {o : ObjectRef} {st st₁ : RunState}
      (hobject : Gives (execute object) st (.object o) st₁) :
      StartsOperand (.assignField object field value) st value st₁
  | print {before after : List Node} {m : Node} {st st₁ : RunState}
      (hbefore : Gives (printBefore execute render before) st () st₁) :
      StartsOperand (.print (before ++ m :: after)) st m st₁
  | printValue {argument : Node} {st : RunState} :
      StartsOperand (.printValue argument) st argument st
  | call_receiver {receiver : Node} {method : String} {arguments : List Node} {st : RunState} :
      StartsOperand (.call receiver method arguments) st receiver st
  | call_argument {receiver m : Node} {method : String} {before after : List Node} {o : ObjectRef}
      {vs : List Value} {st st₁ st₂ : RunState}
      (hreceiver : Gives (execute receiver) st (.object o) st₁)
      (hbefore : Gives (executeAll execute before) st₁ vs st₂) :
      StartsOperand (.call receiver method (before ++ m :: after)) st m st₂
  | construct {cls : ClassRef} {m : Node} {before after : List Node} {o : ObjectRef}
      {vs : List Value} {st st₁ st₂ st₃ : RunState} (hnew : Gives (construct cls) st o st₁)
      (hinit : Gives (hasMethod σ o initName (before ++ m :: after).length) st₁ true st₂)
      (hbefore : Gives (executeAll execute before) st₂ vs st₃) :
      StartsOperand (.construct cls (before ++ m :: after)) st m st₃
  | stringify {argument : Node} {st : RunState} :
      StartsOperand (.stringify argument) st argument st
  | not {argument : Node} {st : RunState} : StartsOperand (.not argument) st argument st
  | and_left {left right : Node} {st : RunState} : StartsOperand (.and left right) st left st
  | and_right {left right : Node} {v : Value} {st st₁ : RunState}
      (hleft : Gives (execute left) st v st₁) (hv : v.isTrue = true) :
      StartsOperand (.and left right) st right st₁
  | or_left {left right : Node} {st : RunState} : StartsOperand (.or left right) st left st
  | or_right {left right : Node} {v : Value} {st st₁ : RunState}
      (hleft : Gives (execute left) st v st₁) (hv : v.isTrue = false) :
      StartsOperand (.or left right) st right st₁
  | arithmetic_left {op : ArithmeticOp} {left right : Node} {st : RunState} :
      StartsOperand (.arithmetic op left right) st left st
  | arithmetic_right {op : ArithmeticOp} {left right : Node} {v : Value} {st st₁ : RunState}
      (hleft : Gives (execute left) st v st₁) :
      StartsOperand (.arithmetic op left right) st right st₁
  | compare_left {c : Comparator} {left right : Node} {st : RunState} :
      StartsOperand (.compare c left right) st left st
  | compare_right {c : Comparator} {left right : Node} {v : Value} {st st₁ : RunState}
      (hleft : Gives (execute left) st v st₁) :
      StartsOperand (.compare c left right) st right st₁
  | returnValue {value : Node} {st : RunState} : StartsOperand (.returnValue value) st value st
  | ifThen {condition body : Node} {st : RunState} :
      StartsOperand (.ifThen condition body) st condition st
  | ifElse {condition body alternative : Node} {st : RunState} :
      StartsOperand (.ifElse condition body alternative) st condition st

/-- The tree, run from the first state, starts the part from the second one. -/
def Starts (n : Node) (st : RunState) (m : Node) (st₁ : RunState) : Prop :=
  StartsStatement execute n st m st₁ ∨ StartsOperand σ execute render n st m st₁

end

section

variable {σ : Setting} {execute : Node → Run Value} {render : Value → Run String} {n m : Node}
  {st st₁ st' : RunState} {i : Interrupt}

theorem StartsStatement.mem_statements (h : StartsStatement execute n st m st₁) :
    m ∈ n.statements := by
  cases h <;> simp [Node.statements]

theorem StartsOperand.mem_operands (h : StartsOperand σ execute render n st m st₁) :
    m ∈ n.operands := by
  cases h <;> simp [Node.operands]

/-! ## A part that stops -/

theorem stops_executeAll {before after : List Node} {vs : List Value}
    (hbefore : Gives (executeAll execute before) st vs st₁) (h : Stops (execute m) st₁ i st') :
    Stops (executeAll execute (before ++ m :: after)) st i st' := by
  induction before generalizing st vs with
  | nil =>
    obtain ⟨-, rfl⟩ := gives_pure_iff.1 hbefore
    exact h.bind
  | cons node before ih =>
    obtain ⟨v, st₂, hnode, hbefore⟩ := hbefore.of_bind
    obtain ⟨vs', st₃, hrest, hpure⟩ := hbefore.of_bind
    obtain ⟨-, rfl⟩ := gives_pure_iff.1 hpure
    exact hnode.stops (ih hrest).bind

theorem stops_executeEach {before after : List Node}
    (hbefore : Gives (executeEach execute before) st () st₁) (h : Stops (execute m) st₁ i st') :
    Stops (executeEach execute (before ++ m :: after)) st i st' := by
  induction before generalizing st with
  | nil =>
    obtain ⟨-, rfl⟩ := gives_pure_iff.1 hbefore
    exact h.bind
  | cons node before ih =>
    obtain ⟨v, st₂, hnode, hbefore⟩ := hbefore.of_bind
    exact hnode.stops (ih hbefore)

theorem stops_printFurther {before after : List Node} {st₂ : RunState}
    (hbefore : Gives (printFurther execute render before) st () st₁)
    (hspace : Gives (write " ") st₁ () st₂) (h : Stops (printArgument execute render m) st₂ i st') :
    Stops (printFurther execute render (before ++ m :: after)) st i st' := by
  induction before generalizing st with
  | nil =>
    obtain ⟨-, rfl⟩ := gives_pure_iff.1 hbefore
    exact hspace.stops (Stops.bind h)
  | cons node before ih =>
    obtain ⟨u, st₃, hspace', hbefore⟩ := hbefore.of_bind
    obtain ⟨u, st₄, hnode, hbefore⟩ := hbefore.of_bind
    exact hspace'.stops (hnode.stops (ih hbefore))

theorem stops_printLine {before after : List Node}
    (hbefore : Gives (printBefore execute render before) st () st₁)
    (h : Stops (printArgument execute render m) st₁ i st') :
    Stops (printLine execute render (before ++ m :: after)) st i st' := by
  cases before with
  | nil =>
    obtain ⟨-, rfl⟩ := gives_pure_iff.1 hbefore
    exact Stops.bind h
  | cons node before =>
    obtain ⟨u, st₂, hnode, hbefore⟩ := hbefore.of_bind
    obtain ⟨u, st₃, hbefore, hspace⟩ := hbefore.of_bind
    exact hnode.stops (Stops.bind (stops_printFurther hbefore hspace h))

/-- A tree stops where a statement that it started stops. -/
theorem StartsStatement.stops (h : StartsStatement execute n st m st₁)
    (hm : Stops (execute m) st₁ i st') : Stops (step σ execute render n) st i st' := by
  cases h with
  | sequence hbefore => exact (stops_executeEach hbefore hm).bind
  | ifThen hcondition hv | ifElse_body hcondition hv =>
    refine hcondition.stops ?_
    rw [if_pos hv]
    exact hm
  | ifElse_alternative hcondition hv =>
    refine hcondition.stops ?_
    rw [if_neg (by simp [hv])]
    exact hm

/-- A tree stops where an operand that it started stops. -/
theorem StartsOperand.stops (h : StartsOperand σ execute render n st m st₁)
    (hm : Stops (execute m) st₁ i st') : Stops (step σ execute render n) st i st' := by
  cases h with
  | assign | assignField_object | printValue | call_receiver | stringify | not | and_left | or_left
    | arithmetic_left | compare_left | returnValue | ifThen | ifElse => exact hm.bind
  | assignField_value hobject => exact hobject.stops ((gives_pure _ _).stops hm.bind)
  | print hbefore => exact (stops_printLine hbefore hm.bind).bind
  | call_argument hreceiver hbefore =>
    exact hreceiver.stops ((gives_pure _ _).stops (stops_executeAll hbefore hm).bind)
  | construct hnew hinit hbefore =>
    refine hnew.stops (hinit.stops ?_)
    rw [if_pos rfl]
    exact (stops_executeAll hbefore hm).bind
  | and_right hleft hv =>
    refine hleft.stops ?_
    rw [if_pos hv]
    exact hm.bind
  | or_right hleft hv =>
    refine hleft.stops ?_
    rw [if_neg (by simp [hv])]
    exact hm.bind
  | arithmetic_right hleft | compare_right hleft => exact hleft.stops hm.bind

/-! ## A tree that stops -/

theorem Stops.exists_of_executeAll {nodes : List Node}
    (h : Stops (executeAll execute nodes) st i st') :
    ∃ before m after vs st₁, nodes = before ++ m :: after ∧
      Gives (executeAll execute before) st vs st₁ ∧ Stops (execute m) st₁ i st' := by
  induction nodes generalizing st with
  | nil => exact absurd h not_stops_pure
  | cons node nodes ih =>
    rcases h.of_bind with h | ⟨v, st₂, hnode, h⟩
    · exact ⟨[], node, nodes, [], st, rfl, gives_pure _ _, h⟩
    · rcases h.of_bind with h | ⟨vs, st₃, -, h⟩
      · obtain ⟨before, m, after, vs, st₁, rfl, hbefore, hm⟩ := ih h
        have hvs : Gives (executeAll execute (node :: before)) st (v :: vs) st₁ :=
          hnode.bind (hbefore.bind (gives_pure _ _))
        exact ⟨node :: before, m, after, v :: vs, st₁, rfl, hvs, hm⟩
      · exact absurd h not_stops_pure

theorem Stops.exists_of_executeEach {nodes : List Node}
    (h : Stops (executeEach execute nodes) st i st') :
    ∃ before m after st₁, nodes = before ++ m :: after ∧
      Gives (executeEach execute before) st () st₁ ∧ Stops (execute m) st₁ i st' := by
  induction nodes generalizing st with
  | nil => exact absurd h not_stops_pure
  | cons node nodes ih =>
    rcases h.of_bind with h | ⟨v, st₂, hnode, h⟩
    · exact ⟨[], node, nodes, st, rfl, gives_pure _ _, h⟩
    · obtain ⟨before, m, after, st₁, rfl, hbefore, hm⟩ := ih h
      exact ⟨node :: before, m, after, st₁, rfl, hnode.bind hbefore, hm⟩

section

variable (hrender : ∀ v, Seals (render v)) (hi : i.IsStray)
include hrender hi

theorem Stops.of_printArgument (h : Stops (printArgument execute render m) st i st') :
    Stops (execute m) st i st' :=
  h.of_bind_seals hi fun v => (hrender v).bind fun text => Seals.write text

theorem Stops.exists_of_printFurther {nodes : List Node}
    (h : Stops (printFurther execute render nodes) st i st') :
    ∃ before m after st₁ st₂, nodes = before ++ m :: after ∧
      Gives (printFurther execute render before) st () st₁ ∧ Gives (write " ") st₁ () st₂ ∧
      Stops (execute m) st₂ i st' := by
  induction nodes generalizing st with
  | nil => exact absurd h not_stops_pure
  | cons node nodes ih =>
    rcases h.of_bind with h | ⟨_, st₃, hspace, h⟩
    · exact absurd hi (Seals.write _ _ _ _ h)
    · rcases h.of_bind with h | ⟨_, st₄, hnode, h⟩
      · exact ⟨[], node, nodes, st, st₃, rfl, gives_pure _ _, hspace,
          Stops.of_printArgument hrender hi h⟩
      · obtain ⟨before, m, after, st₁, st₂, rfl, hbefore, hspace', hm⟩ := ih h
        exact ⟨node :: before, m, after, st₁, st₂, rfl, hspace.bind (hnode.bind hbefore), hspace',
          hm⟩

theorem Stops.exists_of_printLine {nodes : List Node}
    (h : Stops (printLine execute render nodes) st i st') :
    ∃ before m after st₁, nodes = before ++ m :: after ∧
      Gives (printBefore execute render before) st () st₁ ∧ Stops (execute m) st₁ i st' := by
  cases nodes with
  | nil => exact absurd hi (Seals.write _ _ _ _ h)
  | cons node nodes =>
    rcases h.of_bind with h | ⟨_, st₂, hnode, h⟩
    · exact ⟨[], node, nodes, st, rfl, gives_pure _ _, Stops.of_printArgument hrender hi h⟩
    · have hfurther := h.of_bind_seals hi fun _ => Seals.write "\n"
      -- the space in front of the argument is printed before the argument runs
      obtain ⟨before, m, after, st₁, st₃, rfl, hbefore, hspace, hm⟩ :=
        Stops.exists_of_printFurther hrender hi hfurther
      exact ⟨node :: before, m, after, st₃, rfl, hnode.bind (hbefore.bind hspace), hm⟩

end

/-- What runs trees and gives printed forms lets no `return` out of a method, and stops with nothing
else that is taken for one. -/
structure Contained (execute : Node → Run Value) (render : Value → Run String) : Prop where
  exists_eq_returned : ∀ n st i st', Stops (execute n) st i st' → i.IsStray → ∃ v, i = .returned v
  seals_methodBody : ∀ body, Seals (execute (.methodBody body))
  seals_render : ∀ v, Seals (render v)

/-- The tree is a `return` that stops so, behind its value, or it starts a part that stops so. -/
def Stems (σ : Setting) (execute : Node → Run Value) (render : Value → Run String) (n : Node)
    (st : RunState) (i : Interrupt) (st' : RunState) : Prop :=
  (∃ value v, n = .returnValue value ∧ Gives (execute value) st v st' ∧ i = .returned v) ∨
    ∃ m st₁, Starts σ execute render n st m st₁ ∧ Stops (execute m) st₁ i st'

theorem Stems.of_operand (hm : StartsOperand σ execute render n st m st₁)
    (h : Stops (execute m) st₁ i st') : Stems σ execute render n st i st' :=
  .inr ⟨m, st₁, .inr hm, h⟩

theorem Stems.of_statement (hm : StartsStatement execute n st m st₁)
    (h : Stops (execute m) st₁ i st') : Stems σ execute render n st i st' :=
  .inr ⟨m, st₁, .inl hm, h⟩

section

variable (hi : i.IsStray)
include hi

theorem Stops.stems_assignField {object value : Node} {field : String}
    (h : Stops (step σ execute render (.assignField object field value)) st i st') :
    Stems σ execute render (.assignField object field value) st i st' := by
  rcases h.of_bind with h | ⟨v, st₁, hobject, h⟩
  · exact .of_operand .assignField_object h
  · rcases h.of_bind with h | ⟨o, st₂, ho, h⟩
    · exact absurd hi (Seals.expectObject _ _ _ _ _ _ h)
    · obtain ⟨rfl, rfl⟩ := gives_expectObject ho
      have hvalue := h.of_bind_seals hi fun v => (Seals.modify _).bind fun _ => .pure _
      exact .of_operand (.assignField_value hobject) hvalue

variable (hinvoke : ∀ o name arguments, Seals (invoke σ execute o name arguments))
include hinvoke

theorem Stops.stems_call {receiver : Node} {method : String} {arguments : List Node}
    (h : Stops (step σ execute render (.call receiver method arguments)) st i st') :
    Stems σ execute render (.call receiver method arguments) st i st' := by
  rcases h.of_bind with h | ⟨v, st₁, hreceiver, h⟩
  · exact .of_operand .call_receiver h
  · rcases h.of_bind with h | ⟨o, st₂, ho, h⟩
    · exact absurd hi (Seals.expectObject _ _ _ _ _ _ h)
    · obtain ⟨rfl, rfl⟩ := gives_expectObject ho
      have hall := h.of_bind_seals hi fun vs => hinvoke o method vs
      obtain ⟨before, m, after, vs, st₃, rfl, hbefore, hm⟩ := hall.exists_of_executeAll
      exact .of_operand (.call_argument hreceiver hbefore) hm

theorem Stops.stems_construct {cls : ClassRef} {arguments : List Node}
    (h : Stops (step σ execute render (.construct cls arguments)) st i st') :
    Stems σ execute render (.construct cls arguments) st i st' := by
  rcases h.of_bind with h | ⟨o, st₁, hnew, h⟩
  · exact absurd hi (Seals.construct cls _ _ _ h)
  · rcases h.of_bind with h | ⟨found, st₂, hinit, h⟩
    · exact absurd hi (Seals.hasMethod _ _ _ _ _ _ _ h)
    · split at h
      · rename_i hfound
        obtain rfl : found = true := hfound
        have hall := h.of_bind_seals hi fun vs =>
          (hinvoke o initName vs).bind fun _ => .pure (Value.object o)
        obtain ⟨before, m, after, vs, st₃, rfl, hbefore, hm⟩ := hall.exists_of_executeAll
        exact .of_operand (.construct hnew hinit hbefore) hm
      · exact absurd h not_stops_pure

end

/-- A tree that stops with a `return` is that `return`, behind its value, or started a part that
stops with the `return`. -/
theorem Contained.step (hc : Contained execute render) (hσ : σ.table.Sealed)
    (h : Stops (step σ execute render n) st i st') (hi : i.IsStray) :
    Stems σ execute render n st i st' := by
  have hinvoke := Seals.invoke hσ hc.seals_methodBody
  cases n with
  | constant v => exact absurd h not_stops_pure
  | path p => exact absurd hi (Seals.resolve σ p _ _ _ h)
  | classDefinition cls => exact absurd hi ((Seals.modify _).bind (fun _ => .pure _) _ _ _ h)
  | assign name value =>
    have hvalue := h.of_bind_seals hi fun v => (Seals.modify _).bind fun _ => .pure _
    exact .of_operand .assign hvalue
  | assignField object field value => exact h.stems_assignField hi
  | print arguments =>
    have hline := h.of_bind_seals hi fun _ => .pure _
    obtain ⟨before, m, after, st₁, rfl, hbefore, hm⟩ :=
      Stops.exists_of_printLine hc.seals_render hi hline
    exact .of_operand (.print hbefore) hm
  | printValue argument =>
    have hargument := h.of_bind_seals hi fun v =>
      (Seals.printOne hc.seals_render v).bind fun _ => .pure _
    exact .of_operand .printValue hargument
  | call receiver method arguments => exact h.stems_call hi hinvoke
  | construct cls arguments => exact h.stems_construct hi hinvoke
  | stringify argument =>
    have hargument := h.of_bind_seals hi fun v => (hc.seals_render v).bind fun _ => .pure _
    exact .of_operand .stringify hargument
  | not argument =>
    have hargument := h.of_bind_seals hi fun v => .pure _
    exact .of_operand .not hargument
  | and left right =>
    rcases h.of_bind with h | ⟨v, st₁, hleft, h⟩
    · exact .of_operand .and_left h
    · split at h
      · rename_i hv
        have hright := h.of_bind_seals hi fun w => .pure _
        exact .of_operand (.and_right hleft hv) hright
      · exact absurd h not_stops_pure
  | or left right =>
    rcases h.of_bind with h | ⟨v, st₁, hleft, h⟩
    · exact .of_operand .or_left h
    · split at h
      · exact absurd h not_stops_pure
      · rename_i hv
        have hright := h.of_bind_seals hi fun w => .pure _
        exact .of_operand (.or_right hleft (by simpa using hv)) hright
  | arithmetic op left right =>
    rcases h.of_bind with h | ⟨v, st₁, hleft, h⟩
    · exact .of_operand .arithmetic_left h
    · have hright := h.of_bind_seals hi fun w => Seals.operate hinvoke op v w
      exact .of_operand (.arithmetic_right hleft) hright
  | compare c left right =>
    rcases h.of_bind with h | ⟨v, st₁, hleft, h⟩
    · exact .of_operand .compare_left h
    · have hright := h.of_bind_seals hi fun w => (Seals.compare hinvoke c v w).bind fun _ => .pure _
      exact .of_operand (.compare_right hleft) hright
  | sequence statements =>
    have heach := h.of_bind_seals hi fun _ => .pure _
    obtain ⟨before, m, after, st₁, rfl, hbefore, hm⟩ := heach.exists_of_executeEach
    exact .of_statement (.sequence hbefore) hm
  | returnValue value =>
    rcases h.of_bind with h | ⟨v, st₁, hvalue, h⟩
    · exact .of_operand .returnValue h
    · obtain ⟨rfl, rfl⟩ := stops_throw_iff.1 h
      exact .inl ⟨value, v, rfl, hvalue, rfl⟩
  | methodBody body =>
    -- what is returned in the body is caught, and handing it back only renders it
    refine absurd hi (Seals.bind ?_ ?_ _ _ _ h)
    · exact .returnedBy (hc.exists_eq_returned body)
    · intro v?
      cases v? with
      | none => exact .pure _
      | some v => exact Seals.methodResult hc.seals_render v
  | ifThen condition body =>
    rcases h.of_bind with h | ⟨v, st₁, hcondition, h⟩
    · exact .of_operand .ifThen h
    · split at h
      · rename_i hv
        exact .of_statement (.ifThen hcondition hv) h
      · exact absurd h not_stops_pure
  | ifElse condition body alternative =>
    rcases h.of_bind with h | ⟨v, st₁, hcondition, h⟩
    · exact .of_operand .ifElse h
    · split at h
      · rename_i hv
        exact .of_statement (.ifElse_body hcondition hv) h
      · rename_i hv
        exact .of_statement (.ifElse_alternative hcondition (by simpa using hv)) h

end

end Offside.Run
