import Offside.Proofs.ConfinedRuns
import Offside.Proofs.Returns

set_option autoImplicit false

/-! # Numbers that are written

Numbers of any size can be calculated with, but only those with few digits can be written. So a run
that calls no methods stops at the limit of digits exactly where it has such a number to write, for
`print` or for `str`: it has come to the `print` or to the `str` from part to part, and the value of
a part of it is a number with too many digits. -/

namespace Offside

open Run

/-- The value is a number with too many digits. -/
def Value.IsTooLong (v : Value) : Prop := ∃ n : Int, v = .number n ∧ Text.isWritable n.natAbs = false

/-- Whether a tree writes the values of its parts. -/
def Node.writes : Node → Bool
  | print _ | printValue _ | stringify _ => true
  | _ => false

/-! ## Steps that write no number -/

namespace Sphere

variable {S : Sphere} {σ : Setting} {t : ClassTable} {st st₁ st' : RunState} {k : Nat}
variable {α β : Type} {x : Run α} {f : α → Run β} {Q : α → Prop} {R : β → Prop}

/-- The same sphere for steps that do not stop at a number with too many digits. -/
def sparing (S : Sphere) : Sphere := { S with Digits := False }

theorem Holds.sparing (h : S.Holds t st) : S.sparing.Holds t st := ⟨h.frame, h.fields, h.methods⟩

namespace Keeps

theorem of_gives {a : α} (h : S.Keeps t k x Q) (hst : S.Holds t st) (ha : Gives x st a st₁) :
    Q a ∧ S.Holds t st₁ := by
  have hx := h st hst
  rw [ha] at hx
  exact ⟨hx.ok a rfl, hx.holds⟩

theorem not_stops (h : S.sparing.Keeps t k x Q) (hst : S.Holds t st) :
    ¬ Stops x st .tooManyDigits st' :=
  fun hstops => (h st hst.sparing).tooManyDigits (congrArg Prod.fst hstops)

/-- Where only the first step may stop at a number, it is the one that does. -/
theorem stops_of_bind (hx : S.Keeps t k x Q) (hst : S.Holds t st)
    (h : Stops (x >>= f) st .tooManyDigits st')
    (hf : ∀ a, Q a → S.sparing.Keeps t k (f a) R) : Stops x st .tooManyDigits st' := by
  rcases h.of_bind with h | ⟨a, st₁, ha, h⟩
  · exact h
  · obtain ⟨hQ, hst₁⟩ := hx.of_gives hst ha
    exact absurd h ((hf a hQ).not_stops hst₁)

/-- Where no methods may be called, there are none. -/
theorem invoke_of_not_calls {execute : Node → Run Value} (hno : ¬ S.Calls) (o : ObjectRef)
    (name : String) (arguments : List Value) (ho : S.Inside o) :
    S.Keeps σ.table k (Run.invoke σ execute o name arguments) S.Fits :=
  .invoke ho name arguments fun hcalls => absurd hcalls hno

end Keeps

/-- Only a number can have too many digits to be written. -/
theorem isTooLong_of_stops {execute : Node → Run Value} {render : Value → Run String} {v : Value}
    (hno : ¬ S.Calls) (hst : S.Holds σ.table st) (hv : S.Fits v)
    (h : Stops (renderStep σ execute render v) st .tooManyDigits st') : v.IsTooLong ∧ st = st' := by
  by_cases hnumber : ∃ n, v = .number n
  · obtain ⟨n, rfl⟩ := hnumber
    obtain ⟨hn, -, rfl⟩ := stops_showNumber_iff.1 h
    exact ⟨⟨n, rfl, hn⟩, rfl⟩
  · have hkeeps : S.sparing.Keeps σ.table 0 (renderStep σ execute render v) fun _ => True := by
      refine .renderStep hv (fun n hn => absurd ⟨n, hn⟩ hnumber) fun o ho => ?_
      exact .invoke_bind ho strName [] (fun hcalls => absurd hcalls hno)
        fun hcalls => absurd hcalls hno
    exact absurd h (hkeeps.not_stops hst)

/-- What the step for a tree relies on where no methods may be called: its children and, if it has
any, printed forms keep to the sphere, and only numbers can lack a printed form for their digits. -/
structure Quiet (S : Sphere) (σ : Setting) (execute : Node → Run Value)
    (render : Value → Run String) (n : Node) : Prop where
  not_calls : ¬ S.Calls
  children : ∀ m ∈ n.children, S.Keeps σ.table 0 (execute m) S.Fits
  -- a tree without children may run within a depth in which nothing has a printed form
  forms : n.children ≠ [] → ∀ v, S.Fits v → S.Keeps σ.table 0 (render v) fun _ => True
  numbers : ∀ v st st', S.Fits v → S.Holds σ.table st → Stops (render v) st .tooManyDigits st' →
    v.IsTooLong ∧ st = st'

end Sphere

/-! ## Trees that write -/

namespace Run

/-- The value of the tree is a number with too many digits, or the tree stops at such a number. The
state `st'` is left. -/
def MeetsNumber (execute : Node → Run Value) (m : Node) (st st' : RunState) : Prop :=
  Stops (execute m) st .tooManyDigits st' ∨ ∃ v, Gives (execute m) st v st' ∧ v.IsTooLong

/-- The tree, run from the state `st`, starts a part that stops at a number, or it writes a part that
does or that is one. -/
def ComesToNumber (σ : Setting) (execute : Node → Run Value) (render : Value → Run String)
    (n : Node) (st st' : RunState) : Prop :=
  ∃ m st₁, Starts σ execute render n st m st₁ ∧
    (Stops (execute m) st₁ .tooManyDigits st' ∨
      n.writes = true ∧ ∃ v, Gives (execute m) st₁ v st' ∧ v.IsTooLong)

variable {S : Sphere} {σ : Setting} {st st₁ st' : RunState} {n m : Node} {nodes : List Node}
variable {execute : Node → Run Value} {render : Value → Run String} {v : Value}

theorem ComesToNumber.of_operand (hm : StartsOperand σ execute render n st m st₁)
    (h : Stops (execute m) st₁ .tooManyDigits st') : ComesToNumber σ execute render n st st' :=
  ⟨m, st₁, .inr hm, .inl h⟩

theorem ComesToNumber.of_statement (hm : StartsStatement execute n st m st₁)
    (h : Stops (execute m) st₁ .tooManyDigits st') : ComesToNumber σ execute render n st st' :=
  ⟨m, st₁, .inl hm, .inl h⟩

theorem ComesToNumber.of_written (hm : StartsOperand σ execute render n st m st₁)
    (hn : n.writes = true) (h : MeetsNumber execute m st₁ st') :
    ComesToNumber σ execute render n st st' :=
  ⟨m, st₁, .inr hm, h.imp_right fun hv => ⟨hn, hv⟩⟩

/-! ## Parts within a sphere -/

theorem keeps_printBefore
    (hforms : ∀ v, S.Fits v → S.Keeps σ.table 0 (render v) fun _ => True)
    (hnodes : ∀ m ∈ nodes, S.Keeps σ.table 0 (execute m) S.Fits) :
    S.Keeps σ.table 0 (printBefore execute render nodes) fun _ => True := by
  cases nodes with
  | nil => exact .pure trivial
  | cons node nodes =>
    have hfirst := Sphere.Keeps.printArgument hforms (hnodes node (List.mem_cons_self ..))
    have hrest := Sphere.Keeps.printFurther hforms fun m hm => hnodes m (List.mem_cons_of_mem _ hm)
    exact hfirst.bind fun _ _ => hrest.bind fun _ _ => .write " "

section

variable (hq : S.Quiet σ execute render n) (hst : S.Holds σ.table st)
include hq hst

theorem holds_of_startsStatement (h : StartsStatement execute n st m st₁) :
    S.Holds σ.table st₁ := by
  cases h with
  | @sequence before after m st st₁ hbefore =>
    have hnodes : ∀ k ∈ before, S.Keeps σ.table 0 (execute k) S.Fits :=
      fun k hk => hq.children k (by simp [Node.children, Node.statements, hk])
    exact ((Sphere.Keeps.executeEach hnodes).of_gives hst hbefore).2
  | @ifThen condition _ _ _ _ hcondition | @ifElse_body condition _ _ _ _ _ hcondition
    | @ifElse_alternative condition _ _ _ _ _ hcondition =>
    have hkeeps := hq.children condition (by simp [Node.children, Node.operands])
    exact (hkeeps.of_gives hst hcondition).2

theorem holds_of_startsOperand (hn : n.YieldsNoObject)
    (h : StartsOperand σ execute render n st m st₁) : S.Holds σ.table st₁ := by
  cases h with
  | assign | assignField_object | printValue | call_receiver | stringify | not | and_left | or_left
    | arithmetic_left | compare_left | returnValue | ifThen | ifElse => exact hst
  | construct => exact hn.elim
  | @assignField_value object _ _ _ _ _ hobject =>
    have hkeeps := hq.children object (by simp [Node.children, Node.operands])
    exact (hkeeps.of_gives hst hobject).2
  | @and_right left _ _ _ _ hleft | @or_right left _ _ _ _ hleft
    | @arithmetic_right _ left _ _ _ _ hleft | @compare_right _ left _ _ _ _ hleft =>
    have hkeeps := hq.children left (by simp [Node.children, Node.operands])
    exact (hkeeps.of_gives hst hleft).2
  | @print before after m _ _ hbefore =>
    have hforms := hq.forms (List.ne_nil_of_mem
      (show m ∈ (Node.print (before ++ m :: after)).children by simp [Node.children, Node.operands]))
    have hnodes : ∀ k ∈ before, S.Keeps σ.table 0 (execute k) S.Fits :=
      fun k hk => hq.children k (by simp [Node.children, Node.operands, hk])
    exact ((keeps_printBefore hforms hnodes).of_gives hst hbefore).2
  | @call_argument receiver _ _ before _ _ _ _ _ _ hreceiver hbefore =>
    have hkeeps := hq.children receiver (by simp [Node.children, Node.operands])
    have hnodes : ∀ k ∈ before, S.Keeps σ.table 0 (execute k) S.Fits :=
      fun k hk => hq.children k (by simp [Node.children, Node.operands, hk])
    have hst₁ := (hkeeps.of_gives hst hreceiver).2
    exact ((Sphere.Keeps.executeAll hnodes).of_gives hst₁ hbefore).2

/-- A part is started within the sphere. -/
theorem holds_of_starts (hn : n.YieldsNoObject) (h : Starts σ execute render n st m st₁) :
    S.Holds σ.table st₁ :=
  h.elim (holds_of_startsStatement hq hst) (holds_of_startsOperand hq hst hn)

end

theorem mem_children_of_starts (h : Starts σ execute render n st m st₁) : m ∈ n.children := by
  have hpart : m ∈ n.operands ++ n.statements :=
    List.mem_append.2 (h.elim (fun hs => .inr hs.mem_statements) fun hs => .inl hs.mem_operands)
  cases n with
  | methodBody body => simp [Node.operands, Node.statements] at hpart
  | _ => exact hpart

namespace Stops

section

variable (hq : S.Quiet σ execute render n)
include hq

/-- Where a step begins with a part, the part stops at a number, or the step goes on with its value. -/
theorem of_child {α : Type} {f : Value → Run α} (hm : m ∈ n.children) (hst : S.Holds σ.table st)
    (h : Stops (execute m >>= f) st .tooManyDigits st') :
    Stops (execute m) st .tooManyDigits st' ∨
      ∃ v st₁, Gives (execute m) st v st₁ ∧ S.Fits v ∧ S.Holds σ.table st₁ ∧
        Stops (f v) st₁ .tooManyDigits st' := by
  rcases h.of_bind with h | ⟨v, st₁, hv, h⟩
  · exact .inl h
  · obtain ⟨hfits, hst₁⟩ := (hq.children m hm).of_gives hst hv
    exact .inr ⟨v, st₁, hv, hfits, hst₁, h⟩

/-- Where a step writes nothing behind its last part, it is the part that stops. -/
theorem of_last_child {α : Type} {f : Value → Run α} {R : α → Prop} (hm : m ∈ n.children)
    (hst : S.Holds σ.table st) (h : Stops (execute m >>= f) st .tooManyDigits st')
    (hf : ∀ v, S.Fits v → S.sparing.Keeps σ.table 0 (f v) R) :
    Stops (execute m) st .tooManyDigits st' :=
  (hq.children m hm).stops_of_bind hst h hf

theorem isTooLong {α : Type} {f : String → Run α} (hm : m ∈ n.children) (hst : S.Holds σ.table st)
    (hv : S.Fits v) (h : Stops (render v >>= f) st .tooManyDigits st')
    (hf : ∀ text, S.sparing.Keeps σ.table 0 (f text) fun _ => True) : v.IsTooLong ∧ st = st' :=
  have hform := hq.forms (List.ne_nil_of_mem hm) v hv
  hq.numbers v st st' hv hst (hform.stops_of_bind hst h fun text _ => hf text)

theorem meetsNumber_of_printArgument (hst : S.Holds σ.table st) (hm : m ∈ n.children)
    (h : Stops (printArgument execute render m) st .tooManyDigits st') :
    MeetsNumber execute m st st' := by
  rcases of_child hq hm hst h with h | ⟨v, st₁, hv, hfits, hst₁, h⟩
  · exact .inl h
  · obtain ⟨hlong, rfl⟩ := isTooLong hq hm hst₁ hfits h fun text => .write text
    exact .inr ⟨v, hv, hlong⟩

theorem exists_meetsNumber_of_printFurther (hnodes : ∀ m ∈ nodes, m ∈ n.children)
    (hst : S.Holds σ.table st) (h : Stops (printFurther execute render nodes) st .tooManyDigits st') :
    ∃ before m after st₁ st₂, nodes = before ++ m :: after ∧
      Gives (printFurther execute render before) st () st₁ ∧ Gives (write " ") st₁ () st₂ ∧
      MeetsNumber execute m st₂ st' := by
  induction nodes generalizing st with
  | nil => exact absurd h not_stops_pure
  | cons node nodes ih =>
    have hnode := hnodes node (List.mem_cons_self ..)
    rcases h.of_bind with h | ⟨_, st₃, hspace, h⟩
    · exact absurd h ((Sphere.Keeps.write (k := 0) " ").not_stops hst)
    · have hst₃ := ((Sphere.Keeps.write (k := 0) " ").of_gives hst hspace).2
      rcases h.of_bind with h | ⟨_, st₄, hprinted, h⟩
      · exact ⟨[], node, nodes, st, st₃, rfl, gives_pure _ _, hspace,
          meetsNumber_of_printArgument hq hst₃ hnode h⟩
      · have hforms := hq.forms (List.ne_nil_of_mem hnode)
        have hst₄ := ((Sphere.Keeps.printArgument hforms (hq.children node hnode)).of_gives hst₃
          hprinted).2
        obtain ⟨before, m, after, st₁, st₂, rfl, hbefore, hspace', hm⟩ :=
          ih (fun m hm => hnodes m (List.mem_cons_of_mem _ hm)) hst₄ h
        exact ⟨node :: before, m, after, st₁, st₂, rfl, hspace.bind (hprinted.bind hbefore),
          hspace', hm⟩

theorem exists_meetsNumber_of_printLine (hnodes : ∀ m ∈ nodes, m ∈ n.children)
    (hst : S.Holds σ.table st) (h : Stops (printLine execute render nodes) st .tooManyDigits st') :
    ∃ before m after st₁, nodes = before ++ m :: after ∧
      Gives (printBefore execute render before) st () st₁ ∧ MeetsNumber execute m st₁ st' := by
  cases nodes with
  | nil => exact absurd h ((Sphere.Keeps.write (k := 0) "\n").not_stops hst)
  | cons node nodes =>
    have hnode := hnodes node (List.mem_cons_self ..)
    have hforms := hq.forms (List.ne_nil_of_mem hnode)
    have hprint := Sphere.Keeps.printArgument hforms (hq.children node hnode)
    rcases h.of_bind with h | ⟨_, st₂, hprinted, h⟩
    · exact ⟨[], node, nodes, st, rfl, gives_pure _ _,
        meetsNumber_of_printArgument hq hst hnode h⟩
    · have hst₂ := (hprint.of_gives hst hprinted).2
      have hrest : ∀ m ∈ nodes, m ∈ n.children :=
        fun m hm => hnodes m (List.mem_cons_of_mem _ hm)
      have hfurther := (Sphere.Keeps.printFurther hforms
        fun m hm => hq.children m (hrest m hm)).stops_of_bind hst₂ h fun _ _ => .write "\n"
      -- the space in front of the argument is printed before the argument runs
      obtain ⟨before, m, after, st₁, st₃, rfl, hbefore, hspace, hm⟩ :=
        exists_meetsNumber_of_printFurther hq hrest hst₂ hfurther
      exact ⟨node :: before, m, after, st₃, rfl, hprinted.bind (hbefore.bind hspace), hm⟩

theorem isTooLong_of_printOne (hm : m ∈ n.children) (hst : S.Holds σ.table st) (hv : S.Fits v)
    (h : Stops (printOne render v) st .tooManyDigits st') : v.IsTooLong ∧ st = st' := by
  unfold printOne at h
  split at h
  · exact isTooLong hq hm hst hv h fun text => (Sphere.Keeps.write text).bind fun _ _ => .write "\n"
  · exact absurd h ((Sphere.Keeps.write (k := 0) "\n").not_stops hst)

end

theorem not_stops_expectObject {use : ObjectUse} (v : Value) :
    ¬ Stops (expectObject σ use v) st .tooManyDigits st' := by
  intro h
  unfold expectObject at h
  split at h
  · exact not_stops_pure h
  · rcases h.of_bind with h | ⟨_, st₁, -, h⟩
    · exact Gives.not_stops (x := typeName σ _) rfl h
    · simp [fail, stops_throw_iff] at h

theorem comesToNumber_assignField {object value : Node} {field : String}
    (hq : S.Quiet σ execute render (.assignField object field value)) (hst : S.Holds σ.table st)
    (h : Stops (step σ execute render (.assignField object field value)) st .tooManyDigits st') :
    ComesToNumber σ execute render (.assignField object field value) st st' := by
  have hobject : object ∈ (Node.assignField object field value).children := by
    simp [Node.children, Node.operands]
  have hvalue : value ∈ (Node.assignField object field value).children := by
    simp [Node.children, Node.operands]
  rcases of_child hq hobject hst h with h | ⟨v, st₁, hv, -, hst₁, h⟩
  · exact .of_operand .assignField_object h
  · rcases h.of_bind with h | ⟨o, st₂, ho, h⟩
    · exact absurd h (not_stops_expectObject v)
    · obtain ⟨rfl, rfl⟩ := gives_expectObject ho
      refine .of_operand (.assignField_value hv)
        (of_last_child (R := S.Fits) hq hvalue hst₁ h fun w hw => ?_)
      exact (Sphere.Keeps.setField (S := S.sparing) o field hw).bind fun _ _ => .pure hw

theorem comesToNumber_call {receiver : Node} {method : String} {arguments : List Node}
    (hq : S.Quiet σ execute render (.call receiver method arguments)) (hst : S.Holds σ.table st)
    (h : Stops (step σ execute render (.call receiver method arguments)) st .tooManyDigits st') :
    ComesToNumber σ execute render (.call receiver method arguments) st st' := by
  have hreceiver : receiver ∈ (Node.call receiver method arguments).children := by
    simp [Node.children, Node.operands]
  have harguments : ∀ m ∈ arguments, S.Keeps σ.table 0 (execute m) S.Fits :=
    fun m hm => hq.children m (by simp [Node.children, Node.operands, hm])
  rcases of_child hq hreceiver hst h with h | ⟨v, st₁, hv, hfits, hst₁, h⟩
  · exact .of_operand .call_receiver h
  · rcases h.of_bind with h | ⟨o, st₂, ho, h⟩
    · exact absurd h (not_stops_expectObject v)
    · obtain ⟨rfl, rfl⟩ := gives_expectObject ho
      have hall := (Sphere.Keeps.executeAll harguments).stops_of_bind hst₁ h fun vs _ =>
        .invoke_of_not_calls (S := S.sparing) hq.not_calls o method vs (Sphere.fits_object.1 hfits)
      obtain ⟨before, m, after, vs, st₃, rfl, hbefore, hm⟩ := hall.exists_of_executeAll
      exact .of_operand (.call_argument hv hbefore) hm

/-- A tree stops at a number only where a part that it started does, or where it writes the value of
one. -/
theorem comesToNumber (hn : n.YieldsNoObject) (hq : S.Quiet σ execute render n)
    (hst : S.Holds σ.table st) (h : Stops (step σ execute render n) st .tooManyDigits st') :
    ComesToNumber σ execute render n st st' := by
  have hplain : ∀ b : Bool, S.Fits (.bool b) := fun _ => Sphere.fits_of_ne (by simp)
  have hinvoke : ∀ o name arguments, S.sparing.Inside o →
      S.sparing.Keeps σ.table 0 (invoke σ execute o name arguments) S.sparing.Fits :=
    Sphere.Keeps.invoke_of_not_calls hq.not_calls
  cases n with
  | construct | methodBody => exact hn.elim
  | constant v => exact absurd h not_stops_pure
  | path p => exact absurd h ((Sphere.Keeps.resolve (k := 0) σ p).not_stops hst)
  | classDefinition cls =>
    have hbinds : S.sparing.Keeps σ.table 0
        (do bindName (σ.table.name cls) (.classObject cls); return Value.classObject cls)
        fun _ => True :=
      (Sphere.Keeps.bindName _ (Sphere.fits_of_ne (by simp))).bind fun _ _ => .pure trivial
    exact absurd h (hbinds.not_stops hst)
  | assign name value =>
    have hvalue : value ∈ (Node.assign name value).children := by
      simp [Node.children, Node.operands]
    refine .of_operand .assign (of_last_child (R := S.Fits) hq hvalue hst h fun v hv => ?_)
    exact (Sphere.Keeps.bindName (S := S.sparing) name hv).bind fun _ _ => .pure hv
  | assignField object field value => exact comesToNumber_assignField hq hst h
  | print arguments =>
    have hall : ∀ m ∈ arguments, m ∈ (Node.print arguments).children :=
      fun m hm => by simp [Node.children, Node.operands, hm]
    rcases h.of_bind with h | ⟨_, st₁, -, h⟩
    · obtain ⟨before, m, after, st₁, rfl, hbefore, hm⟩ :=
        exists_meetsNumber_of_printLine hq hall hst h
      exact .of_written (.print hbefore) rfl hm
    · exact absurd h not_stops_pure
  | printValue argument =>
    have hmem : argument ∈ (Node.printValue argument).children := by
      simp [Node.children, Node.operands]
    rcases of_child hq hmem hst h with h | ⟨v, st₁, hv, hfits, hst₁, h⟩
    · exact .of_operand .printValue h
    · rcases h.of_bind with h | ⟨_, st₂, -, h⟩
      · obtain ⟨hlong, rfl⟩ := isTooLong_of_printOne hq hmem hst₁ hfits h
        exact .of_written .printValue rfl (.inr ⟨v, hv, hlong⟩)
      · exact absurd h not_stops_pure
  | call receiver method arguments => exact comesToNumber_call hq hst h
  | stringify argument =>
    have hmem : argument ∈ (Node.stringify argument).children := by
      simp [Node.children, Node.operands]
    rcases of_child hq hmem hst h with h | ⟨v, st₁, hv, hfits, hst₁, h⟩
    · exact .of_operand .stringify h
    · have hform : ∀ text, S.sparing.Keeps σ.table 0 (pure (Value.string text)) fun _ => True :=
        fun _ => .pure trivial
      obtain ⟨hlong, rfl⟩ := isTooLong hq hmem hst₁ hfits h hform
      exact .of_written .stringify rfl (.inr ⟨v, hv, hlong⟩)
  | not argument =>
    have hargument : argument ∈ (Node.not argument).children := by
      simp [Node.children, Node.operands]
    exact .of_operand .not (of_last_child hq hargument hst h fun v _ => .pure (hplain _))
  | and left right =>
    have hleft : left ∈ (Node.and left right).children := by simp [Node.children, Node.operands]
    have hright : right ∈ (Node.and left right).children := by simp [Node.children, Node.operands]
    rcases of_child hq hleft hst h with h | ⟨v, st₁, hv, -, hst₁, h⟩
    · exact .of_operand .and_left h
    · split at h
      · rename_i htrue
        exact .of_operand (.and_right hv htrue)
          (of_last_child hq hright hst₁ h fun w _ => .pure (hplain _))
      · exact absurd h not_stops_pure
  | or left right =>
    have hleft : left ∈ (Node.or left right).children := by simp [Node.children, Node.operands]
    have hright : right ∈ (Node.or left right).children := by simp [Node.children, Node.operands]
    rcases of_child hq hleft hst h with h | ⟨v, st₁, hv, -, hst₁, h⟩
    · exact .of_operand .or_left h
    · split at h
      · exact absurd h not_stops_pure
      · rename_i hfalse
        exact .of_operand (.or_right hv (by simpa using hfalse))
          (of_last_child hq hright hst₁ h fun w _ => .pure (hplain _))
  | arithmetic op left right =>
    have hleft : left ∈ (Node.arithmetic op left right).children := by
      simp [Node.children, Node.operands]
    have hright : right ∈ (Node.arithmetic op left right).children := by
      simp [Node.children, Node.operands]
    rcases of_child hq hleft hst h with h | ⟨v, st₁, hv, hfits, hst₁, h⟩
    · exact .of_operand .arithmetic_left h
    · exact .of_operand (.arithmetic_right hv)
        (of_last_child hq hright hst₁ h fun w _ => .operate hinvoke op w hfits)
  | compare c left right =>
    have hleft : left ∈ (Node.compare c left right).children := by
      simp [Node.children, Node.operands]
    have hright : right ∈ (Node.compare c left right).children := by
      simp [Node.children, Node.operands]
    rcases of_child hq hleft hst h with h | ⟨v, st₁, hv, hfits, hst₁, h⟩
    · exact .of_operand .compare_left h
    · exact .of_operand (.compare_right hv) (of_last_child hq hright hst₁ h fun w _ =>
        (Sphere.Keeps.compare hinvoke c w hfits).bind fun _ _ => .pure (hplain _))
  | sequence statements =>
    rcases h.of_bind with h | ⟨_, st₁, -, h⟩
    · obtain ⟨before, m, after, st₁, rfl, hbefore, hm⟩ := h.exists_of_executeEach
      exact .of_statement (.sequence hbefore) hm
    · exact absurd h not_stops_pure
  | returnValue value =>
    rcases h.of_bind with h | ⟨v, st₁, -, h⟩
    · exact .of_operand .returnValue h
    · simp [stops_throw_iff] at h
  | ifThen condition body =>
    rcases h.of_bind with h | ⟨v, st₁, hv, h⟩
    · exact .of_operand .ifThen h
    · split at h
      · rename_i htrue
        exact .of_statement (.ifThen hv htrue) h
      · exact absurd h not_stops_pure
  | ifElse condition body alternative =>
    rcases h.of_bind with h | ⟨v, st₁, hv, h⟩
    · exact .of_operand .ifElse h
    · split at h
      · rename_i htrue
        exact .of_statement (.ifElse_body hv htrue) h
      · rename_i hfalse
        exact .of_statement (.ifElse_alternative hv (by simpa using hfalse)) h

end Stops

end Run

/-! ## Whole runs -/

/-- At the moment the value of a part is to be written, which is a number with too many digits. The
part has left the state `st'`. -/
def Moment.Overflows (σ : Setting) (a : Moment) (st' : RunState) : Prop :=
  a.node.writes = true ∧ ∃ b v, a.Starts σ b ∧
    Gives (execute σ b.depth b.node) b.state v st' ∧ v.IsTooLong

/-- A number with too many digits has no printed form. -/
theorem Value.IsTooLong.stops_render {v : Value} (h : v.IsTooLong) (σ : Setting) (d : Nat)
    (st : RunState) : Run.Stops (render σ (d + 1) v) st .tooManyDigits st := by
  obtain ⟨n, rfl, hn⟩ := h
  exact stops_showNumber_iff.2 ⟨hn, rfl, rfl⟩

theorem Value.IsTooLong.stops_printOne {v : Value} (h : v.IsTooLong) {render : Value → Run String}
    {st st' : RunState} {i : Interrupt} (hform : Run.Stops (render v) st i st') :
    Run.Stops (printOne render v) st i st' := by
  obtain ⟨n, rfl, -⟩ := h
  rw [printOne, if_pos (by simp)]
  exact hform.bind

namespace Moment

variable {σ : Setting} {a b : Moment} {st' : RunState}

/-- Nothing is run within no depth. -/
theorem exists_depth_eq_succ {v : Value} (h : Gives (execute σ b.depth b.node) b.state v st') :
    ∃ d, b.depth = d + 1 := by
  cases hd : b.depth with
  | zero =>
    rw [hd] at h
    exact absurd (stops_throw_iff.2 ⟨rfl, rfl⟩) h.not_stops
  | succ d => exact ⟨d, rfl⟩

/-- Where a number with too many digits is to be written, the run stops. -/
theorem Overflows.stops (h : a.Overflows σ st') : a.Stops σ .tooManyDigits st' := by
  obtain ⟨depth, n, st⟩ := a
  obtain ⟨hwrites, b, v, ⟨hdepth, hstarts⟩, hv, hlong⟩ := h
  obtain ⟨d, hd⟩ := exists_depth_eq_succ hv
  have hform := hlong.stops_render σ d st'
  rw [← hd] at hform
  obtain rfl : depth = b.depth + 1 := hdepth
  rcases hstarts with hstarts | hstarts
  · cases hstarts <;> simp [Node.writes] at hwrites
  · cases hstarts with
    | printValue => exact hv.stops (hlong.stops_printOne hform).bind
    | stringify => exact hv.stops hform.bind
    | print hbefore => exact (stops_printLine hbefore (hv.stops hform.bind)).bind
    | _ => simp [Node.writes] at hwrites

end Moment

namespace Run

variable {S : Sphere} {σ : Setting} {st st' : RunState} {n : Node} {H d : Nat}

/-- Where no methods may be called, only numbers have no printed form. -/
theorem isTooLong_of_stops_render {v : Value} (hno : ¬ S.Calls) (hst : S.Holds σ.table st)
    (hv : S.Fits v) (h : Stops (render σ d v) st .tooManyDigits st') : v.IsTooLong ∧ st = st' := by
  cases d with
  | zero => simp [render, stops_throw_iff] at h
  | succ d => exact Sphere.isTooLong_of_stops hno hst hv h

/-- A run without methods to call stops at a number only where it has come to a tree that is to write
one. -/
theorem exists_overflows_of_stops (hno : ¬ S.Calls) (hdigits : S.Digits)
    (hmethods : σ.table.AllMethods fun m => m.body.height ≤ H) (hn : n.Objectless)
    (hadmits : n.Every S.Admits) (hd : n.height ≤ d) (hst : S.Holds σ.table st)
    (h : Stops (execute σ d n) st .tooManyDigits st') :
    ∃ a, (Moment.mk d n st).Reaches σ a ∧ a.Overflows σ st' := by
  induction d generalizing n st with
  | zero => exact absurd n.height_pos (by omega)
  | succ d ih =>
    have hlower : ∀ m ∈ n.children, m.height ≤ d := fun m hm => by
      have hlt := Node.height_lt_of_mem_children hm
      omega
    have hkeeps := Sphere.keeps_run hdigits hmethods d 0
    have hq : S.Quiet σ (execute σ d) (render σ d) n := by
      refine ⟨hno, fun m hm => ?_, fun hchildren v hv => ?_, fun v st st' hv hst h => ?_⟩
      · exact hkeeps.1 m (hadmits.child hm) (.inr (by simpa using hlower m hm))
      · obtain ⟨m, hm⟩ := List.exists_mem_of_ne_nil _ hchildren
        have hpos := Nat.lt_of_lt_of_le m.height_pos (hlower m hm)
        exact hkeeps.2 v hv (.inr (by omega))
      · exact isTooLong_of_stops_render hno hst hv h
    obtain ⟨m, st₁, hstarts, hm⟩ := Stops.comesToNumber hn.self hq hst h
    rcases hm with hm | ⟨hwrites, v, hv, hlong⟩
    · have hst₁ := holds_of_starts hq hst hn.self hstarts
      have hchild := mem_children_of_starts hstarts
      obtain ⟨a, hreaches, hoverflows⟩ :=
        ih (hn.child hchild) (hadmits.child hchild) (hlower m hchild) hst₁ hm
      exact ⟨a, .head ⟨rfl, hstarts⟩ hreaches, hoverflows⟩
    · exact ⟨_, .refl, hwrites, ⟨d, m, st₁⟩, v, ⟨rfl, hstarts⟩, hv, hlong⟩

end Run

end Offside
