import Offside.Proofs.Confinement
import Offside.Proofs.Heights

set_option autoImplicit false

/-! # Whole runs within a sphere

Where running the children of a tree, printed forms and calls keep to a sphere, so does running the
tree. By induction on the depth, whole runs do, within a depth that the height of the tree and the
number of calls that are owed ask for: each call leads to the body of a method, which may be as high
as the highest in the table. -/

namespace Offside.Sphere

open Run

variable {S : Sphere} {σ : Setting} {k : Nat}

namespace Keeps

variable {execute : Node → Run Value} {render : Value → Run String}

/-! ## Operations and comparisons -/

section

variable (hinvoke : ∀ o name arguments, S.Inside o →
  S.Keeps σ.table k (Run.invoke σ execute o name arguments) S.Fits)
include hinvoke

theorem operate (op : ArithmeticOp) {left : Value} (right : Value) (hleft : S.Fits left) :
    S.Keeps σ.table k (operate σ execute op left right) S.Fits := by
  unfold Run.operate
  split
  · split
    · exact .pure (fits_of_ne (by simp))
    · exact .fail _
  · split
    · exact .pure (fits_of_ne (by simp))
    · exact hinvoke _ addName _ (fits_object.1 hleft)
    · exact (typeName σ _).bind fun _ _ => (typeName σ _).bind fun _ _ => .fail _

/-- Where a method of the left object is to decide, it decides, or there is none. -/
theorem decided {o : ObjectRef} (ho : S.Inside o) (name : String) (right : Value)
    {fallback : Run Bool} (hfallback : S.Keeps σ.table k fallback fun _ => True) :
    S.Keeps σ.table k
      (do
        if ← Run.hasMethod σ o name 1 then
          let v ← Run.invoke σ execute o name [right]
          return v.isTrue
        else fallback) fun _ => True := by
  refine (hasMethod ho name 1).bind fun found _ => ?_
  cases found with
  | true => exact (hinvoke o name [right] ho).bind fun v _ => .pure trivial
  | false => exact hfallback

theorem equal {left : Value} (right : Value) (hleft : S.Fits left) :
    S.Keeps σ.table k (equal σ execute left right) fun _ => True := by
  have hfail : S.Keeps σ.table k (noEquality σ left right) fun _ => True :=
    (typeName σ left).bind fun _ _ => (typeName σ right).bind fun _ _ => .fail _
  unfold Run.equal
  split
  · exact .pure trivial
  · split
    · exact decided hinvoke (fits_object.1 hleft) eqName right hfail
    · exact ite (.pure trivial) hfail
    · exact hfail

theorem less {left : Value} (right : Value) (hleft : S.Fits left) :
    S.Keeps σ.table k (less σ execute left right) fun _ => True := by
  have hfail : S.Keeps σ.table k (noOrdering σ left right) fun _ => True :=
    (typeName σ left).bind fun _ _ => (typeName σ right).bind fun _ _ => .fail _
  unfold Run.less
  split
  · exact .pure trivial
  · split
    · exact decided hinvoke (fits_object.1 hleft) ltName right hfail
    · exact hfail

theorem compare (c : Comparator) {left : Value} (right : Value) (hleft : S.Fits left) :
    S.Keeps σ.table k (compare σ execute c left right) fun _ => True := by
  have hequal := equal hinvoke right hleft
  have hless := less hinvoke right hleft
  cases c with
  | equal => exact hequal
  | notEqual => exact hequal.bind fun _ _ => .pure trivial
  | less => exact hless
  | greater => exact hless.bind fun _ _ => ite (.pure trivial) (hequal.bind fun _ _ => .pure trivial)
  | lessOrEqual => exact hless.bind fun _ _ => ite (.pure trivial) hequal
  | greaterOrEqual => exact hless.bind fun _ _ => .pure trivial

end

/-! ## Printed forms -/

section

variable (hrender : ∀ v, S.Fits v → S.Keeps σ.table k (render v) fun _ => True)
include hrender

theorem methodResult {v : Value} (hv : S.Fits v) :
    S.Keeps σ.table k (methodResult σ render v) S.Fits :=
  ite (.pure hv) ((hrender v hv).bind fun _ _ => .pure (fits_of_ne (by simp)))

theorem printOne {v : Value} (hv : S.Fits v) :
    S.Keeps σ.table k (printOne render v) fun _ => True := by
  unfold Run.printOne
  split
  · exact (hrender v hv).bind fun text _ => (write text).bind fun _ _ => write "\n"
  · exact write "\n"

theorem printArgument {n : Node} (hn : S.Keeps σ.table k (execute n) S.Fits) :
    S.Keeps σ.table k (printArgument execute render n) fun _ => True :=
  hn.bind fun v hv => (hrender v hv).bind fun text _ => write text

theorem printFurther {nodes : List Node}
    (hnodes : ∀ n ∈ nodes, S.Keeps σ.table k (execute n) S.Fits) :
    S.Keeps σ.table k (printFurther execute render nodes) fun _ => True := by
  induction nodes with
  | nil => exact .pure trivial
  | cons n nodes ih =>
    refine (write " ").bind fun _ _ => ?_
    refine (printArgument hrender (hnodes n (List.mem_cons_self ..))).bind fun _ _ => ?_
    exact ih fun m hm => hnodes m (List.mem_cons_of_mem _ hm)

end

/-! ## Trees one after the other -/

section

variable {t : ClassTable} {nodes : List Node} (hnodes : ∀ n ∈ nodes, S.Keeps t k (execute n) S.Fits)
include hnodes

theorem executeAll : S.Keeps t k (executeAll execute nodes) fun _ => True := by
  induction nodes with
  | nil => exact .pure trivial
  | cons n nodes ih =>
    refine (hnodes n (List.mem_cons_self ..)).bind fun v _ => ?_
    exact (ih fun m hm => hnodes m (List.mem_cons_of_mem _ hm)).bind fun vs _ => .pure trivial

theorem executeEach : S.Keeps t k (executeEach execute nodes) fun _ => True := by
  induction nodes with
  | nil => exact .pure trivial
  | cons n nodes ih =>
    refine (hnodes n (List.mem_cons_self ..)).bind fun v _ => ?_
    exact ih fun m hm => hnodes m (List.mem_cons_of_mem _ hm)

end

/-- Only arguments are printed, so without any no printed form is asked for. -/
theorem printLine {nodes : List Node}
    (hnodes : ∀ n ∈ nodes, S.Keeps σ.table k (execute n) S.Fits)
    (hrender : nodes ≠ [] → ∀ v, S.Fits v → S.Keeps σ.table k (render v) fun _ => True) :
    S.Keeps σ.table k (printLine execute render nodes) fun _ => True := by
  cases nodes with
  | nil => exact write "\n"
  | cons n nodes =>
    have hrender := hrender (List.cons_ne_nil n nodes)
    refine (printArgument hrender (hnodes n (List.mem_cons_self ..))).bind fun _ _ => ?_
    refine (printFurther hrender fun m hm => hnodes m (List.mem_cons_of_mem _ hm)).bind fun _ _ => ?_
    exact write "\n"

/-! ## All forms -/

/-- A tree keeps to a sphere that admits it if its children do, printed forms where it has children,
and calls. -/
theorem step {n : Node} (hn : S.Admits n)
    (hchildren : ∀ m ∈ n.children, S.Keeps σ.table k (execute m) S.Fits)
    (hrender : n.children ≠ [] → ∀ v, S.Fits v → S.Keeps σ.table k (render v) fun _ => True)
    (hinvoke : ∀ o name arguments, S.Inside o →
      S.Keeps σ.table k (Run.invoke σ execute o name arguments) S.Fits) :
    S.Keeps σ.table k (step σ execute render n) S.Fits := by
  have hplain : ∀ b : Bool, S.Fits (.bool b) := fun _ => fits_of_ne (by simp)
  have hempty : S.Fits .empty := fits_of_ne (by simp)
  cases n with
  | constant v => exact .pure hn
  | path p => exact resolve σ p
  | assign name value =>
    exact (hchildren value (by simp [Node.children, Node.operands])).bind fun v hv =>
      (bindName name hv).bind fun _ _ => .pure hv
  | assignField object field value =>
    exact (hchildren object (by simp [Node.children, Node.operands])).bind fun v hv =>
      (expectObject σ _ hv).bind fun o _ =>
        (hchildren value (by simp [Node.children, Node.operands])).bind fun w hw =>
          (setField o field hw).bind fun _ _ => .pure hw
  | print args =>
    have hargs : (Node.print args).children = args := by
      simp [Node.children, Node.operands, Node.statements]
    rw [hargs] at hchildren hrender
    exact (printLine hchildren hrender).bind fun _ _ => .pure hempty
  | printValue argument =>
    have hargument := hchildren argument (by simp [Node.children, Node.operands])
    exact hargument.bind fun v hv =>
      (printOne (hrender (by simp [Node.children, Node.operands])) hv).bind fun _ _ => .pure hv
  | call receiver method args =>
    have hargs : ∀ m ∈ args, S.Keeps σ.table k (execute m) S.Fits :=
      fun m hm => hchildren m (by simp [Node.children, Node.operands, hm])
    exact (hchildren receiver (by simp [Node.children, Node.operands])).bind fun v hv =>
      (expectObject σ _ hv).bind fun o ho =>
        (executeAll hargs).bind fun vs _ => hinvoke o method vs ho
  | construct cls args =>
    -- a new object is inside, since all objects are where one may be made
    have hcalls : S.Calls := hn
    have hargs : ∀ m ∈ args, S.Keeps σ.table k (execute m) S.Fits :=
      fun m hm => hchildren m (by simp [Node.children, Node.operands, hm])
    refine (construct hcalls cls).bind fun o _ => ?_
    have ho : S.Inside o := S.inside_of_calls hcalls o
    refine (hasMethod ho initName args.length).bind fun found _ => ?_
    cases found with
    | true =>
      exact (executeAll hargs).bind fun vs _ =>
        (hinvoke o initName vs ho).bind fun _ _ => .pure (fits_object.2 ho)
    | false => exact .pure (fits_object.2 ho)
  | stringify argument =>
    exact (hchildren argument (by simp [Node.children, Node.operands])).bind fun v hv =>
      (hrender (by simp [Node.children, Node.operands]) v hv).bind fun _ _ =>
        .pure (fits_of_ne (by simp))
  | not argument =>
    exact (hchildren argument (by simp [Node.children, Node.operands])).bind fun v _ => .pure (hplain _)
  | and left right =>
    have hright : S.Keeps σ.table k (execute right) S.Fits :=
      hchildren right (by simp [Node.children, Node.operands])
    exact (hchildren left (by simp [Node.children, Node.operands])).bind fun v _ =>
      ite (hright.bind fun w _ => .pure (hplain _)) (.pure (hplain _))
  | or left right =>
    have hright : S.Keeps σ.table k (execute right) S.Fits :=
      hchildren right (by simp [Node.children, Node.operands])
    exact (hchildren left (by simp [Node.children, Node.operands])).bind fun v _ =>
      ite (.pure (hplain _)) (hright.bind fun w _ => .pure (hplain _))
  | arithmetic op left right =>
    exact (hchildren left (by simp [Node.children, Node.operands])).bind fun v hv =>
      (hchildren right (by simp [Node.children, Node.operands])).bind fun w _ =>
        operate hinvoke op w hv
  | compare c left right =>
    exact (hchildren left (by simp [Node.children, Node.operands])).bind fun v hv =>
      (hchildren right (by simp [Node.children, Node.operands])).bind fun w _ =>
        (compare hinvoke c w hv).bind fun _ _ => .pure (hplain _)
  | sequence statements =>
    have hstatements : ∀ m ∈ statements, S.Keeps σ.table k (execute m) S.Fits :=
      fun m hm => hchildren m (by simp [Node.children, Node.statements, hm])
    exact (executeEach hstatements).bind fun _ _ => .pure hempty
  | returnValue value =>
    exact (hchildren value (by simp [Node.children, Node.operands])).bind fun v hv =>
      throw_returned hv
  | methodBody body =>
    refine (returnedBy (hchildren body (by simp [Node.children]))).bind fun v? hv? => ?_
    cases v? with
    | some v => exact methodResult (hrender (by simp [Node.children])) (hv? v rfl)
    | none => exact .pure hempty
  | classDefinition cls =>
    have hcls : S.Fits (.classObject cls) := fits_of_ne (by simp)
    exact (bindName _ hcls).bind fun _ _ => .pure hcls
  | ifThen condition body =>
    have hbody : S.Keeps σ.table k (execute body) S.Fits :=
      hchildren body (by simp [Node.children, Node.statements])
    exact (hchildren condition (by simp [Node.children, Node.operands])).bind fun v _ =>
      ite hbody (.pure hempty)
  | ifElse condition body alternative =>
    have hbody : S.Keeps σ.table k (execute body) S.Fits :=
      hchildren body (by simp [Node.children, Node.statements])
    have halternative : S.Keeps σ.table k (execute alternative) S.Fits :=
      hchildren alternative (by simp [Node.children, Node.statements])
    exact (hchildren condition (by simp [Node.children, Node.operands])).bind fun v _ =>
      ite hbody halternative

/-- A printed form keeps to a sphere if calls of `__str__` do, along with the printed forms of what
they return. That of a number may have too many digits. -/
theorem renderStep {v : Value} (hv : S.Fits v) (hdigits : ∀ n, v = .number n → S.Digits)
    (hcall : ∀ o, S.Inside o →
      S.Keeps σ.table k (Run.invoke σ execute o strName [] >>= render) fun _ => True) :
    S.Keeps σ.table k (renderStep σ execute render v) fun _ => True := by
  cases v with
  | object o =>
    have ho : S.Inside o := fits_object.1 hv
    refine (hasMethod ho strName 0).bind fun found _ => ?_
    cases found with
    | true => exact hcall o ho
    | false => exact (classOf o).bind fun c _ => (address o).bind fun _ _ => .pure trivial
  | number n => exact .showNumber (hdigits n rfl) n
  | _ => exact .pure trivial

end Keeps

/-! ## Depths that are enough -/

/-- A run within the depth `d` of something of height `h`, in a table whose methods are not higher
than `H`, is not interrupted before it has made `k` calls. -/
def Enough (S : Sphere) (H k h d : Nat) : Prop := (S.Calls ∧ k = 0) ∨ h + k * (H + 1) ≤ d

variable {H h h' d : Nat}

theorem Enough.child (henough : S.Enough H k h (d + 1)) (hh : h' < h) : S.Enough H k h' d :=
  henough.imp_right fun hd => by omega

/-- The body of a method may be as high as the highest, and the printed form of what it returns is one
step deep before the next call. -/
theorem Enough.called (henough : S.Enough H k h (d + 1)) (hcalls : S.Calls) (hh : 0 < h)
    (hH : h' ≤ H + 1) : S.Enough H (k - 1) h' d := by
  rcases Nat.eq_zero_or_pos k with rfl | hk
  · exact .inl ⟨hcalls, rfl⟩
  · obtain ⟨k, rfl⟩ := Nat.exists_eq_add_of_lt hk
    rcases henough with ⟨-, hzero⟩ | hd
    · omega
    · refine .inr ?_
      rw [Nat.add_one_sub_one]
      rw [Nat.add_mul] at hd
      omega

/-- No depth at all is enough only where nothing is owed. -/
theorem Enough.of_zero (henough : S.Enough H k h 0) (hh : 0 < h) : S.Calls ∧ k = 0 :=
  henough.resolve_right fun hd => by omega

/-! ## Whole runs -/

/-- Within enough depth, running a tree that the sphere admits keeps to it, and so does the printed
form of a value that fits, if numbers may have too many digits. -/
theorem keeps_run (hdigits : S.Digits)
    (hmethods : σ.table.AllMethods fun m => m.body.height ≤ H) (d k : Nat) :
    (∀ n, n.Every S.Admits → S.Enough H k n.height d →
      S.Keeps σ.table k (execute σ d n) S.Fits) ∧
    (∀ v, S.Fits v → S.Enough H k 1 d → S.Keeps σ.table k (render σ d v) fun _ => True) := by
  induction d generalizing k with
  | zero =>
    constructor
    · exact fun n _ henough => .throw_tooDeep (henough.of_zero n.height_pos)
    · exact fun v _ henough => .throw_tooDeep (henough.of_zero Nat.one_pos)
  | succ d ih =>
    have hbody : ∀ {h}, S.Enough H k h (d + 1) → 0 < h → S.Calls → ∀ {c name arguments m},
        σ.table.methodOf? c name arguments = some m →
        S.Keeps σ.table (k - 1) (execute σ d m.body) fun _ => True := by
      intro h henough hh hcalls c name arguments m hm
      have hheight : m.body.height ≤ H + 1 := Nat.le_succ_of_le (hmethods.of_methodOf? hm)
      have hadmits : m.body.Every S.Admits := fun n _ => admits_of_calls hcalls n
      exact ((ih (k - 1)).1 m.body hadmits (henough.called hcalls hh hheight)).mono
        fun _ _ => trivial
    constructor
    · intro n hn henough
      refine Keeps.step hn.self (fun m hm => ?_) (fun hchildren v hv => ?_) fun o name args ho => ?_
      · exact (ih k).1 m (hn.child hm) (henough.child (Node.height_lt_of_mem_children hm))
      · obtain ⟨m, hm⟩ := List.exists_mem_of_ne_nil _ hchildren
        have hlt : 1 < n.height :=
          Nat.lt_of_le_of_lt m.height_pos (Node.height_lt_of_mem_children hm)
        exact (ih k).2 v hv (henough.child hlt)
      · exact .invoke ho name args fun hcalls c m hm => hbody henough n.height_pos hcalls hm
    · intro v hv henough
      refine Keeps.renderStep hv (fun _ _ => hdigits) fun o ho => ?_
      refine .invoke_bind ho strName [] (fun hcalls c m hm => ?_) fun hcalls v => ?_
      · exact hbody henough Nat.one_pos hcalls hm
      · exact (ih (k - 1)).2 v (fits_of_calls hcalls v)
          (henough.called hcalls Nat.one_pos (Nat.le_add_left ..))

end Offside.Sphere
