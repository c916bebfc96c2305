import Offside.Proofs.Outcomes
import Offside.Proofs.Tables

set_option autoImplicit false

/-! # Calls let no `return` out

Where every method of a table has a body that catches what is returned in it, a `return` ends the
method it stands in and nothing more. This holds for every way in which the language enters a
method: a call, an operation, a comparison, printing, and the printed form of what a method hands
back. -/

namespace Offside

/-! ## Sealed tables -/

/-- The body of the method catches what is returned in it. -/
def Method.IsSealed (m : Method) : Prop := ∃ body, m.body = .methodBody body

namespace ClassTable

variable {t : ClassTable} {c : ClassRef} {name : String} {m : Method}

/-- Every method of every class catches what is returned in it. -/
def Sealed (t : ClassTable) : Prop :=
  ∀ c d, t.get? c = some d → ∀ m ∈ d.methods, m.IsSealed

theorem sealed_empty : empty.Sealed := AllMethods.empty

theorem Sealed.add (ht : t.Sealed) {d : ClassDecl} (hd : ∀ m ∈ d.methods, m.IsSealed) :
    (t.add d).Sealed :=
  AllMethods.add ht hd

theorem Sealed.setMethods (ht : t.Sealed) {methods : List Method}
    (hm : ∀ m ∈ methods, m.IsSealed) : (t.setMethods c methods).Sealed :=
  AllMethods.setMethods ht hm

/-- Inherited methods are sealed as well. -/
theorem Sealed.of_methodOf? (ht : t.Sealed) {arguments : Nat}
    (h : t.methodOf? c name arguments = some m) : m.IsSealed :=
  AllMethods.of_methodOf? ht h

end ClassTable

/-! ## Calls -/

namespace Run

section

variable {σ : Setting} {execute : Node → Run Value} {render : Value → Run String}

/-- What is printed of a value is printed whole. -/
theorem Seals.write (text : String) : Seals (write text) := .modify _

theorem Seals.showNumber (n : Int) : Seals (showNumber n) := by
  unfold Run.showNumber
  split
  · exact .pure _
  · exact .throw Interrupt.not_isStray_tooManyDigits

theorem Seals.invoke (hσ : σ.table.Sealed) (hbody : ∀ body, Seals (execute (.methodBody body)))
    (o : ObjectRef) (name : String) (arguments : List Value) :
    Seals (Run.invoke σ execute o name arguments) := by
  refine (Seals.classOf o).bind fun cls => ?_
  split
  · exact .fail (by simp)
  · rename_i m hm
    obtain ⟨body, hm⟩ := hσ.of_methodOf? hm
    refine (Seals.modify _).bind fun _ => .withFrame ?_
    rw [hm]
    exact hbody body

section

variable (hinvoke : ∀ o name arguments, Seals (Run.invoke σ execute o name arguments))
include hinvoke

theorem Seals.operate (op : ArithmeticOp) (left right : Value) :
    Seals (operate σ execute op left right) := by
  unfold Run.operate
  split
  · split
    · exact .pure _
    · rename_i a b e he
      refine .fail ?_
      rintro rfl
      cases op with
      | div =>
        simp only [ArithmeticOp.apply] at he
        split at he <;> simp at he
      | add | sub | mul => simp [ArithmeticOp.apply] at he
  · split
    · exact .pure _
    · exact hinvoke _ _ _
    · exact (Seals.typeName σ _).bind fun _ => (Seals.typeName σ _).bind fun _ => .fail (by simp)

theorem Seals.equal (left right : Value) : Seals (equal σ execute left right) := by
  have hfail : Seals (noEquality σ left right) :=
    (Seals.typeName σ _).bind fun _ => (Seals.typeName σ _).bind fun _ => .fail (by simp)
  unfold Run.equal
  split
  · exact .pure _
  · split
    · refine (Seals.hasMethod σ _ _ _).bind fun found => ?_
      split
      · exact (hinvoke _ _ _).bind fun _ => .pure _
      · exact hfail
    · split
      · exact .pure _
      · exact hfail
    · exact hfail

theorem Seals.less (left right : Value) : Seals (less σ execute left right) := by
  have hfail : Seals (noOrdering σ left right) :=
    (Seals.typeName σ _).bind fun _ => (Seals.typeName σ _).bind fun _ => .fail (by simp)
  unfold Run.less
  split
  · exact .pure _
  · split
    · refine (Seals.hasMethod σ _ _ _).bind fun found => ?_
      split
      · exact (hinvoke _ _ _).bind fun _ => .pure _
      · exact hfail
    · exact hfail

theorem Seals.compare (c : Comparator) (left right : Value) :
    Seals (compare σ execute c left right) := by
  have hequal := Seals.equal hinvoke left right
  have hless := Seals.less hinvoke left right
  cases c with
  | equal => exact hequal
  | notEqual => exact hequal.bind fun _ => .pure _
  | less => exact hless
  | greater =>
    refine hless.bind fun b => ?_
    split
    · exact .pure _
    · exact hequal.bind fun _ => .pure _
  | lessOrEqual =>
    refine hless.bind fun b => ?_
    split
    · exact .pure _
    · exact hequal
  | greaterOrEqual => exact hless.bind fun _ => .pure _

theorem Seals.renderStep (hrender : ∀ v, Seals (render v)) (v : Value) :
    Seals (renderStep σ execute render v) := by
  cases v with
  | object o =>
    refine (Seals.hasMethod σ o _ _).bind fun found => ?_
    split
    · exact (hinvoke _ _ _).bind hrender
    · exact (Seals.classOf o).bind fun _ => (Seals.address o).bind fun _ => .pure _
  | number n => exact .showNumber n
  | empty | string | bool | classObject => exact .pure _

end

section

variable (hrender : ∀ v, Seals (render v))
include hrender

theorem Seals.methodResult (v : Value) : Seals (methodResult σ render v) := by
  unfold Run.methodResult
  split
  · exact .pure _
  · exact (hrender v).bind fun _ => .pure _

theorem Seals.printOne (v : Value) : Seals (printOne render v) := by
  unfold Run.printOne
  split
  · refine (hrender v).bind fun text => ?_
    exact (Seals.write text).bind fun _ => Seals.write "\n"
  · exact Seals.write "\n"

end

end

end Run

end Offside
