import Offside.Proofs.Simulation

set_option autoImplicit false

/-! # Whole runs side by side

Where two steps that run trees and give printed forms agree, everything agrees that is put together
from them, and so do whole runs: by induction on the depth, `Simulation.execute` carries a simulation
through a run of any tree. -/

namespace Offside

/-- All that a method can look up when it starts is the object and the arguments. -/
theorem Method.of_get?_frame {m : Method} {o : ObjectRef} {arguments : List Value} {name : String}
    {v : Value} (h : (m.frame o arguments).get? name = some v) : v = .object o ∨ v ∈ arguments := by
  rcases Bindings.of_get?_setAll h with ⟨e, he, rfl⟩ | hself
  · exact .inr (List.of_mem_zip he).2
  · rw [Bindings.get?_set] at hself
    by_cases hname : name = selfName
    · rw [if_pos hname] at hself
      exact .inl (Option.some.inj hself).symm
    · rw [if_neg hname] at hself
      simp at hself

open Run

namespace Simulation

variable {σ σ' : Setting} (S : Simulation σ σ')

/-- The steps agree on every tree that asks for nothing that may not occur, and on the printed form
of every value that may occur. -/
structure Simulates (execute execute' : Node → Run Value) (render render' : Value → Run String) :
    Prop where
  execute : ∀ {i n st st'}, S.Admits i n → S.Matches i st st' →
    S.AgreesAt i S.Fits (execute n) (execute' n) st st'
  render : ∀ {i v st st'}, S.Matches i st st' → S.Fits st.heap.size v →
    S.AgreesAt i (fun _ _ => True) (render v) (render' v) st st'

variable {S} {execute execute' : Node → Run Value} {render render' : Value → Run String}
  {i : Place} {st st' : RunState}

section

variable (h : S.Simulates execute execute' render render') (hmatch : S.Matches i st st')
include h hmatch

/-! ## Calls -/

theorem Simulates.invoke {o : ObjectRef} (name : String) {arguments : List Value}
    (ho : S.Fits st.heap.size (.object o)) (hargs : ∀ v ∈ arguments, S.Fits st.heap.size v) :
    S.AgreesAt i S.Fits (invoke σ execute o name arguments) (invoke σ' execute' o name arguments) st
      st' := by
  apply AgreesAt.bind (AgreesAt.classOf hmatch ho)
  intro c st₁ st₁' hmatch₁ hsize₁ hc
  rw [S.methodOf?_eq name arguments.length hc, S.name_eq hc]
  cases hm : σ.table.methodOf? c name arguments.length with
  | none => exact AgreesAt.fail hmatch₁ _
  | some m =>
    apply AgreesAt.bind (AgreesAt.report hmatch₁ rfl)
    intro _ st₂ st₂' hmatch₂ hsize₂ _
    apply AgreesAt.withFrame hmatch₂
    apply h.execute (S.body_asks hc hm)
    apply S.matches_enter _ hmatch₂
    intro x v hv
    have hfits : S.Fits st.heap.size v := by
      rcases Method.of_get?_frame hv with rfl | hmem
      · exact ho
      · exact hargs v hmem
    exact S.fits_mono (Nat.le_trans hsize₁ hsize₂) hfits

/-! ## Operations -/

theorem Simulates.operate (op : ArithmeticOp) {left right : Value}
    (hleft : S.Fits st.heap.size left) (hright : S.Fits st.heap.size right) :
    S.AgreesAt i S.Fits (operate σ execute op left right) (operate σ' execute' op left right) st
      st' := by
  unfold Run.operate
  split
  · split
    · exact AgreesAt.pure hmatch (S.fits_plain (by simp) (by simp))
    · exact AgreesAt.fail hmatch _
  · split
    · exact AgreesAt.pure hmatch (S.fits_plain (by simp) (by simp))
    · exact h.invoke hmatch addName hleft (by simpa using hright)
    · exact AgreesAt.failOnTypes hmatch _ hleft hright

/-- Where a method of the left object is to decide, it decides in both runs, or there is none. -/
theorem Simulates.decided {o : ObjectRef} (name : String) (e : String → String → RuntimeError)
    {right : Value} (ho : S.Fits st.heap.size (.object o)) (hright : S.Fits st.heap.size right) :
    S.AgreesAt i (fun _ _ => True)
      (do
        if ← hasMethod σ o name 1 then
          let v ← Run.invoke σ execute o name [right]
          return v.isTrue
        else Run.fail (e (← typeName σ (.object o)) (← typeName σ right)))
      (do
        if ← hasMethod σ' o name 1 then
          let v ← Run.invoke σ' execute' o name [right]
          return v.isTrue
        else Run.fail (e (← typeName σ' (.object o)) (← typeName σ' right))) st st' := by
  apply AgreesAt.bind (AgreesAt.hasMethod hmatch _ _ ho)
  intro found st₁ st₁' hmatch₁ hsize _
  have ho₁ := S.fits_mono hsize ho
  have hright₁ := S.fits_mono hsize hright
  cases found with
  | true =>
    apply AgreesAt.bind (h.invoke hmatch₁ _ ho₁ (by simpa using hright₁))
    intro v st₂ st₂' hmatch₂ _ _
    exact AgreesAt.pure hmatch₂ trivial
  | false => exact AgreesAt.failOnTypes hmatch₁ e ho₁ hright₁

section

variable {left right : Value} (hleft : S.Fits st.heap.size left)
  (hright : S.Fits st.heap.size right)
include hleft hright

theorem Simulates.equal :
    S.AgreesAt i (fun _ _ => True) (equal σ execute left right) (equal σ' execute' left right) st
      st' := by
  have hfail : S.AgreesAt i (fun _ _ => True) (noEquality σ left right) (noEquality σ' left right)
      st st' := AgreesAt.failOnTypes hmatch _ hleft hright
  unfold Run.equal
  split
  · exact AgreesAt.pure hmatch trivial
  · split
    · exact h.decided hmatch eqName .noEquality hleft hright
    · split
      · exact AgreesAt.pure hmatch trivial
      · exact hfail
    · exact hfail

theorem Simulates.less :
    S.AgreesAt i (fun _ _ => True) (less σ execute left right) (less σ' execute' left right) st
      st' := by
  unfold Run.less
  split
  · exact AgreesAt.pure hmatch trivial
  · split
    · exact h.decided hmatch ltName .noOrdering hleft hright
    · exact AgreesAt.failOnTypes hmatch _ hleft hright

theorem Simulates.compare (c : Comparator) :
    S.AgreesAt i (fun _ _ => True) (compare σ execute c left right)
      (compare σ' execute' c left right) st st' := by
  have hequal := h.equal hmatch hleft hright
  have hless := h.less hmatch hleft hright
  cases c with
  | equal => exact hequal
  | notEqual =>
    apply hequal.bind
    intro b st₁ st₁' hmatch₁ _ _
    exact AgreesAt.pure hmatch₁ trivial
  | less => exact hless
  | greater =>
    apply hless.bind
    intro b st₁ st₁' hmatch₁ hsize _
    cases b with
    | true => exact AgreesAt.pure hmatch₁ trivial
    | false =>
      apply (h.equal hmatch₁ (S.fits_mono hsize hleft) (S.fits_mono hsize hright)).bind
      intro b st₂ st₂' hmatch₂ _ _
      exact AgreesAt.pure hmatch₂ trivial
  | lessOrEqual =>
    apply hless.bind
    intro b st₁ st₁' hmatch₁ hsize _
    cases b with
    | true => exact AgreesAt.pure hmatch₁ trivial
    | false => exact h.equal hmatch₁ (S.fits_mono hsize hleft) (S.fits_mono hsize hright)
  | greaterOrEqual =>
    apply hless.bind
    intro b st₁ st₁' hmatch₁ _ _
    exact AgreesAt.pure hmatch₁ trivial

end

/-! ## Printed forms -/

theorem Simulates.renderStep {v : Value} (hv : S.Fits st.heap.size v) :
    S.AgreesAt i (fun _ _ => True) (renderStep σ execute render v) (renderStep σ' execute' render' v)
      st st' := by
  cases v with
  | object o =>
    apply AgreesAt.bind (AgreesAt.hasMethod hmatch strName 0 hv)
    intro found st₁ st₁' hmatch₁ hsize _
    have ho := S.fits_mono hsize hv
    cases found with
    | true =>
      apply AgreesAt.bind (h.invoke hmatch₁ strName ho (by simp))
      intro w st₂ st₂' hmatch₂ _ hw
      exact h.render hmatch₂ hw
    | false =>
      apply AgreesAt.bind (AgreesAt.classOf hmatch₁ ho)
      intro c st₂ st₂' hmatch₂ _ hc
      apply AgreesAt.bind (AgreesAt.address hmatch₂ o)
      intro k st₃ st₃' hmatch₃ _ _
      rw [S.name_eq hc]
      exact AgreesAt.pure hmatch₃ trivial
  | classObject c =>
    have hc : S.Knows c := S.fits_classObject.1 hv
    show S.AgreesAt i _ (Pure.pure ("Class " ++ σ.table.name c))
      (Pure.pure ("Class " ++ σ'.table.name c)) st st'
    rw [S.name_eq hc]
    exact AgreesAt.pure hmatch trivial
  | number n => exact AgreesAt.showNumber hmatch n
  | empty | string | bool => exact AgreesAt.pure hmatch trivial

theorem Simulates.methodResult (hmode : σ'.typedReturns = σ.typedReturns) {v : Value}
    (hv : S.Fits st.heap.size v) :
    S.AgreesAt i S.Fits (methodResult σ render v) (methodResult σ' render' v) st st' := by
  unfold Run.methodResult
  rw [hmode]
  split
  · exact AgreesAt.pure hmatch hv
  · apply AgreesAt.bind (h.render hmatch hv)
    intro text st₁ st₁' hmatch₁ _ _
    exact AgreesAt.pure hmatch₁ (S.fits_plain (by simp) (by simp))

theorem Simulates.printOne {v : Value} (hv : S.Fits st.heap.size v) :
    S.AgreesAt i (fun _ _ => True) (printOne render v) (printOne render' v) st st' := by
  unfold Run.printOne
  split
  · apply AgreesAt.bind (h.render hmatch hv)
    intro text st₁ st₁' hmatch₁ _ _
    apply AgreesAt.bind (AgreesAt.write hmatch₁ text)
    intro _ st₂ st₂' hmatch₂ _ _
    exact AgreesAt.write hmatch₂ "\n"
  · exact AgreesAt.write hmatch "\n"

theorem Simulates.printArgument {n : Node} (hn : S.Admits i n) :
    S.AgreesAt i (fun _ _ => True) (printArgument execute render n)
      (printArgument execute' render' n) st st' := by
  apply AgreesAt.bind (h.execute hn hmatch)
  intro v st₁ st₁' hmatch₁ _ hv
  apply AgreesAt.bind (h.render hmatch₁ hv)
  intro text st₂ st₂' hmatch₂ _ _
  exact AgreesAt.write hmatch₂ text

end

section

variable (h : S.Simulates execute execute' render render')
include h

/-! ## Trees one after the other -/

theorem Simulates.executeAll {nodes : List Node} (hnodes : ∀ n ∈ nodes, S.Admits i n)
    (hmatch : S.Matches i st st') :
    S.AgreesAt i (fun k vs => ∀ v ∈ vs, S.Fits k v) (executeAll execute nodes)
      (executeAll execute' nodes) st st' := by
  induction nodes generalizing st st' with
  | nil => exact AgreesAt.pure hmatch (by simp)
  | cons n nodes ih =>
    apply AgreesAt.bind (h.execute (hnodes n (List.mem_cons_self ..)) hmatch)
    intro v st₁ st₁' hmatch₁ _ hv
    apply AgreesAt.bind (ih (fun m hm => hnodes m (List.mem_cons_of_mem _ hm)) hmatch₁)
    intro vs st₂ st₂' hmatch₂ hsize hvs
    apply AgreesAt.pure hmatch₂
    intro w hw
    rcases List.mem_cons.1 hw with rfl | hw
    · exact S.fits_mono hsize hv
    · exact hvs w hw

theorem Simulates.executeEach {nodes : List Node} (hnodes : ∀ n ∈ nodes, S.Admits i n)
    (hmatch : S.Matches i st st') :
    S.AgreesAt i (fun _ _ => True) (executeEach execute nodes) (executeEach execute' nodes) st
      st' := by
  induction nodes generalizing st st' with
  | nil => exact AgreesAt.pure hmatch trivial
  | cons n nodes ih =>
    apply AgreesAt.bind (h.execute (hnodes n (List.mem_cons_self ..)) hmatch)
    intro v st₁ st₁' hmatch₁ _ _
    exact ih (fun m hm => hnodes m (List.mem_cons_of_mem _ hm)) hmatch₁

theorem Simulates.printFurther {nodes : List Node} (hnodes : ∀ n ∈ nodes, S.Admits i n)
    (hmatch : S.Matches i st st') :
    S.AgreesAt i (fun _ _ => True) (printFurther execute render nodes)
      (printFurther execute' render' nodes) st st' := by
  induction nodes generalizing st st' with
  | nil => exact AgreesAt.pure hmatch trivial
  | cons n nodes ih =>
    apply AgreesAt.bind (AgreesAt.write hmatch " ")
    intro _ st₁ st₁' hmatch₁ _ _
    apply AgreesAt.bind (h.printArgument hmatch₁ (hnodes n (List.mem_cons_self ..)))
    intro _ st₂ st₂' hmatch₂ _ _
    exact ih (fun m hm => hnodes m (List.mem_cons_of_mem _ hm)) hmatch₂

theorem Simulates.printLine {nodes : List Node} (hnodes : ∀ n ∈ nodes, S.Admits i n)
    (hmatch : S.Matches i st st') :
    S.AgreesAt i (fun _ _ => True) (printLine execute render nodes)
      (printLine execute' render' nodes) st st' := by
  cases nodes with
  | nil => exact AgreesAt.write hmatch "\n"
  | cons n nodes =>
    apply AgreesAt.bind (h.printArgument hmatch (hnodes n (List.mem_cons_self ..)))
    intro _ st₁ st₁' hmatch₁ _ _
    apply AgreesAt.bind
      (h.printFurther (fun m hm => hnodes m (List.mem_cons_of_mem _ hm)) hmatch₁)
    intro _ st₂ st₂' hmatch₂ _ _
    exact AgreesAt.write hmatch₂ "\n"

theorem Simulates.executeConstruct {cls : ClassRef} {arguments : List Node} (hcls : S.Knows cls)
    (hargs : ∀ n ∈ arguments, S.Admits i n) (hmatch : S.Matches i st st') :
    S.AgreesAt i S.Fits (executeConstruct σ execute cls arguments)
      (executeConstruct σ' execute' cls arguments) st st' := by
  apply AgreesAt.bind (AgreesAt.construct hmatch hcls)
  intro o st₁ st₁' hmatch₁ _ ho
  apply AgreesAt.bind (AgreesAt.hasMethod hmatch₁ initName arguments.length ho)
  intro found st₂ st₂' hmatch₂ hsize₂ _
  have ho₂ := S.fits_mono hsize₂ ho
  cases found with
  | false => exact AgreesAt.pure hmatch₂ ho₂
  | true =>
    apply AgreesAt.bind (h.executeAll hargs hmatch₂)
    intro vs st₃ st₃' hmatch₃ hsize₃ hvs
    have ho₃ := S.fits_mono hsize₃ ho₂
    apply AgreesAt.bind (h.invoke hmatch₃ initName ho₃ hvs)
    intro _ st₄ st₄' hmatch₄ hsize₄ _
    exact AgreesAt.pure hmatch₄ (S.fits_mono hsize₄ ho₃)

/-! ## All forms -/

theorem Simulates.step {n : Node} (hn : S.Admits i n) (hbody : ∀ body, n ≠ .methodBody body)
    (hmatch : S.Matches i st st') :
    S.AgreesAt i S.Fits (step σ execute render n) (step σ' execute' render' n) st st' := by
  have hself := hn.self
  have hchildren : ∀ m ∈ n.children, S.Admits i m := fun m hm => hn.child hm
  have hbool : ∀ {k : Nat} {b : Bool}, S.Fits k (.bool b) := S.fits_plain (by simp) (by simp)
  have hempty : ∀ {k : Nat}, S.Fits k .empty := S.fits_plain (by simp) (by simp)
  cases n with
  | constant v => exact AgreesAt.pure hmatch (S.fits_mono (Nat.zero_le _) hself)
  | path p => exact AgreesAt.resolve hmatch hself
  | assign name value =>
    have hvalue := hchildren value (by simp [Node.children, Node.operands])
    apply AgreesAt.bind (h.execute hvalue hmatch)
    intro v st₁ st₁' hmatch₁ _ hv
    apply AgreesAt.bind (AgreesAt.bindName hmatch₁ hself hv)
    intro _ st₂ st₂' hmatch₂ hsize _
    exact AgreesAt.pure hmatch₂ (S.fits_mono hsize hv)
  | assignField object field value =>
    have hobject := hchildren object (by simp [Node.children, Node.operands])
    have hvalue := hchildren value (by simp [Node.children, Node.operands])
    apply AgreesAt.bind (h.execute hobject hmatch)
    intro u st₁ st₁' hmatch₁ _ hu
    apply AgreesAt.bind (AgreesAt.expectObject hmatch₁ _ hu)
    intro o st₂ st₂' hmatch₂ _ ho
    apply AgreesAt.bind (h.execute hvalue hmatch₂)
    intro v st₃ st₃' hmatch₃ hsize₃ hv
    apply AgreesAt.bind (AgreesAt.setField hmatch₃ field (S.fits_mono hsize₃ ho) hv)
    intro _ st₄ st₄' hmatch₄ hsize₄ _
    exact AgreesAt.pure hmatch₄ (S.fits_mono hsize₄ hv)
  | print arguments =>
    have hargs : ∀ m ∈ arguments, S.Admits i m := fun m hm =>
      hchildren m (by simpa [Node.children, Node.operands, Node.statements] using hm)
    apply AgreesAt.bind (h.printLine hargs hmatch)
    intro _ st₁ st₁' hmatch₁ _ _
    exact AgreesAt.pure hmatch₁ hempty
  | printValue argument =>
    have hargument := hchildren argument (by simp [Node.children, Node.operands])
    apply AgreesAt.bind (h.execute hargument hmatch)
    intro v st₁ st₁' hmatch₁ _ hv
    apply AgreesAt.bind (h.printOne hmatch₁ hv)
    intro _ st₂ st₂' hmatch₂ hsize _
    exact AgreesAt.pure hmatch₂ (S.fits_mono hsize hv)
  | call receiver method arguments =>
    have hreceiver := hchildren receiver (by simp [Node.children, Node.operands])
    have hargs : ∀ m ∈ arguments, S.Admits i m := fun m hm =>
      hchildren m (by simp [Node.children, Node.operands, hm])
    apply AgreesAt.bind (h.execute hreceiver hmatch)
    intro u st₁ st₁' hmatch₁ _ hu
    apply AgreesAt.bind (AgreesAt.expectObject hmatch₁ _ hu)
    intro o st₂ st₂' hmatch₂ _ ho
    apply AgreesAt.bind (h.executeAll hargs hmatch₂)
    intro vs st₃ st₃' hmatch₃ hsize hvs
    exact h.invoke hmatch₃ method (S.fits_mono hsize ho) hvs
  | construct cls arguments =>
    have hargs : ∀ m ∈ arguments, S.Admits i m := fun m hm =>
      hchildren m (by simpa [Node.children, Node.operands, Node.statements] using hm)
    exact h.executeConstruct hself hargs hmatch
  | stringify argument =>
    have hargument := hchildren argument (by simp [Node.children, Node.operands])
    apply AgreesAt.bind (h.execute hargument hmatch)
    intro v st₁ st₁' hmatch₁ _ hv
    apply AgreesAt.bind (h.render hmatch₁ hv)
    intro text st₂ st₂' hmatch₂ _ _
    exact AgreesAt.pure hmatch₂ (S.fits_plain (by simp) (by simp))
  | not argument =>
    have hargument := hchildren argument (by simp [Node.children, Node.operands])
    apply AgreesAt.bind (h.execute hargument hmatch)
    intro v st₁ st₁' hmatch₁ _ _
    exact AgreesAt.pure hmatch₁ hbool
  | and left right =>
    have hleft := hchildren left (by simp [Node.children, Node.operands])
    have hright := hchildren right (by simp [Node.children, Node.operands])
    apply AgreesAt.bind (h.execute hleft hmatch)
    intro v st₁ st₁' hmatch₁ _ _
    split
    · apply AgreesAt.bind (h.execute hright hmatch₁)
      intro w st₂ st₂' hmatch₂ _ _
      exact AgreesAt.pure hmatch₂ hbool
    · exact AgreesAt.pure hmatch₁ hbool
  | or left right =>
    have hleft := hchildren left (by simp [Node.children, Node.operands])
    have hright := hchildren right (by simp [Node.children, Node.operands])
    apply AgreesAt.bind (h.execute hleft hmatch)
    intro v st₁ st₁' hmatch₁ _ _
    split
    · exact AgreesAt.pure hmatch₁ hbool
    · apply AgreesAt.bind (h.execute hright hmatch₁)
      intro w st₂ st₂' hmatch₂ _ _
      exact AgreesAt.pure hmatch₂ hbool
  | arithmetic op left right =>
    have hleft := hchildren left (by simp [Node.children, Node.operands])
    have hright := hchildren right (by simp [Node.children, Node.operands])
    apply AgreesAt.bind (h.execute hleft hmatch)
    intro v st₁ st₁' hmatch₁ _ hv
    apply AgreesAt.bind (h.execute hright hmatch₁)
    intro w st₂ st₂' hmatch₂ hsize hw
    exact h.operate hmatch₂ op (S.fits_mono hsize hv) hw
  | compare c left right =>
    have hleft := hchildren left (by simp [Node.children, Node.operands])
    have hright := hchildren right (by simp [Node.children, Node.operands])
    apply AgreesAt.bind (h.execute hleft hmatch)
    intro v st₁ st₁' hmatch₁ _ hv
    apply AgreesAt.bind (h.execute hright hmatch₁)
    intro w st₂ st₂' hmatch₂ hsize hw
    apply AgreesAt.bind (h.compare hmatch₂ (S.fits_mono hsize hv) hw c)
    intro b st₃ st₃' hmatch₃ _ _
    exact AgreesAt.pure hmatch₃ hbool
  | sequence statements =>
    have hstatements : ∀ m ∈ statements, S.Admits i m := fun m hm =>
      hchildren m (by simpa [Node.children, Node.operands, Node.statements] using hm)
    apply AgreesAt.bind (h.executeEach hstatements hmatch)
    intro _ st₁ st₁' hmatch₁ _ _
    exact AgreesAt.pure hmatch₁ hempty
  | returnValue value =>
    have hvalue := hchildren value (by simp [Node.children, Node.operands])
    apply AgreesAt.bind (h.execute hvalue hmatch)
    intro v st₁ st₁' hmatch₁ _ hv
    exact AgreesAt.throwReturned hmatch₁ hv
  | methodBody body => exact absurd rfl (hbody body)
  | classDefinition cls =>
    obtain ⟨hcls, hname⟩ := hself
    have hfits : ∀ {k : Nat}, S.Fits k (.classObject cls) := S.fits_classObject.2 hcls
    show S.AgreesAt i S.Fits
      (do Run.bindName (σ.table.name cls) (.classObject cls); return .classObject cls)
      (do Run.bindName (σ'.table.name cls) (.classObject cls); return .classObject cls) st st'
    rw [S.name_eq hcls]
    apply AgreesAt.bind (AgreesAt.bindName hmatch hname hfits)
    intro _ st₁ st₁' hmatch₁ _ _
    exact AgreesAt.pure hmatch₁ hfits
  | ifThen condition body =>
    have hcondition := hchildren condition (by simp [Node.children, Node.operands])
    have hthen := hchildren body (by simp [Node.children, Node.statements])
    apply AgreesAt.bind (h.execute hcondition hmatch)
    intro v st₁ st₁' hmatch₁ _ _
    split
    · exact h.execute hthen hmatch₁
    · exact AgreesAt.pure hmatch₁ hempty
  | ifElse condition body alternative =>
    have hcondition := hchildren condition (by simp [Node.children, Node.operands])
    have hthen := hchildren body (by simp [Node.children, Node.statements])
    have helse := hchildren alternative (by simp [Node.children, Node.statements])
    apply AgreesAt.bind (h.execute hcondition hmatch)
    intro v st₁ st₁' hmatch₁ _ _
    split
    · exact h.execute hthen hmatch₁
    · exact h.execute helse hmatch₁

variable (hmode : σ'.typedReturns = σ.typedReturns)
include hmode

theorem Simulates.stepMethodBody {body : Node} (hn : S.Admits i (.methodBody body))
    (hmatch : S.Matches i st st') :
    S.AgreesAt i S.Fits (Run.step σ execute render (.methodBody body))
      (Run.step σ' execute' render' (.methodBody body)) st st' := by
  have hbody : S.Admits i body := hn.child (List.mem_singleton_self body)
  apply AgreesAt.bind (h.execute hbody hmatch).returnedBy
  intro v? st₁ st₁' hmatch₁ _ hv
  cases v? with
  | none => exact AgreesAt.pure hmatch₁ (S.fits_plain (by simp) (by simp))
  | some v => exact h.methodResult hmatch₁ hmode (hv v rfl)

/-- Where steps agree, the steps agree that are one deeper. -/
theorem Simulates.succ :
    S.Simulates (Run.step σ execute render) (Run.step σ' execute' render')
      (Run.renderStep σ execute render) (Run.renderStep σ' execute' render') where
  execute {_ n _ _} hn hmatch := by
    cases n with
    | methodBody body => exact h.stepMethodBody hmode hn hmatch
    | _ => exact h.step hn (by simp) hmatch
  render hmatch hv := h.renderStep hmatch hv

end

/-! ## Runs -/

/-- Two runs agree, the first of which may go less deep if it may go too deep. -/
theorem simulates (S : Simulation σ σ') (hmode : σ'.typedReturns = σ.typedReturns) {m n : Nat}
    (hmn : m ≤ n) (hlax : m < n → S.Lax) :
    S.Simulates (Run.execute σ m) (Run.execute σ' n) (Run.render σ m) (Run.render σ' n) := by
  induction m generalizing n with
  | zero =>
    have hdeep : ∀ {α : Type} {i : Place} {P : Nat → α → Prop} {y : Run α} {st st' : RunState},
        (n = 0 → y = throw .tooDeep) → S.Matches i st st' →
          S.AgreesAt i P (throw .tooDeep) y st st' := by
      intro α i P y st st' hy hmatch
      have hstops : ∀ s : RunState, Stops (throw .tooDeep : Run α) s .tooDeep s :=
        fun _ => stops_throw_iff.2 ⟨rfl, rfl⟩
      rcases Nat.eq_zero_or_pos n with hn | hn
      · rw [hy hn]
        exact .stops (hstops st) (hstops st') hmatch (Nat.le_refl _) (by simp)
      · exact .tooDeep (hlax hn) (hstops st)
    constructor
    · intro i t st st' _ hmatch
      apply hdeep _ hmatch
      rintro rfl
      rfl
    · intro i v st st' hmatch _
      apply hdeep _ hmatch
      rintro rfl
      rfl
  | succ m ih =>
    obtain ⟨k, rfl⟩ : ∃ k, n = k + 1 := ⟨n - 1, by omega⟩
    exact (ih (by omega) fun hmk => hlax (by omega)).succ hmode

end Simulation

end Offside
