import Offside.Proofs.Calls
import Offside.Proofs.Growth
import Offside.Proofs.ReturnModes

set_option autoImplicit false

/-! # Printed forms handed back

Where methods hand back printed forms, a call gives a text or nothing: nothing if the body of the
method came to its end without a `return` or returned nothing, and otherwise the text that printing
the returned value writes at this moment. What printing does to the state is part of the call.

Every way into a method gives no more than that: a call, an addition, and the comparisons that an
object decides itself. -/

namespace Offside

/-- All methods that the class answers with catch what is returned in them. -/
def ClassTable.Catches (t : ClassTable) (c : ClassRef) : Prop :=
  ∀ name arguments m, t.methodOf? c name arguments = some m → m.IsSealed

theorem ClassTable.Sealed.catches {t : ClassTable} (h : t.Sealed) {c : ClassRef} : t.Catches c :=
  fun _ _ _ hm => h.of_methodOf? hm

namespace Run

/-! ## How methods end -/

section

variable {α : Type} {x : Run α} {st st' : RunState}

theorem gives_returnedBy_iff {w? : Option Value} :
    Gives (returnedBy x) st w? st' ↔
      (w? = none ∧ ∃ a, Gives x st a st') ∨ ∃ w, w? = some w ∧ Stops x st (.returned w) st' := by
  rw [Gives, outcome_returnedBy]
  cases hx : outcome x st with
  | mk r st₁ =>
    cases r with
    | ok a => simp [Gives, Stops, hx, eq_comm]
    | error i =>
      cases i with
      | returned w =>
        simp only [Gives, Stops, hx, Prod.mk.injEq, Except.ok.injEq, Except.error.injEq,
          Interrupt.returned.injEq, reduceCtorEq, false_and, exists_false, and_false, false_or]
        constructor
        · rintro ⟨rfl, rfl⟩
          exact ⟨w, rfl, rfl, rfl⟩
        · rintro ⟨w', rfl, rfl, rfl⟩
          exact ⟨rfl, rfl⟩
      | failed e => simp [Gives, Stops, hx]
      | tooDeep | tooManyDigits => simp [Gives, Stops, hx]

end

/-- What the body of a method comes to: its end, or a `return` in it with a value. -/
inductive Finishes (σ : Setting) (depth : Nat) (body : Node) (st : RunState) :
    Option Value → RunState → Prop
  | ends {v : Value} {st' : RunState} (h : Gives (execute σ depth body) st v st') :
    Finishes σ depth body st none st'
  | returns {w : Value} {st' : RunState} (h : Stops (execute σ depth body) st (.returned w) st') :
    Finishes σ depth body st (some w) st'

/-- What is handed back for it: nothing, or the text that printing the value writes. -/
inductive HandsBack (σ : Setting) (depth : Nat) : Option Value → RunState → Value → RunState → Prop
  | nothing {st : RunState} : HandsBack σ depth none st .empty st
  | empty {st : RunState} : HandsBack σ depth (some .empty) st .empty st
  | text {w : Value} {text : String} {st st' : RunState} (hw : w ≠ .empty)
    (h : Gives (render σ depth w) st text st') : HandsBack σ depth (some w) st (.string text) st'

variable {σ : Setting} {depth : Nat} {body : Node} {o : ObjectRef} {name : String}
  {arguments : List Value} {v w : Value} {w? : Option Value} {st st₁ st' : RunState}

theorem gives_returnedBy_iff_finishes :
    Gives (returnedBy (execute σ depth body)) st w? st' ↔ Finishes σ depth body st w? st' := by
  rw [gives_returnedBy_iff]
  constructor
  · rintro (⟨rfl, v, h⟩ | ⟨w, rfl, h⟩)
    · exact .ends h
    · exact .returns h
  · rintro (h | h)
    · exact .inl ⟨rfl, _, h⟩
    · exact .inr ⟨_, rfl, h⟩

theorem methodResult_eq_pure {render : Value → Run String}
    (h : σ.typedReturns = true ∨ w = .empty) : methodResult σ render w = pure w := by
  rw [methodResult, if_pos (by simpa using h)]

theorem methodResult_eq_string {render : Value → Run String}
    (h : ¬ (σ.typedReturns = true ∨ w = .empty)) :
    methodResult σ render w = do return .string (← render w) := by
  rw [methodResult, if_neg (by simpa using h)]

theorem gives_methodResult_iff (hmode : σ.typedReturns = false) :
    Gives (methodResult σ (render σ depth) w) st v st' ↔ HandsBack σ depth (some w) st v st' := by
  by_cases hw : w = .empty
  · rw [methodResult_eq_pure (.inr hw), gives_pure_iff]
    constructor
    · rintro ⟨rfl, rfl⟩
      exact hw ▸ .empty
    · intro h
      cases h with
      | empty => exact ⟨rfl, rfl⟩
      | text hne _ => exact absurd hw hne
  · rw [methodResult_eq_string (by simp [hw, hmode])]
    constructor
    · intro h
      obtain ⟨text, st₁, htext, h⟩ := h.of_bind
      obtain ⟨rfl, rfl⟩ := gives_pure_iff.1 h
      exact .text hw htext
    · intro h
      cases h with
      | empty => exact absurd rfl hw
      | text _ htext => exact htext.bind (gives_pure _ _)

theorem gives_methodBody_iff (hmode : σ.typedReturns = false) :
    Gives (execute σ (depth + 1) (.methodBody body)) st v st' ↔
      ∃ w? st₁, Finishes σ depth body st w? st₁ ∧ HandsBack σ depth w? st₁ v st' := by
  constructor
  · intro h
    obtain ⟨w?, st₁, hbody, h⟩ := h.of_bind
    refine ⟨w?, st₁, gives_returnedBy_iff_finishes.1 hbody, ?_⟩
    cases w? with
    | none =>
      obtain ⟨rfl, rfl⟩ := gives_pure_iff.1 h
      exact .nothing
    | some w => exact (gives_methodResult_iff hmode).1 h
  · rintro ⟨w?, st₁, hbody, h⟩
    apply (gives_returnedBy_iff_finishes.2 hbody).bind
    cases w? with
    | none =>
      cases h
      exact gives_pure _ _
    | some w => exact (gives_methodResult_iff hmode).2 h

/-! ## Calls -/

/-- The state in which the body of a method of an object begins. -/
def entered (σ : Setting) (m : Method) (o : ObjectRef) (name : String) (arguments : List Value)
    (st : RunState) : RunState :=
  { st with
    frame := m.frame o arguments
    log := st.log.push (.calling (σ.table.name (st.heap.get o).cls) name arguments.length) }

/-- Without a method for it, a call is refused and does nothing. -/
theorem outcome_invoke_of_none (execute : Node → Run Value)
    (h : σ.table.methodOf? (st.heap.get o).cls name arguments.length = none) :
    outcome (invoke σ execute o name arguments) st =
      (.error (.failed (.methodNotFound (σ.table.name (st.heap.get o).cls) name
        arguments.length)), st) := by
  rw [invoke, outcome_bind, gives_classOf]
  simp only [h]
  rfl

/-- A call is its body on the frame of the method; the caller has its own frame back. -/
theorem outcome_invoke_of_some (execute : Node → Run Value) {m : Method}
    (h : σ.table.methodOf? (st.heap.get o).cls name arguments.length = some m) :
    outcome (invoke σ execute o name arguments) st =
      let r := outcome (execute m.body) (entered σ m o name arguments st)
      (r.1, { r.2 with frame := st.frame }) := by
  rw [invoke, outcome_bind, gives_classOf]
  simp only [h]
  rfl

/-- A call gives what the body of the method gives. -/
theorem gives_invoke_iff {execute : Node → Run Value} :
    Gives (invoke σ execute o name arguments) st v st' ↔
      ∃ m st₁, σ.table.methodOf? (st.heap.get o).cls name arguments.length = some m ∧
        Gives (execute m.body) (entered σ m o name arguments st) v st₁ ∧
        st' = { st₁ with frame := st.frame } := by
  cases hm : σ.table.methodOf? (st.heap.get o).cls name arguments.length with
  | none =>
    rw [Gives, outcome_invoke_of_none execute hm]
    simp
  | some m =>
    rw [Gives, outcome_invoke_of_some execute hm]
    constructor
    · intro h
      obtain ⟨hbody, hleft⟩ := Prod.mk.inj h
      exact ⟨m, _, rfl, Prod.ext hbody rfl, hleft.symm⟩
    · rintro ⟨m', st₁, hm', hbody, rfl⟩
      obtain rfl := Option.some.inj hm'
      rw [hbody]

/-- The method that the object answers the name with runs its body up to `w?`, which leaves the
state `st₁`, and hands back `v` for it, which leaves the state `st'`. -/
def Answers (σ : Setting) (depth : Nat) (o : ObjectRef) (name : String) (arguments : List Value)
    (st : RunState) (w? : Option Value) (st₁ : RunState) (v : Value) (st' : RunState) : Prop :=
  ∃ m body st₂, σ.table.methodOf? (st.heap.get o).cls name arguments.length = some m ∧
    m.body = .methodBody body ∧ Finishes σ depth body (entered σ m o name arguments st) w? st₁ ∧
    HandsBack σ depth w? st₁ v st₂ ∧ st' = { st₂ with frame := st.frame }

theorem gives_invoke_iff_answers (hmode : σ.typedReturns = false)
    (hc : σ.table.Catches (st.heap.get o).cls) :
    Gives (invoke σ (execute σ (depth + 1)) o name arguments) st v st' ↔
      ∃ w? st₁, Answers σ depth o name arguments st w? st₁ v st' := by
  rw [gives_invoke_iff]
  constructor
  · rintro ⟨m, st₂, hm, hgives, rfl⟩
    obtain ⟨body, hbody⟩ := hc _ _ _ hm
    rw [hbody, gives_methodBody_iff hmode] at hgives
    obtain ⟨w?, st₁, hfinishes, hback⟩ := hgives
    exact ⟨w?, st₁, m, body, st₂, hm, hbody, hfinishes, hback, rfl⟩
  · rintro ⟨w?, st₁, m, body, st₂, hm, hbody, hfinishes, hback, rfl⟩
    refine ⟨m, st₂, hm, ?_, rfl⟩
    rw [hbody, gives_methodBody_iff hmode]
    exact ⟨w?, st₁, hfinishes, hback⟩

/-- The class of an object is the same behind whatever has run since. -/
theorem gives_invoke_iff_answers_of_grows (hmode : σ.typedReturns = false)
    (ho : o.index < st.heap.size) (hc : σ.table.Catches (st.heap.get o).cls)
    (hgrows : st.Grows st₁) :
    Gives (invoke σ (execute σ (depth + 1)) o name arguments) st₁ v st' ↔
      ∃ w? st₂, Answers σ depth o name arguments st₁ w? st₂ v st' := by
  apply gives_invoke_iff_answers hmode
  rw [(hgrows.heap.get ho).2.cls_eq]
  exact hc

/-! ## What is handed back -/

theorem HandsBack.isPlain (h : HandsBack σ depth w? st v st') : v.isPlain := by
  cases h with
  | nothing | empty | text => rfl

theorem HandsBack.eq_empty_iff (h : HandsBack σ depth w? st v st') :
    v = .empty ↔ w? = none ∨ w? = some .empty := by
  cases h with
  | nothing | empty => simp
  | text hw => simp [hw]

/-- Every number and every truth value has a text. -/
theorem ne_empty_of_gives_render {text : String} (hw : (∃ b, w = .bool b) ∨ ∃ n, w = .number n)
    (h : Gives (render σ depth w) st text st') : text ≠ "" := by
  cases depth with
  | zero => exact absurd (stops_throw_iff.2 ⟨rfl, rfl⟩) h.not_stops
  | succ depth =>
    rcases hw with ⟨b, rfl⟩ | ⟨n, rfl⟩
    · obtain ⟨rfl, -⟩ := gives_pure_iff.1 h
      cases b <;> decide
    · obtain ⟨-, rfl, -⟩ := gives_showNumber_iff.1 h
      cases n with
      | ofNat n => exact Nat.repr_ne_empty
      | negSucc n =>
        intro hempty
        have hsign : ("-" ++ toString (n + 1)).length = 0 := congrArg String.length hempty
        simp [String.length_append] at hsign

/-- What is handed back fails as a condition where there is no text to it. -/
theorem HandsBack.isTrue_eq_false_iff (h : HandsBack σ depth w? st v st') :
    v.isTrue = false ↔ w? = none ∨ w? = some .empty ∨
      ∃ w st₁, w? = some w ∧ Gives (render σ depth w) st "" st₁ := by
  cases h with
  | nothing => simp [Value.isTrue]
  | empty => simp [Value.isTrue]
  | @text w text _ _ hw htext =>
    constructor
    · intro htrue
      obtain rfl : text = "" := by simpa [Value.isTrue] using htrue
      exact .inr (.inr ⟨w, st', rfl, htext⟩)
    · rintro (hnone | hsome | ⟨w', st₁, hsome, hempty⟩)
      · simp at hnone
      · exact absurd (Option.some.inj hsome) hw
      · obtain rfl := Option.some.inj hsome
        obtain ⟨rfl, -⟩ := htext.unique hempty
        simp [Value.isTrue]

theorem HandsBack.isTrue (h : HandsBack σ depth (some w) st v st')
    (hw : (∃ b, w = .bool b) ∨ ∃ n, w = .number n) : v.isTrue := by
  cases h with
  | empty => simp at hw
  | text _ htext => simpa [Value.isTrue] using ne_empty_of_gives_render hw htext

/-! ## Ways into a method -/

theorem grows_of_executeAll {nodes : List Node} {vs : List Value}
    (h : Gives (executeAll (execute σ depth) nodes) st vs st') : st.Grows st' := by
  induction nodes generalizing st vs with
  | nil =>
    obtain ⟨-, rfl⟩ := gives_pure_iff.1 h
    exact .refl _
  | cons n nodes ih =>
    obtain ⟨v, st₁, hv, h⟩ := h.of_bind
    obtain ⟨vs, st₂, hvs, h⟩ := h.of_bind
    obtain ⟨-, rfl⟩ := gives_pure_iff.1 h
    exact (grows_of_gives hv).trans (ih hvs)

section

variable (hmode : σ.typedReturns = false) (ho : o.index < st.heap.size)
  (hc : σ.table.Catches (st.heap.get o).cls)
include hmode ho hc

/-- A call gives a text or nothing where the receiver is such an object. -/
theorem isPlain_of_gives_call {receiver : Node} {arguments : List Node} {st₀ : RunState}
    (hreceiver : Gives (execute σ (depth + 1) receiver) st₀ (.object o) st)
    (h : Gives (execute σ (depth + 2) (.call receiver name arguments)) st₀ v st') : v.isPlain := by
  obtain ⟨u, st₁, hu, h⟩ := h.of_bind
  obtain ⟨rfl, rfl⟩ := hreceiver.unique hu
  obtain ⟨o', st₁, ho', h⟩ := h.of_bind
  obtain ⟨heq, rfl⟩ := gives_expectObject ho'
  obtain rfl := Value.object.inj heq
  obtain ⟨vs, st₂, hvs, h⟩ := h.of_bind
  obtain ⟨w?, st₃, m, body, st₄, -, -, -, hback, -⟩ :=
    (gives_invoke_iff_answers_of_grows hmode ho hc (grows_of_executeAll hvs)).1 h
  exact hback.isPlain

/-- So does an addition to such an object. -/
theorem isPlain_of_gives_add {left right : Node} {st₀ : RunState}
    (hleft : Gives (execute σ (depth + 1) left) st₀ (.object o) st)
    (h : Gives (execute σ (depth + 2) (.arithmetic .add left right)) st₀ v st') : v.isPlain := by
  obtain ⟨u, st₁, hu, h⟩ := h.of_bind
  obtain ⟨rfl, rfl⟩ := hleft.unique hu
  obtain ⟨w, st₂, hw, h⟩ := h.of_bind
  obtain ⟨w?, st₃, m, body, st₄, -, -, -, hback, -⟩ :=
    (gives_invoke_iff_answers_of_grows hmode ho hc (grows_of_gives hw)).1 h
  exact hback.isPlain

end

/-- A test that the method of an object decides, if there is one. -/
theorem gives_decided_iff {execute : Node → Run Value} {right : Value} {otherwise : Run Bool}
    {b : Bool} (hmethod : (σ.table.methodOf? (st.heap.get o).cls name 1).isSome) :
    Gives (do
        if ← hasMethod σ o name 1 then
          let v ← invoke σ execute o name [right]
          return v.isTrue
        else otherwise) st b st' ↔
      ∃ v, Gives (invoke σ execute o name [right]) st v st' ∧ v.isTrue = b := by
  have hfound := gives_hasMethod σ o name 1 st
  rw [hmethod] at hfound
  constructor
  · intro h
    obtain ⟨found, st₁, hhas, h⟩ := h.of_bind
    obtain ⟨rfl, rfl⟩ := hfound.unique hhas
    obtain ⟨v, st₂, hv, h⟩ := h.of_bind
    obtain ⟨rfl, rfl⟩ := gives_pure_iff.1 h
    exact ⟨v, hv, rfl⟩
  · rintro ⟨v, hv, rfl⟩
    exact hfound.bind (hv.bind (gives_pure _ _))

end Run

open Run

/-- Methods hand back printed forms, and all methods that the class of the object answers with catch
what is returned in them. A call of the object that comes to its end gives what its method answers,
and every answer is a text or nothing: nothing exactly if the body came to its end without a `return`
or returned nothing, and otherwise the text that printing the returned value gives in the state that
the `return` left, in which the caller goes on after the printing. So a call of a method and an
addition to the object give a text or nothing, and where the object has a method for it, a comparison
for equality or order is what the method answers, taken as a condition. As a condition an answer fails
exactly if nothing was returned or there is no text to what was, so it holds for every truth value and
every number. -/
theorem calls_give_printed_returns (t : ClassTable) (depth : Nat) (o : ObjectRef) (st : RunState)
    (ho : o.index < st.heap.size) (hc : t.Catches (st.heap.get o).cls) :
    let σ : Setting := ⟨t, false⟩
    (∀ name arguments v st', Gives (invoke σ (execute σ (depth + 1)) o name arguments) st v st' ↔
        ∃ w? st₁, Answers σ depth o name arguments st w? st₁ v st') ∧
      (∀ name arguments w? st₁ v st', Answers σ depth o name arguments st w? st₁ v st' →
        v.isPlain ∧ (v = .empty ↔ w? = none ∨ w? = some .empty) ∧
        (∀ w, w? = some w → w ≠ .empty → ∃ text st₂, v = .string text ∧
          Gives (render σ depth w) st₁ text st₂ ∧ st' = { st₂ with frame := st.frame }) ∧
        (v.isTrue = false ↔ w? = none ∨ w? = some .empty ∨
          ∃ w st₂, w? = some w ∧ Gives (render σ depth w) st₁ "" st₂) ∧
        ∀ w, w? = some w → (∃ b, w = .bool b) ∨ (∃ n, w = .number n) → v.isTrue) ∧
      (∀ receiver name arguments st₀ v st', Gives (execute σ (depth + 1) receiver) st₀ (.object o) st →
        Gives (execute σ (depth + 2) (.call receiver name arguments)) st₀ v st' → v.isPlain) ∧
      (∀ left right st₀ v st', Gives (execute σ (depth + 1) left) st₀ (.object o) st →
        Gives (execute σ (depth + 2) (.arithmetic .add left right)) st₀ v st' → v.isPlain) ∧
      (∀ right b st', (t.methodOf? (st.heap.get o).cls eqName 1).isSome →
        (Gives (equal σ (execute σ (depth + 1)) (.object o) right) st b st' ↔
          ∃ w? st₁ v, Answers σ depth o eqName [right] st w? st₁ v st' ∧ v.isTrue = b)) ∧
      ∀ right b st', (t.methodOf? (st.heap.get o).cls ltName 1).isSome →
        (Gives (less σ (execute σ (depth + 1)) (.object o) right) st b st' ↔
          ∃ w? st₁ v, Answers σ depth o ltName [right] st w? st₁ v st' ∧ v.isTrue = b) := by
  intro σ
  have hcall : ∀ name arguments v st',
      Gives (invoke σ (execute σ (depth + 1)) o name arguments) st v st' ↔
        ∃ w? st₁, Answers σ depth o name arguments st w? st₁ v st' :=
    fun name arguments v st' => gives_invoke_iff_answers rfl hc
  -- a comparison that the object decides is a call, and calls are told above
  have htest : ∀ name right b st',
      (∃ v, Gives (invoke σ (execute σ (depth + 1)) o name [right]) st v st' ∧ v.isTrue = b) ↔
        ∃ w? st₁ v, Answers σ depth o name [right] st w? st₁ v st' ∧ v.isTrue = b := by
    intro name right b st'
    simp only [hcall]
    constructor
    · rintro ⟨v, ⟨w?, st₁, h⟩, hb⟩
      exact ⟨w?, st₁, v, h, hb⟩
    · rintro ⟨w?, st₁, v, h, hb⟩
      exact ⟨v, ⟨w?, st₁, h⟩, hb⟩
  refine ⟨hcall, ?_, ?_, ?_, ?_, ?_⟩
  · rintro name arguments w? st₁ v st' ⟨m, body, st₂, -, -, -, hback, rfl⟩
    refine ⟨hback.isPlain, hback.eq_empty_iff, ?_, hback.isTrue_eq_false_iff, ?_⟩
    · rintro w rfl hw
      cases hback with
      | empty => exact absurd rfl hw
      | text _ htext => exact ⟨_, st₂, rfl, htext, rfl⟩
    · rintro w rfl hw
      exact hback.isTrue hw
  · intro receiver name arguments st₀ v st' hreceiver h
    exact isPlain_of_gives_call rfl ho hc hreceiver h
  · intro left right st₀ v st' hleft h
    exact isPlain_of_gives_add rfl ho hc hleft h
  · intro right b st' hmethod
    exact (gives_decided_iff hmethod).trans (htest eqName right b st')
  · intro right b st' hmethod
    exact (gives_decided_iff hmethod).trans (htest ltName right b st')

/-- A method that the class inherits says `False` of every comparison for equality, and so each of
them holds. -/
theorem equal_of_printed_false :
    let eq : Method := ⟨"__eq__", ["other"], .methodBody (.returnValue (.constant (.bool false)))⟩
    let t : ClassTable := .add (.add .empty ⟨"A", none, [eq]⟩) ⟨"B", some ⟨0⟩, []⟩
    let σ : Setting := ⟨t, false⟩
    let st : RunState := ⟨.empty, .add .empty ⟨1⟩, "", [], #[]⟩
    ∃ st', Gives (equal σ (execute σ 4) (.object ⟨0⟩) .empty) st true st' ∧
      ∃ w? st₁, Answers σ 3 ⟨0⟩ eqName [.empty] st w? st₁ (.string "False") st' := by
  intro eq t σ st
  have hsealed : t.Sealed :=
    (ClassTable.sealed_empty.add (by simp [eq, Method.IsSealed])).add (by simp)
  have hmethod : (t.methodOf? (st.heap.get ⟨0⟩).cls eqName 1).isSome := by decide +kernel
  have hequal : Gives (equal σ (execute σ 4) (.object ⟨0⟩) .empty) st true _ :=
    gives_of_toOption (by decide +kernel)
  have hfalse : Gives (invoke σ (execute σ 4) ⟨0⟩ eqName [.empty]) st (.string "False") _ :=
    gives_of_toOption (by decide +kernel)
  obtain ⟨hcall, -, -, -, heq, -⟩ :=
    calls_give_printed_returns t 3 ⟨0⟩ st (by decide) hsealed.catches
  obtain ⟨w?, st₁, v, hanswers, -⟩ := (heq .empty true _ hmethod).1 hequal
  have hinvoke := (hcall _ _ _ _).2 ⟨w?, st₁, hanswers⟩
  obtain ⟨rfl, -⟩ := hfalse.unique hinvoke
  exact ⟨_, hequal, w?, st₁, hanswers⟩

end Offside
