import Offside.Proofs.Endings

set_option autoImplicit false

/-! # Making objects

The object is made first, without fields, and then `__init__` is looked for. If this method does not
take as many arguments as there are, it is as if there were none, and no argument is run. Otherwise all
arguments run before its body begins.

The object is there from the beginning, so an argument or the body can make further objects by the
same tree. None of them is this one: in a heap that has grown out of one with the object, every new
object is another. -/

namespace Offside

variable {c : ClassRef}

/-! ## New objects -/

/-- What was made remains an object of its class. -/
theorem Heap.Grows.exists_of_add {h h' : Heap} (hgrows : (h.add c).Grows h') :
    ∃ x, h'.get? h.next = some x ∧ x.cls = c := by
  obtain ⟨x, hx, hobject⟩ := hgrows h.next _ (h.get?_add_next c)
  exact ⟨x, hx, hobject.cls_eq⟩

/-- What is made later is something else. -/
theorem Heap.Grows.next_ne {h h' : Heap} (hgrows : (h.add c).Grows h') : h'.next ≠ h.next := by
  intro heq
  obtain ⟨x, hx, -⟩ := hgrows.exists_of_add
  rw [← heq, get?_next] at hx
  simp at hx

namespace Run

/-- How making an object ends. The body of `__init__` runs on a frame of its own, and everything else
that it did stays done. -/
inductive Constructs (σ : Setting) (c : ClassRef) (arguments : List Node) (st : RunState) :
    Except Interrupt Value × RunState → Prop
  /-- There is no `__init__` for so many arguments, and none of them is run. -/
  | plain (hinit : ∀ m ∈ σ.table.method? c initName, m.parameters.length ≠ arguments.length) :
    Constructs σ c arguments st (.ok (.object st.heap.next), { st with heap := st.heap.add c })
  /-- An argument stops, and `__init__` is not called. -/
  | argumentStops {m : Method} {before after : List Node} {n : Node} {vs : List Value}
    {i : Interrupt} {st₁ st₂ : RunState} (hinit : σ.table.method? c initName = some m)
    (hlength : m.parameters.length = arguments.length) (harguments : arguments = before ++ n :: after)
    (hbefore : GivesInTurn σ before { st with heap := st.heap.add c } vs st₁)
    (hn : Ends σ n st₁ (.error i, st₂)) :
    Constructs σ c arguments st (.error i, st₂)
  /-- The body of `__init__` stops. -/
  | initStops {m : Method} {vs : List Value} {i : Interrupt} {st₁ st₂ : RunState}
    (hinit : σ.table.method? c initName = some m) (hlength : m.parameters.length = arguments.length)
    (hvs : GivesInTurn σ arguments { st with heap := st.heap.add c } vs st₁)
    (hbody : Ends σ m.body (entered σ m st.heap.next initName vs st₁) (.error i, st₂)) :
    Constructs σ c arguments st (.error i, { st₂ with frame := st₁.frame })
  /-- The body of `__init__` has run, and what it gives is dropped. -/
  | initialized {m : Method} {vs : List Value} {v : Value} {st₁ st₂ : RunState}
    (hinit : σ.table.method? c initName = some m) (hlength : m.parameters.length = arguments.length)
    (hvs : GivesInTurn σ arguments { st with heap := st.heap.add c } vs st₁)
    (hbody : Ends σ m.body (entered σ m st.heap.next initName vs st₁) (.ok v, st₂)) :
    Constructs σ c arguments st (.ok (.object st.heap.next), { st₂ with frame := st₁.frame })

section

variable {σ : Setting} {arguments : List Node} {m : Method} {o : ObjectRef} {name : String}
  {v : Value} {vs : List Value} {st st₁ st' : RunState} {r : Except Interrupt Value × RunState}

theorem GivesInTurn.grows (h : GivesInTurn σ arguments st vs st') : st.Grows st' := by
  obtain ⟨depth, h⟩ := h
  exact grows_of_executeAll h.gives

theorem GivesInTurn.length_eq (h : GivesInTurn σ arguments st vs st') :
    vs.length = arguments.length := by
  obtain ⟨depth, h⟩ := h
  exact h.length_eq

/-- A call of a method ends as its body does. -/
theorem comesTo_invoke_iff (hm : σ.table.methodOf? (st.heap.get o).cls name vs.length = some m) :
    ComesTo (fun depth => invoke σ (execute σ depth) o name vs) st r ↔
      ∃ q st₁, Ends σ m.body (entered σ m o name vs st) (q, st₁) ∧
        r = (q, { st₁ with frame := st.frame }) := by
  have hout : ∀ depth, outcome (invoke σ (execute σ depth) o name vs) st = _ :=
    fun depth => outcome_invoke_of_some (execute σ depth) hm
  constructor
  · rintro ⟨hr, depth, rfl⟩
    rw [hout] at hr ⊢
    let q := outcome (execute σ depth m.body) (entered σ m o name vs st)
    exact ⟨q.1, q.2, ⟨hr, depth, rfl⟩, rfl⟩
  · rintro ⟨q, st₁, ⟨hq, depth, h⟩, rfl⟩
    refine ⟨hq, depth, ?_⟩
    rw [hout, h]

/-- Behind its arguments, `__init__` is called on the object that was made before them. -/
theorem comesTo_init_iff (hm : σ.table.methodOf? c initName arguments.length = some m)
    (hst : (st.heap.add c).Grows st₁.heap) (hvs : vs.length = arguments.length) :
    ComesTo (fun depth => invoke σ (execute σ depth) st.heap.next initName vs >>= fun _ =>
        pure (.object st.heap.next)) st₁ r ↔
      (∃ i st₂, Ends σ m.body (entered σ m st.heap.next initName vs st₁) (.error i, st₂) ∧
        r = (.error i, { st₂ with frame := st₁.frame })) ∨
      ∃ v st₂, Ends σ m.body (entered σ m st.heap.next initName vs st₁) (.ok v, st₂) ∧
        r = (.ok (.object st.heap.next), { st₂ with frame := st₁.frame }) := by
  obtain ⟨x, hx, hc⟩ := hst.exists_of_add
  have hcall : σ.table.methodOf? (st₁.heap.get st.heap.next).cls initName vs.length = some m := by
    rw [Heap.get, hx, hvs]
    exact hc ▸ hm
  rw [comesTo_bind_const_iff (settled_invoke σ st.heap.next initName vs)]
  constructor
  · rintro (⟨i, _, h, rfl⟩ | ⟨v, _, h, -, rfl⟩)
    · obtain ⟨_, st₂, hbody, ⟨⟩⟩ := (comesTo_invoke_iff hcall).1 h
      exact .inl ⟨i, st₂, hbody, rfl⟩
    · obtain ⟨_, st₂, hbody, ⟨⟩⟩ := (comesTo_invoke_iff hcall).1 h
      exact .inr ⟨v, st₂, hbody, rfl⟩
  · rintro (⟨i, st₂, hbody, rfl⟩ | ⟨v, st₂, hbody, rfl⟩)
    · exact .inl ⟨i, _, (comesTo_invoke_iff hcall).2 ⟨_, _, hbody, rfl⟩, rfl⟩
    · exact .inr ⟨v, _, (comesTo_invoke_iff hcall).2 ⟨_, _, hbody, rfl⟩, by simp, rfl⟩

theorem ends_construct_iff_of_none
    (hfound : σ.table.methodOf? c initName arguments.length = none) :
    Ends σ (.construct c arguments) st r ↔ Constructs σ c arguments st r := by
  have hnone := ClassTable.methodOf?_eq_none_iff.1 hfound
  have hnew (depth : Nat) := gives_construct_of_none hfound depth st
  constructor
  · intro h
    obtain ⟨-, depth, h⟩ := ends_iff_comesTo_step.1 h
    obtain rfl := (hnew depth).symm.trans h
    exact .plain hnone
  · intro h
    cases h with
    | plain _ => exact ⟨by simp, 1, hnew 0⟩
    | argumentStops hinit hlength | initStops hinit hlength | initialized hinit hlength =>
      exact absurd hlength (hnone _ hinit)

theorem ends_construct_iff_of_some
    (hfound : σ.table.methodOf? c initName arguments.length = some m) :
    Ends σ (.construct c arguments) st r ↔ Constructs σ c arguments st r := by
  let st₀ : RunState := { st with heap := st.heap.add c }
  let call (vs : List Value) (depth : Nat) : Run Value :=
    invoke σ (execute σ depth) st.heap.next initName vs >>= fun _ => pure (.object st.heap.next)
  have hcall : ∀ vs, Settled (call vs) := fun vs =>
    (settled_invoke σ _ _ vs).bind fun _ => .const _
  have hstart : Ends σ (.construct c arguments) st r ↔ ComesTo (fun depth =>
      executeAll (execute σ depth) arguments >>= fun vs => call vs depth) st₀ r := by
    rw [ends_iff_comesTo_step]
    refine and_congr_right' (exists_congr fun depth => ?_)
    show outcome (executeConstruct σ (execute σ depth) c arguments) st = r ↔ _
    rw [outcome_executeConstruct, hfound]
    rfl
  obtain ⟨hinit, hlength⟩ := ClassTable.methodOf?_eq_some_iff.1 hfound
  rw [hstart]
  constructor
  · intro h
    rcases h.of_bind with ⟨i, st₁, hargument, rfl⟩ | ⟨vs, st₁, harguments, h⟩
    · obtain ⟨before, n, after, vs, st₁, hnodes, hbefore, hn⟩ :=
        comesTo_executeAll_error_iff.1 hargument
      exact .argumentStops hinit hlength hnodes hbefore hn
    · have hvs := comesTo_executeAll_ok_iff.1 harguments
      rcases (comesTo_init_iff hfound hvs.grows.heap hvs.length_eq).1 h with
        ⟨i, st₂, hbody, rfl⟩ | ⟨v, st₂, hbody, rfl⟩
      · exact .initStops hinit hlength hvs hbody
      · exact .initialized hinit hlength hvs hbody
  · have hafter : ∀ vs st₁, GivesInTurn σ arguments st₀ vs st₁ →
        ComesTo (call vs) st₁ r → ComesTo (fun depth =>
          executeAll (execute σ depth) arguments >>= fun vs => call vs depth) st₀ r :=
      fun vs st₁ hvs h => ComesTo.bind (comesTo_executeAll_ok_iff.2 hvs) h
        (settled_executeAll σ arguments) (hcall vs)
    -- each rule names its `__init__`, and the look-up has found the same
    intro h
    cases h with
    | plain hnone => exact absurd hlength (hnone m hinit)
    | argumentStops _ _ hnodes hbefore hn =>
      exact ComesTo.bind_error
        (comesTo_executeAll_error_iff.2 ⟨_, _, _, _, _, hnodes, hbefore, hn⟩)
    | initStops hinit' _ hvs hbody =>
      obtain rfl := Option.some.inj (hinit.symm.trans hinit')
      exact hafter _ _ hvs ((comesTo_init_iff hfound hvs.grows.heap hvs.length_eq).2
        (.inl ⟨_, _, hbody, rfl⟩))
    | initialized hinit' _ hvs hbody =>
      obtain rfl := Option.some.inj (hinit.symm.trans hinit')
      exact hafter _ _ hvs ((comesTo_init_iff hfound hvs.grows.heap hvs.length_eq).2
        (.inr ⟨_, _, hbody, rfl⟩))

theorem ends_construct_iff :
    Ends σ (.construct c arguments) st r ↔ Constructs σ c arguments st r := by
  cases hfound : σ.table.methodOf? c initName arguments.length with
  | none => exact ends_construct_iff_of_none hfound
  | some m => exact ends_construct_iff_of_some hfound

/-- Every object that is made has its place in the heap from the beginning. -/
theorem Constructs.eq_next (h : Constructs σ c arguments st (.ok v, st')) :
    v = .object st.heap.next ∧ (st.heap.add c).Grows st'.heap := by
  cases h with
  | plain _ => exact ⟨rfl, .refl _⟩
  | initialized _ _ hvs hbody => exact ⟨rfl, hvs.grows.heap.trans hbody.grows.heap⟩

end

end Run

open Run

/-- Making an object ends as its rules say. If the method `__init__` of the class, which may be one of
an ancestor, has as many parameters as there are arguments, these are run in turn, and its body is run
once, for the new object; what the body gives is dropped, and an argument or a body that stops stops it
all. Otherwise there is a new object without fields, and nothing else is different. A body that hands
over what is returned in it may fail to make the printed form of that, and then it stops.

An object that is made is one of exactly this class, which was not there before. From its making on, no
tree makes it again: neither the arguments nor the body of `__init__`, nor the same tree once more. -/
theorem construction_gives_new_object (σ : Setting) (c : ClassRef) (arguments : List Node)
    (st : RunState) :
    (∀ r, Ends σ (.construct c arguments) st r ↔ Constructs σ c arguments st r) ∧
    (∀ body start r, Ends σ (.methodBody body) start r ↔ LeavesMethod σ body start r) ∧
    ((∀ m ∈ σ.table.method? c initName, m.parameters.length ≠ arguments.length) →
      ∃ st', Ends σ (.construct c arguments) st (.ok (.object st.heap.next), st') ∧
        st' = { st with heap := st'.heap } ∧ st'.heap.get? st.heap.next = some ⟨c, .empty⟩ ∧
        ∀ o, o ≠ st.heap.next → st'.heap.get? o = st.heap.get? o) ∧
    ∀ v st', Ends σ (.construct c arguments) st (.ok v, st') →
      v = .object st.heap.next ∧ st.heap.get? st.heap.next = none ∧
      (∃ x, st'.heap.get? st.heap.next = some x ∧ x.cls = c) ∧ (st.heap.add c).Grows st'.heap ∧
      ∀ d nodes st₁ w st₂, (st.heap.add c).Grows st₁.heap →
        Ends σ (.construct d nodes) st₁ (.ok w, st₂) → w ≠ v := by
  refine ⟨fun r => ends_construct_iff, fun body start r => ends_methodBody_iff, fun hinit => ?_,
    fun v st' h => ?_⟩
  · exact ⟨_, ends_construct_iff.2 (.plain hinit), rfl, st.heap.get?_add_next c,
      fun o ho => (st.heap.get?_add c o).trans (if_neg ho)⟩
  · obtain ⟨rfl, hgrows⟩ := (ends_construct_iff.1 h).eq_next
    refine ⟨rfl, st.heap.get?_next, hgrows.exists_of_add, hgrows, fun d nodes st₁ w st₂ hst₁ hw => ?_⟩
    obtain ⟨rfl, -⟩ := (ends_construct_iff.1 hw).eq_next
    intro heq
    exact hst₁.next_ne (Value.object.inj heq)

/-- An `__init__` of the parent returns the object, which is shown by its address where methods hand
over printed forms. Made twice, there are two objects. Without an argument, `__init__` is passed
by. -/
theorem construction_with_inherited_init :
    let init : Method := ⟨"__init__", ["x"], .methodBody (.sequence [
      .assignField (.path ⟨"self", []⟩) "x" (.path ⟨"x", []⟩), .returnValue (.path ⟨"self", []⟩)])⟩
    let get : Method := ⟨"get", [], .methodBody (.sequence [.returnValue (.path ⟨"self", ["x"]⟩)])⟩
    let t : ClassTable := (ClassTable.empty.add ⟨"A", none, [init]⟩).add ⟨"B", some ⟨0⟩, [get]⟩
    let σ : Setting := ⟨t, false⟩
    let b : Node := .construct ⟨1⟩ [.constant (.number 1)]
    let st := RunState.initial
    (Program.ofSource .empty ("class A:\n  def __init__(x):\n    self.x = x\n    return self\n" ++
        "class B(A):\n  def get():\n    return self.x\nB(1)\n")).1.toOption =
      some ⟨[("A", ⟨0⟩), ("B", ⟨1⟩)], t, [.classDefinition ⟨0⟩, .classDefinition ⟨1⟩, b]⟩ ∧
    (∃ st₁ st₂ v w, Ends σ b st (.ok v, st₁) ∧ st₁.shown = [⟨0⟩] ∧
      (st₁.heap.get ⟨0⟩).fields.get? "x" = some (.number 1) ∧ v = .object ⟨0⟩ ∧
      (∃ x, st₁.heap.get? ⟨0⟩ = some x ∧ x.cls = ⟨1⟩) ∧
      Ends σ b st₁ (.ok w, st₂) ∧ w ≠ v) ∧
    ∃ st', Ends σ (.construct ⟨1⟩ []) st (.ok (.object ⟨0⟩), st') ∧
      st'.heap.get? ⟨0⟩ = some ⟨⟨1⟩, .empty⟩ := by
  intro init get t σ b st
  let st₁ : RunState := ⟨.empty, (st.heap.add ⟨1⟩).setField ⟨0⟩ "x" (.number 1), "", [⟨0⟩],
    #[.calling "B" "__init__" 1]⟩
  let st₂ : RunState := ⟨.empty, (st₁.heap.add ⟨1⟩).setField ⟨1⟩ "x" (.number 1), "", [⟨0⟩, ⟨1⟩],
    #[.calling "B" "__init__" 1, .calling "B" "__init__" 1]⟩
  have hfirst : Ends σ b st (.ok (.object ⟨0⟩), st₁) := ⟨by simp, 6, by decide +kernel⟩
  have hsecond : Ends σ b st₁ (.ok (.object ⟨1⟩), st₂) := ⟨by simp, 6, by decide +kernel⟩
  obtain ⟨-, -, -, hnew⟩ :=
    construction_gives_new_object σ ⟨1⟩ [.constant (.number 1)] st
  obtain ⟨hv, -, hclass, hgrows, hother⟩ := hnew _ _ hfirst
  obtain ⟨-, -, hplain, -⟩ := construction_gives_new_object σ ⟨1⟩ [] st
  have hinit : t.methodOf? ⟨1⟩ initName 0 = none := by decide +kernel
  obtain ⟨st', hends, -, hobject, -⟩ := hplain (ClassTable.methodOf?_eq_none_iff.1 hinit)
  exact ⟨by decide +kernel, ⟨st₁, st₂, _, _, hfirst, rfl, rfl, hv, hclass, hsecond,
    hother _ _ _ _ _ hgrows hsecond⟩, st', hends, hobject⟩

end Offside
