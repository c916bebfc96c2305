import Offside.Proofs.ClassOrder
import Offside.Proofs.MethodEntry
import Offside.Proofs.Starts

set_option autoImplicit false

/-! # Which method a call enters

A class answers a name with the first method of that name, its own methods coming before those of its
parent, these before those of the parent of that, and so on. The method decides alone: where it has
another number of parameters than there are arguments, a call is refused, whatever methods the
ancestors have.

A call in a tree looks at its receiver, then runs its arguments, and only then at the method. -/

namespace Offside

/-! ## Tables in order -/

namespace ClassTable

/-- Every class stands behind its parent. -/
def ParentsFirst (t : ClassTable) : Prop :=
  ∀ c d p, t.get? c = some d → d.parent? = some p → p.index < c.index

variable {t : ClassTable} {c : ClassRef} {cs : List ClassRef}

theorem parentsFirst_empty : empty.ParentsFirst := by
  intro c d p hd
  simp [empty, get?] at hd

theorem ParentsFirst.add (ht : t.ParentsFirst) {d : ClassDecl}
    (hd : ∀ p, d.parent? = some p → p.index < t.size) : (t.add d).ParentsFirst := by
  intro c e p he hp
  rw [get?_add] at he
  by_cases hc : c = t.next
  · rw [if_pos hc] at he
    obtain rfl := Option.some.inj he
    rw [hc]
    exact hd p hp
  · rw [if_neg hc] at he
    exact ht c e p he hp

/-- The parents of a class lead back in the table. -/
theorem ParentsFirst.pairwise (ht : t.ParentsFirst) (h : t.ParentChain c cs) :
    (cs.Pairwise fun a b => b.index < a.index) ∧ ∀ a ∈ cs, a.index ≤ c.index := by
  induction h with
  | root hd hp => exact ⟨List.pairwise_singleton .., by simp⟩
  | child hd hp h ih =>
    obtain ⟨hpairs, hle⟩ := ih
    have hlt := ht _ _ _ hd hp
    refine ⟨List.pairwise_cons.2 ⟨fun a ha => Nat.lt_of_le_of_lt (hle a ha) hlt, hpairs⟩, ?_⟩
    intro a ha
    rcases List.mem_cons.1 ha with rfl | ha
    · exact Nat.le_refl _
    · exact Nat.le_of_lt (Nat.lt_of_le_of_lt (hle a ha) hlt)

end ClassTable

/-- The classes behind those of other sources are the classes of the scope. -/
theorem Scope.Ordered.parentsFirst {known : ClassTable} {Γ : Scope} (h : Γ.Ordered known.size)
    (hextends : known.Extends Γ.table) (hknown : known.ParentsFirst) : Γ.table.ParentsFirst := by
  intro c d p hd hp
  by_cases hc : c.index < known.size
  · rw [hextends.get?_eq c hc] at hd
    exact hknown c d p hd hp
  · have hsize : c.index < Γ.table.size := (Array.getElem?_eq_some_iff.1 hd).1
    have hmem : c ∈ Γ.classes.map Prod.snd := by
      rw [h.classes]
      exact List.mem_map.2 ⟨c.index, List.mem_range'_1.2 (by omega), rfl⟩
    obtain ⟨⟨name, c⟩, hname, rfl⟩ := List.mem_map.1 hmem
    obtain ⟨d', hd', -, hparent⟩ := h.decl name c hname
    obtain rfl : d' = d := Option.some.inj (hd'.symm.trans hd)
    exact (hparent p hp).2

/-- Reading a source keeps a table in order. -/
theorem Program.parentsFirst_of_ofSource {known : ClassTable} {source : String} {p : Program}
    (hknown : known.ParentsFirst) (h : (Program.ofSource known source).1 = .ok p) :
    p.table.ParentsFirst := by
  obtain ⟨us, body, Γ, -, hmany, rfl⟩ := (Program.derives_of_ofSource h).2
  have hordered : Γ.Ordered known.size :=
    keeps_of_many (Scope.Ordered.stable known.size) hmany (.start known)
  exact hordered.parentsFirst (grows_of_many hmany).table hknown

open Run

namespace Run

/-! ## Arguments -/

section

variable {execute : Node → Run Value} {nodes : List Node} {vs : List Value} {st st' : RunState}

/-- The trees, run one after the other, each in the state that the one before it leaves, give these
values. -/
inductive InTurn (execute : Node → Run Value) :
    List Node → RunState → List Value → RunState → Prop
  | nil (st : RunState) : InTurn execute [] st [] st
  | cons {n : Node} {nodes : List Node} {v : Value} {vs : List Value} {st st₁ st' : RunState}
    (hn : Gives (execute n) st v st₁) (h : InTurn execute nodes st₁ vs st') :
    InTurn execute (n :: nodes) st (v :: vs) st'

theorem InTurn.length_eq (h : InTurn execute nodes st vs st') : vs.length = nodes.length := by
  induction h with
  | nil st => rfl
  | cons hn h ih => rw [List.length_cons, List.length_cons, ih]

theorem InTurn.gives (h : InTurn execute nodes st vs st') :
    Gives (executeAll execute nodes) st vs st' := by
  induction h with
  | nil st => exact gives_pure _ _
  | cons hn h ih => exact hn.bind (ih.bind (gives_pure _ _))

end

/-! ## Refused calls -/

/-- How a call ends for which the class has no method. -/
def refusal (σ : Setting) (c : ClassRef) (name : String) (arguments : Nat) : Interrupt :=
  .failed (.methodNotFound (σ.table.name c) name arguments)

end Run

/-- The log has that many records or more. -/
def Invariant.logFrom (k : Nat) : Invariant where
  Holds _ st := k ≤ st.log.size
  Binds _ _ := True
  binds_away _ := trivial
  holds_bindName _ h _ := h
  holds_write _ h := h
  holds_construct _ h := h
  holds_setField _ _ _ h := h
  holds_address _ h := h
  holds_report _ h := by
    rw [Array.size_push]
    exact Nat.le_succ_of_le h
  holds_enter _ h := h
  holds_leave _ h := h

namespace Run

variable {σ : Setting} {depth : Nat} {o : ObjectRef} {name : String} {arguments : List Value}
  {st st' : RunState}

/-- Records stay in the log. -/
theorem log_execute (σ : Setting) (depth : Nat) (n : Node) (st : RunState) :
    st.log.size ≤ (outcome (execute σ depth n) st).2.log.size :=
  (Invariant.logFrom st.log.size).holds_execute (i := .own) σ depth
    (fun m _ => Node.BindsOnly.of_forall (fun _ => trivial) m) (Nat.le_refl _)

/-- A call that is not refused shows in the log. -/
theorem log_invoke (depth : Nat) {m : Method}
    (h : σ.table.methodOf? (st.heap.get o).cls name arguments.length = some m) :
    st.log.size < (outcome (invoke σ (execute σ depth) o name arguments) st).2.log.size := by
  rw [outcome_invoke_of_some _ h]
  have hlog := log_execute σ depth m.body (entered σ m o name arguments st)
  rw [entered, Array.size_push] at hlog
  exact hlog

/-- A call leaves everything as it was, with the error that there is no such method, if the class has
no method for it, and in no other case. -/
theorem stops_invoke_iff :
    Stops (invoke σ (execute σ depth) o name arguments) st
        (refusal σ (st.heap.get o).cls name arguments.length) st ↔
      σ.table.methodOf? (st.heap.get o).cls name arguments.length = none := by
  constructor
  · intro h
    cases hm : σ.table.methodOf? (st.heap.get o).cls name arguments.length with
    | none => rfl
    | some m =>
      have hlog := log_invoke depth hm
      rw [h] at hlog
      exact absurd hlog (Nat.lt_irrefl _)
  · exact outcome_invoke_of_none _

/-! ## Calls in trees -/

variable {receiver : Node} {nodes : List Node} {v : Value} {vs : List Value} {st₁ st₂ : RunState}

/-- A call on anything but an object fails before it comes to its arguments. -/
theorem stops_call_of_receiver (hreceiver : Gives (execute σ depth receiver) st v st₁)
    (hv : ∀ o, v ≠ .object o) :
    Stops (execute σ (depth + 1) (.call receiver name nodes)) st
      (.failed (.objectNeeded (.methodCall name) (σ.typeName st₁.heap v))) st₁ :=
  hreceiver.stops (stops_expectObject hv σ (.methodCall name) st₁).bind

theorem outcome_call (name : String)
    (hreceiver : Gives (execute σ depth receiver) st (.object o) st₁)
    (harguments : InTurn (execute σ depth) nodes st₁ vs st₂) :
    outcome (execute σ (depth + 1) (.call receiver name nodes)) st =
      outcome (invoke σ (execute σ depth) o name vs) st₂ := by
  show outcome (execute σ depth receiver >>= _) st = _
  rw [outcome_bind, hreceiver]
  show outcome (executeAll (execute σ depth) nodes >>= _) st₁ = _
  rw [outcome_bind, harguments.gives]

/-- A call stops at the argument that stops. -/
theorem stops_call_of_argument {before after : List Node} {n : Node} {i : Interrupt}
    (hreceiver : Gives (execute σ depth receiver) st (.object o) st₁)
    (hbefore : InTurn (execute σ depth) before st₁ vs st₂)
    (hn : Stops (execute σ depth n) st₂ i st') :
    Stops (execute σ (depth + 1) (.call receiver name (before ++ n :: after))) st i st' :=
  hreceiver.stops ((gives_pure _ _).stops (stops_executeAll hbefore.gives hn).bind)

end Run

/-- An object is made first, and then its class is asked for an `__init__`. -/
theorem Run.outcome_executeConstruct (σ : Setting) (execute : Node → Run Value) (c : ClassRef)
    (nodes : List Node) (st : RunState) :
    outcome (executeConstruct σ execute c nodes) st =
      if (σ.table.methodOf? c initName nodes.length).isSome then
        outcome (executeAll execute nodes >>= fun vs =>
            invoke σ execute st.heap.next initName vs >>= fun _ => pure (.object st.heap.next))
          { st with heap := st.heap.add c }
      else (.ok (.object st.heap.next), { st with heap := st.heap.add c }) := by
  have hnew : Gives (construct c) st st.heap.next { st with heap := st.heap.add c } := rfl
  have hinit := gives_hasMethod σ st.heap.next initName nodes.length
    { st with heap := st.heap.add c }
  rw [Heap.get, Heap.get?_add_next, Option.getD_some] at hinit
  rw [executeConstruct, outcome_bind, hnew]
  show outcome (hasMethod σ st.heap.next initName nodes.length >>= _) _ = _
  rw [outcome_bind, hinit]
  cases σ.table.methodOf? c initName nodes.length <;> rfl

/-- Where the method of the name `__init__` does not take so many arguments, an object is made without
a look at them. -/
theorem Run.gives_construct_of_none {σ : Setting} {c : ClassRef} {nodes : List Node}
    (h : σ.table.methodOf? c initName nodes.length = none) (depth : Nat) (st : RunState) :
    Gives (execute σ (depth + 1) (.construct c nodes)) st (.object st.heap.next)
      { st with heap := st.heap.add c } := by
  show outcome (executeConstruct σ (execute σ depth) c nodes) st = _
  rw [outcome_executeConstruct, h]
  rfl

/-- Classes stand behind their parents in every table that sources make. There, the method that an object
has for a name is the first one of that name among the methods of its class, of the parent of that, and
so on. It alone decides: the object has a method for a number of arguments if this one takes so many. If
it is missing or takes another number, a call is refused and leaves everything as it was, and only then;
a call that enters a method shows in the log, whatever its body does. Otherwise the body of that method
runs, for the object itself.

In a tree, a call on something else than an object fails before any of its arguments is run. On an
object of the heap, all arguments are run in turn before the method is looked at, so what they did stays
done when the call is refused, and the call stops where one of them does. -/
theorem dispatch_of_parentChain (σ : Setting) (depth : Nat) (c : ClassRef) (cs : List ClassRef)
    (name : String) (ht : σ.table.ParentsFirst) (hchain : σ.table.ParentChain c cs) :
    let nearest? := (cs.flatMap σ.table.ownMethods).find? fun m => m.name == name
    let call o arguments := invoke σ (execute σ depth) o name arguments
    σ.table.method? c name = nearest? ∧
    (∀ o st, (st.heap.get o).cls = c →
      (∀ n, Gives (hasMethod σ o name n) st (nearest?.any fun m => m.parameters.length == n) st) ∧
      (∀ arguments, Stops (call o arguments) st (refusal σ c name arguments.length) st ↔
        ∀ m ∈ nearest?, m.parameters.length ≠ arguments.length) ∧
      ∀ arguments, ∀ m ∈ nearest?, m.parameters.length = arguments.length →
        let start := entered σ m o name arguments st
        (outcome (call o arguments) st =
          let r := outcome (execute σ depth m.body) start
          (r.1, { r.2 with frame := st.frame })) ∧
        (selfName ∉ m.parameters → start.frame.get? selfName = some (.object o))) ∧
    ∀ receiver st v st₁, Gives (execute σ depth receiver) st v st₁ →
      ((∀ o, v ≠ .object o) → ∀ nodes,
        Stops (execute σ (depth + 1) (.call receiver name nodes)) st
          (.failed (.objectNeeded (.methodCall name) (σ.typeName st₁.heap v))) st₁) ∧
      ∀ o, v = .object o → o.index < st₁.heap.size → (st₁.heap.get o).cls = c →
        (∀ nodes vs st₂, InTurn (execute σ depth) nodes st₁ vs st₂ →
          (st₂.heap.get o).cls = c ∧
          outcome (execute σ (depth + 1) (.call receiver name nodes)) st =
            outcome (call o vs) st₂ ∧
          ((∀ m ∈ nearest?, m.parameters.length ≠ nodes.length) →
            Stops (execute σ (depth + 1) (.call receiver name nodes)) st
              (refusal σ c name nodes.length) st₂)) ∧
        ∀ before n after vs st₂ i st₃, InTurn (execute σ depth) before st₁ vs st₂ →
          Stops (execute σ depth n) st₂ i st₃ →
            Stops (execute σ (depth + 1) (.call receiver name (before ++ n :: after))) st i st₃ := by
  intro nearest? call
  have hmethod : σ.table.method? c name = nearest? :=
    hchain.method?_eq (ht.pairwise hchain).1 name
  have hrefused (o : ObjectRef) (st : RunState) (hc : (st.heap.get o).cls = c)
      (arguments : List Value) :
      Stops (call o arguments) st (refusal σ c name arguments.length) st ↔
        ∀ m ∈ nearest?, m.parameters.length ≠ arguments.length := by
    subst hc
    rw [← hmethod, ← ClassTable.methodOf?_eq_none_iff, ← stops_invoke_iff]
  refine ⟨hmethod, fun o st hc => ⟨fun n => ?_, hrefused o st hc, fun arguments m hm hlength => ?_⟩,
    fun receiver st v st₁ hreceiver =>
      ⟨fun hv nodes => stops_call_of_receiver hreceiver hv, ?_⟩⟩
  · have hfound := gives_hasMethod σ o name n st
    rw [hc, ClassTable.methodOf?, hmethod, Option.isSome_filter] at hfound
    exact hfound
  · intro start
    have hmethodOf : σ.table.methodOf? (st.heap.get o).cls name arguments.length = some m := by
      rw [hc, ClassTable.methodOf?_eq_some_iff]
      exact ⟨hmethod.trans hm, hlength⟩
    exact ⟨outcome_invoke_of_some _ hmethodOf, m.get?_frame_self⟩
  · rintro o rfl ho hc
    refine ⟨fun nodes vs st₂ harguments => ?_, fun before n after vs st₂ i st₃ hbefore hn =>
      stops_call_of_argument hreceiver hbefore hn⟩
    have hc₂ : (st₂.heap.get o).cls = c :=
      ((grows_of_executeAll harguments.gives).heap.get ho).2.cls_eq.trans hc
    have hcall := outcome_call name hreceiver harguments
    refine ⟨hc₂, hcall, fun hunfit => ?_⟩
    rw [← harguments.length_eq] at hunfit ⊢
    exact hcall.trans ((hrefused o st₂ hc₂ vs).2 hunfit)

/-- A method of the parent takes one argument, but the class has one of that name without parameters.
The call is refused, and the object that its argument made is there. -/
theorem dispatch_of_hidden_method :
    let body (n : Node) : Node := .methodBody (.sequence [.returnValue n])
    let a : ClassDecl := ⟨"A", none, [⟨"f", ["x"], body (.path ⟨"x", []⟩)⟩]⟩
    let b : ClassDecl := ⟨"B", some ⟨0⟩, [⟨"f", [], body (.constant (.number 1))⟩]⟩
    let t := (ClassTable.empty.add a).add b
    let σ : Setting := ⟨t, true⟩
    let st : RunState := { RunState.initial with heap := .add .empty ⟨1⟩ }
    (Program.ofSource .empty ("class A:\n  def f(x):\n    return x\n" ++
        "class B(A):\n  def f():\n    return 1\n")).1.toOption.map Program.table = some t ∧
      t.ParentsFirst ∧ t.ParentChain ⟨1⟩ [⟨1⟩, ⟨0⟩] ∧
      Stops (execute σ 4 (.call (.constant (.object ⟨0⟩)) "f" [.construct ⟨0⟩ []])) st
        (refusal σ ⟨1⟩ "f" 1) { st with heap := st.heap.add ⟨0⟩ } := by
  intro body a b t σ st
  have hparents : t.ParentsFirst := by
    refine (ClassTable.parentsFirst_empty.add (d := a) (by simp [a])).add (d := b) fun p hp => ?_
    obtain rfl : (⟨0⟩ : ClassRef) = p := Option.some.inj hp
    decide
  have hchain : t.ParentChain ⟨1⟩ [⟨1⟩, ⟨0⟩] := .child rfl rfl (.root rfl rfl)
  have hinit : t.methodOf? ⟨0⟩ initName 0 = none := by
    have hroot : t.ParentChain ⟨0⟩ [⟨0⟩] := .root rfl rfl
    rw [ClassTable.methodOf?, hroot.method?_eq (List.pairwise_singleton ..)]
    rfl
  have hargument : InTurn (execute σ 3) [.construct ⟨0⟩ []] st [.object ⟨1⟩]
      { st with heap := st.heap.add ⟨0⟩ } := .cons (gives_construct_of_none hinit 2 st) (.nil _)
  obtain ⟨-, -, hcall⟩ := dispatch_of_parentChain σ 3 ⟨1⟩ [⟨1⟩, ⟨0⟩] "f" hparents hchain
  obtain ⟨-, hobject⟩ := hcall (.constant (.object ⟨0⟩)) st (.object ⟨0⟩) st rfl
  obtain ⟨hturn, -⟩ := hobject ⟨0⟩ rfl (by decide) rfl
  obtain ⟨-, -, hrefused⟩ := hturn _ _ _ hargument
  refine ⟨by decide +kernel, hparents, hchain, hrefused fun m hm => ?_⟩
  obtain rfl : ⟨"f", [], body (.constant (.number 1))⟩ = m := Option.some.inj hm
  decide

end Offside
