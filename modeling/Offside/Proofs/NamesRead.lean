import Offside.Proofs.Frames
import Offside.Proofs.OrderlyTrees

set_option autoImplicit false

/-! # What names a tree reads

A tree looks up no name but those in its paths, and all of them count: behind an empty value the next
name of a path is looked up among the bindings again. Run on bindings that agree on these names a tree
does the same and binds the same names to the same values; it leaves all other names alone. -/

namespace Offside

/-- The name stands in a path of the tree, at whatever place. -/
def Node.Reads (n : Node) (name : String) : Prop :=
  ∃ p, n.Contains (.path p) ∧ name ∈ p.names

theorem Node.Binds.of_child {t : ClassTable} {n m : Node} {name : String} (h : m.Binds t name)
    (hm : m ∈ n.children) : n.Binds t name := by
  rcases h with ⟨value, h⟩ | ⟨cls, h, hname⟩
  · exact .inl ⟨value, .head hm h⟩
  · exact .inr ⟨cls, .head hm h, hname⟩

/-- Bindings that agree on a name go on to do so, and those made anew agree. -/
theorem Bindings.get?_setAll_eq {b b' : Bindings} {entries : List (String × Value)} {name : String}
    (h : name ∈ entries.map Prod.fst ∨ b'.get? name = b.get? name) :
    (b'.setAll entries).get? name = (b.setAll entries).get? name := by
  induction entries generalizing b b' with
  | nil =>
    rcases h with h | h
    · simp at h
    · exact h
  | cons e rest ih =>
    apply ih
    rw [get?_set, get?_set]
    by_cases hname : name = e.1
    · simp [hname]
    · simpa [hname] using h

namespace Run

/-! ## Bindings made -/

section

variable (σ : Setting) (execute : Node → Run Value) (made : Node → RunState → List (String × Value))

/-- The bindings that statements make, one after the other up to the first one that stops. -/
def bindingsEach : List Node → RunState → List (String × Value)
  | [], _ => []
  | n :: rest, st =>
    made n st ++ match outcome (execute n) st with
      | (.ok _, st₁) => bindingsEach rest st₁
      | (.error _, _) => []

/-- The bindings that a statement makes: an assignment whose value was found and a class definition
make one, and blocks those of the statements that are run in them. -/
def bindingsStep : Node → RunState → List (String × Value)
  | .assign name value, st =>
    match outcome (execute value) st with
    | (.ok v, _) => [(name, v)]
    | (.error _, _) => []
  | .classDefinition cls, _ => [(σ.table.name cls, .classObject cls)]
  | .sequence statements, st => bindingsEach execute made statements st
  | .methodBody body, st => made body st
  | .ifThen condition body, st =>
    match outcome (execute condition) st with
    | (.ok v, st₁) => if v.isTrue then made body st₁ else []
    | (.error _, _) => []
  | .ifElse condition body alternative, st =>
    match outcome (execute condition) st with
    | (.ok v, st₁) => if v.isTrue then made body st₁ else made alternative st₁
    | (.error _, _) => []
  | _, _ => []

end

/-- The bindings that a run of the tree makes, in the order in which it makes them. -/
def bindingsMade (σ : Setting) : Nat → Node → RunState → List (String × Value)
  | 0, _, _ => []
  | depth + 1, n, st => bindingsStep σ (execute σ depth) (bindingsMade σ depth) n st

variable {σ : Setting} {depth : Nat} {n : Node} {st st' : RunState} {frame : Bindings}

/-! ## They are all that changes -/

theorem frame_render (σ : Setting) (depth : Nat) (v : Value) (st : RunState) :
    (outcome (render σ depth v) st).2.frame = st.frame :=
  ((Invariant.ownFrame (fun _ => False) st.frame).holds_render (i := .own) σ depth v
    (fun _ => .refl _ _) rfl).eq fun _ => id

theorem frame_execute_of_isExpression (hn : n.IsExpression) (depth : Nat) (st : RunState) :
    (outcome (execute σ depth n) st).2.frame = st.frame :=
  (rebinds_execute σ depth n st).eq (hn.not_binds σ.table)

/-- An orderly tree that is no statement with blocks and binds no name itself changes no binding. -/
theorem frame_execute_of_operands (hn : n.Orderly) (hself : n.BindsOnly σ.table fun _ => False)
    (hchildren : n.children = n.operands) (depth : Nat) (st : RunState) :
    (outcome (execute σ depth n) st).2.frame = st.frame := by
  apply (rebinds_execute σ depth n st).eq
  have hbelow : ∀ m, n.Contains m → m = n ∨ m.isExpressionForm := by
    intro m hm
    rcases Relation.ReflTransGen.cases_head hm with rfl | ⟨k, hk, hm⟩
    · exact .inl rfl
    · exact .inr (hn.self k (hchildren ▸ hk) m hm)
  rintro name (⟨value, hm⟩ | ⟨cls, hm, -⟩)
  · rcases hbelow _ hm with rfl | hform
    · exact hself
    · simp [Node.isExpressionForm] at hform
  · rcases hbelow _ hm with rfl | hform
    · exact hself
    · simp [Node.isExpressionForm] at hform

/-- What two steps bind, one after the other: nothing more if the first one stops. -/
theorem frame_bind_setAll {α β : Type} {x : Run α} {f : α → Run β}
    {first second : List (String × Value)} {st : RunState}
    (hx : (outcome x st).2.frame = st.frame.setAll first)
    (hok : ∀ a st₁, outcome x st = (.ok a, st₁) →
      (outcome (f a) st₁).2.frame = st₁.frame.setAll second)
    (herror : ∀ i st₁, outcome x st = (.error i, st₁) → second = []) :
    (outcome (x >>= f) st).2.frame = st.frame.setAll (first ++ second) := by
  rw [outcome_bind]
  cases houtcome : outcome x st with
  | mk r st₁ =>
    rw [houtcome] at hx
    cases r with
    | ok a =>
      show (outcome (f a) st₁).2.frame = _
      rw [hok a st₁ houtcome, hx]
      simp [Bindings.setAll]
    | error i => simpa [herror i st₁ houtcome] using hx

/-- So it is where the first step binds nothing. -/
theorem frame_bind_setAll_of_eq {α β : Type} {x : Run α} {f : α → Run β}
    {made : List (String × Value)} {st : RunState} (hx : (outcome x st).2.frame = st.frame)
    (hok : ∀ a st₁, outcome x st = (.ok a, st₁) →
      (outcome (f a) st₁).2.frame = st₁.frame.setAll made)
    (herror : ∀ i st₁, outcome x st = (.error i, st₁) → made = []) :
    (outcome (x >>= f) st).2.frame = st.frame.setAll made :=
  frame_bind_setAll (show _ = st.frame.setAll [] from hx) hok herror

theorem frame_executeEach {execute : Node → Run Value}
    {made : Node → RunState → List (String × Value)} {nodes : List Node}
    (h : ∀ n ∈ nodes, ∀ st, (outcome (execute n) st).2.frame = st.frame.setAll (made n st))
    (st : RunState) :
    (outcome (executeEach execute nodes) st).2.frame =
      st.frame.setAll (bindingsEach execute made nodes st) := by
  induction nodes generalizing st with
  | nil => rfl
  | cons n rest ih =>
    have hrest := ih fun m hm => h m (List.mem_cons_of_mem _ hm)
    rw [executeEach, bindingsEach]
    refine frame_bind_setAll (h n (List.mem_cons_self ..) st) ?_ ?_
    · intro v st₁ hv
      rw [hv]
      exact hrest st₁
    · intro i st₁ hi
      rw [hi]

/-- What only looks at the result of a step changes no binding after it. -/
theorem frame_bind {α β : Type} {x : Run α} {f : α → Run β}
    (hf : ∀ a st₁, (outcome (f a) st₁).2.frame = st₁.frame) (st : RunState) :
    (outcome (x >>= f) st).2.frame = (outcome x st).2.frame := by
  rw [outcome_bind]
  obtain ⟨r, st₁⟩ := outcome x st
  cases r with
  | ok a => exact hf a st₁
  | error i => rfl

theorem frame_returnedBy {α : Type} (x : Run α) (st : RunState) :
    (outcome (returnedBy x) st).2.frame = (outcome x st).2.frame := by
  rw [outcome_returnedBy]
  obtain ⟨r, st₁⟩ := outcome x st
  cases r with
  | ok a => rfl
  | error i => cases i <;> rfl

theorem frame_methodResult (σ : Setting) (depth : Nat) (v : Value) (st : RunState) :
    (outcome (methodResult σ (render σ depth) v) st).2.frame = st.frame := by
  unfold methodResult
  split
  · rfl
  · exact (frame_bind (fun _ _ => rfl) st).trans (frame_render σ depth v st)

/-- However the run of an orderly tree ends, its bindings are those of before and, behind them, the
ones that the run has made. -/
theorem frame_execute_eq_setAll (hn : n.Orderly) (depth : Nat) (st : RunState) :
    (outcome (execute σ depth n) st).2.frame = st.frame.setAll (bindingsMade σ depth n st) := by
  induction depth generalizing n st with
  | zero => rfl
  | succ depth ih =>
    have hoperand : ∀ k ∈ n.operands, (outcome (execute σ depth k) st).2.frame = st.frame :=
      fun k hk => frame_execute_of_isExpression (hn.self k hk) depth st
    cases n with
    | assign name value =>
      have hvalue := hoperand value (List.mem_singleton_self _)
      show (outcome (execute σ depth value >>= _) st).2.frame = _
      rw [bindingsMade, bindingsStep]
      refine frame_bind_setAll_of_eq hvalue (fun v st₁ hv => ?_) fun i st₁ hi => by rw [hi]
      rw [hv]
      rfl
    | classDefinition cls => rfl
    | sequence statements =>
      have hstatements : ∀ m ∈ statements, ∀ st₁, (outcome (execute σ depth m) st₁).2.frame =
          st₁.frame.setAll (bindingsMade σ depth m st₁) :=
        fun m hm => ih (hn.child hm)
      exact (frame_bind (fun _ _ => rfl) st).trans (frame_executeEach hstatements st)
    | methodBody body =>
      have hbody := ih (hn.child (List.mem_singleton_self body)) st
      refine (frame_bind (fun v? st₁ => ?_) st).trans ((frame_returnedBy _ st).trans hbody)
      cases v? with
      | none => rfl
      | some v => exact frame_methodResult σ depth v st₁
    | ifThen condition body =>
      have hcondition := hoperand condition (List.mem_singleton_self _)
      have hbody := ih (hn.child (m := body) (by simp [Node.children, Node.statements]))
      show (outcome (execute σ depth condition >>= _) st).2.frame = _
      rw [bindingsMade, bindingsStep]
      refine frame_bind_setAll_of_eq hcondition (fun v st₁ hv => ?_) fun i st₁ hi => by rw [hi]
      simp only [hv]
      split
      · exact hbody st₁
      · rfl
    | ifElse condition body alternative =>
      have hcondition := hoperand condition (List.mem_singleton_self _)
      have hbody := ih (hn.child (m := body) (by simp [Node.children, Node.statements]))
      have halternative := ih (hn.child (m := alternative) (by simp [Node.children, Node.statements]))
      show (outcome (execute σ depth condition >>= _) st).2.frame = _
      rw [bindingsMade, bindingsStep]
      refine frame_bind_setAll_of_eq hcondition (fun v st₁ hv => ?_) fun i st₁ hi => by rw [hi]
      simp only [hv]
      split
      · exact hbody st₁
      · exact halternative st₁
    | _ =>
      exact frame_execute_of_operands hn trivial (by simp [Node.children, Node.statements]) _ st

theorem exists_of_mem_bindingsEach {execute : Node → Run Value}
    {made : Node → RunState → List (String × Value)} {nodes : List Node} {e : String × Value}
    (h : e ∈ bindingsEach execute made nodes st) : ∃ n ∈ nodes, ∃ st₁, e ∈ made n st₁ := by
  induction nodes generalizing st with
  | nil => simp [bindingsEach] at h
  | cons n rest ih =>
    rcases List.mem_append.1 h with hfirst | hrest
    · exact ⟨n, List.mem_cons_self .., st, hfirst⟩
    · split at hrest
      · obtain ⟨m, hm, st₁, hmade⟩ := ih hrest
        exact ⟨m, List.mem_cons_of_mem _ hm, st₁, hmade⟩
      · simp at hrest

/-- The tree binds all the names that a run of it binds. -/
theorem binds_of_mem_bindingsMade {e : String × Value} (h : e ∈ bindingsMade σ depth n st) :
    n.Binds σ.table e.1 := by
  induction depth generalizing n st with
  | zero => simp [bindingsMade] at h
  | succ depth ih =>
    have hbelow : ∀ {m : Node} {st₁ : RunState}, m ∈ n.children → e ∈ bindingsMade σ depth m st₁ →
        n.Binds σ.table e.1 := fun hm he => (ih he).of_child hm
    rw [bindingsMade] at h
    cases n with
    | assign name value =>
      rw [bindingsStep] at h
      split at h
      · obtain rfl := List.mem_singleton.1 h
        exact .inl ⟨value, .refl⟩
      · simp at h
    | classDefinition cls =>
      obtain rfl := List.mem_singleton.1 h
      exact .inr ⟨cls, .refl, rfl⟩
    | sequence statements =>
      obtain ⟨m, hm, st₁, he⟩ := exists_of_mem_bindingsEach h
      exact hbelow hm he
    | methodBody body => exact hbelow (List.mem_singleton_self body) h
    | ifThen condition body =>
      rw [bindingsStep] at h
      split at h
      · split at h
        · exact hbelow (by simp [Node.children, Node.statements]) h
        · simp at h
      · simp at h
    | ifElse condition body alternative =>
      rw [bindingsStep] at h
      split at h
      · split at h
        · exact hbelow (by simp [Node.children, Node.statements]) h
        · exact hbelow (by simp [Node.children, Node.statements]) h
      · simp at h
    | _ => simp [bindingsStep] at h

/-! ## Two frames -/

end Run

/-- The states differ in bindings of names that are not read at most. -/
def RunState.AgreesOn (reads : String → Prop) (st st' : RunState) : Prop :=
  ∃ frame, st' = { st with frame } ∧ ∀ name, reads name → frame.get? name = st.frame.get? name

/-- From states that differ in bindings of names that are not read at most, runs go side by side. -/
def Simulation.agreeing (σ : Setting) (reads : String → Prop) : Simulation σ σ where
  Lax := False
  Matches i := RunState.AgreesOn fun name => i = .own → reads name
  Fits _ _ := True
  Knows _ := True
  Binds _ _ := True
  Reads i name := i = .own → reads name
  fits_mono _ _ := trivial
  fits_plain _ _ := trivial
  fits_classObject := Iff.rfl
  fits_next _ := trivial
  heap_eq := by
    rintro i st _ ⟨frame, rfl, -⟩
    rfl
  shown_eq := by
    rintro i st _ ⟨frame, rfl, -⟩
    rfl
  get?_eq := by
    rintro i st _ name ⟨frame, rfl, hframe⟩ hname
    exact hframe name hname
  fits_get? _ _ _ := trivial
  knows_cls _ _ := trivial
  fits_field _ _ _ := trivial
  matches_bindName := by
    rintro i st _ name v ⟨frame, rfl, hframe⟩ _ _
    refine ⟨frame.set name v, rfl, fun x hx => ?_⟩
    rw [Bindings.get?_set, Bindings.get?_set, hframe x hx]
  matches_write := by
    rintro i st _ text ⟨frame, rfl, hframe⟩
    exact ⟨frame, rfl, hframe⟩
  matches_construct := by
    rintro i st _ cls ⟨frame, rfl, hframe⟩ _
    exact ⟨frame, rfl, hframe⟩
  matches_setField := by
    rintro i st _ o v field ⟨frame, rfl, hframe⟩ _ _
    exact ⟨frame, rfl, hframe⟩
  matches_address := by
    rintro i st _ o ⟨frame, rfl, hframe⟩
    exact ⟨frame, rfl, hframe⟩
  matches_report := by
    rintro i st _ r - ⟨frame, rfl, hframe⟩
    exact ⟨frame, rfl, hframe⟩
  matches_enter := by
    rintro i st _ frame ⟨_, rfl, -⟩ _
    exact ⟨frame, rfl, fun _ _ => rfl⟩
  matches_leave := by
    rintro i st _ st₁ _ ⟨frame, rfl, hframe⟩ ⟨_, rfl, -⟩ _
    exact ⟨frame, rfl, hframe⟩
  name_eq _ := rfl
  methodOf?_eq _ _ _ := rfl
  body_asks _ _ := fun n _ => by cases n <;> simp [Node.Asks]

theorem RunState.AgreesOn.mono {reads reads' : String → Prop} {st st' : RunState}
    (h : st.AgreesOn reads st') (hreads : ∀ name, reads' name → reads name) :
    st.AgreesOn reads' st' := by
  obtain ⟨frame, rfl, hframe⟩ := h
  exact ⟨frame, rfl, fun name hname => hframe name (hreads name hname)⟩

/-- The tree reads names of this kind only. -/
def Node.ReadsOnly (reads : String → Prop) (n : Node) : Prop := ∀ name, n.Reads name → reads name

theorem Node.ReadsOnly.child {reads : String → Prop} {n m : Node} (h : n.ReadsOnly reads)
    (hm : m ∈ n.children) : m.ReadsOnly reads := by
  rintro name ⟨p, hp, hname⟩
  exact h name ⟨p, .head hm hp, hname⟩

namespace Run

variable {reads : String → Prop} {σ : Setting} {depth : Nat} {n : Node} {st st' : RunState}

/-- A tree ends in the same way on bindings that agree on the names that it reads, which they do
afterwards as well. -/
theorem exists_outcome_of_agreesOn (σ : Setting) (depth : Nat) (hn : n.ReadsOnly reads)
    (h : st.AgreesOn reads st') : ∃ r st₁ st₁', outcome (execute σ depth n) st = (r, st₁) ∧
      outcome (execute σ depth n) st' = (r, st₁') ∧ st₁.AgreesOn reads st₁' := by
  let S := Simulation.agreeing σ reads
  have hsimulates := S.simulates rfl (Nat.le_refl depth) fun hlt => absurd hlt (Nat.lt_irrefl _)
  have hadmits : S.Admits .own n := by
    intro m hm
    cases m with
    | path p => exact fun name hname _ => hn name ⟨p, hm, hname⟩
    | classDefinition cls => exact ⟨trivial, trivial⟩
    | _ => trivial
  have hmatch : S.Matches .own st st' := h.mono fun name hname => hname rfl
  cases hsimulates.execute hadmits hmatch with
  | gives hx hy hmatch' _ _ => exact ⟨_, _, _, hx, hy, hmatch'.mono fun name hname _ => hname⟩
  | stops hx hy hmatch' _ _ => exact ⟨_, _, _, hx, hy, hmatch'.mono fun name hname _ => hname⟩
  | tooDeep hlax _ => exact hlax.elim

theorem bindingsEach_eq {nodes : List Node} (hnodes : ∀ n ∈ nodes, n.ReadsOnly reads)
    {made : Node → RunState → List (String × Value)}
    (hmade : ∀ n ∈ nodes, ∀ {st st'}, st.AgreesOn reads st' → made n st' = made n st)
    (h : st.AgreesOn reads st') :
    bindingsEach (execute σ depth) made nodes st' = bindingsEach (execute σ depth) made nodes st := by
  induction nodes generalizing st st' with
  | nil => rfl
  | cons n rest ih =>
    obtain ⟨r, st₁, st₁', hx, hy, hleft⟩ :=
      exists_outcome_of_agreesOn σ depth (hnodes n (List.mem_cons_self ..)) h
    rw [bindingsEach, bindingsEach, hmade n (List.mem_cons_self ..) h, hx, hy]
    cases r with
    | ok v =>
      have hrest := ih (fun m hm => hnodes m (List.mem_cons_of_mem _ hm))
        (fun m hm => hmade m (List.mem_cons_of_mem _ hm)) hleft
      exact congrArg (made n st ++ ·) hrest
    | error i => rfl

/-- It makes the same bindings then. -/
theorem bindingsMade_eq (hn : n.ReadsOnly reads) (h : st.AgreesOn reads st') :
    bindingsMade σ depth n st' = bindingsMade σ depth n st := by
  induction depth generalizing n st st' with
  | zero => rfl
  | succ depth ih =>
    have hoperand : ∀ k ∈ n.operands, ∃ r st₁ st₁', outcome (execute σ depth k) st = (r, st₁) ∧
        outcome (execute σ depth k) st' = (r, st₁') ∧ st₁.AgreesOn reads st₁' :=
      fun k hk =>
        exists_outcome_of_agreesOn σ depth (hn.child (Node.mem_children_of_mem_operands hk)) h
    rw [bindingsMade, bindingsMade]
    cases n with
    | assign name value =>
      obtain ⟨r, st₁, st₁', hx, hy, -⟩ := hoperand value (List.mem_singleton_self _)
      rw [bindingsStep, bindingsStep, hx, hy]
      cases r <;> rfl
    | classDefinition cls => rfl
    | sequence statements =>
      exact bindingsEach_eq (fun m hm => hn.child hm) (fun m hm {_ _} h => ih (hn.child hm) h) h
    | methodBody body => exact ih (hn.child (List.mem_singleton_self body)) h
    | ifThen condition body =>
      have hbody := hn.child (m := body) (by simp [Node.children, Node.statements])
      obtain ⟨r, st₁, st₁', hx, hy, hleft⟩ := hoperand condition (List.mem_singleton_self _)
      rw [bindingsStep, bindingsStep, hx, hy]
      cases r with
      | ok v => simp only [ih hbody hleft]
      | error i => rfl
    | ifElse condition body alternative =>
      have hbody := hn.child (m := body) (by simp [Node.children, Node.statements])
      have helse := hn.child (m := alternative) (by simp [Node.children, Node.statements])
      obtain ⟨r, st₁, st₁', hx, hy, hleft⟩ := hoperand condition (List.mem_singleton_self _)
      rw [bindingsStep, bindingsStep, hx, hy]
      cases r with
      | ok v => simp only [ih hbody hleft, ih helse hleft]
      | error i => rfl
    | _ => rfl

/-- A method sees nothing of the bindings of its caller. -/
theorem outcome_invoke_of_frame (σ : Setting) (execute : Node → Run Value) (o : ObjectRef)
    (name : String) (arguments : List Value) (st : RunState) (frame : Bindings) :
    outcome (invoke σ execute o name arguments) { st with frame } =
      ((outcome (invoke σ execute o name arguments) st).1,
        { (outcome (invoke σ execute o name arguments) st).2 with frame }) := by
  have hcls : ∀ s : RunState, outcome (classOf o) s = (.ok (s.heap.get o).cls, s) := fun _ => rfl
  have hreport : ∀ (r : LogRecord) (s : RunState),
      outcome (report r) s = (.ok (), { s with log := s.log.push r }) := fun _ _ => rfl
  simp only [invoke, outcome_bind, hcls]
  cases σ.table.methodOf? (st.heap.get o).cls name arguments.length with
  | none => rfl
  | some m => simp only [outcome_bind, hreport, outcome_withFrame]

/-- Behind an empty value the next name of a path is looked up among the bindings. -/
theorem gives_path_of_empty {first next : String} (h : st.frame.get? first = some .empty)
    (σ : Setting) (depth : Nat) :
    Gives (execute σ (depth + 1) (.path ⟨first, [next]⟩)) st
      ((st.frame.get? next).getD .empty) st := by
  have hresolve : st.resolve σ ⟨first, [next]⟩ = .ok ((st.frame.get? next).getD .empty) := by
    rw [RunState.resolve, h]
    rfl
  have hpath := outcome_resolve σ ⟨first, [next]⟩ st
  rw [hresolve] at hpath
  exact hpath

end Run

open Run

/-- An orderly tree, run from two states that differ in bindings of names that do not stand in its
paths at most: both runs end in the same way, with the same value, error or `return`, and leave the
same objects, output, addresses and log. Each leaves its bindings as they were and, behind them, the
bindings that it has made: those of the assignments and class definitions it has run, which are the
same ones in both. So the bindings agree afterwards on all names that the tree reads and on all names
that were bound, and every other name is bound as it was. All trees of a source are orderly. A method
sees nothing of the bindings of its caller, and in a path behind an empty value every name counts. -/
theorem execute_reads_names_of_paths (σ : Setting) (depth : Nat) {n : Node} (hn : n.Orderly)
    {st : RunState} {frame : Bindings}
    (hagree : ∀ name, n.Reads name → frame.get? name = st.frame.get? name) :
    let st' : RunState := { st with frame }
    let r := outcome (execute σ depth n) st
    let r' := outcome (execute σ depth n) st'
    let made := bindingsMade σ depth n st
    (r'.1 = r.1 ∧ r'.2 = { r.2 with frame := r'.2.frame }) ∧
      (r.2.frame = st.frame.setAll made ∧ r'.2.frame = frame.setAll made ∧
        bindingsMade σ depth n st' = made ∧ ∀ e ∈ made, n.Binds σ.table e.1) ∧
      (∀ name, n.Reads name ∨ name ∈ made.map Prod.fst →
        r'.2.frame.get? name = r.2.frame.get? name) ∧
      (∀ name, name ∉ made.map Prod.fst →
        r.2.frame.get? name = st.frame.get? name ∧ r'.2.frame.get? name = frame.get? name) ∧
      (∀ known source p, (Program.ofSource known source).1 = .ok p →
        known.AllMethods Method.IsOrderly → p.table.AllMethods Method.IsOrderly ∧
          ∀ m, p.Contains m → m.Orderly) ∧
      (∀ o name arguments frame', outcome (invoke σ (execute σ depth) o name arguments)
        { st with frame := frame' } =
          ((outcome (invoke σ (execute σ depth) o name arguments) st).1,
            { (outcome (invoke σ (execute σ depth) o name arguments) st).2 with frame := frame' })) ∧
      ∀ first next, st.frame.get? first = some .empty →
        Gives (execute σ (depth + 1) (.path ⟨first, [next]⟩)) st
          ((st.frame.get? next).getD .empty) st := by
  intro st' r r' made
  have hst : st.AgreesOn n.Reads st' := ⟨frame, rfl, hagree⟩
  obtain ⟨r₁, left, left', hx, hy, frame₁, hleft, -⟩ :=
    exists_outcome_of_agreesOn σ depth (fun _ h => h) hst
  have hr : r = (r₁, left) := hx
  have hr' : r' = (r₁, left') := hy
  have hmade : bindingsMade σ depth n st' = made := bindingsMade_eq (fun _ h => h) hst
  have hframe : r.2.frame = st.frame.setAll made := frame_execute_eq_setAll hn depth st
  have hframe' : r'.2.frame = frame.setAll made := by
    rw [← hmade]
    exact frame_execute_eq_setAll hn depth st'
  have hrebinds : ∀ b : Bindings, b.Rebinds (· ∈ made.map Prod.fst) (b.setAll made) :=
    fun b => ⟨made, fun e he => List.mem_map_of_mem he, rfl⟩
  refine ⟨?_, ⟨hframe, hframe', hmade, ?_⟩, ?_, ?_, ?_, ?_, ?_⟩
  · rw [hr, hr', hleft]
    exact ⟨rfl, rfl⟩
  · intro e he
    exact binds_of_mem_bindingsMade he
  · intro name hname
    rw [hframe, hframe']
    apply Bindings.get?_setAll_eq
    rcases hname with hname | hname
    · exact .inr (hagree name hname)
    · exact .inl hname
  · intro name hname
    rw [hframe, hframe']
    exact ⟨(hrebinds _).get?_eq hname, (hrebinds _).get?_eq hname⟩
  · intro known source p hp hknown
    exact Program.orderly_of_ofSource hp hknown
  · intro o name arguments frame'
    exact outcome_invoke_of_frame σ (execute σ depth) o name arguments st frame'
  · intro first next hfirst
    exact gives_path_of_empty hfirst σ depth

/-- An empty value in front of a name: the name is looked up, and another one that is bound on one
side only is not. -/
theorem execute_reads_behind_empty :
    let n : Node := .assign "x" (.path ⟨"a", ["b"]⟩)
    let st : RunState :=
      { RunState.initial with frame := .setAll .empty [("a", .empty), ("b", .number 1)] }
    let frame : Bindings := .setAll .empty [("z", .number 5), ("b", .number 1), ("a", .empty)]
    let r := outcome (execute ⟨.empty, false⟩ 2 n) st
    let r' := outcome (execute ⟨.empty, false⟩ 2 n) { st with frame }
    n.Orderly ∧ (∀ name, n.Reads name → frame.get? name = st.frame.get? name) ∧
      r'.1.toOption = some (.number 1) ∧ r'.1 = r.1 ∧
      r'.2.frame.get? "x" = r.2.frame.get? "x" ∧ r.2.frame.get? "z" = none := by
  intro n st frame r r'
  have hpath : (Node.path ⟨"a", ["b"]⟩).IsExpression := Node.every_path rfl
  have hn : n.Orderly := .of_operands (by simpa [n, Node.operands]) rfl
  have hpaths : n.Every fun m => ∀ p, m = .path p → p = ⟨"a", ["b"]⟩ :=
    Node.every_iff.2 ⟨by simp [n], fun m hm => by
      obtain rfl := List.mem_singleton.1 hm
      exact Node.every_path (by simp)⟩
  have hagree : ∀ name, n.Reads name → frame.get? name = st.frame.get? name := by
    rintro name ⟨p, hp, hname⟩
    obtain rfl := hpaths _ hp p rfl
    obtain rfl | rfl : name = "a" ∨ name = "b" := by simpa [DottedPath.names] using hname
    · decide +kernel
    · decide +kernel
  have hmade : "x" ∈ (bindingsMade ⟨.empty, false⟩ 2 n st).map Prod.fst := by decide +kernel
  have hother : "z" ∉ (bindingsMade ⟨.empty, false⟩ 2 n st).map Prod.fst := by decide +kernel
  have hvalue : r'.1.toOption = some (.number 1) := by decide +kernel
  obtain ⟨⟨hend, -⟩, -, hsame, hkept, -⟩ :=
    execute_reads_names_of_paths ⟨.empty, false⟩ 2 hn hagree
  exact ⟨hn, hagree, hvalue, hend, hsame "x" (.inr hmade), (hkept "z" hother).1.trans (by decide)⟩

end Offside
