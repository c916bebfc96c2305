import Offside.Proofs.JoinedTokens
import Offside.Proofs.MovedPrograms
import Offside.Proofs.Sessions

set_option autoImplicit false

/-! # Sources one behind the other

Two sources with a line break between them are one source. If both are programs, and no class of one
has the name of a class of the other, then it is the program of the first and behind it that of the
second; and a session that runs it ends as one does that runs the first source and then, unless that
ended with an error, the second one. -/

namespace Offside

/-! ## Programs one behind the other -/

theorem Many.append {α : Type} {P : Scope → List Token → α → Scope → Prop} {Γ Γ₁ Γ' : Scope}
    {us vs : List Token} {xs ys : List α} (h : Many P Γ us xs Γ₁) (h' : Many P Γ₁ vs ys Γ') :
    Many P Γ (us ++ vs) (xs ++ ys) Γ' := by
  induction h with
  | nil => exact h'
  | cons hx hs ih =>
    rw [List.append_assoc, List.cons_append]
    exact .cons hx (ih h')

/-- Statements do not begin with a step in. -/
theorem Many.ne_indent {callable : Scope → String → Option ClassRef} {Γ Γ' : Scope}
    {us : List Token} {body : List Node} (h : Many (DerivesStatement callable) Γ us body Γ')
    (ts : List Token) : us ≠ .indent :: ts := by
  cases h with
  | nil => simp
  | cons hx hs =>
    obtain ⟨t, rest, rfl, ht⟩ := hx.exists_starts
    intro heq
    obtain rfl : t = .indent := (List.cons.inj heq).1
    exact absurd ht (by decide)

namespace Program

/-- The program with the classes that it was read behind put in place of others. -/
def moved (p : Program) (μ : Move) : Program :=
  ⟨p.classes.map fun e => (e.1, μ.ref e.2), μ.table p.table,
    p.statements.map (Node.mapClasses μ.ref)⟩

/-- The two programs as one, where the second one was read behind the classes of the first. -/
def append (p q : Program) : Program :=
  ⟨p.classes ++ q.classes, q.table, p.statements ++ q.statements⟩

variable {known known' : ClassTable} {source source₁ source₂ : String} {p p₁ p₂ : Program}

/-- A program is one behind any classes, with its own in other places. -/
theorem ofSource_moved (h : (ofSource known source).1 = .ok p) (known' : ClassTable) :
    (ofSource known' source).1 = .ok (p.moved ⟨known, known'⟩) := by
  let μ : Move := ⟨known, known'⟩
  obtain ⟨htokens, us, body, Γ, hus, hmany, rfl⟩ := derives_of_ofSource h
  refine ofSource_of_derives htokens ⟨us, _, μ.scope [] Γ, hus, ?_, rfl⟩
  have hold : μ.scope [] ⟨[], known⟩ = ⟨[], known'⟩ := by
    rw [Move.scope, Move.table_old]
    rfl
  rw [← hold]
  exact move_of_many hmany (Nat.le_refl _) fun _ _ => rfl

/-- The classes of a program and those of another one have different names. -/
def Apart (p q : Program) : Prop :=
  ∀ e ∈ p.classes, ∀ e' ∈ q.classes, e.1 ≠ e'.1

instance (p q : Program) : Decidable (p.Apart q) :=
  inferInstanceAs (Decidable (∀ e ∈ p.classes, ∀ e' ∈ q.classes, e.1 ≠ e'.1))

theorem Apart.moved {μ : Move} (h : p₁.Apart p₂) : (p₁.moved μ).Apart p₂ := by
  intro e he
  obtain ⟨e₁, he₁, rfl⟩ := List.mem_map.1 he
  exact h e₁ he₁

/-- Two sources that are programs are one, if no class has the name of another one. -/
theorem ofSource_append_break (h₁ : (ofSource known source₁).1 = .ok p₁)
    (h₂ : (ofSource known' source₂).1 = .ok p₂) (hapart : p₁.Apart p₂) :
    (ofSource known (source₁ ++ "\n" ++ source₂)).1 =
      .ok (p₁.append (p₂.moved ⟨known', p₁.table⟩)) := by
  let μ : Move := ⟨known', p₁.table⟩
  obtain ⟨htokens₁, us, body₁, Γ₁, hus, hmany₁, rfl⟩ := derives_of_ofSource h₁
  obtain ⟨htokens₂, vs, body₂, Γ₂, hvs, hmany₂, rfl⟩ := derives_of_ofSource h₂
  obtain ⟨herror, htokens⟩ := tokenize_append_break htokens₁ htokens₂ hus hvs hmany₂.ne_indent
  have hfree : Move.Free Γ₁.classes Γ₂ := by
    intro e he
    rw [List.lookup_eq_none_iff]
    intro e' he'
    exact bne_iff_ne.2 (hapart e' he' e he).symm
  -- behind the first source the second one is read in the scope that the first one leaves
  have hold : μ.scope Γ₁.classes ⟨[], known'⟩ = Γ₁ := by
    rw [Move.scope, Move.table_old, List.map_nil, List.append_nil]
  have hsize : μ.old.size ≤ known'.size := Nat.le_refl _
  have hmoved := move_of_many hmany₂ hsize hfree
  rw [hold] at hmoved
  exact ofSource_of_derives herror ⟨_, _, _, htokens, hmany₁.append hmoved, rfl⟩

end Program

/-! ## Runs one behind the other -/

namespace Run

variable {execute : Node → Run Value}

theorem outcome_executeEach_append (nodes nodes' : List Node) (st : RunState) :
    outcome (executeEach execute (nodes ++ nodes')) st =
      match outcome (executeEach execute nodes) st with
      | (.ok _, st') => outcome (executeEach execute nodes') st'
      | (.error i, st') => (.error i, st') := by
  induction nodes generalizing st with
  | nil => rfl
  | cons node nodes ih =>
    rw [List.cons_append, executeEach, executeEach, outcome_bind, outcome_bind]
    cases outcome (execute node) st with
    | mk result st₁ =>
      cases result with
      | ok v => exact ih st₁
      | error i => rfl

/-- Statements run as the first of them do, and then the others, unless one of the first is
interrupted. -/
theorem program_append (σ : Setting) (depth : Nat) (nodes nodes' : List Node) (st : RunState) :
    program σ depth (.sequence (nodes ++ nodes')) st =
      match program σ depth (.sequence nodes) st with
      | (none, st') => program σ depth (.sequence nodes') st'
      | (some e, st') => (some e, st') := by
  cases depth with
  | zero => rfl
  | succ depth =>
    simp only [program_eq, execute, step, outcome_bind, outcome_executeEach_append]
    cases outcome (executeEach (Run.execute σ depth) nodes) st with
    | mk result st₁ => cases result <;> rfl

/-- A program and what runs behind it, on the table that this needs: the program itself does not
notice, and what runs behind it goes on from the state that the program left, with all that was
printed by then. -/
theorem program_append_extending {t t' : ClassTable} (h : t.Extends t') (ht : t.Closed)
    (ht' : t'.Closed) (typedReturns : Bool) (depth : Nat) {nodes nodes' : List Node}
    (hnodes : (Node.sequence nodes).Closed t.size) (hnodes' : (Node.sequence nodes').Closed t'.size)
    {st st' : RunState} (hst : st.Known t.size) (hlog : st.SameButLog st') :
    let r₁ := program ⟨t, typedReturns⟩ depth (.sequence nodes) st
    let r := program ⟨t', typedReturns⟩ depth (.sequence (nodes ++ nodes')) st'
    (∀ e, r₁.1 = some e → r.1 = some e ∧ r₁.2.SameButLog r.2) ∧
      (r₁.1 = none → ∀ said st₁, st₁.Continues said r₁.2 →
        let r₂ := program ⟨t', typedReturns⟩ depth (.sequence nodes') st₁
        r.1 = r₂.1 ∧ r₂.2.Continues said r.2) := by
  intro r₁ r
  obtain ⟨hend, hcontinues, hknown⟩ := program_extending h ht typedReturns depth hnodes hst
    (RunState.SameButLog.iff_continues.1 hlog)
  have hsame := RunState.SameButLog.iff_continues.2 hcontinues
  have hr : r = _ := program_append ⟨t', typedReturns⟩ depth nodes nodes' st'
  cases hfirst : program ⟨t', typedReturns⟩ depth (.sequence nodes) st' with
  | mk error? st₁' =>
    rw [hfirst] at hend hsame hr
    constructor
    · intro e he
      obtain rfl : error? = some e := hend.trans he
      rw [hr]
      exact ⟨rfl, hsame⟩
    · intro hnone said st₁ hst₁
      obtain rfl : error? = none := hend.trans hnone
      -- on its own, what follows runs from a state that knows no class but those of the program
      have hknown₁ : st₁.Known t'.size := (hst₁.known hknown).mono h.size_le
      obtain ⟨hend₂, hsame₂, -⟩ := program_extending (.refl t') ht' typedReturns depth hnodes'
        hknown₁ (hst₁.sameButLog hsame)
      rw [hr]
      exact ⟨hend₂, hsame₂⟩

end Run

/-! ## Sessions -/

namespace Session

variable {s : Session} {source source₁ source₂ : String} {p p₁ p₂ : Program}

/-- The session with nothing printed so far. -/
def withoutOutput (s : Session) : Session := { s with state.output := "" }

/-- Running two programs as one source runs the first one and then, unless that ended with an error,
the second one: what is printed is what they print one behind the other, and all else that is left
behind is the same but for the log, and but for the classes of the second one if that did not run. -/
theorem run_append_break (hs : s.WellFormed) (o : Options) (path path₁ path₂ : String)
    {known₁ known₂ : ClassTable} (h₁ : (Program.ofSource known₁ source₁).1 = .ok p₁)
    (h₂ : (Program.ofSource known₂ source₂).1 = .ok p₂) (hapart : p₁.Apart p₂) :
    let joined := source₁ ++ "\n" ++ source₂
    let q₁ := p₁.moved ⟨known₁, s.table⟩
    let q₂ := p₂.moved ⟨known₂, q₁.table⟩
    let r₁ := s.run o path₁ source₁
    let r₂ := r₁.2.withoutOutput.run o path₂ source₂
    let r := s.run o path joined
    (Program.ofSource s.table source₁).1 = .ok q₁ ∧
      (Program.ofSource q₁.table source₂).1 = .ok q₂ ∧
      (Program.ofSource s.table joined).1 = .ok (q₁.append q₂) ∧
      (∀ e, r₁.1 = some e →
        r.1 = some e ∧ r₁.2.state.SameButLog r.2.state ∧ r₁.2.table.Extends r.2.table) ∧
      (r₁.1 = none →
        r.1 = r₂.1 ∧ r₂.2.state.Continues r₁.2.state.output r.2.state ∧ r.2.table = r₂.2.table) := by
  intro joined q₁ q₂ r₁ r₂ r
  have hq₁ := Program.ofSource_moved h₁ s.table
  have hq₂ := Program.ofSource_moved h₂ q₁.table
  have hq := Program.ofSource_append_break hq₁ h₂ hapart.moved
  -- three runs: the first program on its own table, the second one and both on the longer one
  obtain ⟨log₁, hend₁, htable₁, hstate₁⟩ := run_of_ofSource o path₁ hq₁
  have hq₂' : (Program.ofSource r₁.2.table source₂).1 = .ok q₂ := htable₁ ▸ hq₂
  obtain ⟨log₂, hend₂, htable₂, hstate₂⟩ := run_of_ofSource (s := r₁.2.withoutOutput) o path₂ hq₂'
  obtain ⟨log, hend, htable, hstate⟩ := run_of_ofSource o path hq
  obtain ⟨hbody₁, hclosed₁, hextends₁⟩ := hs.closed hq₁
  obtain ⟨hbody₂, hclosed₂, hextends₂⟩ := (hs.run o path₁ source₁).closed hq₂'
  have hextends : q₁.table.Extends q₂.table := htable₁ ▸ hextends₂
  have hknown : ({ s.state with log := log₁ } : RunState).Known q₁.table.size :=
    RunState.SameButLog.known ⟨log₁, rfl⟩ (hs.state.mono hextends₁.size_le)
  obtain ⟨hfail, hgo⟩ := Run.program_append_extending hextends hclosed₁ hclosed₂ o.typedReturns
    o.depth hbody₁ hbody₂ hknown ⟨log, rfl⟩
  refine ⟨hq₁, hq₂, hq, ?_, ?_⟩
  · intro e he
    obtain ⟨herror, hsame⟩ := hfail e (hend₁.symm.trans he)
    refine ⟨hend.trans herror, hstate₁.symm.trans (hsame.trans hstate), ?_⟩
    show r₁.2.table.Extends r.2.table
    rw [htable₁, htable]
    exact hextends
  · intro hnone
    have hleft : ({ r₁.2.withoutOutput.state with log := log₂ } : RunState).Continues
        r₁.2.state.output r₁.2.state := ⟨r₁.2.state.log, by simp [withoutOutput]⟩
    obtain ⟨herror, hsame⟩ := hgo (hend₁.symm.trans hnone) _ _ (hleft.sameButLog hstate₁.symm)
    exact ⟨hend.trans (herror.trans hend₂.symm),
      hstate₂.symm.continues (hsame.sameButLog hstate), htable.trans htable₂.symm⟩

/-- The second of two classes behind the first one, whose block is closed by the line after it. -/
theorem run_of_two_classes :
    let source₁ := "class A:\n  def f(x):\n    print x"
    let source₂ := "class B:\n  def g():\n    return 1\nb = B()\nprint b.g()\n"
    let f : Method := ⟨"f", ["x"], .methodBody (.sequence [.print [.path ⟨"x", []⟩]])⟩
    let g : Method := ⟨"g", [], .methodBody (.sequence [.returnValue (.constant (.number 1))])⟩
    let p₁ : Program := ⟨[("A", ⟨0⟩)], ⟨#[⟨"A", none, [f]⟩]⟩, [.classDefinition ⟨0⟩]⟩
    let p₂ : Program := ⟨[("B", ⟨0⟩)], ⟨#[⟨"B", none, [g]⟩]⟩,
      [.classDefinition ⟨0⟩, .assign "b" (.construct ⟨0⟩ []),
        .print [.call (.path ⟨"b", []⟩) "g" []]]⟩
    let o : Options := ⟨false, 50⟩
    let r₁ := initial.run o "" source₁
    let r₂ := r₁.2.withoutOutput.run o "" source₂
    let r := initial.run o "" (source₁ ++ "\n" ++ source₂)
    initial.WellFormed ∧ (Program.ofSource .empty source₁).1 = .ok p₁ ∧
      (Program.ofSource .empty source₂).1 = .ok p₂ ∧ p₁.Apart p₂ ∧ r₁.1 = none ∧
      r.1 = r₂.1 ∧ r₂.2.state.Continues r₁.2.state.output r.2.state ∧
      r.2.table = r₂.2.table := by
  intro source₁ source₂ f g p₁ p₂ o r₁ r₂ r
  have h₁ : (Program.ofSource .empty source₁).1 = .ok p₁ := by decide +kernel
  have h₂ : (Program.ofSource .empty source₂).1 = .ok p₂ := by decide +kernel
  have hapart : p₁.Apart p₂ := by decide +kernel
  have hnone : r₁.1 = none := by decide +kernel
  -- what the sources are has been used up; with their text in sight the kernel would run them again
  clear_value source₁ source₂ p₁ p₂
  obtain ⟨-, -, -, -, hgo⟩ := run_append_break wellFormed_initial o "" "" "" h₁ h₂ hapart
  exact ⟨wellFormed_initial, h₁, h₂, hapart, hnone, hgo hnone⟩

end Session

end Offside
