import Offside.Proofs.ClassDefinitions
import Offside.Proofs.JoinedSources

set_option autoImplicit false

/-! # Sources with the same tree

Two sources are compared by the trees of their statements, where a class of one is none of the other.
So a source that defines a class is not even the same as itself, and two sources that define none are
the same if their trees are equal; then all that counts are their tokens. -/

namespace Offside

/-! ## Definitions in moved trees -/

namespace Node

variable {f : ClassRef → ClassRef} {n m : Node} {c : ClassRef}

theorem children_mapClasses (f : ClassRef → ClassRef) (n : Node) :
    (n.mapClasses f).children = n.children.map (mapClasses f) := by
  cases n <;> simp [mapClasses, children, operands, statements]

theorem exists_of_contains_mapClasses (h : (n.mapClasses f).Contains m) :
    ∃ k, n.Contains k ∧ m = k.mapClasses f := by
  induction h with
  | refl => exact ⟨n, .refl, rfl⟩
  | tail _ hm ih =>
    obtain ⟨k, hk, rfl⟩ := ih
    rw [children_mapClasses] at hm
    obtain ⟨k', hk', rfl⟩ := List.mem_map.1 hm
    exact ⟨k', hk.tail hk', rfl⟩

/-- In a tree with other classes only these are defined. -/
theorem exists_of_defines_mapClasses (h : (n.mapClasses f).Defines c) : ∃ d, c = f d := by
  obtain ⟨k, -, hk⟩ := exists_of_contains_mapClasses h
  cases k with
  | classDefinition d => exact ⟨d, by simpa [mapClasses] using hk⟩
  | _ => simp [mapClasses] at hk

end Node

namespace Program

/-- Somewhere in the source a class is defined. -/
def DefinesClass (source : String) : Prop := .keyword .classWord ∈ (tokenize source).tokens

instance : DecidablePred DefinesClass :=
  fun source => inferInstanceAs (Decidable (.keyword .classWord ∈ (tokenize source).tokens))

section

variable {known : ClassTable} {source a b : String} {p q : Program}

/-- Where a class is defined, its definition stands in the tree; elsewhere no class becomes known. -/
theorem defines_or_stays_of_ofSource (h : (ofSource known source).1 = .ok p) :
    (DefinesClass source ∧ ∃ c, p.body.Defines c) ∨
      (¬ DefinesClass source ∧ p.classes = [] ∧ p.table = known) := by
  obtain ⟨-, us, body, Γ, htokens, hmany, rfl⟩ := derives_of_ofSource h
  have hword : DefinesClass source ↔ .keyword .classWord ∈ us := by
    simp [DefinesClass, htokens]
  rw [hword]
  rcases definesOrStays_of_many hmany with ⟨hus, n, hn, c, hc⟩ | ⟨hus, rfl⟩
  · have hchild : n ∈ (Program.body ⟨Γ.classes, Γ.table, body⟩).children := by
      simpa [Program.body, Node.children, Node.operands, Node.statements] using hn
    exact .inl ⟨hus, c, hc.of_child hchild⟩
  · exact .inr ⟨hus, rfl, rfl⟩

theorem exists_defines_of_ofSource (h : (ofSource known source).1 = .ok p)
    (hclass : DefinesClass source) : ∃ c, p.body.Defines c := by
  rcases defines_or_stays_of_ofSource h with ⟨-, hc⟩ | ⟨hnot, -⟩
  · exact hc
  · exact absurd hclass hnot

theorem table_eq_of_ofSource (h : (ofSource known source).1 = .ok p)
    (hclass : ¬ DefinesClass source) : p.table = known := by
  rcases defines_or_stays_of_ofSource h with ⟨hyes, -⟩ | ⟨-, -, htable⟩
  · exact absurd hyes hclass
  · exact htable

/-- What a source defines is in the table behind it. -/
theorem index_lt_of_defines {c : ClassRef} (h : (ofSource .empty source).1 = .ok p)
    (hc : p.body.Defines c) : c.index < p.table.size := by
  obtain ⟨hclosed, -⟩ := (derives_of_ofSource h).2.closed ClassTable.closed_empty
  exact hclosed.index_lt hc

theorem body_moved (p : Program) (μ : Move) : (p.moved μ).body = p.body.mapClasses μ.ref := by
  simp [moved, body, Node.mapClasses]

/-- The second source is read behind the classes of the first one. -/
theorem sameSource_eq (ha : (ofSource .empty a).1 = .ok p) (hb : (ofSource .empty b).1 = .ok q) :
    sameSource a b = .ok (p.body.same (q.moved ⟨.empty, p.table⟩).body) := by
  unfold sameSource
  rw [ha]
  show (do let q ← (ofSource p.table b).1; pure (p.body.same q.body)) = _
  rw [ofSource_moved hb p.table]
  rfl

/-- A tree that is also one behind its own classes defines none. -/
theorem body_eq_moved_iff (ha : (ofSource .empty a).1 = .ok p)
    (hb : (ofSource .empty b).1 = .ok q) :
    p.body = (q.moved ⟨.empty, p.table⟩).body ↔
      p.body = q.body ∧ ¬ DefinesClass a ∧ ¬ DefinesClass b := by
  have hstays (hna : ¬ DefinesClass a) : q.moved ⟨.empty, p.table⟩ = q := by
    have hmoved := ofSource_moved hb p.table
    rw [table_eq_of_ofSource ha hna] at hmoved ⊢
    exact Except.ok.inj (hmoved.symm.trans hb)
  constructor
  · intro heq
    -- what `a` defines is in its own table, and what the moved tree defines comes behind that
    have hna : ¬ DefinesClass a := by
      intro hclass
      obtain ⟨c, hc⟩ := exists_defines_of_ofSource ha hclass
      have hlt := index_lt_of_defines ha hc
      rw [heq, body_moved] at hc
      obtain ⟨d, rfl⟩ := Node.exists_of_defines_mapClasses hc
      exact Move.not_ref_lt ⟨.empty, p.table⟩ d hlt
    rw [hstays hna] at heq
    refine ⟨heq, hna, fun hclass => ?_⟩
    obtain ⟨c, hc⟩ := exists_defines_of_ofSource hb hclass
    have hlt := index_lt_of_defines ha (heq ▸ hc)
    rw [table_eq_of_ofSource ha hna] at hlt
    exact absurd hlt (Nat.not_lt_zero _)
  · rintro ⟨heq, hna, -⟩
    rw [hstays hna]
    exact heq

theorem sameSource_eq_decide (ha : (ofSource .empty a).1 = .ok p)
    (hb : (ofSource .empty b).1 = .ok q) :
    sameSource a b = .ok (decide (p.body = q.body ∧ ¬ DefinesClass a ∧ ¬ DefinesClass b)) := by
  rw [sameSource_eq ha hb, Except.ok.injEq, Bool.eq_iff_iff, Node.same_iff, decide_eq_true_iff]
  exact body_eq_moved_iff ha hb

theorem sameSource_eq_true_iff (ha : (ofSource .empty a).1 = .ok p)
    (hb : (ofSource .empty b).1 = .ok q) :
    sameSource a b = .ok true ↔ p.body = q.body ∧ ¬ DefinesClass a ∧ ¬ DefinesClass b := by
  rw [sameSource_eq_decide ha hb, Except.ok.injEq, decide_eq_true_iff]

/-- What a source is read as depends on its tokens alone. -/
theorem ofSource_eq_of_tokens (ha : (ofSource known a).1 = .ok p)
    (hb : (ofSource known b).1 = .ok q) (htokens : (tokenize a).tokens = (tokenize b).tokens) :
    p = q := by
  have hp := (derives_of_ofSource ha).2
  rw [htokens] at hp
  have hread := ofSource_of_derives (derives_of_ofSource hb).1 hp
  exact Except.ok.inj (hread.symm.trans hb)

end

/-- Two sources that are programs are the same just if their trees are equal and no class is defined in
either of them. So a source is the same as itself just if it defines no class, which source comes
first does not matter, and what is the same as the same is the same. Sources with the same tokens and
without classes are the same, however they are laid out. -/
theorem sameSource_iff {a b : String} {p q : Program} (ha : (ofSource .empty a).1 = .ok p)
    (hb : (ofSource .empty b).1 = .ok q) :
    sameSource a b = .ok (decide (p.body = q.body ∧ ¬ DefinesClass a ∧ ¬ DefinesClass b)) ∧
    (sameSource a a = .ok true ↔ ¬ DefinesClass a) ∧
    sameSource a b = sameSource b a ∧
    (∀ c r, (ofSource .empty c).1 = .ok r → sameSource a b = .ok true →
      sameSource b c = .ok true → sameSource a c = .ok true) ∧
    (¬ DefinesClass a → (tokenize a).tokens = (tokenize b).tokens → sameSource a b = .ok true) := by
  have hab := sameSource_eq_decide ha hb
  refine ⟨hab, ?_, ?_, fun c r hc hab' hbc => ?_, fun hna htokens => ?_⟩
  · rw [sameSource_eq_true_iff ha ha]
    simp
  · rw [hab, sameSource_eq_decide hb ha, Except.ok.injEq, decide_eq_decide, eq_comm,
      and_comm (a := ¬ DefinesClass a)]
  · obtain ⟨hpq, hna, -⟩ := (sameSource_eq_true_iff ha hb).1 hab'
    obtain ⟨hqr, -, hnc⟩ := (sameSource_eq_true_iff hb hc).1 hbc
    exact (sameSource_eq_true_iff ha hc).2 ⟨hpq.trans hqr, hna, hnc⟩
  · have hnb : ¬ DefinesClass b := by
      rwa [DefinesClass, ← htokens]
    have hpq : p = q := ofSource_eq_of_tokens ha hb htokens
    exact (sameSource_eq_true_iff ha hb).2 ⟨congrArg body hpq, hna, hnb⟩

/-- Another quote and a comment change nothing. A source with a class is not the same as itself. -/
theorem sameSource_of_quotes_and_of_a_class :
    let a := "print 'x'"
    let b := "# a note\nprint  \"x\"\n"
    let c := "class A:\n  def f():\n    return 1\n"
    sameSource a b = .ok true ∧ sameSource c c ≠ .ok true := by
  intro a b c
  have hread : ∀ source, (ofSource .empty source).1.toOption.isSome = true →
      ∃ p, (ofSource .empty source).1 = .ok p := by
    intro source h
    cases hp : (ofSource .empty source).1 with
    | error e => simp [hp, Except.toOption] at h
    | ok p => exact ⟨p, rfl⟩
  obtain ⟨p, ha⟩ := hread a (by decide +kernel)
  obtain ⟨q, hb⟩ := hread b (by decide +kernel)
  obtain ⟨r, hc⟩ := hread c (by decide +kernel)
  obtain ⟨-, -, -, -, htokens⟩ := sameSource_iff ha hb
  obtain ⟨-, hself, -⟩ := sameSource_iff hc hc
  refine ⟨htokens (by decide +kernel) (by decide +kernel), fun h => ?_⟩
  have hclass : DefinesClass c := by decide +kernel
  exact hself.1 h hclass

end Program

end Offside
