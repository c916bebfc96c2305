import Offside.Proofs.MovedTrees
import Offside.Proofs.Scopes

set_option autoImplicit false

/-! # Programs behind other classes

A source is read behind the classes that are known from others, and its own come behind them. It
names only its own, so behind other classes it is the same program with its classes in other places.
It is so even where its classes are read in the scope of others, as long as none of these has a name
that is defined in the source. -/

namespace Offside

/-- The classes that a source was read behind, and those that it is to stand behind. -/
structure Move where
  old : ClassTable
  new : ClassTable

namespace Move

variable (μ : Move)

/-! ## Tables behind other classes -/

/-- The new place of a class that is not one of the old ones. -/
def ref (c : ClassRef) : ClassRef := ⟨μ.new.size + (c.index - μ.old.size)⟩

/-- The table with the new classes instead of the old ones. -/
def table (t : ClassTable) : ClassTable :=
  ⟨μ.new.decls ++ (t.decls.extract μ.old.size).map (ClassDecl.mapClasses μ.ref)⟩

theorem size_table (t : ClassTable) : (μ.table t).size = μ.new.size + (t.size - μ.old.size) := by
  simp [table, ClassTable.size]

theorem get?_table (t : ClassTable) (c : ClassRef) :
    (μ.table t).get? c =
      if c.index < μ.new.size then μ.new.get? c
      else (t.get? ⟨μ.old.size + (c.index - μ.new.size)⟩).map (ClassDecl.mapClasses μ.ref) := by
  show (μ.new.decls ++ _)[c.index]? = _
  rw [Array.getElem?_append]
  by_cases hc : c.index < μ.new.size
  · exact (if_pos hc).trans (if_pos hc).symm
  · refine (if_neg hc).trans (Eq.trans ?_ (if_neg hc).symm)
    rw [Array.getElem?_map, Array.getElem?_extract]
    split
    · rfl
    · rename_i hbeyond
      simp only [ClassTable.size] at hbeyond ⊢
      rw [ClassTable.get?, Array.getElem?_eq_none (by simp only; omega)]

/-- In place of the old classes alone there are the new ones alone. -/
theorem table_old : μ.table μ.old = μ.new := by
  simp [table, ClassTable.size]

variable {μ} {t : ClassTable} {c d : ClassRef}

theorem not_ref_lt (μ : Move) (c : ClassRef) : ¬ (μ.ref c).index < μ.new.size :=
  Nat.not_lt.2 (Nat.le_add_right ..)

theorem get?_table_of_lt (t : ClassTable) (hc : c.index < μ.new.size) :
    (μ.table t).get? c = μ.new.get? c := by
  rw [get?_table, if_pos hc]

theorem get?_table_ref (t : ClassTable) (hc : μ.old.size ≤ c.index) :
    (μ.table t).get? (μ.ref c) = (t.get? c).map (ClassDecl.mapClasses μ.ref) := by
  have hback : μ.old.size + ((μ.ref c).index - μ.new.size) = c.index := by
    simp only [ref]
    omega
  rw [get?_table, if_neg (not_ref_lt μ c), hback]

/-- A class that is not one of the new ones is one that has moved. -/
theorem exists_ref (hd : ¬ d.index < μ.new.size) :
    ∃ c : ClassRef, μ.old.size ≤ c.index ∧ d = μ.ref c := by
  refine ⟨⟨μ.old.size + (d.index - μ.new.size)⟩, Nat.le_add_right .., ?_⟩
  obtain ⟨i⟩ := d
  simp only [ref, ClassRef.mk.injEq] at hd ⊢
  omega

theorem ref_inj (hc : μ.old.size ≤ c.index) (hd : μ.old.size ≤ d.index) :
    μ.ref c = μ.ref d ↔ c = d := by
  obtain ⟨i⟩ := c
  obtain ⟨j⟩ := d
  simp only [ref, ClassRef.mk.injEq] at hc hd ⊢
  omega

theorem ref_next (μ : Move) (t : ClassTable) : μ.ref t.next = (μ.table t).next := by
  rw [ref, ClassTable.next, ClassTable.next, size_table]

theorem table_add (h : μ.old.size ≤ t.size) (decl : ClassDecl) :
    μ.table (t.add decl) = (μ.table t).add (decl.mapClasses μ.ref) := by
  apply ClassTable.ext_get?
  · rw [size_table, ClassTable.size_add, ClassTable.size_add, size_table]
    omega
  · intro d
    rw [ClassTable.get?_add, ← ref_next]
    by_cases hd : d.index < μ.new.size
    · have hne : d ≠ μ.ref t.next := fun heq => not_ref_lt μ _ (heq ▸ hd)
      rw [if_neg hne, get?_table_of_lt _ hd, get?_table_of_lt _ hd]
    · obtain ⟨c, hc, rfl⟩ := exists_ref hd
      rw [get?_table_ref _ hc, get?_table_ref _ hc, ClassTable.get?_add]
      have hinj : μ.ref c = μ.ref t.next ↔ c = t.next := ref_inj hc h
      by_cases hnext : c = t.next
      · rw [if_pos hnext, if_pos (hinj.2 hnext), Option.map_some]
      · rw [if_neg hnext, if_neg (mt hinj.1 hnext)]

theorem table_setMethods (h : μ.old.size ≤ c.index) (methods : List Method) :
    μ.table (t.setMethods c methods) =
      (μ.table t).setMethods (μ.ref c) (methods.map (Method.mapClasses μ.ref)) := by
  apply ClassTable.ext_get?
  · rw [size_table, ClassTable.size_setMethods, ClassTable.size_setMethods, size_table]
  · intro d
    rw [ClassTable.get?_setMethods]
    by_cases hd : d.index < μ.new.size
    · have hne : d ≠ μ.ref c := fun heq => not_ref_lt μ _ (heq ▸ hd)
      rw [if_neg hne, get?_table_of_lt _ hd, get?_table_of_lt _ hd]
    · obtain ⟨e, he, rfl⟩ := exists_ref hd
      rw [get?_table_ref _ he, get?_table_ref _ he, ClassTable.get?_setMethods]
      by_cases hce : e = c
      · rw [if_pos hce, if_pos ((ref_inj he h).2 hce), Option.map_map, Option.map_map]
        rfl
      · rw [if_neg hce, if_neg (mt (ref_inj he h).1 hce)]

/-! ## Scopes behind other classes -/

variable (μ) in
/-- The scope behind the new classes, with the classes of `before` in front of its own. -/
def scope (before : List (String × ClassRef)) (Γ : Scope) : Scope :=
  ⟨before ++ Γ.classes.map fun e => (e.1, μ.ref e.2), μ.table Γ.table⟩

variable {before : List (String × ClassRef)} {Γ Γ' : Scope} {name : String}

theorem lookup_map (classes : List (String × ClassRef)) (name : String) :
    (classes.map fun e => (e.1, μ.ref e.2)).lookup name = (classes.lookup name).map μ.ref := by
  induction classes with
  | nil => rfl
  | cons e classes ih =>
    rw [List.map_cons, List.lookup_cons, List.lookup_cons, ih]
    cases name == e.1 <;> rfl

theorem scope_define (h : μ.old.size ≤ Γ.table.size) (name : String) (parent? : Option ClassRef) :
    μ.scope before (Γ.define name parent?) = (μ.scope before Γ).define name (parent?.map μ.ref) := by
  rw [scope, Scope.define, table_add h, List.map_append, List.map_singleton, ref_next,
    ← List.append_assoc]
  rfl

theorem scope_setMethods (h : μ.old.size ≤ c.index) (methods : List Method) :
    μ.scope before (Γ.setMethods c methods) =
      (μ.scope before Γ).setMethods (μ.ref c) (methods.map (Method.mapClasses μ.ref)) := by
  rw [scope, Scope.setMethods, table_setMethods h]
  rfl

/-- No class in front has the name of one of the scope. -/
def Free (before : List (String × ClassRef)) (Γ : Scope) : Prop :=
  ∀ e ∈ Γ.classes, before.lookup e.1 = none

theorem Free.of_grows (h : Free before Γ') (hΓ : Γ.Grows Γ') : Free before Γ :=
  fun e he => h e (hΓ.classes.subset he)

/-- Methods have no part in this. -/
theorem Free.of_setMethods {methods : List Method} (h : Free before (Γ.setMethods c methods)) :
    Free before Γ := h

theorem Free.lookup (μ : Move) (h : Free before Γ) (hc : Γ.classes.lookup name = some c) :
    (μ.scope before Γ).classes.lookup name = some (μ.ref c) := by
  obtain ⟨_, _, hclasses, -⟩ := List.lookup_eq_some_iff.1 hc
  have hbefore : before.lookup name = none :=
    h (name, c) (hclasses ▸ List.mem_append_right _ (List.mem_cons_self ..))
  rw [scope, List.lookup_append, hbefore, Option.none_or, lookup_map, hc, Option.map_some]

theorem Free.constructible? (μ : Move) (h : Free before Γ) (name : String) (c : ClassRef)
    (hc : Γ.constructible? name = some c) :
    (μ.scope before Γ).constructible? name = some (μ.ref c) := by
  rw [Scope.constructible?] at hc ⊢
  by_cases hstr : name = Parse.strFunction
  · simp [hstr] at hc
  · rw [if_neg hstr] at hc ⊢
    exact h.lookup μ hc

end Move

open Move

variable {μ : Move} {before : List (String × ClassRef)}

theorem DerivesBase.move {Γ : Scope} {us : List Token} {parent? : Option ClassRef}
    (h : DerivesBase Γ us parent?) (hfree : Free before Γ) :
    DerivesBase (μ.scope before Γ) us (parent?.map μ.ref) := by
  cases h with
  | none => exact .none
  | some h => exact .some (hfree.lookup μ h)

mutual

/-- What is a statement in a scope is one behind other classes, and its tree is the one with its
classes in other places. -/
theorem DerivesStatement.move {Γ Γ' : Scope} {us : List Token} {e : Node} :
    DerivesStatement Scope.constructible? Γ us e Γ' → μ.old.size ≤ Γ.table.size →
      Free before Γ' →
      DerivesStatement Scope.constructible? (μ.scope before Γ) us (e.mapClasses μ.ref)
        (μ.scope before Γ')
  | .simple h, _, hfree => .simple (h.mapClasses (hfree.constructible? μ))
  | .ifThen hcondition hbody, hsize, hfree => by
    have hcondition := hcondition.mapClasses ((hfree.of_grows hbody.grows).constructible? μ)
    exact .ifThen hcondition (hbody.move hsize hfree)
  | .ifElse hcondition hbody halternative, hsize, hfree => by
    have hfree₁ := hfree.of_grows halternative.grows
    have hcondition := hcondition.mapClasses ((hfree₁.of_grows hbody.grows).constructible? μ)
    have hsize₁ := Nat.le_trans hsize hbody.grows.table.size_le
    exact .ifElse hcondition (hbody.move hsize hfree₁) (halternative.move hsize₁ hfree)
  | .classDefinition hnew hbase hmethods hne, hsize, hfree => by
    have hfree' := hfree.of_setMethods
    have hdefined := hfree'.of_grows (grows_of_many_methods hmethods)
    have hmoved := move_of_many_methods hmethods (by simpa using Nat.le_succ_of_le hsize) hfree'
    rw [scope_define hsize] at hmoved
    have hnew' := hdefined _ (List.mem_append_right _ (List.mem_cons_self ..))
    have hnext : μ.old.size ≤ Γ.table.next.index := hsize
    rw [scope_setMethods hnext, Node.mapClasses, ref_next]
    refine .classDefinition ?_ (hbase.move (hdefined.of_grows (.define ..))) hmoved (by simpa)
    rw [scope, List.lookup_append, hnew', Option.none_or, lookup_map, hnew]
    rfl

theorem DerivesSuite.move {Γ Γ' : Scope} {us : List Token} {e : Node} :
    DerivesSuite Scope.constructible? Γ us e Γ' → μ.old.size ≤ Γ.table.size → Free before Γ' →
      DerivesSuite Scope.constructible? (μ.scope before Γ) us (e.mapClasses μ.ref)
        (μ.scope before Γ')
  | .mk hbody hne, hsize, hfree => by
    rw [Node.mapClasses, Node.mapClassesAll_eq_map]
    exact .mk (move_of_many hbody hsize hfree) (by simpa)

theorem DerivesMethod.move {Γ Γ' : Scope} {us : List Token} {m : Method} :
    DerivesMethod Scope.constructible? Γ us m Γ' → μ.old.size ≤ Γ.table.size → Free before Γ' →
      DerivesMethod Scope.constructible? (μ.scope before Γ) us (m.mapClasses μ.ref)
        (μ.scope before Γ')
  | .mk hbody, hsize, hfree => .mk (hbody.move hsize hfree)

theorem move_of_many {Γ Γ' : Scope} {us : List Token} {body : List Node} :
    Many (DerivesStatement Scope.constructible?) Γ us body Γ' → μ.old.size ≤ Γ.table.size →
      Free before Γ' →
      Many (DerivesStatement Scope.constructible?) (μ.scope before Γ) us
        (body.map (Node.mapClasses μ.ref)) (μ.scope before Γ')
  | .nil _, _, _ => .nil _
  | .cons h hs, hsize, hfree =>
    .cons (h.move hsize (hfree.of_grows (grows_of_many hs)))
      (move_of_many hs (Nat.le_trans hsize h.grows.table.size_le) hfree)

theorem move_of_many_methods {Γ Γ' : Scope} {us : List Token} {methods : List Method} :
    Many (DerivesMethod Scope.constructible?) Γ us methods Γ' → μ.old.size ≤ Γ.table.size →
      Free before Γ' →
      Many (DerivesMethod Scope.constructible?) (μ.scope before Γ) us
        (methods.map (Method.mapClasses μ.ref)) (μ.scope before Γ')
  | .nil _, _, _ => .nil _
  | .cons h hs, hsize, hfree =>
    .cons (h.move hsize (hfree.of_grows (grows_of_many_methods hs)))
      (move_of_many_methods hs (Nat.le_trans hsize h.grows.table.size_le) hfree)

end

end Offside
