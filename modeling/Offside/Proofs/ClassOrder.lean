import Offside.Proofs.AddedMentions
import Offside.Proofs.Programs

set_option autoImplicit false

/-! # The classes of a source

The classes of a source come behind those of earlier sources, in the order of their headers, each
with a name of its own and behind its parent. So the parents of a class form a chain that ends, and a
method is found by a search along it. -/

namespace Offside

/-! ## Chains of parents -/

namespace ClassTable

/-- The class, its parent, the parent of that, and so on up to a class without a parent. -/
inductive ParentChain (t : ClassTable) : ClassRef → List ClassRef → Prop
  | root {c : ClassRef} {d : ClassDecl} (hd : t.get? c = some d) (hp : d.parent? = none) :
      ParentChain t c [c]
  | child {c p : ClassRef} {d : ClassDecl} {cs : List ClassRef} (hd : t.get? c = some d)
      (hp : d.parent? = some p) (h : ParentChain t p cs) : ParentChain t c (c :: cs)

variable {t : ClassTable} {c : ClassRef} {d : ClassDecl} {cs : List ClassRef}

theorem ownMethods_of_get? (hd : t.get? c = some d) : t.ownMethods c = d.methods := by
  rw [ownMethods, hd]
  rfl

theorem ParentChain.mem (h : t.ParentChain c cs) : c ∈ cs := by
  cases h <;> exact List.mem_cons_self ..

/-- Along a chain that leads back in the table, the first method of a name answers. -/
theorem ParentChain.method?_eq (h : t.ParentChain c cs)
    (hcs : cs.Pairwise fun a b => b.index < a.index) (name : String) :
    t.method? c name = (cs.flatMap t.ownMethods).find? fun m => m.name == name := by
  induction h with
  | root hd hp =>
    rw [List.flatMap_singleton, ownMethods_of_get? hd, method?, hd]
    simp only [hp]
    cases hm : ClassDecl.ownMethod? _ name with
    | none => exact hm.symm
    | some m => exact hm.symm
  | @child c p d cs hd hp h ih =>
    obtain ⟨hc, hcs⟩ := List.pairwise_cons.1 hcs
    rw [List.flatMap_cons, List.find?_append, ownMethods_of_get? hd, ← ih hcs]
    cases hm : d.ownMethod? name with
    | none =>
      rw [method?_of_parent hd hm hp (hc p h.mem)]
      rw [ClassDecl.ownMethod?] at hm
      rw [hm, Option.none_or]
    | some m =>
      rw [method?_of_ownMethod? hd hm]
      rw [ClassDecl.ownMethod?] at hm
      rw [hm, Option.some_or]

end ClassTable

/-! ## Properties that statements keep -/

/-- Whatever the header of a class does to a scope and whatever its body does, they keep the
property. -/
structure Scope.Stable (P : Scope → Prop) : Prop where
  define : ∀ {Γ us name parent?}, P Γ → Γ.classes.lookup name = none → DerivesBase Γ us parent? →
    P (Γ.define name parent?)
  setMethods : ∀ {Γ} (c : ClassRef) (methods : List Method), P Γ → P (Γ.setMethods c methods)

section

variable {P : Scope → Prop} {callable : Scope → String → Option ClassRef}

mutual

/-- Statements keep what the headers and the bodies of classes keep. -/
theorem DerivesStatement.keeps (hP : Scope.Stable P) {Γ Γ' : Scope} {us : List Token} {e : Node} :
    DerivesStatement callable Γ us e Γ' → P Γ → P Γ'
  | .simple _, hΓ => hΓ
  | .ifThen _ hbody, hΓ => hbody.keeps hP hΓ
  | .ifElse _ hbody halternative, hΓ => halternative.keeps hP (hbody.keeps hP hΓ)
  | .classDefinition hnew hbase hmethods _, hΓ =>
    hP.setMethods _ _ (keeps_of_many_methods hP hmethods (hP.define hΓ hnew hbase))

theorem DerivesSuite.keeps (hP : Scope.Stable P) {Γ Γ' : Scope} {us : List Token} {e : Node} :
    DerivesSuite callable Γ us e Γ' → P Γ → P Γ'
  | .mk hbody _, hΓ => keeps_of_many hP hbody hΓ

theorem DerivesMethod.keeps (hP : Scope.Stable P) {Γ Γ' : Scope} {us : List Token} {m : Method} :
    DerivesMethod callable Γ us m Γ' → P Γ → P Γ'
  | .mk hbody, hΓ => hbody.keeps hP hΓ

theorem keeps_of_many (hP : Scope.Stable P) {Γ Γ' : Scope} {us : List Token} {body : List Node} :
    Many (DerivesStatement callable) Γ us body Γ' → P Γ → P Γ'
  | .nil _, hΓ => hΓ
  | .cons h hs, hΓ => keeps_of_many hP hs (h.keeps hP hΓ)

theorem keeps_of_many_methods (hP : Scope.Stable P) {Γ Γ' : Scope} {us : List Token}
    {methods : List Method} :
    Many (DerivesMethod callable) Γ us methods Γ' → P Γ → P Γ'
  | .nil _, hΓ => hΓ
  | .cons h hs, hΓ => keeps_of_many_methods hP hs (h.keeps hP hΓ)

end

end

/-! ## Scopes in order -/

namespace Scope

/-- The classes of the scope stand one behind the other in its table, from the position `k` on up to
the end, each with a name of its own and behind its parent. -/
structure Ordered (k : Nat) (Γ : Scope) : Prop where
  le_size : k ≤ Γ.table.size
  classes : Γ.classes.map Prod.snd = (List.range' k (Γ.table.size - k)).map ClassRef.mk
  nodup : (Γ.classes.map Prod.fst).Nodup
  decl : ∀ name c, (name, c) ∈ Γ.classes → ∃ d, Γ.table.get? c = some d ∧ d.name = name ∧
    ∀ p, d.parent? = some p → p ∈ Γ.classes.map Prod.snd ∧ p.index < c.index

namespace Ordered

variable {k : Nat} {Γ : Scope} {c : ClassRef}

theorem index_lt (h : Γ.Ordered k) (hc : c ∈ Γ.classes.map Prod.snd) :
    c.index < Γ.table.size := by
  rw [h.classes] at hc
  obtain ⟨i, hi, rfl⟩ := List.mem_map.1 hc
  have hrange := List.mem_range'_1.1 hi
  have hle := h.le_size
  show i < Γ.table.size
  omega

/-- The scope in which a source is read. -/
theorem start (known : ClassTable) : Ordered known.size ⟨[], known⟩ :=
  ⟨Nat.le_refl _, by simp, by simp, by simp⟩

theorem stable (k : Nat) : Scope.Stable (Ordered k) where
  define {Γ us name parent?} h hnew hbase := by
    have hle := h.le_size
    constructor
    · rw [size_define]
      exact Nat.le_succ_of_le hle
    · have hlength : Γ.table.size + 1 - k = Γ.table.size - k + 1 := by omega
      have hend : k + (Γ.table.size - k) = Γ.table.size := by omega
      rw [size_define, hlength, List.range'_1_concat, hend]
      simp only [Scope.define, List.map_append, h.classes]
      rfl
    · have hname : name ∉ Γ.classes.map Prod.fst := by
        intro hmem
        obtain ⟨a, ha, rfl⟩ := List.mem_map.1 hmem
        have hne := List.lookup_eq_none_iff.1 hnew a ha
        simp at hne
      rw [Scope.define, List.map_append]
      refine List.nodup_append.2 ⟨h.nodup, by simp, ?_⟩
      intro a ha b hb
      obtain rfl := List.mem_singleton.1 hb
      rintro rfl
      exact hname ha
    · intro x c hxc
      rcases List.mem_append.1 hxc with hxc | hxc
      · obtain ⟨d, hd, hname, hparent⟩ := h.decl x c hxc
        have hc := h.index_lt (List.mem_map_of_mem hxc)
        rw [(Grows.define Γ name parent?).table.get?_eq c hc]
        refine ⟨d, hd, hname, fun p hp => ?_⟩
        obtain ⟨hmem, hlt⟩ := hparent p hp
        exact ⟨by simp [Scope.define, hmem], hlt⟩
      · obtain ⟨rfl, rfl⟩ := Prod.mk.inj (List.mem_singleton.1 hxc)
        refine ⟨⟨x, parent?, []⟩, (ClassTable.get?_add ..).trans (if_pos rfl), rfl, fun p hp => ?_⟩
        obtain rfl : parent? = some p := hp
        cases hbase with
        | @some y _ hlookup =>
          have hmem : p ∈ Γ.classes.map Prod.snd := List.mem_map_of_mem (mem_of_lookup hlookup)
          exact ⟨by simp [Scope.define, hmem], h.index_lt hmem⟩
  setMethods {Γ} c methods h := by
    refine ⟨?_, ?_, h.nodup, ?_⟩
    · rw [size_setMethods]
      exact h.le_size
    · rw [size_setMethods]
      exact h.classes
    · intro name e he
      obtain ⟨d, hd, hname, hparent⟩ := h.decl name e he
      by_cases hec : e = c
      · refine ⟨{ d with methods }, ?_, hname, hparent⟩
        rw [Scope.setMethods, ClassTable.get?_setMethods, if_pos hec, hd]
        rfl
      · refine ⟨d, ?_, hname, hparent⟩
        rw [Scope.setMethods, ClassTable.get?_setMethods, if_neg hec, hd]

/-- The parents of a class of the scope are classes of the scope, and lead back in the table. -/
theorem exists_parentChain (h : Γ.Ordered k) (hc : c ∈ Γ.classes.map Prod.snd) :
    ∃ cs, Γ.table.ParentChain c cs ∧ (cs.Pairwise fun a b => b.index < a.index) ∧
      ∀ a ∈ cs, a ∈ Γ.classes.map Prod.snd ∧ a.index ≤ c.index := by
  obtain ⟨i⟩ := c
  induction i using Nat.strong_induction_on with
  | h i ih =>
    obtain ⟨⟨name, c⟩, hmem, hci⟩ := List.mem_map.1 hc
    obtain rfl : c = ⟨i⟩ := hci
    obtain ⟨d, hd, -, hparent⟩ := h.decl name ⟨i⟩ hmem
    cases hp : d.parent? with
    | none =>
      exact ⟨[⟨i⟩], .root hd hp, List.pairwise_singleton .., by simpa using hc⟩
    | some p =>
      obtain ⟨hpmem, hlt⟩ := hparent p hp
      obtain ⟨cs, hchain, hpairs, hcs⟩ := ih p.index hlt hpmem
      refine ⟨⟨i⟩ :: cs, .child hd hp hchain, List.pairwise_cons.2 ⟨?_, hpairs⟩, ?_⟩
      · intro a ha
        exact Nat.lt_of_le_of_lt (hcs a ha).2 hlt
      · intro a ha
        rcases List.mem_cons.1 ha with rfl | ha
        · exact ⟨hc, Nat.le_refl _⟩
        · exact ⟨(hcs a ha).1, Nat.le_of_lt (Nat.lt_of_le_of_lt (hcs a ha).2 hlt)⟩

end Ordered

end Scope

/-! ## Programs -/

/-- The classes of the program stand in its table behind those of other sources, which are as they
were, in the order of the program and each with a name of its own. The parent of a class is a class of
the program that stands before it, so the parents form a chain that ends and leads to no class twice,
and a method is the first one of its name along this chain. -/
structure Program.ClassesInOrder (known : ClassTable) (p : Program) : Prop where
  extends_known : known.Extends p.table
  names : (p.classes.map Prod.fst).Nodup
  classes : p.classes.map Prod.snd =
    (List.range' known.size (p.table.size - known.size)).map ClassRef.mk
  parents : ∀ name c, (name, c) ∈ p.classes → ∃ d, p.table.get? c = some d ∧ d.name = name ∧
    ∀ q, d.parent? = some q → q ∈ p.classes.map Prod.snd ∧ q.index < c.index
  methods : ∀ c ∈ p.classes.map Prod.snd, ∃ cs, p.table.ParentChain c cs ∧ cs.Nodup ∧
    (∀ a ∈ cs, a ∈ p.classes.map Prod.snd) ∧ ∀ name, p.table.method? c name =
      (cs.flatMap p.table.ownMethods).find? fun m => m.name == name

theorem Program.ClassesInOrder.of_ordered {known : ClassTable} {Γ : Scope} {body : List Node}
    (h : Γ.Ordered known.size) (hextends : known.Extends Γ.table) :
    ClassesInOrder known ⟨Γ.classes, Γ.table, body⟩ where
  extends_known := hextends
  names := h.nodup
  classes := h.classes
  parents := h.decl
  methods c hc := by
    obtain ⟨cs, hchain, hpairs, hcs⟩ := h.exists_parentChain hc
    have hnodup : cs.Nodup := hpairs.imp fun {a b} hlt (heq : a = b) => Nat.lt_irrefl _ (heq ▸ hlt)
    exact ⟨cs, hchain, hnodup, fun a ha => (hcs a ha).1, hchain.method?_eq hpairs⟩

open Mention

/-- Every source that is read has its classes in order. All that it says of classes, wherever it
stands, is a list of mentions, and there is one only; by name it is what the tokens of the source
mention, one after the other. The definitions among the mentions are those of the classes of the
program, each once and in their order, and in front of every use of a class stands its header. -/
theorem Program.classes_of_ofSource {known : ClassTable} {source : String} {p : Program}
    (h : (Program.ofSource known source).1 = .ok p) :
    p.ClassesInOrder known ∧
      ∃ ms, (∀ ms', Mentions p.table p.body ms' ↔ ms' = ms) ∧
        ms.map (Mention.map p.table.name) = Token.mentions true (tokenize source).tokens ∧
        headers ms = p.classes.map Prod.snd ∧
        ∀ before c after, ms = before ++ .use c :: after → .header c ∈ before := by
  obtain ⟨us, body, Γ, htokens, hmany, rfl⟩ := (Program.derives_of_ofSource h).2
  have hordered : Γ.Ordered known.size :=
    keeps_of_many (Scope.Ordered.stable known.size) hmany (.start known)
  obtain ⟨ms, hms⟩ := exists_adds_of_many hmany
  have hclasses : Γ.classes = headers ms := hms.classes
  have hmentions : Mentions Γ.table (.sequence body) (ms.map (Mention.map Prod.snd)) :=
    .mk (hms.mentioned Γ.table fun _ _ _ => rfl)
  -- every mention is of a class of the program, whose name in the table is the one it is read by
  have hname : ∀ m ∈ ms, Γ.table.name m.subject.2 = m.subject.1 := by
    intro m hm
    have hmem : (m.subject.1, m.subject.2) ∈ Γ.classes := hclasses ▸ hms.grounded.subject_mem hm
    obtain ⟨d, hd, hname, -⟩ := hordered.decl _ _ hmem
    rw [ClassTable.name, hd]
    exact hname
  have hnames : (ms.map (Mention.map Prod.snd)).map (Mention.map Γ.table.name) =
      ms.map (Mention.map Prod.fst) := by
    rw [List.map_map]
    refine List.map_congr_left fun m hm => ?_
    exact (Mention.map_map _ _ m).trans (Mention.map_eq_map (hname m hm))
  refine ⟨.of_ordered hordered hms.table, ms.map (Mention.map Prod.snd), ?_, ?_, ?_, ?_⟩
  · intro ms'
    exact ⟨fun h' => h'.unique hmentions, fun h' => h' ▸ hmentions⟩
  · rw [htokens, hms.spelled _ (.inl rfl), hnames]
    exact (List.append_nil _).symm
  · rw [headers_map, ← hclasses]
  · intro before c after hsplit
    exact Grounded.header_mem (hsplit ▸ hms.grounded.map Prod.snd)

/-- A class of an earlier source has the name of the first class here, which a method of its own
makes an object of; the last class is defined in a method of its parent. -/
theorem Program.classes_of_nested_source :
    let known := ClassTable.empty.add ⟨"A", none, []⟩
    let source := "class A:\n  def f():\n    A()\nclass B(A):\n  def g():\n" ++
      "    class C(B):\n      def h():\n        B()\n"
    ∃ p, (Program.ofSource known source).1 = .ok p ∧ p.ClassesInOrder known ∧
      p.classes = [("A", ⟨1⟩), ("B", ⟨2⟩), ("C", ⟨3⟩)] ∧
      ∃ ms, Mentions p.table p.body ms ∧ ms.map (Mention.map p.table.name) =
        [.header "A", .use "A", .header "B", .header "C", .use "B"] := by
  intro known source
  have hclasses : (Program.ofSource known source).1.toOption.map Program.classes =
      some [("A", ⟨1⟩), ("B", ⟨2⟩), ("C", ⟨3⟩)] := by
    decide +kernel
  have htokens : Token.mentions true (tokenize source).tokens =
      [.header "A", .use "A", .header "B", .header "C", .use "B"] := by
    decide +kernel
  cases hp : (Program.ofSource known source).1 with
  | error e => simp [hp, Except.toOption] at hclasses
  | ok p =>
    obtain ⟨horder, ms, hms, hnames, -⟩ := classes_of_ofSource hp
    rw [hp] at hclasses
    exact ⟨p, rfl, horder, Option.some.inj hclasses, ms, (hms ms).2 rfl, hnames.trans htokens⟩

end Offside
