import Offside.Proofs.ExpressionTrees
import Offside.Proofs.Programs
import Offside.Proofs.Scopes

set_option autoImplicit false

/-! # Paths are written out

Every path that stands in a tree of a source, in its statements or in a method of one of its classes,
stands in the text of the source, name for name, also where it is only the front of a longer path that
names a method or a field. So a path of a tree has a name, the one it begins with. -/

namespace Offside

variable {ts us vs : List Token}

/-! ## Parts of a text -/

theorem infix_of_left (h : us ++ vs <:+: ts) : us <:+: ts :=
  (List.prefix_append us vs).isInfix.trans h

theorem infix_of_right (h : us ++ vs <:+: ts) : vs <:+: ts :=
  (List.suffix_append us vs).isInfix.trans h

theorem infix_of_cons {t : Token} (h : t :: vs <:+: ts) : vs <:+: ts :=
  (List.suffix_cons t vs).isInfix.trans h

theorem infix_of_commaTokens {parts : List (List Token)} {part : List Token}
    (hpart : part ∈ parts) (h : commaTokens parts <:+: ts) : part <:+: ts := by
  induction parts with
  | nil => simp at hpart
  | cons a parts ih =>
    cases parts with
    | nil =>
      obtain rfl := List.mem_singleton.1 hpart
      rwa [commaTokens_singleton] at h
    | cons b parts =>
      rw [commaTokens_cons_cons] at h
      rcases List.mem_cons.1 hpart with rfl | hpart
      · exact infix_of_left h
      · exact ih hpart (infix_of_cons (infix_of_right h))

theorem infix_of_argumentTokens {parts : List (List Token)} {part : List Token}
    (hpart : part ∈ parts) (h : argumentTokens parts <:+: ts) : part <:+: ts :=
  infix_of_commaTokens hpart (infix_of_left (infix_of_cons h))

/-- The front of a path is written where the path is. -/
theorem DottedPath.infix_of_split? {p q : DottedPath} {name : String}
    (hp : p.split? = some (q, name)) (h : p.tokens <:+: ts) : q.tokens <:+: ts := by
  have hnames : p.first = q.first ∧ p.rest = q.rest ++ [name] := by
    simpa [names] using names_of_split? hp
  have htokens : p.tokens = q.tokens ++ [.char '.', .name name] := by
    rw [DottedPath.tokens, hnames.1, hnames.2, List.flatMap_append]
    rfl
  rw [htokens] at h
  exact infix_of_left h

/-! ## Trees -/

/-- Every path in the tree is written among the tokens. -/
def Node.SpelledIn (ts : List Token) (n : Node) : Prop :=
  n.Every fun m => ∀ q, m = .path q → q.tokens <:+: ts

open Node

/-- A tree that is no path is spelled if its parts are. -/
theorem Node.SpelledIn.of_children {n : Node} (hn : ∀ q, n ≠ .path q)
    (h : ∀ m ∈ n.children, m.SpelledIn ts) : n.SpelledIn ts :=
  every_iff.2 ⟨fun q hq => absurd hq (hn q), h⟩

theorem Node.spelledIn_constant (v : Value) : (constant v).SpelledIn ts :=
  every_constant nofun

theorem Node.spelledIn_path {q : DottedPath} (h : q.tokens <:+: ts) : (path q).SpelledIn ts :=
  every_path fun _ hq => path.inj hq ▸ h

variable {class? : String → Option ClassRef} {callable : Scope → String → Option ClassRef}
  {e : Node}

theorem Derives.spelledIn {l : Level} (h : Derives class? l us e) (hus : us <:+: ts) :
    e.SpelledIn ts := by
  induction h with
  | ofConjunction h ih | ofNegation h ih | ofComparison h ih | ofSum h ih | ofProduct h ih
  | ofUnary h ih | ofPrimary h ih => exact ih hus
  | parentheses h ih => exact ih (infix_of_left (infix_of_cons hus))
  | or _ _ hleft hright | and _ _ hleft hright | add _ _ hleft hright | sub _ _ hleft hright
  | mul _ _ hleft hright | div _ _ hleft hright | compare _ _ _ hleft hright =>
    have hleft := hleft (infix_of_left hus)
    have hright := hright (infix_of_cons (infix_of_right hus))
    exact .of_children (by simp) (by simp [children, operands, statements, hleft, hright])
  | not h ih =>
    exact .of_children (by simp) (by simp [children, operands, statements, ih (infix_of_cons hus)])
  | negative h ih =>
    have hzero : (constant (.number 0)).SpelledIn ts := spelledIn_constant _
    exact .of_children (by simp [Parse.negative])
      (by simp [Parse.negative, children, operands, statements, hzero, ih (infix_of_cons hus)])
  | number | string | true | false | none => exact spelledIn_constant _
  | path p => exact spelledIn_path hus
  | @call p receiver method args hp hargs ih =>
    have hreceiver : (Node.path receiver).SpelledIn ts :=
      spelledIn_path (DottedPath.infix_of_split? hp (infix_of_left hus))
    refine .of_children (by simp) ?_
    intro m hm
    simp only [children, operands, statements, List.append_nil, List.mem_cons, List.mem_map] at hm
    rcases hm with rfl | ⟨a, ha, rfl⟩
    · exact hreceiver
    · exact ih a ha (infix_of_argumentTokens (List.mem_map_of_mem ha) (infix_of_right hus))
  | stringify h ih =>
    have hargument := ih (infix_of_argumentTokens (List.mem_singleton.2 rfl) (infix_of_cons hus))
    exact .of_children (by simp) (by simp [children, operands, statements, hargument])
  | @construct name c args hc hargs ih =>
    refine .of_children (by simp) ?_
    intro m hm
    simp only [children, operands, statements, List.append_nil, List.mem_map] at hm
    obtain ⟨a, ha, rfl⟩ := hm
    exact ih a ha (infix_of_argumentTokens (List.mem_map_of_mem ha) (infix_of_cons hus))

theorem Target.isInfix {p : DottedPath} (h : Target us p) (hus : us <:+: ts) : p.tokens <:+: ts := by
  induction h with
  | path p => exact hus
  | parentheses h ih => exact ih (infix_of_left (infix_of_cons hus))

theorem DerivesSimple.spelledIn (h : DerivesSimple class? us e) (hus : us <:+: ts) :
    e.SpelledIn ts := by
  cases h with
  | bareReturn =>
    have hempty : (constant .empty).SpelledIn ts := spelledIn_constant _
    exact .of_children (by simp) (by simp [children, operands, statements, hempty])
  | returnValue h =>
    have hvalue := h.spelledIn (infix_of_cons hus)
    exact .of_children (by simp) (by simp [children, operands, statements, hvalue])
  | print hargs =>
    refine .of_children (by simp) ?_
    intro m hm
    simp only [children, operands, statements, List.append_nil, List.mem_map] at hm
    obtain ⟨a, ha, rfl⟩ := hm
    exact (hargs a ha).spelledIn
      (infix_of_commaTokens (List.mem_map_of_mem ha) (infix_of_cons hus))
  | expression h => exact h.spelledIn hus
  | assign _ h =>
    have hvalue := h.spelledIn (infix_of_cons (infix_of_right hus))
    exact .of_children (by simp) (by simp [children, operands, statements, hvalue])
  | @assignField us vs p object field e htarget hp h =>
    have hobject : (Node.path object).SpelledIn ts :=
      spelledIn_path (DottedPath.infix_of_split? hp (htarget.isInfix (infix_of_left hus)))
    have hvalue := h.spelledIn (infix_of_cons (infix_of_right hus))
    exact .of_children (by simp) (by simp [children, operands, statements, hobject, hvalue])

/-! ## Programs -/

/-- The method is one of those before, or every path in it is written among the tokens. -/
def Method.SpelledIn (before : Method → Prop) (ts : List Token) (m : Method) : Prop :=
  before m ∨ m.body.SpelledIn ts

variable {before : Method → Prop}

theorem infix_of_blockTokens (h : blockTokens us <:+: ts) : us <:+: ts :=
  infix_of_left (infix_of_cons (infix_of_cons h))

mutual

theorem DerivesStatement.spelledIn {Γ Γ' : Scope} {us : List Token} {e : Node} :
    DerivesStatement callable Γ us e Γ' → us <:+: ts →
      Γ.table.AllMethods (Method.SpelledIn before ts) →
      e.SpelledIn ts ∧ Γ'.table.AllMethods (Method.SpelledIn before ts)
  | .simple h, hus, hΓ => ⟨h.spelledIn (infix_of_left hus), hΓ⟩
  | .ifThen hcondition hbody, hus, hΓ => by
    have hus := infix_of_cons hus
    have hcondition := hcondition.spelledIn (infix_of_left hus)
    obtain ⟨hbody, hΓ'⟩ := hbody.spelledIn (infix_of_cons (infix_of_right hus)) hΓ
    exact ⟨.of_children (by simp) (by simp [children, operands, statements, hcondition, hbody]), hΓ'⟩
  | .ifElse hcondition hbody halternative, hus, hΓ => by
    have hus := infix_of_cons hus
    have hblocks := infix_of_cons (infix_of_right hus)
    have hcondition := hcondition.spelledIn (infix_of_left hus)
    obtain ⟨hbody, hΓ₁⟩ := hbody.spelledIn (infix_of_left hblocks) hΓ
    obtain ⟨halternative, hΓ'⟩ :=
      halternative.spelledIn (infix_of_cons (infix_of_cons (infix_of_right hblocks))) hΓ₁
    exact ⟨.of_children (by simp)
      (by simp [children, operands, statements, hcondition, hbody, halternative]), hΓ'⟩
  | .classDefinition _ _ hmethods _, hus, hΓ => by
    have hblock := infix_of_cons (infix_of_right (infix_of_cons (infix_of_cons hus)))
    obtain ⟨hmethods, hΓ'⟩ :=
      spelledIn_of_many_methods hmethods (infix_of_blockTokens hblock) (hΓ.add (by simp))
    exact ⟨.of_children (by simp) (by simp [children, operands, statements]), hΓ'.setMethods hmethods⟩

theorem DerivesSuite.spelledIn {Γ Γ' : Scope} {us : List Token} {e : Node} :
    DerivesSuite callable Γ us e Γ' → us <:+: ts →
      Γ.table.AllMethods (Method.SpelledIn before ts) →
      e.SpelledIn ts ∧ Γ'.table.AllMethods (Method.SpelledIn before ts)
  | .mk hbody _, hus, hΓ => by
    obtain ⟨hbody, hΓ'⟩ := spelledIn_of_many hbody (infix_of_blockTokens hus) hΓ
    exact ⟨.of_children (by simp) (by simpa [children, operands, statements] using hbody), hΓ'⟩

theorem DerivesMethod.spelledIn {Γ Γ' : Scope} {us : List Token} {m : Method} :
    DerivesMethod callable Γ us m Γ' → us <:+: ts →
      Γ.table.AllMethods (Method.SpelledIn before ts) →
      m.SpelledIn before ts ∧ Γ'.table.AllMethods (Method.SpelledIn before ts)
  | .mk hbody, hus, hΓ => by
    have hblock := infix_of_cons (infix_of_right (infix_of_cons (infix_of_cons hus)))
    obtain ⟨hbody, hΓ'⟩ := hbody.spelledIn hblock hΓ
    exact ⟨.inr (.of_children (by simp) (by simpa [children] using hbody)), hΓ'⟩

theorem spelledIn_of_many {Γ Γ' : Scope} {us : List Token} {body : List Node} :
    Many (DerivesStatement callable) Γ us body Γ' → us <:+: ts →
      Γ.table.AllMethods (Method.SpelledIn before ts) →
      (∀ e ∈ body, e.SpelledIn ts) ∧ Γ'.table.AllMethods (Method.SpelledIn before ts)
  | .nil _, _, hΓ => ⟨by simp, hΓ⟩
  | .cons h hs, hus, hΓ => by
    obtain ⟨hfirst, hΓ₁⟩ := h.spelledIn (infix_of_left hus) hΓ
    obtain ⟨hrest, hΓ'⟩ := spelledIn_of_many hs (infix_of_right hus) hΓ₁
    exact ⟨by simpa using ⟨hfirst, hrest⟩, hΓ'⟩

theorem spelledIn_of_many_methods {Γ Γ' : Scope} {us : List Token} {methods : List Method} :
    Many (DerivesMethod callable) Γ us methods Γ' → us <:+: ts →
      Γ.table.AllMethods (Method.SpelledIn before ts) →
      (∀ m ∈ methods, m.SpelledIn before ts) ∧ Γ'.table.AllMethods (Method.SpelledIn before ts)
  | .nil _, _, hΓ => ⟨by simp, hΓ⟩
  | .cons h hs, hus, hΓ => by
    obtain ⟨hfirst, hΓ₁⟩ := h.spelledIn (infix_of_left hus) hΓ
    obtain ⟨hrest, hΓ'⟩ := spelledIn_of_many_methods hs (infix_of_right hus) hΓ₁
    exact ⟨by simpa using ⟨hfirst, hrest⟩, hΓ'⟩

end

/-- The tree stands in the statements of the program, or in a method of a class that was not known
before the source was read. -/
def Program.Builds (p : Program) (known : ClassTable) (n : Node) : Prop :=
  p.body.Contains n ∨ ∃ c d, p.table.get? c = some d ∧
    ∃ m ∈ d.methods, (¬ ∃ c₀ d₀, known.get? c₀ = some d₀ ∧ m ∈ d₀.methods) ∧ m.body.Contains n

/-- Every path in the trees of a source is written in the source. -/
theorem Program.infix_of_builds {known : ClassTable} {source : String} {p : Program}
    (h : (Program.ofSource known source).1 = .ok p) {q : DottedPath} (hq : p.Builds known (.path q)) :
    q.tokens <:+: (tokenize source).tokens := by
  obtain ⟨us, body, Γ, htokens, hmany, rfl⟩ := (Program.derives_of_ofSource h).2
  have hus : us <:+: (tokenize source).tokens := by
    rw [htokens]
    exact (List.prefix_append us _).isInfix
  have hknown : known.AllMethods
      (Method.SpelledIn (fun m => ∃ c₀ d₀, known.get? c₀ = some d₀ ∧ m ∈ d₀.methods)
        (tokenize source).tokens) :=
    fun c d hd m hm => .inl ⟨c, d, hd, hm⟩
  obtain ⟨hstatements, hΓ⟩ := spelledIn_of_many hmany hus hknown
  have hbody : (Node.sequence body).SpelledIn (tokenize source).tokens :=
    .of_children (by simp) (by simpa [children, operands, Node.statements] using hstatements)
  rcases hq with hq | ⟨c, d, hd, m, hm, hnew, hq⟩
  · exact hbody _ hq q rfl
  · exact (hΓ c d hd m hm).resolve_left hnew _ hq q rfl

end Offside
