import Offside.Proofs.ClassMentions

set_option autoImplicit false

/-! # What statements say of classes

What stands between two scopes *adds* its mentions to the first one: its tokens and its trees mention
the same, the classes that it defines are those by which the second scope is longer, and each class
that it uses is in the first scope or is defined before.

Everything that the grammar derives adds its mentions to the scope in which it stands. -/

namespace Offside

open Mention

/-- The second table has the classes of the first one from a position on. -/
def ClassTable.SharesFrom (k : Nat) (t t' : ClassTable) : Prop :=
  ∀ c : ClassRef, k ≤ c.index → c.index < t.size → t'.get? c = t.get? c

/-- The tokens and the trees stand between the two scopes with these mentions. -/
structure Adds (closed : Bool) (Γ : Scope) (us : List Token) (nodes : List Node)
    (ms : List (Mention (String × ClassRef))) (Γ' : Scope) : Prop where
  classes : Γ'.classes = Γ.classes ++ headers ms
  table : Γ.table.Extends Γ'.table
  grounded : Grounded Γ.classes ms
  /-- The trees mention the classes, also where the classes before have other methods. -/
  mentioned : ∀ t, Γ'.table.SharesFrom Γ.table.size t →
    MentionsAll t nodes (ms.map (Mention.map Prod.snd))
  spelled : Spells closed us (ms.map (Mention.map Prod.fst))

namespace Adds

variable {closed : Bool} {Γ Γ₁ Γ' : Scope} {us vs : List Token} {nodes nodes' : List Node}
  {ms ns : List (Mention (String × ClassRef))} {t : Token} {n : Node}

/-! ## Pieces -/

/-- What mentions nothing adds nothing. -/
theorem of_spells (h : Spells closed us []) : Adds closed Γ us [] [] Γ :=
  ⟨by simp [headers], .refl _, trivial, fun _ _ => .nil, h⟩

theorem neutral (h : ∀ t ∈ us, t.isNeutral) : Adds true Γ us [] [] Γ :=
  of_spells (.of_isNeutral h)

theorem append (h : Adds true Γ us nodes ms Γ₁) (h' : Adds closed Γ₁ vs nodes' ns Γ') :
    Adds closed Γ (us ++ vs) (nodes ++ nodes') (ms ++ ns) Γ' where
  classes := by rw [h'.classes, h.classes, headers_append, List.append_assoc]
  table := h.table.trans h'.table
  grounded := grounded_append.2 ⟨h.grounded, h.classes ▸ h'.grounded⟩
  mentioned t ht := by
    have hfirst : Γ₁.table.SharesFrom Γ.table.size t := by
      intro c hle hlt
      rw [ht c hle (Nat.lt_of_lt_of_le hlt h'.table.size_le), h'.table.get?_eq c hlt]
    have hsecond : Γ'.table.SharesFrom Γ₁.table.size t :=
      fun c hle hlt => ht c (Nat.le_trans h.table.size_le hle) hlt
    rw [List.map_append]
    exact (h.mentioned t hfirst).append (h'.mentioned t hsecond)
  spelled := by
    rw [List.map_append]
    exact h.spelled.append h'.spelled

theorem close (h : Adds closed Γ us nodes ms Γ') (ht : t.isNeutral) (hne : t ≠ .char '(') :
    Adds true Γ (us ++ [t]) nodes ms Γ' :=
  { h with spelled := h.spelled.close ht hne }

theorem mono (h : Adds true Γ us nodes ms Γ') : Adds closed Γ us nodes ms Γ' :=
  { h with spelled := h.spelled.mono }

/-- Two pieces with a token between them. -/
theorem join (h : Adds false Γ us nodes ms Γ₁) (ht : t.isNeutral) (hne : t ≠ .char '(')
    (h' : Adds closed Γ₁ vs nodes' ns Γ') :
    Adds closed Γ (us ++ t :: vs) (nodes ++ nodes') (ms ++ ns) Γ' := by
  have happend := (h.close ht hne).append h'
  rwa [List.append_assoc] at happend

/-- Neutral tokens in front of a piece. -/
theorem behind (h : Adds closed Γ us nodes ms Γ') (vs : List Token)
    (hvs : ∀ t ∈ vs, t.isNeutral) :
    Adds closed Γ (vs ++ us) nodes ms Γ' :=
  (neutral hvs).append h

/-- A piece between parentheses or in a block. -/
theorem enclosed (h : Adds false Γ us nodes ms Γ') (vs : List Token)
    (hvs : ∀ t ∈ vs, t.isNeutral) (ht : t.isNeutral) (hne : t ≠ .char '(') :
    Adds true Γ (vs ++ (us ++ [t])) nodes ms Γ' :=
  (h.close ht hne).behind vs hvs

/-- A tree that is no mention has the mentions of its children. -/
theorem node (h : Adds closed Γ us n.children ms Γ') (hn : n.mention? = none) :
    Adds closed Γ us [n] ms Γ' := by
  have hbelow : ∀ t : ClassTable, t.below n = n.children := by
    intro t
    cases n with
    | classDefinition c => simp [Node.mention?] at hn
    | _ => rfl
  refine { h with mentioned := fun t ht => ?_ }
  have hmentions : Mentions t n (n.mention?.toList ++ ms.map (Mention.map Prod.snd)) :=
    .mk (hbelow t ▸ h.mentioned t ht)
  rw [hn] at hmentions
  exact hmentions.single

/-- A literal mentions nothing. -/
theorem literal {v : Value} (hv : v.IsLiteral) (ht : t.isNeutral) :
    Adds true Γ [t] [.constant v] [] Γ := by
  have hnone : (Node.constant v).mention? = none := by
    cases v with
    | classObject c => exact absurd rfl (hv.1 c)
    | empty | number | string | bool | object => rfl
  exact node (neutral (by simpa using ht)) hnone

theorem path {p : DottedPath} (h : Spells closed us []) : Adds closed Γ us [.path p] [] Γ :=
  node (of_spells h) rfl

/-- An object made of a class of the scope. -/
theorem construct {x : String} {c : ClassRef} {args : List Node}
    (hc : Γ.constructible? x = some c) (h : Adds closed Γ us args ms Γ) :
    Adds closed Γ ([.name x, .char '('] ++ us) [.construct c args] (.use (x, c) :: ms) Γ := by
  have hx : x ≠ Parse.strFunction := by
    rintro rfl
    simp [Scope.constructible?] at hc
  rw [Scope.constructible?, if_neg hx] at hc
  refine ⟨h.classes, h.table, ⟨Scope.mem_of_lookup hc, h.grounded⟩, fun t ht => ?_,
    (Spells.use hx).append h.spelled⟩
  have hargs : MentionsAll t (t.below (.construct c args)) (ms.map (Mention.map Prod.snd)) := by
    have hbelow : t.below (.construct c args) = args := List.append_nil args
    exact hbelow.symm ▸ h.mentioned t ht
  exact (Mentions.mk hargs).single

end Adds

/-! ## Expressions -/

/-- Pieces with commas between them. -/
theorem exists_adds_commaTokens {Γ : Scope} {parts : List (List Token × List Node)}
    (h : ∀ a ∈ parts, ∃ ms, Adds false Γ a.1 a.2 ms Γ) :
    ∃ ms, Adds false Γ (commaTokens (parts.map Prod.fst)) (parts.map Prod.snd).flatten ms Γ := by
  induction parts with
  | nil => exact ⟨[], (Adds.neutral (by simp [commaTokens])).mono⟩
  | cons a parts ih =>
    obtain ⟨ms, ha⟩ := h a (List.mem_cons_self ..)
    obtain ⟨ns, hparts⟩ := ih fun b hb => h b (List.mem_cons_of_mem _ hb)
    cases parts with
    | nil =>
      refine ⟨ms, ?_⟩
      simpa using ha
    | cons b parts =>
      refine ⟨ms ++ ns, ?_⟩
      simp only [List.map_cons, commaTokens_cons_cons, List.flatten_cons] at hparts ⊢
      exact ha.join rfl (by simp) hparts

/-- Arguments between parentheses. -/
theorem exists_adds_arguments {Γ : Scope} {args : List (List Token × Node)}
    (h : ∀ a ∈ args, ∃ ms, Adds false Γ a.1 [a.2] ms Γ) :
    ∃ ms, Adds false Γ (commaTokens (args.map Prod.fst)) (args.map Prod.snd) ms Γ := by
  have hparts : ∀ a ∈ args.map fun a => (a.1, [a.2]), ∃ ms, Adds false Γ a.1 a.2 ms Γ := by
    intro a ha
    obtain ⟨b, hb, rfl⟩ := List.mem_map.1 ha
    exact h b hb
  obtain ⟨ms, hms⟩ := exists_adds_commaTokens hparts
  have htokens : (args.map fun a => (a.1, [a.2])).map Prod.fst = args.map Prod.fst := by simp
  have hnodes : ((args.map fun a => (a.1, [a.2])).map Prod.snd).flatten = args.map Prod.snd := by
    rw [List.map_map, ← List.flatMap_def, List.map_eq_flatMap]
    rfl
  exact ⟨ms, htokens ▸ hnodes ▸ hms⟩

variable {Γ : Scope} {us : List Token} {e : Node}

/-- Expressions add their mentions. -/
theorem Derives.exists_adds {l : Level} (h : Derives Γ.constructible? l us e) :
    ∃ ms, Adds Bool.false Γ us [e] ms Γ := by
  induction h with
  | ofConjunction h ih | ofNegation h ih | ofComparison h ih | ofSum h ih | ofProduct h ih
  | ofUnary h ih | ofPrimary h ih => exact ih
  | or _ _ hleft hright | and _ _ hleft hright | add _ _ hleft hright | sub _ _ hleft hright
  | mul _ _ hleft hright | div _ _ hleft hright =>
    obtain ⟨ms, hleft⟩ := hleft
    obtain ⟨ns, hright⟩ := hright
    exact ⟨ms ++ ns, .node (hleft.join rfl (by simp) hright) rfl⟩
  | compare c _ _ hleft hright =>
    obtain ⟨ms, hleft⟩ := hleft
    obtain ⟨ns, hright⟩ := hright
    have htoken : c.token.isNeutral ∧ c.token ≠ .char '(' := by cases c <;> decide
    exact ⟨ms ++ ns, .node (hleft.join htoken.1 htoken.2 hright) rfl⟩
  | not h ih =>
    obtain ⟨ms, ih⟩ := ih
    exact ⟨ms, .node (ih.behind [_] (by decide)) rfl⟩
  | negative h ih =>
    obtain ⟨ms, ih⟩ := ih
    have hzero : Adds Bool.true Γ [.char '-'] [.constant (.number 0)] [] Γ :=
      .literal ⟨by simp, by simp⟩ rfl
    exact ⟨ms, .node (hzero.append ih) rfl⟩
  | number | string | true | false | none =>
    exact ⟨[], (Adds.literal ⟨by simp, by simp⟩ rfl).mono⟩
  | parentheses h ih =>
    obtain ⟨ms, ih⟩ := ih
    exact ⟨ms, (ih.enclosed [.char '('] (by decide) rfl (by simp)).mono⟩
  | path p => exact ⟨[], .path (.path (by simp))⟩
  | @call p receiver method args hp hargs ih =>
    obtain ⟨ms, hargs⟩ := exists_adds_arguments ih
    have hmember : p.rest ≠ [] := by
      rintro hnil
      obtain ⟨first, rest⟩ := p
      obtain rfl : rest = [] := hnil
      simp [DottedPath.split?] at hp
    have hreceiver : Adds Bool.true Γ p.tokens [.path receiver] [] Γ := .path (.path fun _ => hmember)
    have hall := hreceiver.append
      (hargs.enclosed [.char '('] (t := .char ')') (by decide) rfl (by simp))
    refine ⟨ms, .mono (.node ?_ rfl)⟩
    simpa [argumentTokens, Node.children, Node.operands, Node.statements] using hall
  | stringify h ih =>
    obtain ⟨ms, ih⟩ := ih
    have hstr : Adds Bool.true Γ [.name Parse.strFunction, .char '('] [] [] Γ := .of_spells .str
    have hall := hstr.append (ih.close (t := .char ')') rfl (by simp))
    refine ⟨ms, .mono (.node ?_ rfl)⟩
    simpa [argumentTokens, Node.children, Node.operands, Node.statements] using hall
  | @construct name c args hc hargs ih =>
    obtain ⟨ms, hargs⟩ := exists_adds_arguments ih
    exact ⟨_, (Adds.construct hc (hargs.close (t := .char ')') rfl (by simp))).mono⟩

/-! ## Lines -/

theorem Target.spells {p : DottedPath} (h : Target us p) : Spells false us [] := by
  induction h with
  | path p => exact .path (by simp)
  | parentheses h ih =>
    have hopen : Spells true [.char '('] [] := .of_isNeutral (by decide)
    exact (hopen.append (ih.close (t := .char ')') rfl (by simp))).mono

/-- Statements of one line add their mentions. -/
theorem DerivesSimple.exists_adds (h : DerivesSimple Γ.constructible? us e) :
    ∃ ms, Adds false Γ us [e] ms Γ := by
  cases h with
  | bareReturn =>
    have hempty : Adds true Γ [.keyword .returnWord] [.constant .empty] [] Γ :=
      .literal ⟨by simp, by simp⟩ rfl
    exact ⟨[], .mono (.node hempty rfl)⟩
  | returnValue h =>
    obtain ⟨ms, h⟩ := h.exists_adds
    exact ⟨ms, .node (h.behind [_] (by decide)) rfl⟩
  | print hargs =>
    obtain ⟨ms, hargs⟩ := exists_adds_arguments fun a ha => (hargs a ha).exists_adds
    have hprint := hargs.behind [.keyword .printWord] (by decide)
    refine ⟨ms, .node ?_ rfl⟩
    simpa [Node.children, Node.operands, Node.statements] using hprint
  | expression h => exact h.exists_adds
  | assign htarget h =>
    obtain ⟨ms, h⟩ := h.exists_adds
    have htarget : Adds false Γ _ [] [] Γ := .of_spells htarget.spells
    exact ⟨ms, .node (htarget.join rfl (by simp) h) rfl⟩
  | @assignField us vs p object field e htarget hp h =>
    obtain ⟨ms, h⟩ := h.exists_adds
    have hobject : Adds false Γ us [.path object] [] Γ := .path htarget.spells
    exact ⟨ms, .node (hobject.join rfl (by simp) h) rfl⟩

theorem DerivesBase.spells {parent? : Option ClassRef} (h : DerivesBase Γ us parent?) :
    Spells true us [] := by
  cases h with
  | none => exact .of_isNeutral (by simp)
  | @some name c h =>
    have hopen : Spells true [.char '('] [] := .of_isNeutral (by decide)
    have hname : Spells false [.name name] [] := .path (p := ⟨name, []⟩) (by simp)
    exact hopen.append (hname.close (t := .char ')') rfl (by simp))

/-! ## Blocks and classes -/

/-- The parameters of a method are no mentions. -/
theorem spells_parameters (parameters : List String) :
    Spells true (argumentTokens (parameters.map fun p => [.name p])) [] := by
  have hcomma : Spells false (commaTokens (parameters.map fun p => [.name p])) [] := by
    induction parameters with
    | nil => exact (Spells.of_isNeutral (by simp [commaTokens])).mono
    | cons p parameters ih =>
      have hname : Spells false [.name p] [] := .path (p := ⟨p, []⟩) (by simp)
      cases parameters with
      | nil => exact hname
      | cons q parameters =>
        simp only [List.map_cons, commaTokens_cons_cons] at ih ⊢
        exact (hname.close (t := .char ',') rfl (by simp)).append ih
  have hopen : Spells true [.char '('] [] := .of_isNeutral (by decide)
  exact hopen.append (hcomma.close (t := .char ')') rfl (by simp))

/-- The definition of a class adds its header and what its methods add to the scope behind it. -/
theorem Adds.classDefinition {Γ Γ' : Scope} {us vs : List Token} {name : String}
    {parent? : Option ClassRef} {methods : List Method} {ms : List (Mention (String × ClassRef))}
    (hus : Spells true us [])
    (h : Adds true (Γ.define name parent?) vs (methods.map Method.body) ms Γ') :
    Adds true Γ (.keyword .classWord :: .name name :: (us ++ .char ':' :: blockTokens vs))
      [.classDefinition Γ.table.next] (.header (name, Γ.table.next) :: ms)
      (Γ'.setMethods Γ.table.next methods) := by
  have hdefine := (Scope.Grows.define Γ name parent?).table
  have hlt : Γ.table.size < Γ'.table.size := by
    have hle := h.table.size_le
    rwa [Scope.size_define] at hle
  constructor
  · show Γ'.classes = _
    rw [h.classes]
    exact List.append_assoc ..
  · exact (hdefine.trans h.table).setMethods (Nat.le_refl _) methods
  · exact h.grounded
  · intro t ht
    -- the class itself has its methods now; the classes behind it are as they were
    have hself : t.get? Γ.table.next = some ⟨name, parent?, methods⟩ := by
      have hlast : (Γ.define name parent?).table.get? Γ.table.next = some ⟨name, parent?, []⟩ :=
        (ClassTable.get?_add ..).trans (if_pos rfl)
      rw [ht Γ.table.next (Nat.le_refl _) (by rwa [Scope.size_setMethods])]
      rw [Scope.setMethods, ClassTable.get?_setMethods, if_pos rfl,
        h.table.get?_eq _ (by rw [Scope.size_define]; exact Nat.lt_succ_self _), hlast]
      rfl
    have hothers : Γ'.table.SharesFrom (Γ.define name parent?).table.size t := by
      intro c hle hc
      rw [Scope.size_define] at hle
      rw [ht c (Nat.le_of_succ_le hle) (by rwa [Scope.size_setMethods])]
      rw [Scope.setMethods, ClassTable.get?_setMethods, if_neg]
      rintro rfl
      exact Nat.not_succ_le_self _ hle
    have hbelow : t.below (.classDefinition Γ.table.next) = methods.map Method.body := by
      rw [ClassTable.below, ClassTable.ownMethods, hself]
      rfl
    exact (Mentions.mk (hbelow.symm ▸ h.mentioned t hothers)).single
  · have hblock := h.mono.enclosed [.char ':', .newline, .indent] (t := .dedent)
      (by decide) rfl (by simp)
    exact (Spells.header name).append (hus.append hblock.spelled)

mutual

/-- Statements add their mentions. -/
theorem DerivesStatement.exists_adds {Γ Γ' : Scope} {us : List Token} {e : Node} :
    DerivesStatement Scope.constructible? Γ us e Γ' → ∃ ms, Adds true Γ us [e] ms Γ'
  | .simple h => by
    obtain ⟨ms, h⟩ := h.exists_adds
    exact ⟨ms, h.close rfl (by simp)⟩
  | .ifThen hcondition hbody => by
    obtain ⟨ms, hcondition⟩ := hcondition.exists_adds
    obtain ⟨ns, hbody⟩ := hbody.exists_adds
    have hall := hcondition.join (t := .char ':') rfl (by simp) hbody
    exact ⟨ms ++ ns, .node (hall.behind [_] (by decide)) rfl⟩
  | .ifElse hcondition hbody halternative => by
    obtain ⟨ms, hcondition⟩ := hcondition.exists_adds
    obtain ⟨ns, hbody⟩ := hbody.exists_adds
    obtain ⟨ks, halternative⟩ := halternative.exists_adds
    have helse := halternative.behind [.keyword .elseWord, .char ':'] (by decide)
    have hall := hcondition.join (t := .char ':') rfl (by simp) (hbody.append helse)
    exact ⟨ms ++ (ns ++ ks), .node (hall.behind [_] (by decide)) rfl⟩
  | .classDefinition _ hbase hmethods _ => by
    obtain ⟨ms, hmethods⟩ := exists_adds_of_many_methods hmethods
    exact ⟨_, .classDefinition hbase.spells hmethods⟩

theorem DerivesSuite.exists_adds {Γ Γ' : Scope} {us : List Token} {e : Node} :
    DerivesSuite Scope.constructible? Γ us e Γ' → ∃ ms, Adds true Γ us [e] ms Γ'
  | .mk hbody _ => by
    obtain ⟨ms, hbody⟩ := exists_adds_of_many hbody
    have hblock := hbody.mono.enclosed [.newline, .indent] (t := .dedent) (by decide) rfl
      (by simp)
    refine ⟨ms, .node ?_ rfl⟩
    simpa [blockTokens, Node.children, Node.operands, Node.statements] using hblock

theorem DerivesMethod.exists_adds {Γ Γ' : Scope} {us : List Token} {m : Method} :
    DerivesMethod Scope.constructible? Γ us m Γ' → ∃ ms, Adds true Γ us [m.body] ms Γ'
  | @DerivesMethod.mk _ _ _ us name parameters body hbody => by
    obtain ⟨ms, hbody⟩ := hbody.exists_adds
    have hheader : Adds true Γ _ [] [] Γ :=
      .of_spells ((Spells.definition name).append (spells_parameters parameters))
    have hall := hheader.append (hbody.behind [.char ':'] (by decide))
    rw [List.append_assoc] at hall
    exact ⟨ms, .node hall rfl⟩

theorem exists_adds_of_many {Γ Γ' : Scope} {us : List Token} {body : List Node} :
    Many (DerivesStatement Scope.constructible?) Γ us body Γ' → ∃ ms, Adds true Γ us body ms Γ'
  | .nil _ => ⟨[], .neutral (by simp)⟩
  | .cons h hs => by
    obtain ⟨ms, h⟩ := h.exists_adds
    obtain ⟨ns, hs⟩ := exists_adds_of_many hs
    exact ⟨ms ++ ns, h.append hs⟩

theorem exists_adds_of_many_methods {Γ Γ' : Scope} {us : List Token} {methods : List Method} :
    Many (DerivesMethod Scope.constructible?) Γ us methods Γ' →
      ∃ ms, Adds true Γ us (methods.map Method.body) ms Γ'
  | .nil _ => ⟨[], .neutral (by simp)⟩
  | .cons h hs => by
    obtain ⟨ms, h⟩ := h.exists_adds
    obtain ⟨ns, hs⟩ := exists_adds_of_many_methods hs
    exact ⟨ms ++ ns, h.append hs⟩

end

end Offside
