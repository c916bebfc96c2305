import Offside.Proofs.ExpressionTrees
import Offside.Proofs.Scopes

set_option autoImplicit false

/-! # Where classes are mentioned

A class is mentioned where it is defined and wherever a tree leads to it. The mentions of a program
are listed twice: among its tokens, where a class goes by its name, and in its tree, where behind the
definition of a class all is listed that its methods mention.

Statements *add* their mentions to a scope: both lists are the same, the classes defined come behind
those of the scope, and no class is used in front of its header. -/

namespace Offside

/-! ## Mentions -/

/-- What is said of a class: that it is defined from here on, or that it is used. -/
inductive Mention (α : Type)
  | header (c : α)
  | use (c : α)
  deriving DecidableEq, Repr

namespace Mention

variable {α β : Type}

/-- The same, said of something else. -/
def map (f : α → β) : Mention α → Mention β
  | header c => header (f c)
  | use c => use (f c)

/-- What it is said of. -/
def subject : Mention α → α
  | header c | use c => c

/-- The class that is defined, if one is. -/
def header? : Mention α → Option α
  | header c => some c
  | use _ => none

/-- The classes that are defined. -/
def headers (ms : List (Mention α)) : List α := ms.filterMap header?

/-- Nothing is used that is neither known nor defined before. -/
def Grounded : List α → List (Mention α) → Prop
  | _, [] => True
  | known, header c :: ms => Grounded (known ++ [c]) ms
  | known, use c :: ms => c ∈ known ∧ Grounded known ms

@[simp] theorem headers_append (ms ns : List (Mention α)) :
    headers (ms ++ ns) = headers ms ++ headers ns :=
  List.filterMap_append

theorem map_eq_map {f g : α → β} {m : Mention α} (h : f m.subject = g m.subject) :
    map f m = map g m := by
  cases m with
  | header c => exact congrArg header h
  | use c => exact congrArg use h

theorem map_map {γ : Type} (g : β → γ) (f : α → β) (m : Mention α) :
    map g (map f m) = map (g ∘ f) m := by
  cases m <;> rfl

theorem headers_map (f : α → β) (ms : List (Mention α)) :
    headers (ms.map (map f)) = (headers ms).map f := by
  induction ms with
  | nil => rfl
  | cons m ms ih =>
    cases m with
    | header c => exact congrArg (f c :: ·) ih
    | use c => exact ih

theorem grounded_append {known : List α} {ms ns : List (Mention α)} :
    Grounded known (ms ++ ns) ↔ Grounded known ms ∧ Grounded (known ++ headers ms) ns := by
  induction ms generalizing known with
  | nil => simp [Grounded, headers]
  | cons m ms ih =>
    cases m with
    | header c =>
      have hheaders : known ++ headers (header c :: ms) = known ++ [c] ++ headers ms := by
        simp [headers, header?]
      rw [hheaders]
      exact ih
    | use c =>
      have hrest : Grounded known (ms ++ ns) ↔ _ := ih
      exact (and_congr_right fun _ => hrest).trans and_assoc.symm

theorem Grounded.map {known : List α} {ms : List (Mention α)} (h : Grounded known ms) (f : α → β) :
    Grounded (known.map f) (ms.map (Mention.map f)) := by
  induction ms generalizing known with
  | nil => trivial
  | cons m ms ih =>
    cases m with
    | header c =>
      have hrest := ih h
      rwa [List.map_append] at hrest
    | use c => exact ⟨List.mem_map_of_mem h.1, ih h.2⟩

/-- Nothing is said of what is neither known nor defined. -/
theorem Grounded.subject_mem {known : List α} {ms : List (Mention α)} (h : Grounded known ms)
    {m : Mention α} (hm : m ∈ ms) : m.subject ∈ known ++ headers ms := by
  obtain ⟨before, after, rfl⟩ := List.append_of_mem hm
  have hbehind := (grounded_append.1 h).2
  cases m with
  | header c => simp [headers, header?, subject]
  | use c =>
    rcases List.mem_append.1 hbehind.1 with hc | hc
    · exact List.mem_append_left _ hc
    · rw [headers_append]
      exact List.mem_append_right _ (List.mem_append_left _ hc)

/-- In front of a use the header stands, unless it is known. -/
theorem Grounded.header_mem {before after : List (Mention α)} {c : α}
    (h : Grounded [] (before ++ use c :: after)) : header c ∈ before := by
  have hc : c ∈ headers before := (grounded_append.1 h).2.1
  obtain ⟨m, hm, hmc⟩ := List.mem_filterMap.1 hc
  cases m with
  | header d =>
    obtain rfl := Option.some.inj hmc
    exact hm
  | use d => simp [header?] at hmc

end Mention

open Mention

/-! ## Mentions in trees -/

/-- The mention that a tree itself is. -/
def Node.mention? : Node → Option (Mention ClassRef)
  | constant (.classObject c) | construct c _ => some (.use c)
  | classDefinition c => some (.header c)
  | _ => none

/-- The methods of a class itself. -/
def ClassTable.ownMethods (t : ClassTable) (c : ClassRef) : List Method :=
  (t.get? c).elim [] ClassDecl.methods

/-- The trees that stand below a tree: its children or, below the definition of a class, the bodies of
its methods. -/
def ClassTable.below (t : ClassTable) : Node → List Node
  | .classDefinition c => (t.ownMethods c).map Method.body
  | n => n.children

mutual

/-- These are the mentions in a tree, in the order in which they stand there. -/
inductive Mentions (t : ClassTable) : Node → List (Mention ClassRef) → Prop
  | mk {n : Node} {ms : List (Mention ClassRef)} (h : MentionsAll t (t.below n) ms) :
      Mentions t n (n.mention?.toList ++ ms)

/-- These are the mentions in trees that stand one behind the other. -/
inductive MentionsAll (t : ClassTable) : List Node → List (Mention ClassRef) → Prop
  | nil : MentionsAll t [] []
  | cons {n : Node} {nodes : List Node} {ms ns : List (Mention ClassRef)} (h : Mentions t n ms)
      (hs : MentionsAll t nodes ns) : MentionsAll t (n :: nodes) (ms ++ ns)

end

section

variable {t : ClassTable} {n : Node} {nodes : List Node} {ms ns : List (Mention ClassRef)}

mutual

/-- A tree has one list of mentions at most. -/
theorem Mentions.unique {n : Node} {ms ns : List (Mention ClassRef)} :
    Mentions t n ms → Mentions t n ns → ms = ns
  | .mk h, .mk h' => congrArg (_ ++ ·) (h.unique h')

theorem MentionsAll.unique {nodes : List Node} {ms ns : List (Mention ClassRef)} :
    MentionsAll t nodes ms → MentionsAll t nodes ns → ms = ns
  | .nil, .nil => rfl
  | .cons h hs, .cons h' hs' => congrArg₂ (· ++ ·) (h.unique h') (hs.unique hs')

end

theorem MentionsAll.append {nodes' : List Node} (h : MentionsAll t nodes ms)
    (h' : MentionsAll t nodes' ns) : MentionsAll t (nodes ++ nodes') (ms ++ ns) := by
  induction nodes generalizing ms with
  | nil =>
    cases h
    exact h'
  | cons n nodes ih =>
    cases h with
    | cons h hs =>
      rw [List.append_assoc]
      exact .cons h (ih hs)

theorem Mentions.single (h : Mentions t n ms) : MentionsAll t [n] ms :=
  List.append_nil ms ▸ .cons h .nil

end

/-! ## Mentions among tokens -/

namespace Token

/-- The name that the token is, if it is one. -/
def name? : Token → Option String
  | name x => some x
  | _ => none

/-- Whether a name behind the token is that of a member or of what is being defined. -/
def introduces : Token → Bool
  | char c => c = '.'
  | keyword word => word = .classWord || word = .defWord
  | _ => false

/-- The mention that a token and the one behind it are: the word `class` with a name, or a name with
an opening parenthesis. Where the name is not `free` it is no mention, and the name of the function
for printed forms is none. -/
def mention? (free : Bool) (t : Token) (next? : Option Token) : Option (Mention String) :=
  match t with
  | keyword word => if word = .classWord then (next?.bind name?).map .header else none
  | name x =>
    if free ∧ next? = some (.char '(') ∧ x ≠ Parse.strFunction then some (.use x) else none
  | _ => none

/-- The mentions among tokens, the first of which may be a free name. -/
def mentions : Bool → List Token → List (Mention String)
  | _, [] => []
  | free, t :: ts => (mention? free t ts.head?).toList ++ mentions (!t.introduces) ts

/-- Neither a name nor a token that bears on a name behind it. -/
def isNeutral (t : Token) : Bool := !t.introduces && t.name?.isNone

theorem mentions_cons_of_isNeutral {t : Token} (ht : t.isNeutral) (free : Bool) (ts : List Token) :
    mentions free (t :: ts) = mentions true ts := by
  obtain ⟨hintroduces, hname⟩ : t.introduces = false ∧ t.name? = none := by
    simpa [isNeutral] using ht
  have hmention : mention? free t ts.head? = none := by
    cases t with
    | name x => simp [name?] at hname
    | keyword word =>
      have hword : word ≠ .classWord := by
        rintro rfl
        simp [introduces] at hintroduces
      exact if_neg hword
    | number | char | string | paired | newline | indent | dedent | endOfInput => rfl
  rw [mentions, hmention, hintroduces]
  rfl

/-- Neutral tokens are no mentions. -/
theorem mentions_append_of_isNeutral {us : List Token} (hus : ∀ t ∈ us, t.isNeutral)
    (ts : List Token) : mentions true (us ++ ts) = mentions true ts := by
  induction us with
  | nil => rfl
  | cons t us ih =>
    have hrest : ∀ u ∈ us, u.isNeutral := fun u hu => hus u (List.mem_cons_of_mem _ hu)
    exact (mentions_cons_of_isNeutral (hus t (List.mem_cons_self ..)) true _).trans (ih hrest)

/-- A name that is not free is no mention. -/
theorem mentions_name (x : String) (ts : List Token) :
    mentions false (name x :: ts) = mentions true ts := rfl

/-- A name without arguments is no mention. -/
theorem mentions_name_of_head? {ts : List Token} (h : ts.head? ≠ some (.char '(')) (free : Bool)
    (x : String) : mentions free (name x :: ts) = mentions true ts := by
  have hmention : mention? free (name x) ts.head? = none := if_neg fun hx => h hx.2.1
  rw [mentions, hmention]
  rfl

/-- The names of members are no mentions. -/
theorem mentions_members (names : List String) (ts : List Token) :
    mentions true (names.flatMap (fun x => [char '.', name x]) ++ ts) = mentions true ts := by
  induction names with
  | nil => rfl
  | cons x names ih => exact (mentions_name x _).trans ih

end Token

open Token

/-- The tokens mention this, whatever follows them. If they are not `closed`, no parenthesis may open
behind them: it would go with a name at their end. -/
def Spells (closed : Bool) (us : List Token) (ms : List (Mention String)) : Prop :=
  ∀ rest : List Token, closed ∨ rest.head? ≠ some (.char '(') →
    mentions true (us ++ rest) = ms ++ mentions true rest

namespace Spells

variable {closed : Bool} {us vs : List Token} {ms ns : List (Mention String)} {t : Token}
  {x : String}

theorem append (h : Spells true us ms) (h' : Spells closed vs ns) :
    Spells closed (us ++ vs) (ms ++ ns) := by
  intro rest hrest
  rw [List.append_assoc, h _ (.inl rfl), h' rest hrest, List.append_assoc]

/-- Tokens are closed behind a neutral one, unless that opens a parenthesis. -/
theorem close (h : Spells closed us ms) (ht : t.isNeutral) (hne : t ≠ .char '(') :
    Spells true (us ++ [t]) ms := by
  intro rest _
  have hrest : ([t] ++ rest).head? ≠ some (.char '(') := by simpa using hne
  rw [List.append_assoc, h _ (.inr hrest)]
  exact congrArg (ms ++ ·) (mentions_cons_of_isNeutral ht true rest)

theorem mono (h : Spells true us ms) : Spells closed us ms :=
  fun rest _ => h rest (.inl rfl)

theorem of_isNeutral (h : ∀ t ∈ us, t.isNeutral) : Spells true us [] :=
  fun rest _ => mentions_append_of_isNeutral h rest

theorem header (x : String) : Spells true [.keyword .classWord, .name x] [.header x] :=
  fun _ _ => rfl

theorem definition (x : String) : Spells true [.keyword .defWord, .name x] [] :=
  fun _ _ => rfl

/-- A name is open at its end, and so is a path, unless it ends with the name of a member. -/
theorem path {p : DottedPath} (h : closed → p.rest ≠ []) : Spells closed p.tokens [] := by
  intro rest hrest
  have hhead : (p.rest.flatMap (fun x => [Token.char '.', .name x]) ++ rest).head? ≠
      some (.char '(') := by
    cases hp : p.rest with
    | nil => exact hrest.resolve_left fun hclosed => h hclosed hp
    | cons x names => simp
  exact (mentions_name_of_head? hhead true p.first).trans (mentions_members p.rest rest)

theorem use (hx : x ≠ Parse.strFunction) : Spells true [.name x, .char '('] [.use x] := by
  intro rest _
  have hmention : mention? true (.name x) (some (.char '(')) = some (.use x) :=
    if_pos ⟨rfl, rfl, hx⟩
  show (mention? true (.name x) (some (.char '('))).toList ++ _ = _
  rw [hmention]
  rfl

theorem str : Spells true [.name Parse.strFunction, .char '('] [] :=
  fun _ _ => rfl

end Spells

end Offside
