import Offside.Reader.Passages

set_option autoImplicit false

/-! # Lines of a source

What the lines of a source mean when each is read on its own. The *lead* of a line is its leading
space, its *indent* the number of spaces in it and its *text* what follows. A line whose text is
empty or a comment is blank. The text of every other line is cut into tokens by `contents`, which
sees nothing of the lines around it.

A line is read behind the lines before it only as far as its indent is compared with theirs: it must
differ from that of the last line that is not blank by whole steps. -/

namespace Offside

/-- A line of a source, without its line break. -/
abbrev SourceLine := List Char

namespace SourceLine

/-- The lines of a source. -/
def ofSource (source : String) : List SourceLine := source.toList.splitOn '\n'

/-! ## The parts of a line -/

/-- Whether `c` is leading space. A tab is not. -/
def isLead (c : Char) : Bool := c = ' ' || c = '\r'

/-- The leading space of a line. -/
def lead (line : SourceLine) : List Char := line.takeWhile isLead

/-- What follows the leading space. -/
def text (line : SourceLine) : List Char := line.dropWhile isLead

/-- The number of leading spaces. -/
def indent (line : SourceLine) : Nat := line.lead.count ' '

/-- Whether a line holds no more than a comment. -/
def isBlank (line : SourceLine) : Bool := line.text.head?.all (· = '#')

/-- Whether a tab stands directly behind the leading space. -/
def hasTab (line : SourceLine) : Bool := line.text.head? = some '\t'

/-! ## The tokens of a text -/

/-- Why a text is not a sequence of tokens. -/
inductive TextFault
  /-- A word that stands for nothing, be it a numeral with too many digits. -/
  | badWord (word : String)
  /-- A backslash before a character that it does not change. -/
  | unknownEscape (c : Char)
  /-- A literal without its closing mark. The text may end behind a backslash. -/
  | openLiteral (escaping : Bool)
  deriving DecidableEq, Repr, Inhabited

/-- What a literal stands for, from behind its opening mark on, and what follows its closing one. -/
def literal (mark : Char) : List Char → Except TextFault (List Char × List Char)
  | [] => .error (.openLiteral false)
  | c :: text =>
    if c = mark then .ok ([], text)
    else if c = '\\' then
      match text with
      | [] => .error (.openLiteral true)
      | e :: text =>
        match Reader.unescape? e with
        | some d => (literal mark text).map fun p => (d :: p.1, p.2)
        | none => .error (.unknownEscape e)
    else (literal mark text).map fun p => (c :: p.1, p.2)

/-- The sign that begins with the punctuation `c`, and what follows it. -/
def sign (c : Char) : List Char → Token × List Char
  | [] => (.char c, [])
  | d :: text =>
    match PairedSign.ofPair? c d with
    | some p => (.paired p, text)
    | none => (.char c, d :: text)

/-- Whether `c` goes on with a word. -/
def inWord (c : Char) : Bool := !Token.endsWord c

/-- The token that begins with the character `c`, and what follows it. -/
def lexeme (c : Char) (text : List Char) : Except TextFault (Token × List Char) :=
  if c = '\'' || c = '"' then
    (literal c text).map fun p => (.string (String.ofList p.1), p.2)
  else if punctuation.contains c then .ok (sign c text)
  else
    let word := String.ofList (c :: text.takeWhile inWord)
    match Token.ofWord? word with
    | some t => .ok (t, text.dropWhile inWord)
    | none => .error (.badWord word)

theorem exists_of_map_eq_ok {α β : Type} {f : α → β} {x : Except TextFault α} {b : β}
    (h : x.map f = .ok b) : ∃ a, x = .ok a ∧ f a = b := by
  cases x with
  | error e => simp [Except.map] at h
  | ok a => exact ⟨a, rfl, Except.ok.inj h⟩

theorem eq_error_of_map_eq_error {α β : Type} {f : α → β} {x : Except TextFault α} {e : TextFault}
    (h : x.map f = .error e) : x = .error e := by
  cases x with
  | error e' => exact congrArg _ (Except.error.inj h)
  | ok a => simp [Except.map] at h

/-! What follows a token is an end of the text it was taken from. -/

theorem suffix_of_literal {mark : Char} {text : List Char} {p : List Char × List Char}
    (h : literal mark text = .ok p) : p.2 <:+ text := by
  fun_induction literal mark text generalizing p with
  | case1 => simp at h
  | case2 text =>
    obtain rfl := Except.ok.inj h
    exact List.suffix_cons ..
  | case3 => simp at h
  | case4 e text d hd hm ih =>
    obtain ⟨q, hq, rfl⟩ := exists_of_map_eq_ok h
    exact (ih hq).trans ((List.suffix_cons ..).trans (List.suffix_cons ..))
  | case5 => simp at h
  | case6 c text hc hb ih =>
    obtain ⟨q, hq, rfl⟩ := exists_of_map_eq_ok h
    exact (ih hq).trans (List.suffix_cons ..)

theorem suffix_sign (c : Char) (text : List Char) : (sign c text).2 <:+ text := by
  unfold sign
  split
  · exact List.suffix_refl _
  · split
    · exact List.suffix_cons ..
    · exact List.suffix_refl _

theorem suffix_of_lexeme {c : Char} {text rest : List Char} {t : Token}
    (h : lexeme c text = .ok (t, rest)) : rest <:+ text := by
  unfold lexeme at h
  split at h
  · obtain ⟨p, hp, he⟩ := exists_of_map_eq_ok h
    obtain ⟨-, rfl⟩ := Prod.mk.inj he
    exact suffix_of_literal hp
  · split at h
    · have hs := suffix_sign c text
      rwa [Except.ok.inj h] at hs
    · simp only at h
      split at h
      · obtain ⟨-, rfl⟩ := Prod.mk.inj (Except.ok.inj h)
        exact List.dropWhile_suffix _
      · simp at h

/-- The tokens of a text up to its first fault. A comment ends the text. -/
def contents : List Char → List Token × Option TextFault
  | [] => ([], none)
  | c :: text =>
    if Reader.isBlank c then contents text
    else if c = '#' then ([], none)
    else
      match _h : lexeme c text with
      | .error f => ([], some f)
      | .ok (t, rest) => (t :: (contents rest).1, (contents rest).2)
termination_by text => text.length
decreasing_by
  · simp
  all_goals
    have := (suffix_of_lexeme _h).length_le
    simp only [List.length_cons]
    omega

theorem contents_of_error {c : Char} {text : List Char} {f : TextFault}
    (hc : Reader.isBlank c = false) (hn : c ≠ '#') (h : lexeme c text = .error f) :
    contents (c :: text) = ([], some f) := by
  rw [contents, if_neg (by simp [hc]), if_neg hn]
  split <;> simp_all

theorem contents_of_ok {c : Char} {text rest : List Char} {t : Token}
    (hc : Reader.isBlank c = false) (hn : c ≠ '#') (h : lexeme c text = .ok (t, rest)) :
    contents (c :: text) = (t :: (contents rest).1, (contents rest).2) := by
  rw [contents, if_neg (by simp [hc]), if_neg hn]
  split <;> simp_all

/-- Every token takes up a character. -/
theorem length_contents_le (text : List Char) : (contents text).1.length ≤ text.length := by
  fun_induction contents text with
  | case1 => exact Nat.le_refl _
  | case2 c text hc ih => exact Nat.le_succ_of_le ih
  | case3 => exact Nat.zero_le _
  | case4 => exact Nat.zero_le _
  | case5 c text hc hn t rest h ih =>
    have hr := (suffix_of_lexeme h).length_le
    simp only [List.length_cons]
    omega

/-! ## Lines behind lines -/

/-- Why a line is not a sequence of tokens behind the lines before it. -/
inductive Fault
  /-- A tab directly behind the leading space. -/
  | tab
  /-- An odd number of spaces more or less than the line before. -/
  | uneven (spaces depth : Nat)
  | text (f : TextFault)
  deriving DecidableEq, Repr, Inhabited

/-- What is wrong with a line when the indent before it is `depth`. -/
def fault? (line : SourceLine) (depth : Nat) : Option Fault :=
  if line.hasTab then some .tab
  else if line.isBlank then none
  else if line.indent % 2 ≠ depth % 2 then some (.uneven line.indent depth)
  else (contents line.text).2.map .text

/-- The steps in or out from one indent to another. -/
def steps (depth indent : Nat) : List Token :=
  List.replicate ((indent - depth) / 2) .indent ++ List.replicate ((depth - indent) / 2) .dedent

/-- The tokens that a line with this fault still makes. -/
def tokensBefore (line : SourceLine) (depth : Nat) : Fault → List Token
  | .tab | .uneven _ _ => []
  | .text _ => steps depth line.indent ++ (contents line.text).1

/-- The tokens of a line without fault. -/
def tokens (line : SourceLine) (depth : Nat) : List Token :=
  if line.isBlank then [] else steps depth line.indent ++ (contents line.text).1 ++ [.newline]

/-- The indent behind a line, when it is `depth` before: blank lines do not count. -/
def depthAfter (line : SourceLine) (depth : Nat) : Nat :=
  if line.isBlank then depth else line.indent

section

variable {line : SourceLine} {depth : Nat}

theorem tokens_of_isBlank (depth : Nat) (hb : line.isBlank = true) : line.tokens depth = [] :=
  if_pos hb

theorem tokens_of_not_isBlank (depth : Nat) (hb : line.isBlank = false) :
    line.tokens depth = steps depth line.indent ++ (contents line.text).1 ++ [Token.newline] :=
  if_neg (by simp [hb])

theorem depthAfter_of_isBlank (depth : Nat) (hb : line.isBlank = true) :
    line.depthAfter depth = depth :=
  if_pos hb

theorem depthAfter_of_not_isBlank (depth : Nat) (hb : line.isBlank = false) :
    line.depthAfter depth = line.indent :=
  if_neg (by simp [hb])

/-- What counts as a fault of a line. -/
theorem fault?_ne_none_iff :
    line.fault? depth ≠ none ↔
      line.hasTab = true ∨ line.isBlank = false ∧
        (line.indent % 2 ≠ depth % 2 ∨ (contents line.text).2 ≠ none) := by
  unfold fault?
  split
  · simp_all
  · split
    · simp_all
    · split
      · simp_all
      · simp_all

/-- A line without fault is whole steps away from the lines before it. -/
theorem depthAfter_mod_two (h : line.fault? depth = none) :
    line.depthAfter depth % 2 = depth % 2 := by
  cases hb : line.isBlank with
  | true => rw [depthAfter_of_isBlank depth hb]
  | false =>
    rw [depthAfter_of_not_isBlank depth hb]
    refine Decidable.byContradiction fun hne => ?_
    exact fault?_ne_none_iff.2 (.inr ⟨hb, .inl hne⟩) h

end

/-- The error for a fault, on line number `number`. A literal that is not closed takes the line
break behind it, if there is one: the error then stands on the line after, and if the literal ends
behind a backslash it is the line break that this cannot stand before. -/
def TextFault.error (number : Nat) (hasBreak : Bool) : TextFault → ReadError
  | .badWord word => (Token.faultOf word).onLine number
  | .unknownEscape c => .lexical ⟨.unknownEscape c, number⟩
  | .openLiteral escaping =>
    if hasBreak then
      .lexical ⟨if escaping then .unknownEscape '\n' else .unterminatedString, number + 1⟩
    else .lexical ⟨.unterminatedString, number⟩

/-- The error for a fault, on line number `number`. -/
def Fault.error (number : Nat) (hasBreak : Bool) : Fault → ReadError
  | .tab => .lexical ⟨.tabInIndentation, number⟩
  | .uneven spaces depth => .lexical ⟨.unevenIndentation spaces depth, number⟩
  | .text f => f.error number hasBreak

/-! ## All lines -/

/-- The indent behind lines, when it is `depth` before them. -/
def depthBehind (depth : Nat) : List SourceLine → Nat
  | [] => depth
  | line :: lines => depthBehind (line.depthAfter depth) lines

/-- The tokens of lines without fault, when the indent before them is `depth`. -/
def tokensOf (depth : Nat) : List SourceLine → List Token
  | [] => []
  | line :: lines => line.tokens depth ++ tokensOf (line.depthAfter depth) lines

/-- No line has a fault behind the lines before it. -/
def Clean (depth : Nat) (lines : List SourceLine) : Prop :=
  ∀ before line after, lines = before ++ line :: after → line.fault? (depthBehind depth before) = none

/-- The tokens of lines and of the end of the input behind them, up to the first fault. The first
line has number `number`, and the indent before it is `depth`. -/
def listing (number depth : Nat) : List SourceLine → List Token × Option ReadError
  | [] => (List.replicate (depth / 2) .dedent ++ [.endOfInput], none)
  | line :: lines =>
    match line.fault? depth with
    | some f => (line.tokensBefore depth f, some (f.error number (!lines.isEmpty)))
    | none =>
      let rest := listing (number + 1) (line.depthAfter depth) lines
      (line.tokens depth ++ rest.1, rest.2)

theorem listing_cons_of_fault {line : SourceLine} {lines : List SourceLine} {depth : Nat} {f : Fault}
    (number : Nat) (h : line.fault? depth = some f) :
    listing number depth (line :: lines) =
      (line.tokensBefore depth f, some (f.error number (!lines.isEmpty))) := by
  simp only [listing, h]

theorem listing_cons_of_clean {line : SourceLine} {lines : List SourceLine} {depth : Nat}
    (number : Nat) (h : line.fault? depth = none) :
    listing number depth (line :: lines) =
      (line.tokens depth ++ (listing (number + 1) (line.depthAfter depth) lines).1,
        (listing (number + 1) (line.depthAfter depth) lines).2) := by
  simp only [listing, h]

theorem clean_cons {line : SourceLine} {lines : List SourceLine} {depth : Nat} :
    Clean depth (line :: lines) ↔
      line.fault? depth = none ∧ Clean (line.depthAfter depth) lines := by
  constructor
  · intro h
    refine ⟨h [] line lines rfl, fun before l after hl => ?_⟩
    exact h (line :: before) l after (by rw [hl, List.cons_append])
  · rintro ⟨hline, hlines⟩ before l after hl
    cases before with
    | nil =>
      obtain ⟨rfl, -⟩ := List.cons.inj hl
      exact hline
    | cons b before =>
      obtain ⟨rfl, hl'⟩ := List.cons.inj hl
      exact hlines before l after hl'

/-- Lines without fault are listed whole. -/
theorem listing_of_clean {lines : List SourceLine} {depth : Nat} (number : Nat)
    (h : Clean depth lines) :
    listing number depth lines =
      (tokensOf depth lines ++
        (List.replicate (depthBehind depth lines / 2) Token.dedent ++ [Token.endOfInput]), none) := by
  induction lines generalizing number depth with
  | nil => rfl
  | cons line lines ih =>
    obtain ⟨hline, hlines⟩ := clean_cons.1 h
    rw [listing_cons_of_clean number hline, ih (number + 1) hlines, tokensOf, depthBehind,
      List.append_assoc]

/-- The first fault ends the listing. -/
theorem listing_of_fault {before after : List SourceLine} {line : SourceLine} {depth : Nat}
    {f : Fault} (number : Nat) (hb : Clean depth before)
    (hf : line.fault? (depthBehind depth before) = some f) :
    listing number depth (before ++ line :: after) =
      (tokensOf depth before ++ line.tokensBefore (depthBehind depth before) f,
        some (f.error (number + before.length) (!after.isEmpty))) := by
  induction before generalizing number depth with
  | nil =>
    rw [depthBehind] at hf ⊢
    rw [List.nil_append, listing_cons_of_fault number hf]
    rfl
  | cons b before ih =>
    obtain ⟨hline, hbefore⟩ := clean_cons.1 hb
    rw [List.cons_append, listing_cons_of_clean number hline, ih (number + 1) hbefore hf, tokensOf,
      depthBehind, List.append_assoc, List.length_cons, Nat.add_assoc, Nat.add_comm 1]

end SourceLine

end Offside
