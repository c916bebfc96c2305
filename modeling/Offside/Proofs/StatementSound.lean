import Offside.Proofs.ExpressionSound
import Offside.Proofs.ProgramGrammar

set_option autoImplicit false

/-! # Only statements are read

What the rules of `Parse.Statement` read are statements, and what they give are their trees,
provided that no block among the tokens is opened and closed at once: the rules would take such a
block, which the grammar does not know. The lexer never makes one. -/

namespace Offside

/-- Only a path, possibly in parentheses, has the tree of a path. -/
theorem Derives.target {class? : String → Option ClassRef} {l : Level} {us : List Token} {e : Node}
    {p : DottedPath} (h : Derives class? l us e) (he : e = .path p) : Target us p := by
  induction h with
  | ofConjunction h ih | ofNegation h ih | ofComparison h ih | ofSum h ih | ofProduct h ih
  | ofUnary h ih | ofPrimary h ih => exact ih he
  | parentheses h ih => exact .parentheses (ih he)
  | path q =>
    obtain rfl := Node.path.inj he
    exact .path q
  | negative h ih => simp [Parse.negative] at he
  | or | and | not | compare | add | sub | mul | div | number | string | true | false | none | call
  | stringify | construct => simp at he

namespace Parse

variable {α : Type} {n : Nat} {st : ParseState}

/-- What a rule promises: it reads at least one token, and what it reads has the property `P` unless
a block in it is empty. -/
def Finds (P : Scope → List Token → α → Scope → Prop) (Γ : Scope) (us : List Token) (x : α)
    (Γ' : Scope) : Prop :=
  us ≠ [] ∧ (NoEmptyBlock us → P Γ us x Γ')

/-- The statements of a scope in which the name `str` is not that of a class. -/
abbrev IsStatement : Scope → List Token → Node → Scope → Prop :=
  DerivesStatement Scope.constructible?

/-! ## Repetition -/

/-- Things one behind the other, up to what ends them. -/
theorem Meets.many {P : Scope → List Token → α → Scope → Prop} {done : Parse Bool} {item : Parse α}
    {stop : List Token} {k : Nat} (hn : n ≤ k)
    (hdone : ∀ (m : Nat) (st : ParseState), Meets m done st fun us b Γ =>
      Γ = st.scope ∧ us = if b then stop else [])
    (hitem : ∀ st : ParseState, Meets n item st (Finds P st.scope)) :
    Meets n (many done item k) st fun us xs Γ => ∃ vs, us = vs ++ stop ∧
      (NoEmptyBlock vs → Many P st.scope vs xs Γ) := by
  induction k generalizing n st with
  | zero =>
    obtain rfl := Nat.le_zero.1 hn
    exact .tooDeep
  | succ k ih =>
    refine bind (hdone n st) ?_
    rintro us b st₁ ⟨hΓ₁, rfl⟩
    cases b with
    | true =>
      refine .pure ⟨[], ?_, fun _ => hΓ₁ ▸ .nil _⟩
      rw [if_pos rfl, List.append_nil, List.nil_append]
    | false =>
      refine bind (hitem st₁) ?_
      rintro vs x st₂ ⟨hne, hx⟩
      -- each thing takes a token, so the bound goes down with the tokens that are left
      have hpos := List.length_pos_iff.2 hne
      refine bind (ih (by omega) fun st => (hitem st).mono (by omega) fun _ _ _ h => h) ?_
      rintro us xs st₃ ⟨ws, rfl, hxs⟩
      refine .pure ⟨vs ++ ws, ?_, fun hblock => ?_⟩
      · simp
      · rw [hΓ₁] at hx
        exact .cons (hx (hblock.mono (List.infix_append' [] vs ws)))
          (hxs (hblock.mono (List.suffix_append vs ws).isInfix))

theorem Meets.accept_dedent (m : Nat) (st : ParseState) :
    Meets m (accept .dedent) st fun us b Γ =>
      Γ = st.scope ∧ us = if b then [.dedent] else [] := by
  refine current_bind ?_
  by_cases hc : st.stream.current = .dedent
  · rw [if_pos hc]
    refine advance_bind (by simp [hc]) fun st' hΓ => .pure ⟨hΓ, ?_⟩
    rw [hc]
    rfl
  · rw [if_neg hc]
    exact .pure ⟨rfl, rfl⟩

theorem Meets.atEnd (m : Nat) (st : ParseState) :
    Meets m atEnd st fun us b Γ => Γ = st.scope ∧ us = if b then [] else [] := by
  refine current_bind (.pure ⟨rfl, ?_⟩)
  rw [ite_self]

/-! ## Lines -/

/-- The value of a `return` or its absence. -/
theorem Meets.returned :
    Meets (n - 1) (returned n) st fun us e Γ => Γ = st.scope ∧
      DerivesSimple st.scope.constructible? (.keyword .returnWord :: us) (.returnValue e) := by
  refine current_bind ?_
  split
  · exact .pure ⟨rfl, .bareReturn⟩
  · refine (expression n rfl).mono (Nat.le_refl _) ?_
    rintro us e Γ ⟨hΓ, he⟩
    exact ⟨hΓ, .returnValue he⟩

/-- The arguments of a `print`. -/
theorem Meets.printed :
    Meets (n - 1) (printed n) st fun us args Γ => Γ = st.scope ∧
      DerivesSimple st.scope.constructible? (.keyword .printWord :: us) (.print args) := by
  refine current_bind ?_
  split
  · exact .pure ⟨rfl, @DerivesSimple.print _ [] (by simp)⟩
  · refine (commaSeparated (Nat.sub_le n 1) (fun st hΓ => expression n hΓ) rfl).mono
      (Nat.le_refl _) ?_
    rintro us args Γ ⟨hΓ, parts, -, rfl, rfl, hparts⟩
    exact ⟨hΓ, .print hparts⟩

/-- An expression or an assignment. -/
theorem Meets.assignment :
    Meets (n - 1) (assignment n) st fun us e Γ => Γ = st.scope ∧
      DerivesSimple st.scope.constructible? us e := by
  refine bind (expression n rfl) ?_
  rintro us target st₁ ⟨hΓ₁, htarget⟩
  refine accept_bind (by simp) (fun st₂ hΓ₂ => ?_) fun _ => ?_
  · rw [if_pos rfl]
    split
    · rename_i p
      refine bind ((expression n (hΓ₂.trans hΓ₁)).mono (by omega) fun _ _ _ h => h) ?_
      rintro vs e st₃ ⟨hΓ₃, he⟩
      refine .pure ⟨hΓ₃, ?_⟩
      rw [List.append_nil]
      have htarget' := htarget.target rfl
      unfold assignTo
      split
      · rename_i hp
        obtain ⟨first, rest⟩ := p
        obtain rfl : rest = [] := DottedPath.rest_eq_nil_of_split? hp
        exact .assign htarget' he
      · rename_i object field hp
        exact .assignField htarget' hp he
    · exact .fail _
  · refine .pure ⟨hΓ₁, ?_⟩
    rw [List.append_nil]
    exact .expression htarget

/-- A statement of one line. -/
theorem Meets.simpleStatement :
    Meets (n - 1) (simpleStatement n) st fun us e Γ => Γ = st.scope ∧
      DerivesSimple st.scope.constructible? us e := by
  refine accept_bind (by simp) (fun st₁ hΓ₁ => ?_) fun _ => ?_
  · refine bind (returned.mono (Nat.sub_le _ 1) fun _ _ _ h => h) ?_
    rintro us e st₂ ⟨hΓ₂, he⟩
    rw [hΓ₁] at hΓ₂ he
    refine .pure ⟨hΓ₂, ?_⟩
    rwa [List.append_nil]
  · refine accept_bind (by simp) (fun st₁ hΓ₁ => ?_) fun _ => ?_
    · refine bind (printed.mono (Nat.sub_le _ 1) fun _ _ _ h => h) ?_
      rintro us args st₂ ⟨hΓ₂, hargs⟩
      rw [hΓ₁] at hΓ₂ hargs
      refine .pure ⟨hΓ₂, ?_⟩
      rwa [List.append_nil]
    · exact assignment

/-! ## Blocks -/

/-- A block of statements. -/
theorem Meets.suite {statement : Parse Node} {k : Nat} (hn : n ≤ k + 2)
    (hstatement : ∀ st : ParseState, Meets (n - 2) statement st (Finds IsStatement st.scope)) :
    Meets n (suite statement k) st (Finds (DerivesSuite Scope.constructible?) st.scope) := by
  refine require_bind (by simp) fun st₁ hΓ₁ => ?_
  refine require_bind (by simp) fun st₂ hΓ₂ => ?_
  rw [Nat.sub_sub]
  refine bind (many (by omega) accept_dedent hstatement) ?_
  rintro us body st₃ ⟨vs, rfl, hbody⟩
  refine .pure ⟨by simp, fun hblock => ?_⟩
  rw [List.append_nil] at hblock ⊢
  obtain ⟨hne, hvs⟩ := NoEmptyBlock.of_blockTokens hblock
  rw [hΓ₂.trans hΓ₁] at hbody
  refine .mk (hbody hvs) ?_
  rintro rfl
  exact hne ((hbody hvs).eq_nil rfl)

/-- The names of the parameters of a method. -/
theorem Meets.parameters {k : Nat} (hn : n ≤ k) :
    Meets n (parameters k) st fun us params Γ => Γ = st.scope ∧
      us = commaTokens (params.map fun p => [.name p]) := by
  refine current_bind ?_
  split
  · exact .pure ⟨rfl, rfl⟩
  · have hname : ∀ st' : ParseState, st'.scope = st.scope →
        Meets n (Parse.requireName .noParameterName) st' fun us p Γ =>
          Γ = st.scope ∧ us = [.name p] := by
      intro st' hΓ
      refine requireName.mono (Nat.le_refl n) ?_
      rintro us p Γ ⟨rfl, hΓ'⟩
      exact ⟨hΓ'.trans hΓ, rfl⟩
    refine (commaSeparated hn hname rfl).mono (Nat.le_refl n) ?_
    rintro us params Γ ⟨hΓ, parts, -, rfl, rfl, hparts⟩
    refine ⟨hΓ, ?_⟩
    rw [List.map_map]
    exact congrArg commaTokens (List.map_congr_left hparts)

/-- A method of a class. -/
theorem Meets.method {statement : Parse Node} {k : Nat} (hn : n ≤ k)
    (hstatement : ∀ st : ParseState, Meets (n - 2) statement st (Finds IsStatement st.scope)) :
    Meets n (method statement k) st (Finds (DerivesMethod Scope.constructible?) st.scope) := by
  refine require_bind (by simp) fun st₁ hΓ₁ => ?_
  refine requireName_bind fun name st₂ hΓ₂ => ?_
  refine require_bind (by simp) fun st₃ hΓ₃ => ?_
  refine bind (parameters (by omega)) ?_
  rintro us params st₄ ⟨hΓ₄, rfl⟩
  refine require_bind (by simp) fun st₅ hΓ₅ => ?_
  refine require_bind (by simp) fun st₆ hΓ₆ => ?_
  refine bind (suite (by omega) fun st => (hstatement st).mono (by omega) fun _ _ _ h => h) ?_
  rintro vs body st₇ ⟨hne, hbody⟩
  refine .pure ⟨by simp, fun hblock => ?_⟩
  have htokens : Token.keyword .defWord :: .name name :: .char '(' ::
      (commaTokens (params.map fun p => [.name p]) ++ Token.char ')' :: .char ':' :: (vs ++ [])) =
      .keyword .defWord :: .name name ::
        (argumentTokens (params.map fun p => [.name p]) ++ Token.char ':' :: vs) := by
    simp [argumentTokens]
  rw [htokens] at hblock ⊢
  have hscope : st₆.scope = st.scope :=
    hΓ₆.trans (hΓ₅.trans (hΓ₄.trans (hΓ₃.trans (hΓ₂.trans hΓ₁))))
  rw [hscope] at hbody
  exact .mk (hbody (hblock.mono ⟨.keyword .defWord :: .name name ::
    (argumentTokens (params.map fun p => [.name p]) ++ [Token.char ':']), [], by simp⟩))

/-! ## Classes -/

/-- What a header says of the parent. -/
theorem Meets.baseClass :
    Meets n baseClass st fun us parent? Γ => Γ = st.scope ∧ DerivesBase st.scope us parent? := by
  refine accept_bind (by simp) (fun st₁ hΓ₁ => ?_) fun _ => .pure ⟨rfl, .none⟩
  refine requireName_bind fun name st₂ hΓ₂ => ?_
  refine class?_bind ?_
  cases hc : st₂.classes.lookup name with
  | none => exact .fail _
  | some c =>
    refine require_bind (by simp) fun st₃ hΓ₃ => ?_
    have hscope : st₂.scope = st.scope := hΓ₂.trans hΓ₁
    refine .pure ⟨hΓ₃.trans hscope, .some ?_⟩
    rw [← hscope]
    exact hc

theorem Meets.defineClass {name : String} {parent? : Option ClassRef} :
    Meets n (defineClass name parent?) st fun us c Γ =>
      us = [] ∧ c = st.scope.table.next ∧ Γ = st.scope.define name parent? := by
  have hresult : result (Parse.defineClass name parent?) st = (.ok st.table.next,
      { st with
        classes := st.classes ++ [(name, st.table.next)]
        table := st.table.add ⟨name, parent?, []⟩ }) := rfl
  exact .of_ok hresult (.refl _) ⟨rfl, rfl, rfl⟩

theorem Meets.setMethods {c : ClassRef} {methods : List Method} :
    Meets n (setMethods c methods) st fun us _ Γ =>
      us = [] ∧ Γ = st.scope.setMethods c methods := by
  have hresult : result (Parse.setMethods c methods) st =
      (.ok (), { st with table := st.table.setMethods c methods }) := rfl
  exact .of_ok hresult (.refl _) ⟨rfl, rfl⟩

theorem Meets.parentName (parent? : Option ClassRef) :
    Meets n (parent?.mapM className) st fun us _ Γ => us = [] ∧ Γ = st.scope := by
  cases parent? with
  | none => exact .pure ⟨rfl, rfl⟩
  | some c =>
    have hresult : result ((some c).mapM className) st = (.ok (some (st.table.name c)), st) := rfl
    exact .of_ok hresult (.refl _) ⟨rfl, rfl⟩

/-- A class definition, from behind `class` on. -/
theorem Meets.classDefinition {statement : Parse Node} {k : Nat} (hn : n ≤ k)
    (hstatement : ∀ st : ParseState, Meets (n - 2) statement st (Finds IsStatement st.scope)) :
    Meets n (classDefinition statement k) st fun us e Γ =>
      NoEmptyBlock us → IsStatement st.scope (.keyword .classWord :: us) e Γ := by
  refine requireName_bind fun name st₁ hΓ₁ => ?_
  refine class?_bind ?_
  cases hnew : st₁.classes.lookup name with
  | some c => exact .fail _
  | none =>
    refine bind baseClass ?_
    rintro us parent? st₂ ⟨hΓ₂, hbase⟩
    refine require_bind (by simp) fun st₃ hΓ₃ => ?_
    refine require_bind (by simp) fun st₄ hΓ₄ => ?_
    refine require_bind (by simp) fun st₅ hΓ₅ => ?_
    refine bind defineClass ?_
    rintro _ c st₆ ⟨rfl, rfl, hΓ₆⟩
    refine bind (many (by omega) accept_dedent fun st => method (by omega) fun st =>
      (hstatement st).mono (by omega) fun _ _ _ h => h) ?_
    rintro _ methods st₇ ⟨vs, rfl, hmethods⟩
    refine bind setMethods ?_
    rintro _ _ st₈ ⟨rfl, hΓ₈⟩
    refine bind (parentName parent?) ?_
    rintro _ name? st₉ ⟨rfl, hΓ₉⟩
    refine report_bind fun st₁₀ hΓ₁₀ => ?_
    refine .pure fun hblock => ?_
    -- up to the step in the scope is that of the statement
    have hscope : st₅.scope = st.scope :=
      hΓ₅.trans (hΓ₄.trans (hΓ₃.trans (hΓ₂.trans hΓ₁)))
    have hnew' : st.scope.classes.lookup name = none := by
      rw [← hΓ₁]
      exact hnew
    simp only [List.nil_append, List.append_nil] at hblock ⊢
    have hblock' : NoEmptyBlock (blockTokens vs) :=
      hblock.mono ⟨.name name :: (us ++ [Token.char ':']), [], by simp [blockTokens]⟩
    obtain ⟨hne, hvs⟩ := NoEmptyBlock.of_blockTokens hblock'
    have hmany := hmethods hvs
    rw [hΓ₆, hscope] at hmany
    rw [hΓ₁₀, hΓ₉, hΓ₈, hscope]
    rw [hΓ₁] at hbase
    refine .classDefinition hnew' hbase hmany ?_
    rintro rfl
    exact hne (hmany.eq_nil rfl)

/-! ## Statements -/

/-- A conditional, from behind `if` on. -/
theorem Meets.conditional {statement : Parse Node} {k : Nat} (hn : n ≤ k - 1)
    (hstatement : ∀ st : ParseState, Meets (n - 2) statement st (Finds IsStatement st.scope)) :
    Meets n (conditional statement k) st fun us e Γ =>
      NoEmptyBlock us → IsStatement st.scope (.keyword .ifWord :: us) e Γ := by
  have hsuite : ∀ (m : Nat) (st : ParseState),
      Meets (n - m) (Parse.suite statement k) st
        (Finds (DerivesSuite Scope.constructible?) st.scope) :=
    fun m st => suite (by omega) fun st => (hstatement st).mono (by omega) fun _ _ _ h => h
  refine bind ((expression k rfl).mono hn fun _ _ _ h => h) ?_
  rintro us condition st₁ ⟨hΓ₁, hcondition⟩
  refine require_bind (by simp) fun st₂ hΓ₂ => ?_
  rw [Nat.sub_sub]
  refine bind (hsuite _ st₂) ?_
  rintro vs body st₃ ⟨-, hbody⟩
  rw [hΓ₂.trans hΓ₁] at hbody
  refine accept_bind (by simp) (fun st₄ hΓ₄ => ?_) fun _ => ?_
  · refine require_bind (by simp) fun st₅ hΓ₅ => ?_
    rw [Nat.sub_sub, Nat.sub_sub, Nat.sub_sub]
    refine bind (hsuite _ st₅) ?_
    rintro ws alternative st₆ ⟨-, halternative⟩
    rw [hΓ₅.trans hΓ₄] at halternative
    refine .pure fun hblock => ?_
    rw [List.append_nil] at hblock ⊢
    refine .ifElse hcondition (hbody (hblock.mono ?_)) (halternative (hblock.mono ?_))
    · exact ⟨us ++ [Token.char ':'], .keyword .elseWord :: .char ':' :: ws, by simp⟩
    · exact ⟨us ++ .char ':' :: (vs ++ [Token.keyword .elseWord, .char ':']), [], by simp⟩
  · refine .pure fun hblock => ?_
    rw [List.append_nil] at hblock ⊢
    exact .ifThen hcondition (hbody (hblock.mono ⟨us ++ [Token.char ':'], [], by simp⟩))

/-- Only statements are read. -/
theorem Meets.statement (n : Nat) (st : ParseState) :
    Meets (n - 2) (statement n) st (Finds IsStatement st.scope) := by
  induction n generalizing st with
  | zero => exact .tooDeep
  | succ n ih =>
    have hn : n + 1 - 2 = n - 1 := by omega
    rw [hn]
    refine accept_bind (by simp) (fun st₁ hΓ₁ => ?_) fun _ => ?_
    · refine (classDefinition (n := n) (Nat.le_refl n) ih).mono (by omega) ?_
      intro us e Γ h
      rw [hΓ₁] at h
      exact ⟨by simp, fun hblock => h (hblock.mono (List.suffix_cons _ us).isInfix)⟩
    · refine accept_bind (by simp) (fun st₁ hΓ₁ => ?_) fun _ => ?_
      · refine (conditional (Nat.le_refl (n - 1)) fun st => (ih st).mono (by omega)
          fun _ _ _ h => h).mono (by omega) ?_
        intro us e Γ h
        rw [hΓ₁] at h
        exact ⟨by simp, fun hblock => h (hblock.mono (List.suffix_cons _ us).isInfix)⟩
      · refine bind simpleStatement ?_
        rintro us e st₁ ⟨hΓ₁, he⟩
        refine require_bind (by simp) fun st₂ hΓ₂ => .pure ⟨by simp, fun _ => ?_⟩
        rw [hΓ₂.trans hΓ₁]
        exact .simple he

/-- Only sequences of statements are read. -/
theorem Meets.statements (n : Nat) (st : ParseState) :
    Meets (n - 2) (statements n) st fun us body Γ =>
      NoEmptyBlock us → Many IsStatement st.scope us body Γ := by
  refine bind (many (Nat.sub_le n 2) atEnd (statement n)) ?_
  rintro us body st₁ ⟨vs, rfl, hbody⟩
  refine report_bind fun st₂ hΓ₂ => .pure fun hblock => ?_
  rw [List.append_nil, List.append_nil] at hblock ⊢
  rw [hΓ₂]
  exact hbody hblock

/-- Repetition up to the end of the input leaves off there. -/
theorem current_of_many_atEnd {item : Parse α} {n : Nat} {st st' : ParseState} {xs : List α}
    (h : result (many atEnd item n) st = (.ok xs, st')) : st'.stream.current = .endOfInput := by
  induction n generalizing st xs with
  | zero => simp [many, result_throw] at h
  | succ n ih =>
    have hdone : result Parse.atEnd st = (.ok (st.stream.current = .endOfInput), st) := rfl
    rw [many, result_bind_of_ok hdone] at h
    by_cases hc : st.stream.current = .endOfInput
    · rw [if_pos (decide_eq_true hc), result_pure] at h
      obtain ⟨-, rfl⟩ := Prod.mk.inj h
      exact hc
    · rw [if_neg (by simpa using hc), result_bind] at h
      split at h
      · rename_i x st₁ hitem
        rw [result_bind] at h
        split at h
        · rename_i ys st₂ hmany
          rw [result_pure] at h
          obtain ⟨-, rfl⟩ := Prod.mk.inj h
          exact ih hmany
        · simp at h
      · simp at h

theorem current_of_statements {n : Nat} {st st' : ParseState} {body : List Node}
    (h : result (statements n) st = (.ok body, st')) : st'.stream.current = .endOfInput := by
  rw [statements, result_bind] at h
  split at h
  · rename_i xs st₁ hmany
    rw [result_bind_of_ok (result_report _ st₁), result_pure] at h
    obtain ⟨-, rfl⟩ := Prod.mk.inj h
    have hcurrent := current_of_many_atEnd hmany
    exact hcurrent
  · simp at h

end Parse

end Offside
