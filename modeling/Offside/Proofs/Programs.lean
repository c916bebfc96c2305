import Offside.Program.Source
import Offside.Proofs.SourceTokens
import Offside.Proofs.StatementComplete
import Offside.Proofs.StatementSound

set_option autoImplicit false

/-! # Sources are read as the grammar tells

`Program.ofSource` on every source that can be listed whole: a program is read exactly where the
tokens are one, and it is the program that the grammar tells; everything else is an error of form.
-/

namespace Offside.Program

open Parse

variable {known : ClassTable} {source : String} {s : TokenStream}

/-- What the rules make of a source that has a first token. -/
theorem ofSource_of_ofString (hs : TokenStream.ofString source = .ok s) :
    (ofSource known source).1 =
      match result (Parse.statements (tokenBound source)) ⟨s, [], known⟩ with
      | (.ok body, st) => .ok ⟨st.classes, st.table, body⟩
      | (.error e, _) => .error e := by
  simp only [ofSource, hs, result]
  split
  · rename_i body st he
    rw [he]
  · rename_i e st he
    rw [he]

/-- What is read of a source is a program by the grammar, and all of the source was read. -/
theorem derives_of_ofSource {p : Program} (h : (ofSource known source).1 = .ok p) :
    (tokenize source).error? = none ∧
      DerivesProgram Scope.constructible? known (tokenize source).tokens p := by
  cases hs : TokenStream.ofString source with
  | error e => simp [ofSource, hs] at h
  | ok s =>
    rw [ofSource_of_ofString hs] at h
    have hmeets := Meets.statements (tokenBound source) ⟨s, [], known⟩
    unfold Meets at hmeets
    split at hmeets
    · rename_i body st' he
      obtain ⟨us, hus, hmany⟩ := hmeets
      rw [he] at h
      obtain rfl := Except.ok.inj h
      -- the rules leave off at the end of the input, so the tokens read are all there are
      have hcurrent := current_of_statements he
      have hread : s.Shows (us ++ [Token.endOfInput]) := hcurrent ▸ hus.shows .current
      have herror : (tokenize source).error? = none := by
        rw [tokenize, hs]
        exact hread.error?_listing hus.not_mem _
      obtain ⟨s', ts, htokens, hs', hshows, hend, hblock, -⟩ := exists_tokens herror
      obtain rfl := Except.ok.inj (hs.symm.trans hs')
      obtain rfl : us = ts := hus.eq_of_current hshows hend hcurrent
      exact ⟨herror, us, body, st'.scope, htokens, hmany hblock, rfl⟩
    · rename_i e st' he
      rw [he] at h
      simp at h

/-- Every program by the grammar is read. -/
theorem ofSource_of_derives {p : Program} (h : (tokenize source).error? = none)
    (hp : DerivesProgram Scope.constructible? known (tokenize source).tokens p) :
    (ofSource known source).1 = .ok p := by
  obtain ⟨s, ts, htokens, hs, hshows, hend, hblock, hlength⟩ := exists_tokens h
  obtain ⟨us, body, Γ, hus, hmany, rfl⟩ := hp
  obtain rfl : ts = us := List.append_cancel_right (htokens.symm.trans hus)
  have hbound : ts.length < tokenBound source := by
    unfold tokenBound
    omega
  let st : ParseState := ⟨s, [], known⟩
  have hleads : Leads (Parse.statements (tokenBound source)) st.scope (ts ++ [Token.endOfInput])
      (pure body) Γ [.endOfInput] := Leads.statements hmany hbound
  obtain ⟨st', he, rfl, -⟩ := hleads.result_eq hshows
  rw [ofSource_of_ofString hs, he]
  rfl

/-- What is not read of a source that can be listed is an error of form. -/
theorem exists_syntactic_of_ofSource {e : Error} (h : (tokenize source).error? = none)
    (he : (ofSource known source).1 = .error e) : ∃ e', e = .syntactic e' := by
  obtain ⟨s, ts, htokens, hs, hshows, hend, hblock, hlength⟩ := exists_tokens h
  have hreadable : ∀ e, ¬ FailsAhead s e := by
    rintro e ⟨us, s', s'', hus, hne, hadvance⟩
    exact absurd hadvance (hus.advance_ne_error hshows hend hne)
  rw [ofSource_of_ofString hs] at he
  have hmeets := Meets.statements (tokenBound source) ⟨s, [], known⟩
  unfold Meets at hmeets
  split at hmeets
  · rename_i body st' hresult
    simp [hresult] at he
  · rename_i e' st' hresult
    rw [hresult] at he
    obtain rfl := Except.error.inj he
    cases e' with
    | syntactic e' => exact ⟨e', rfl⟩
    -- neither the text nor the bound can be at fault
    | lexical e' => exact (hreadable _ hmeets).elim
    | limit l =>
      cases l with
      | depth =>
        obtain ⟨us, s', hus, hn⟩ := hmeets
        obtain ⟨vs, rfl, -⟩ := hus.exists_rest hshows hend
        rw [List.length_append] at hlength
        unfold tokenBound at hn
        omega
      | digits f => exact (hreadable _ hmeets).elim
    | runtime e' => exact hmeets.elim

/-- A source is read exactly if its tokens are a program, and then as that program; if they are none
it has an error of form. A class whose name is that of the function `str` cannot be called. -/
theorem ofSource_eq_ok_iff_derives (known : ClassTable) (source : String)
    (h : (tokenize source).error? = none) :
    (∀ p, (ofSource known source).1 = .ok p ↔
      DerivesProgram Scope.constructible? known (tokenize source).tokens p) ∧
    ((¬ ∃ p, DerivesProgram Scope.constructible? known
        (tokenize source).tokens p) →
      ∃ e, (ofSource known source).1 = .error (.syntactic e)) := by
  constructor
  · intro p
    exact ⟨fun hp => (derives_of_ofSource hp).2, ofSource_of_derives h⟩
  · intro hnone
    cases hp : (ofSource known source).1 with
    | ok p => exact absurd ⟨p, (derives_of_ofSource hp).2⟩ hnone
    | error e =>
      obtain ⟨e', rfl⟩ := exists_syntactic_of_ofSource h hp
      exact ⟨e', rfl⟩

/-- A source with a class, whose method has a body, and a call of the class. -/
theorem derives_of_class_source :
    (tokenize "class A:\n  def f(x):\n    return x\nprint A()\n").error? = none ∧
      DerivesProgram Scope.constructible? .empty
        (tokenize "class A:\n  def f(x):\n    return x\nprint A()\n").tokens
        ⟨[("A", ⟨0⟩)],
          ⟨#[⟨"A", none, [⟨"f", ["x"], .methodBody (.sequence [.returnValue (.path ⟨"x", []⟩)])⟩]⟩]⟩,
          [.classDefinition ⟨0⟩, .print [.construct ⟨0⟩ []]]⟩ := by
  -- one run of the rules tells that the tokens are a program, and that there are no others
  have hread : ∀ source p, (ofSource .empty source).1 = .ok p →
      (tokenize source).error? = none ∧
        DerivesProgram Scope.constructible? .empty (tokenize source).tokens p := by
    intro source p hp
    have htokens := (derives_of_ofSource hp).1
    exact ⟨htokens, ((ofSource_eq_ok_iff_derives _ _ htokens).1 p).1 hp⟩
  exact hread _ _ (by decide +kernel)

/-- Were every class counted as callable, this would be wrong: a class may have the name `str`, and
its call with two arguments is an error of form. -/
theorem not_ofSource_of_every_class :
    ¬ ∀ (known : ClassTable) (source : String), (tokenize source).error? = none → ∀ p,
      ((ofSource known source).1 = .ok p ↔
        DerivesProgram (fun Γ name => Γ.classes.lookup name) known
          (tokenize source).tokens p) := by
  intro h
  let callable : Scope → String → Option ClassRef := fun Γ name => Γ.classes.lookup name
  let Γ : Scope := Scope.define ⟨[], .empty⟩ "str" none
  have hnumber : ∀ (class? : String → Option ClassRef) (k : Nat),
      Derives class? .test [.number k] (.constant (.number k)) :=
    fun _ k => Derives.test_of_primary (.number k)
  have hsuite : DerivesSuite callable Γ _ (.sequence [.returnValue (.constant (.number 1))]) Γ :=
    .mk (.cons (.simple (.returnValue (hnumber _ 1))) (.nil _)) (by simp)
  have hmethod : DerivesMethod callable Γ _ ⟨"f", [], _⟩ Γ := .mk hsuite
  have hnew : (⟨[], .empty⟩ : Scope).classes.lookup "str" = none := rfl
  have hclass : DerivesStatement callable ⟨[], .empty⟩ _ (.classDefinition ⟨0⟩) _ :=
    .classDefinition hnew .none (.cons hmethod (.nil _)) (by simp)
  have hargs : ∀ (class? : String → Option ClassRef), ∀ a ∈ [([Token.number 1],
      Node.constant (.number 1)), ([.number 2], .constant (.number 2))],
      Derives class? .test a.1 a.2 := by
    intro class? a ha
    simp only [List.mem_cons, List.not_mem_nil, or_false] at ha
    rcases ha with rfl | rfl
    · exact hnumber class? 1
    · exact hnumber class? 2
  have hfound : callable ⟨[("str", ⟨0⟩)], (Γ.setMethods ⟨0⟩ [⟨"f", [], .methodBody
      (.sequence [.returnValue (.constant (.number 1))])⟩]).table⟩ "str" = some ⟨0⟩ := rfl
  have hcall : DerivesStatement callable _ _ (.construct ⟨0⟩ _) _ :=
    .simple (.expression (Derives.test_of_primary (.construct hfound (hargs _))))
  have hrefuted : ∀ source us body Γ, Many (DerivesStatement callable) ⟨[], .empty⟩ us body Γ →
      (tokenize source).error? = none ∧ (tokenize source).tokens = us ++ [Token.endOfInput] ∧
        (ofSource .empty source).1.toOption = none → False := by
    intro source us body Γ hmany hrun
    obtain ⟨htokens, hus, hfail⟩ := hrun
    rw [(h .empty source htokens _).2 ⟨us, body, Γ, hus, hmany, rfl⟩] at hfail
    simp [Except.toOption] at hfail
  exact hrefuted "class str:\n  def f():\n    return 1\nstr(1, 2)\n" _ _ _
    (.cons hclass (.cons hcall (.nil _))) (by decide +kernel)

end Offside.Program
