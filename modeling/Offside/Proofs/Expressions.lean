import Offside.Proofs.ExpressionComplete
import Offside.Proofs.ExpressionSound

set_option autoImplicit false

/-! # Expressions are read as the grammar tells

Both directions for `Parse.expression`, on every stream and in every scope. -/

namespace Offside.Parse

/-- An expression is read exactly if it stands there, up to the token behind it that cannot go on
with it, and the tree is that of its derivation. A class whose name is that of the function `str`
cannot be called: in front of arguments the name stands for the function alone. The bound is no
limit of the language: it is met only where so many tokens were read. -/
theorem expression_eq_ok_iff_derives (n : Nat) (st : ParseState) :
    (∀ us e next rest, Derives st.scope.constructible? .test us e → us.length < n →
      next ∉ continuations → st.stream.Shows (us ++ next :: rest) →
      ∃ s : TokenStream, result (expression n) st = (.ok e, { st with stream := s }) ∧
        s.Shows (next :: rest)) ∧
    (∀ e st', result (expression n) st = (.ok e, st') →
      ∃ us, Derives st.scope.constructible? .test us e ∧ st.stream.Consumes us st'.stream ∧
        st' = { st with stream := st'.stream }) ∧
    ∀ st', result (expression n) st = (.error (.limit .depth), st') →
      ∃ us s, st.stream.Consumes us s ∧ n ≤ us.length + 1 := by
  have hmeets : Meets (n - 1) (expression n) st (Gives st.scope .test) := Meets.expression n rfl
  refine ⟨?_, ?_, ?_⟩
  · intro us e next rest h hn hnext hs
    obtain ⟨st', he, hscope, hs'⟩ := (h.leads hn hnext).result_eq hs
    have hst := ParseState.eq_of_scope_eq hscope
    exact ⟨st'.stream, by rw [he, ← hst], hs'⟩
  · intro e st' he
    rw [Meets, he] at hmeets
    obtain ⟨us, hs, hscope, h⟩ := hmeets
    exact ⟨us, h, hs, ParseState.eq_of_scope_eq hscope⟩
  · intro st' he
    rw [Meets, he] at hmeets
    obtain ⟨us, s, hs, hn⟩ := hmeets
    exact ⟨us, s, hs, by omega⟩

/-- The state at the start of a source, with some classes. -/
def stateAt (source : String) (classes : List (String × ClassRef)) : ParseState :=
  ⟨(TokenStream.ofString source).toOption.getD default, classes, .empty⟩

/-- A sum behind which the line ends is read as a sum, and the end of the line is left. -/
theorem expression_of_sum :
    ∃ s : TokenStream, result (expression 4) (stateAt "1 + 2\n" []) =
      (.ok (.arithmetic .add (.constant (.number 1)) (.constant (.number 2))),
        { stateAt "1 + 2\n" [] with stream := s }) ∧ s.Shows [.newline] := by
  refine (expression_eq_ok_iff_derives 4 (stateAt "1 + 2\n" [])).1
    [.number 1, .char '+', .number 2] _ .newline [] ?_ (by decide) (by decide) ?_
  · have hsum : Derives (stateAt "1 + 2\n" []).scope.constructible? .sum
        ([Token.number 1] ++ .char '+' :: [Token.number 2]) _ :=
      .add (.ofProduct (.ofUnary (.ofPrimary (.number 1)))) (.ofUnary (.ofPrimary (.number 2)))
    exact .ofConjunction (.ofNegation (.ofComparison (.ofSum hsum)))
  · have hs := TokenStream.shows_listing (stateAt "1 + 2\n" []).stream 3
    have hlisting : ((stateAt "1 + 2\n" []).stream.listing 4).tokens =
        [.number 1, .char '+', .number 2, .newline] := by decide +kernel
    rwa [hlisting] at hs

/-- Were every class counted as callable, this would be wrong: a class may have the name `str`, and
its call with two arguments is not read. -/
theorem not_expression_of_every_class :
    ¬ ∀ (n : Nat) (st : ParseState) (us : List Token) (e : Node) (next : Token) (rest : List Token),
      Derives (fun name => st.classes.lookup name) .test us e → us.length < n →
      next ∉ continuations → st.stream.Shows (us ++ next :: rest) →
      ∃ s : TokenStream, result (expression n) st = (.ok e, { st with stream := s }) ∧
        s.Shows (next :: rest) := by
  intro h
  let st := stateAt "str(1, 2)\n" [("str", ⟨0⟩)]
  have hnumber : ∀ k : Nat,
      Derives (fun name => st.classes.lookup name) .test [.number k] (.constant (.number k)) :=
    fun k => Derives.test_of_primary (.number k)
  have hargs : ∀ a ∈ [([Token.number 1], Node.constant (.number 1)),
      ([.number 2], .constant (.number 2))],
      Derives (fun name => st.classes.lookup name) .test a.1 a.2 := by
    intro a ha
    simp only [List.mem_cons, List.not_mem_nil, or_false] at ha
    rcases ha with rfl | rfl
    · exact hnumber 1
    · exact hnumber 2
  have hclass : (fun name => st.classes.lookup name) "str" = some ⟨0⟩ := rfl
  have hcall : Derives (fun name => st.classes.lookup name) .test
      [.name "str", .char '(', .number 1, .char ',', .number 2, .char ')']
      (.construct ⟨0⟩ [.constant (.number 1), .constant (.number 2)]) :=
    Derives.test_of_primary (.construct hclass hargs)
  have hs := TokenStream.shows_listing st.stream 6
  have hlisting : (st.stream.listing 7).tokens =
      [.name "str", .char '(', .number 1, .char ',', .number 2, .char ')', .newline] := by
    decide +kernel
  rw [hlisting] at hs
  obtain ⟨s, he, -⟩ := h 7 st _ _ .newline [] hcall (by decide) (by decide) hs
  have hfail : (result (expression 7) st).1.toOption = none := by decide +kernel
  rw [he] at hfail
  simp [Except.toOption] at hfail

end Offside.Parse
