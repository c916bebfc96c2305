import Mathlib.Data.List.TakeWhile
import Offside.Proofs.StreamCalls

set_option autoImplicit false

/-! # Steps in and out are balanced

The steps that were handed out and those that wait make up the depth of the line, whatever was asked
of the stream and whatever went wrong on the way. So no more steps out than steps in were ever
handed out, and at the end of the input there were as many of the one as of the other. -/

namespace Offside

namespace Scanner

variable {s s' : Scanner} {taken : List Char} {previous? : Option Token} {handed more : List Token}
  {r : Except ReadError Token} {t : Token}

/-! ## Steps -/

/-- The depth of a scanner is made up of the steps that were handed out and those that wait. -/
structure Balanced (s : Scanner) (handed : List Token) : Prop where
  even : s.depth % 2 = 0
  /-- Steps wait in one direction only. -/
  one_way : s.pendingIndents = 0 ∨ s.pendingDedents = 0
  /-- Steps in that wait lead to the depth of the current line. -/
  indents_le : 2 * s.pendingIndents ≤ s.depth
  count_eq : handed.count .indent + s.pendingIndents =
    handed.count .dedent + s.pendingDedents + s.depth / 2

theorem balanced_ofString (source : String) : (ofString source).Balanced [] :=
  ⟨rfl, .inl rfl, Nat.zero_le _, by simp [ofString]⟩

/-- No more steps out than steps in were handed out. -/
theorem Balanced.count_dedent_le (h : s.Balanced handed) :
    handed.count .dedent ≤ handed.count .indent := by
  have hle := h.indents_le
  have hcount := h.count_eq
  omega

/-- Text without steps keeps the balance, and so do tokens that are none. -/
theorem Balanced.of_passes (h : s.Balanced handed) (hpass : s.Passes taken s')
    (hindent : .indent ∉ more) (hdedent : .dedent ∉ more) : s'.Balanced (handed ++ more) := by
  obtain ⟨-, hdepth, hindents, hdedents⟩ := hpass
  constructor
  · rw [hdepth]
    exact h.even
  · rw [hindents, hdedents]
    exact h.one_way
  · rw [hindents, hdepth]
    exact h.indents_le
  · rw [List.count_append, List.count_append, List.count_eq_zero.2 hindent,
      List.count_eq_zero.2 hdedent, hindents, hdedents, hdepth]
    exact h.count_eq

theorem count_concat_indent (handed : List Token) :
    (handed ++ [Token.indent]).count .indent = handed.count .indent + 1 ∧
      (handed ++ [Token.indent]).count .dedent = handed.count .dedent := by
  simp

theorem count_concat_dedent (handed : List Token) :
    (handed ++ [Token.dedent]).count .indent = handed.count .indent ∧
      (handed ++ [Token.dedent]).count .dedent = handed.count .dedent + 1 := by
  simp

/-- A scan keeps the balance. It is made where no steps wait, so those that wait behind it are those
of the new line. -/
theorem Balanced.scans (h : s.Balanced handed) (hindents : s.pendingIndents = 0)
    (hdedents : s.pendingDedents = 0) (hscan : s.Scans previous? (.ok t) s') :
    s'.Balanced (handed ++ [t]) := by
  have heven := h.even
  have hcount := h.count_eq
  cases hscan with
  | token hpass hne ht =>
    obtain ⟨hindent, hdedent, -⟩ := ne_step ht
    exact h.of_passes hpass (by simpa using hindent.symm) (by simpa using hdedent.symm)
  | stepIn htakes hdeeper heven' hle hindents' hdedents' =>
    obtain ⟨hindent, hdedent⟩ := count_concat_indent handed
    rw [hdedents] at hdedents'
    exact ⟨heven', .inr hdedents', by omega, by omega⟩
  | stepOut htakes hunread hshallower heven' hindents' hdedents' =>
    obtain ⟨hindent, hdedent⟩ := count_concat_dedent handed
    rw [hindents] at hindents'
    exact ⟨heven', .inl hindents', by omega, by omega⟩
  | lineEnd hpass hend hopen => exact h.of_passes hpass (by simp) (by simp)
  | blockEnd hpass hend hclosed hdepth =>
    obtain ⟨hindent, hdedent⟩ := count_concat_dedent handed
    have hindents' := hpass.indents_eq.trans hindents
    refine ⟨rfl, .inl hindents', ?_, ?_⟩
    · simp only
      omega
    · simp only
      omega
  | inputEnd hpass hdepth => exact h.of_passes hpass (by simp) (by simp)

/-- Every read keeps the balance. -/
theorem Balanced.reads (h : s.Balanced handed) (hread : s.Reads previous? r s') :
    s'.Balanced (handed ++ r.toOption.toList) := by
  have hone := h.one_way
  have hle := h.indents_le
  have hcount := h.count_eq
  cases hread with
  | behindEnd hend =>
    exact h.of_passes ⟨.refl _, rfl, rfl, rfl⟩ (by simp [Except.toOption])
      (by simp [Except.toOption])
  | waitingDedent hend hdedents =>
    obtain ⟨hindent, hdedent⟩ := count_concat_dedent handed
    refine ⟨h.even, .inl (hone.resolve_right hdedents), hle, ?_⟩
    simp only [Except.toOption, Option.toList]
    omega
  | waitingIndent hend hdedents hindents =>
    obtain ⟨hindent, hdedent⟩ := count_concat_indent handed
    refine ⟨h.even, .inr hdedents, ?_, ?_⟩
    · simp only
      omega
    · simp only [Except.toOption, Option.toList]
      omega
  | token hend hdedents hindents hscan => exact h.scans hindents hdedents hscan
  | fault hend hpass hne =>
    exact h.of_passes hpass (by simp [Except.toOption]) (by simp [Except.toOption])

/-! ## The end of the input -/

/-- The end of the input is handed out last, and where all blocks are closed. -/
structure Closed (s : Scanner) (previous? : Option Token) (handed : List Token) : Prop where
  last : .endOfInput ∈ handed → previous? = some .endOfInput
  closed : previous? = some .endOfInput →
    s.depth = 0 ∧ s.pendingIndents = 0 ∧ s.pendingDedents = 0

theorem closed_ofString (source : String) : (ofString source).Closed none [] :=
  ⟨(nomatch ·), (nomatch ·)⟩

/-- A token that is not the end of the input leaves the input open. -/
theorem Closed.concat (h : s.Closed previous? handed) (hend : previous? ≠ some .endOfInput)
    (ht : t ≠ .endOfInput) : s'.Closed (some t) (handed ++ [t]) := by
  constructor
  · intro hmem
    rcases List.mem_append.1 hmem with hmem | hmem
    · exact absurd (h.last hmem) hend
    · exact absurd (List.mem_singleton.1 hmem).symm ht
  · exact fun he => absurd (Option.some.inj he) ht

/-- A read hands out the end of the input where all blocks are closed, and nothing else behind
it. -/
theorem Closed.reads (h : s.Closed previous? handed) (hread : s.Reads previous? r s') :
    s'.Closed (r.toOption.or previous?) (handed ++ r.toOption.toList) := by
  cases hread with
  | behindEnd hend => exact ⟨fun _ => rfl, fun _ => h.closed hend⟩
  | waitingDedent hend hdedents => exact h.concat hend (by simp)
  | waitingIndent hend hdedents hindents => exact h.concat hend (by simp)
  | token hend hdedents hindents hscan =>
    cases hscan with
    | token hpass hne ht => exact h.concat hend (ne_step ht).2.2
    | inputEnd hpass hdepth =>
      exact ⟨fun _ => rfl, fun _ => ⟨hpass.depth_eq.trans hdepth, hpass.indents_eq.trans hindents,
        hpass.dedents_eq.trans hdedents⟩⟩
    | _ => exact h.concat hend (by simp)
  | fault hend hpass hne =>
    exact ⟨by simpa [Except.toOption] using h.last, fun he => absurd he hend⟩

end Scanner

namespace TokenStream

/-! ## Streams -/

variable {source : String} {s : TokenStream}

/-- After any calls the depth is made up of the steps that were handed out and those that wait, and
the end of the input was handed out only where all blocks are closed. -/
theorem balanced_after (hs : ofString source = .ok s) (calls : List StreamCall) :
    (s.after calls).scanner.Balanced (handedOut (s.reads calls)) ∧
      (s.after calls).scanner.Closed (some (s.after calls).current)
        (handedOut (s.reads calls)) := by
  refine invariant_reads (P := fun s p rs => s.Balanced (handedOut rs) ∧ s.Closed p (handedOut rs))
    ⟨Scanner.balanced_ofString source, Scanner.closed_ofString source⟩ ?_ hs calls
  intro s p rs ⟨hbalanced, hclosed⟩
  have hread := Scanner.reads_read hbalanced.even p
  rw [handedOut_concat]
  exact ⟨hbalanced.reads hread, hclosed.reads hread⟩

/-- In every state that calls of a stream lead to, failing calls among them, the depth is made of
whole steps, steps wait in one direction only, and the steps that were handed out together with
those that wait make up the depth. So no more steps out than in were handed out at any time, and
with the end of the input there were as many. -/
theorem steps_eq_depth (source : String) (s : TokenStream) (hs : ofString source = .ok s)
    (calls : List StreamCall) :
    let scanner := (s.after calls).scanner
    let handed := handedOut (s.reads calls)
    scanner.depth % 2 = 0 ∧
      (scanner.pendingIndents = 0 ∨ scanner.pendingDedents = 0) ∧
      (handed.count .indent : Int) - handed.count .dedent + scanner.pendingIndents -
        scanner.pendingDedents = scanner.depth / 2 ∧
      handed.count .dedent ≤ handed.count .indent ∧
      (.endOfInput ∈ handed → handed.count .indent = handed.count .dedent) := by
  obtain ⟨hbalanced, hclosed⟩ := balanced_after hs calls
  have hcount := hbalanced.count_eq
  refine ⟨hbalanced.even, hbalanced.one_way, ?_, hbalanced.count_dedent_le, ?_⟩
  · omega
  · intro hmem
    obtain ⟨hdepth, hindents, hdedents⟩ := hclosed.closed (hclosed.last hmem)
    rw [hdepth, hindents, hdedents] at hcount
    simpa using hcount

/-- A line at an uneven depth is an error, and the two steps into the line behind it are taken back
at the end. -/
theorem steps_behind_uneven_line :
    let s : TokenStream := ⟨⟨⟨['\n'], "   b\n    c".toList, 1⟩, 0, 0, 0, false, #[]⟩, .name "a"⟩
    let calls : List StreamCall :=
      .expect ⟨.newline, none⟩ :: List.replicate 11 (.expectNext ⟨.newline, none⟩)
    ofString "a\n   b\n    c" = .ok s ∧
      .error (.lexical ⟨.unevenIndentation 3 0, 2⟩) ∈ s.reads calls ∧
      (handedOut (s.reads calls)).count .indent = (handedOut (s.reads calls)).count .dedent := by
  intro s calls
  have hs : ofString "a\n   b\n    c" = .ok s := by decide +kernel
  have hsteps := steps_eq_depth _ s hs calls
  exact ⟨hs, by decide +kernel, hsteps.2.2.2.2 (by decide +kernel)⟩

end TokenStream

end Offside
