import Offside.Proofs.Reader

set_option autoImplicit false

/-! # What a passage takes

Between two positions of a reader lies the text that was taken: it stood in front of what is still
to come, and each of its line breaks counts for a line. Every passage of a reader takes some text,
and what it gives tells something about that text, wherever the reader stands. -/

namespace Offside.Reader

/-- Between the two positions `taken` was taken. -/
structure Takes (r : Reader) (taken : List Char) (r' : Reader) : Prop where
  unread_eq : r.unread = taken ++ r'.unread
  line_eq : r'.line = r.line + taken.count '\n'

namespace Takes

variable {r r₁ r₂ r' : Reader} {c : Char} {taken more : List Char}

theorem refl (r : Reader) : r.Takes [] r := ⟨rfl, rfl⟩

theorem trans (h₁ : r.Takes taken r₁) (h₂ : r₁.Takes more r₂) : r.Takes (taken ++ more) r₂ := by
  constructor
  · rw [h₁.unread_eq, h₂.unread_eq, List.append_assoc]
  · rw [h₂.line_eq, h₁.line_eq, List.count_append, Nat.add_assoc]

theorem size_eq (h : r.Takes taken r') : r.size = taken.length + r'.size := by
  rw [size, h.unread_eq, List.length_append, size]

theorem of_next? (h : r.next? = some (c, r')) : r.Takes [c] r' := by
  refine ⟨unread_of_next? h, ?_⟩
  rw [line_of_next? h, lineAfter, List.count_singleton]
  by_cases hc : c = '\n' <;> simp [hc]

/-- A character that is given back was not taken. -/
theorem of_giveBack (h : r.next? = some (c, r')) : r.Takes [] (r'.giveBack c) := by
  obtain ⟨hunread, hline⟩ := giveBack_of_next? h
  exact ⟨hunread.symm, hline⟩

/-- A character in front of what a passage takes. -/
theorem cons (h : r.next? = some (c, r₁)) (h₁ : r₁.Takes more r₂) : r.Takes (c :: more) r₂ :=
  (of_next? h).trans h₁

end Takes

variable {r r' : Reader} {c : Char}

/-! ## Passages -/

/-- What is taken up to the first character that is no blank, or up to the end. -/
theorem exists_takes_nextVisible? (r : Reader) :
    ∃ blanks, r.Takes (blanks ++ r.nextVisible?.1.toList) r.nextVisible?.2 ∧
      ∀ b ∈ blanks, isBlank b = true := by
  fun_induction nextVisible? r with
  | case1 r h => exact ⟨[], .refl r, by simp⟩
  | case2 r c r' h hc ih =>
    obtain ⟨blanks, htakes, hblanks⟩ := ih
    refine ⟨c :: blanks, .cons h htakes, ?_⟩
    simpa [hc] using hblanks
  | case3 r c r' h hc => exact ⟨[], .of_next? h, by simp⟩

/-- Where only blanks are left, all of the text is taken. -/
theorem unread_of_nextVisible? (h : r.nextVisible? = (none, r')) : r'.unread = [] := by
  fun_induction nextVisible? r with
  | case1 r hn =>
    obtain ⟨-, rfl⟩ := Prod.mk.inj h
    exact next?_eq_none_iff.1 hn
  | case2 r c r' hn hc ih => exact ih h
  | case3 r c r' hn hc => simp at h

theorem exists_takes_skipComment (r : Reader) : ∃ comment, r.Takes comment r.skipComment := by
  fun_induction skipComment r with
  | case1 r h => exact ⟨[], .refl r⟩
  | case2 r r' h => exact ⟨[], .of_giveBack h⟩
  | case3 r c r' h hc ih =>
    obtain ⟨comment, htakes⟩ := ih
    exact ⟨c :: comment, .cons h htakes⟩

/-- What the end of a lead says about the text that the lead takes, when `spaces` spaces were
counted before, and about the text behind it. -/
def LeadEnd.Fits (spaces : Nat) (taken : List Char) (r' : Reader) : LeadEnd → Prop
  | .tab => taken ≠ []
  | .endOfInput => r'.unread = []
  | .text n => n ≤ spaces + taken.length ∧ r'.unread ≠ []

/-- More text in front of the lead has room for more spaces. -/
theorem LeadEnd.Fits.append {m n : Nat} {taken : List Char} {e : LeadEnd} (front : List Char)
    (h : e.Fits n taken r') (hn : n ≤ m + front.length) : e.Fits m (front ++ taken) r' := by
  cases e with
  | tab => exact List.append_ne_nil_of_right_ne_nil _ h
  | endOfInput => exact h
  | text spaces =>
    obtain ⟨hspaces, hunread⟩ := h
    exact ⟨by rw [List.length_append]; omega, hunread⟩

theorem exists_takes_lead (r : Reader) (spaces : Nat) :
    ∃ taken, r.Takes taken (r.lead spaces).2 ∧
      (r.lead spaces).1.Fits spaces taken (r.lead spaces).2 := by
  fun_induction lead r spaces with
  | case1 r spaces h => exact ⟨[], .refl r, next?_eq_none_iff.1 h⟩
  | case2 r spaces r' h ih =>
    obtain ⟨taken, htakes, hfits⟩ := ih
    exact ⟨_, .cons h htakes, hfits.append [' '] (Nat.le_refl _)⟩
  | case3 r spaces r' h _ ih =>
    obtain ⟨taken, htakes, hfits⟩ := ih
    exact ⟨_, .cons h htakes, hfits.append ['\r'] (Nat.le_succ _)⟩
  | case4 r spaces r' h _ _ ih =>
    obtain ⟨taken, htakes, hfits⟩ := ih
    exact ⟨_, .cons h htakes, hfits.append ['\n'] (Nat.zero_le _)⟩
  | case5 r spaces r' h _ _ _ ih =>
    obtain ⟨comment, hcomment⟩ := exists_takes_skipComment r'
    obtain ⟨taken, htakes, hfits⟩ := ih
    exact ⟨_, .cons h (hcomment.trans htakes), hfits.append ('#' :: comment) (Nat.le_add_right ..)⟩
  | case6 r spaces r' h => exact ⟨['\t'], .of_next? h, List.cons_ne_nil _ _⟩
  | case7 r spaces c r' h => exact ⟨[], .of_giveBack h, Nat.le_refl _, List.cons_ne_nil _ _⟩

theorem exists_takes_quotedText (r : Reader) (mark : Char) (text : String) :
    ∃ taken, r.Takes taken (r.quotedText mark text).2 := by
  fun_induction quotedText r mark text with
  | case1 r text h => exact ⟨[], .refl r⟩
  | case2 r text r₁ h => exact ⟨_, .of_next? h⟩
  | case3 r text r₁ h => exact ⟨_, .of_next? h⟩
  | case4 r text r₁ _ h => exact ⟨_, .of_next? h⟩
  | case5 r text r₁ e r₂ h₁ d _ h _ _ ih =>
    obtain ⟨taken, htakes⟩ := ih
    exact ⟨_, .cons h (.cons h₁ htakes)⟩
  | case6 r text r₁ e r₂ h₁ _ h => exact ⟨_, .cons h (.of_next? h₁)⟩
  | case7 r text c r₁ h _ _ _ ih =>
    obtain ⟨taken, htakes⟩ := ih
    exact ⟨_, .cons h htakes⟩

theorem exists_takes_restOfWord (r : Reader) (word : String) :
    ∃ taken, r.Takes taken (r.restOfWord word).2 := by
  fun_induction restOfWord r word with
  | case1 r word h => exact ⟨[], .refl r⟩
  | case2 r word c r' h _ => exact ⟨[], .of_giveBack h⟩
  | case3 r word c r' h _ ih =>
    obtain ⟨taken, htakes⟩ := ih
    exact ⟨c :: taken, .cons h htakes⟩

end Offside.Reader
