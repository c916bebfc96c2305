import Offside.Proofs.Endings

set_option autoImplicit false

/-! # Comparisons without objects

Numbers, texts and truth values are compared within their kind, and each kind is in one total order.
A comparison asks for equality, for order, or for both one after the other, and what it makes of the
answers is what its sign says, because the order is total.

If the left value is no object, no tree is run, whatever the right one is. Then two values that are
not of one kind cannot be compared, except for two empty ones, which are equal but in no order. -/

namespace Offside

namespace Value

/-- Two numbers, two texts or two truth values. -/
inductive OneKind : Value → Value → Prop
  | numbers (m n : Int) : OneKind (.number m) (.number n)
  | strings (s t : String) : OneKind (.string s) (.string t)
  | bools (x y : Bool) : OneKind (.bool x) (.bool y)

/-- The order within a kind. Texts are compared code point by code point, and `False` is before
`True`. -/
inductive Before : Value → Value → Prop
  | numbers {m n : Int} (h : m < n) : Before (.number m) (.number n)
  | strings {s t : String} (h : List.Lex (fun c d => c.toNat < d.toNat) s.toList t.toList) :
    Before (.string s) (.string t)
  | bools : Before (.bool false) (.bool true)

variable {a b c : Value}

/-! ## The order -/

theorem OneKind.symm (h : a.OneKind b) : b.OneKind a := by
  cases h <;> constructor

/-- The order of texts is the one of strings. -/
theorem before_string_iff {s t : String} : (string s).Before (string t) ↔ s < t := by
  constructor
  · rintro (_ | h)
    exact h
  · exact .strings

theorem plainLess?_eq_some_true_iff : a.plainLess? b = some true ↔ a.Before b := by
  constructor
  · intro h
    unfold plainLess? at h
    split at h
    · exact .numbers (by simpa using h)
    · exact before_string_iff.2 (by simpa using h)
    · next x y =>
      cases x <;> cases y <;> simp at h
      exact .bools
    · simp at h
  · rintro (h | h | _)
    · exact congrArg some (decide_eq_true h)
    · exact congrArg some (decide_eq_true h)
    · rfl

instance : Decidable (a.Before b) := decidable_of_iff _ plainLess?_eq_some_true_iff

theorem plainLess?_of_oneKind (h : a.OneKind b) : a.plainLess? b = some (decide (a.Before b)) := by
  have hsome : ∃ x, a.plainLess? b = some x := by
    cases h <;> exact ⟨_, rfl⟩
  obtain ⟨x, hx⟩ := hsome
  rw [hx, Option.some.injEq, Bool.eq_iff_iff, decide_eq_true_iff, ← plainLess?_eq_some_true_iff, hx,
    Option.some.injEq]

theorem plainEqual?_of_oneKind (h : a.OneKind b) : a.plainEqual? b = some (decide (a = b)) := by
  cases h <;> simp [plainEqual?, Bool.beq_eq_decide_eq]

theorem plainEqual?_of_not_oneKind (h : ¬ a.OneKind b) : a.plainEqual? b = none := by
  unfold plainEqual?
  split
  · exact absurd (.numbers ..) h
  · exact absurd (.strings ..) h
  · exact absurd (.bools ..) h
  · rfl

theorem plainLess?_of_not_oneKind (h : ¬ a.OneKind b) : a.plainLess? b = none := by
  unfold plainLess?
  split
  · exact absurd (.numbers ..) h
  · exact absurd (.strings ..) h
  · exact absurd (.bools ..) h
  · rfl

theorem Before.trans (h : a.Before b) (h' : b.Before c) : a.Before c := by
  cases h with
  | numbers h =>
    cases h' with
    | numbers h' => exact .numbers (Int.lt_trans h h')
  | strings h =>
    cases h' with
    | strings h' => exact before_string_iff.2 (String.lt_trans h h')
  | bools => cases h'

theorem Before.irrefl (a : Value) : ¬ a.Before a := by
  rintro (h | h)
  · exact Int.lt_irrefl _ h
  · exact String.lt_irrefl _ h

theorem Before.asymm (h : a.Before b) : ¬ b.Before a := fun h' => irrefl a (h.trans h')

theorem Before.ne (h : a.Before b) : a ≠ b := by
  rintro rfl
  exact irrefl _ h

theorem OneKind.trichotomy (h : a.OneKind b) : a.Before b ∨ a = b ∨ b.Before a := by
  cases h with
  | numbers m n =>
    rcases Int.lt_trichotomy m n with h | rfl | h
    · exact .inl (.numbers h)
    · exact .inr (.inl rfl)
    · exact .inr (.inr (.numbers h))
  | strings s t =>
    simp only [before_string_iff, string.injEq]
    by_cases hst : s < t
    · exact .inl hst
    · by_cases hts : t < s
      · exact .inr (.inr hts)
      · exact .inr (.inl (String.le_antisymm (String.not_lt.1 hts) (String.not_lt.1 hst)))
  | bools x y =>
    cases x <;> cases y <;> simp [Before.bools]

theorem OneKind.not_before_iff (h : a.OneKind b) : ¬ a.Before b ↔ b.Before a ∨ a = b := by
  constructor
  · intro hab
    rcases h.trichotomy with hab' | heq | hba
    · exact absurd hab' hab
    · exact .inr heq
    · exact .inl hba
  · rintro (hba | rfl)
    · exact hba.asymm
    · exact Before.irrefl _

end Value

/-! ## Comparing -/

/-- What a comparison says about two values. -/
def Comparator.Says (a b : Value) : Comparator → Prop
  | equal => a = b
  | notEqual => a ≠ b
  | less => a.Before b
  | greater => b.Before a
  | lessOrEqual => a.Before b ∨ a = b
  | greaterOrEqual => b.Before a ∨ a = b

instance (a b : Value) : DecidablePred (Comparator.Says a b)
  | .equal => inferInstanceAs (Decidable (a = b))
  | .notEqual => inferInstanceAs (Decidable (a ≠ b))
  | .less => inferInstanceAs (Decidable (a.Before b))
  | .greater => inferInstanceAs (Decidable (b.Before a))
  | .lessOrEqual => inferInstanceAs (Decidable (a.Before b ∨ a = b))
  | .greaterOrEqual => inferInstanceAs (Decidable (b.Before a ∨ a = b))

/-- The error of a comparison that is not possible between values of these types. -/
def Comparator.refusal (left right : String) : Comparator → RuntimeError
  | equal | notEqual => .noEquality left right
  | less | greater | lessOrEqual | greaterOrEqual => .noOrdering left right

/-- Of less, equal and greater just one holds. -/
theorem Value.OneKind.existsUnique_comparator {a b : Value} (h : a.OneKind b) :
    ∃! c, c ∈ [Comparator.less, .equal, .greater] ∧ c.Says a b := by
  simp only [List.mem_cons, List.not_mem_nil, or_false]
  rcases h.trichotomy with hab | rfl | hba
  · refine ⟨.less, ⟨.inl rfl, hab⟩, ?_⟩
    rintro _ ⟨rfl | rfl | rfl, hc⟩
    · rfl
    · exact absurd hc hab.ne
    · exact absurd hc hab.asymm
  · refine ⟨.equal, ⟨.inr (.inl rfl), rfl⟩, ?_⟩
    rintro _ ⟨rfl | rfl | rfl, hc⟩
    · exact absurd hc (Value.Before.irrefl a)
    · rfl
    · exact absurd hc (Value.Before.irrefl a)
  · refine ⟨.greater, ⟨.inr (.inr rfl), hba⟩, ?_⟩
    rintro _ ⟨rfl | rfl | rfl, hc⟩
    · exact absurd hc hba.asymm
    · exact absurd hc.symm hba.ne
    · rfl

namespace Run

/-- What comparing two values comes to if the left one is no object. -/
inductive Compares (σ : Setting) (h : Heap) : Comparator → Value → Value → Except Interrupt Bool → Prop
  /-- Values of one kind. -/
  | oneKind {a b : Value} (c : Comparator) (hkind : a.OneKind b) :
    Compares σ h c a b (.ok (decide (c.Says a b)))
  | emptyEqual : Compares σ h .equal .empty .empty (.ok true)
  | emptyNotEqual : Compares σ h .notEqual .empty .empty (.ok false)
  /-- All other values. -/
  | refused {c : Comparator} {a b : Value} (hkind : ¬ a.OneKind b)
    (hempty : ¬ (a = .empty ∧ b = .empty ∧ (c = .equal ∨ c = .notEqual))) :
    Compares σ h c a b (.error (.failed (c.refusal (σ.typeName h a) (σ.typeName h b))))

section

variable {σ : Setting} {execute : Node → Run Value} {a b : Value} {st st₁ st₂ : RunState}

theorem gives_equal_of_oneKind (h : a.OneKind b) :
    Gives (equal σ execute a b) st (decide (a = b)) st := by
  unfold equal
  rw [Value.plainEqual?_of_oneKind h]
  rfl

theorem gives_less_of_oneKind (h : a.OneKind b) :
    Gives (less σ execute a b) st (decide (a.Before b)) st := by
  unfold less
  rw [Value.plainLess?_of_oneKind h]
  rfl

/-- Each comparison says of two values of one kind what it is to say. -/
theorem gives_compare_of_oneKind (c : Comparator) (h : a.OneKind b) :
    Gives (compare σ execute c a b) st (decide (c.Says a b)) st := by
  have hequal : Gives (equal σ execute a b) st (decide (a = b)) st := gives_equal_of_oneKind h
  have hless : Gives (less σ execute a b) st (decide (a.Before b)) st := gives_less_of_oneKind h
  cases c with
  | equal => exact hequal
  | less => exact hless
  | notEqual =>
    have hmeans : decide (Comparator.notEqual.Says a b) = !decide (a = b) := decide_not
    rw [hmeans]
    exact hequal.bind (gives_pure _ st)
  | greaterOrEqual =>
    have hmeans : decide (Comparator.greaterOrEqual.Says a b) = !decide (a.Before b) := by
      rw [← decide_not]
      exact decide_eq_decide.2 h.not_before_iff.symm
    rw [hmeans]
    exact hless.bind (gives_pure _ st)
  | lessOrEqual =>
    by_cases hab : a.Before b
    · have hmeans : Comparator.lessOrEqual.Says a b := .inl hab
      rw [decide_eq_true hmeans]
      rw [decide_eq_true hab] at hless
      exact hless.bind (gives_pure true st)
    · have hmeans : decide (Comparator.lessOrEqual.Says a b) = decide (a = b) :=
        decide_eq_decide.2 (or_iff_right hab)
      rw [hmeans]
      rw [decide_eq_false hab] at hless
      exact hless.bind hequal
  | greater =>
    by_cases hab : a.Before b
    · have hmeans : ¬ Comparator.greater.Says a b := hab.asymm
      rw [decide_eq_false hmeans]
      rw [decide_eq_true hab] at hless
      exact hless.bind (gives_pure false st)
    · -- what is not before the other is behind it or equal to it, but not both
      have hmeans : decide (Comparator.greater.Says a b) = !decide (a = b) := by
        rw [← decide_not]
        exact decide_eq_decide.2
          ⟨fun hba => hba.ne.symm, (h.not_before_iff.1 hab).resolve_right⟩
      rw [hmeans]
      rw [decide_eq_false hab] at hless
      exact hless.bind (hequal.bind (gives_pure _ st))

theorem stops_equal_of_not_oneKind (ha : ∀ o, a ≠ .object o) (h : ¬ a.OneKind b)
    (hempty : ¬ (a = .empty ∧ b = .empty)) :
    Stops (equal σ execute a b) st
      (.failed (.noEquality (σ.typeName st.heap a) (σ.typeName st.heap b))) st := by
  unfold equal
  rw [Value.plainEqual?_of_not_oneKind h]
  cases a with
  | object o => exact absurd rfl (ha o)
  | empty =>
    have hb : b ≠ .empty := fun hb => hempty ⟨rfl, hb⟩
    simp only [if_neg hb]
    rfl
  | number | string | bool | classObject => rfl

theorem stops_less_of_not_oneKind (ha : ∀ o, a ≠ .object o) (h : ¬ a.OneKind b) :
    Stops (less σ execute a b) st
      (.failed (.noOrdering (σ.typeName st.heap a) (σ.typeName st.heap b))) st := by
  unfold less
  rw [Value.plainLess?_of_not_oneKind h]
  cases a with
  | object o => exact absurd rfl (ha o)
  | empty | number | string | bool | classObject => rfl

/-- Values that cannot be compared are refused, whatever is asked of them first. -/
theorem stops_compare_of_not_oneKind {c : Comparator} (ha : ∀ o, a ≠ .object o)
    (h : ¬ a.OneKind b) (hempty : ¬ (a = .empty ∧ b = .empty ∧ (c = .equal ∨ c = .notEqual))) :
    Stops (compare σ execute c a b) st
      (.failed (c.refusal (σ.typeName st.heap a) (σ.typeName st.heap b))) st := by
  have hless : Stops (less σ execute a b) st _ st := stops_less_of_not_oneKind ha h
  cases c with
  | equal =>
    exact stops_equal_of_not_oneKind ha h fun hab => hempty ⟨hab.1, hab.2, .inl rfl⟩
  | notEqual =>
    exact (stops_equal_of_not_oneKind ha h fun hab => hempty ⟨hab.1, hab.2, .inr rfl⟩).bind
  | less => exact hless
  | greater | lessOrEqual | greaterOrEqual => exact hless.bind

/-- A comparison without an object on the left runs no tree and leaves everything as it was. -/
theorem exists_compares (σ : Setting) (c : Comparator) (b : Value) (ha : ∀ o, a ≠ .object o)
    (st : RunState) :
    ∃ q, Compares σ st.heap c a b q ∧ ∀ execute, outcome (compare σ execute c a b) st = (q, st) := by
  by_cases hkind : a.OneKind b
  · exact ⟨_, .oneKind c hkind, fun _ => gives_compare_of_oneKind c hkind⟩
  · by_cases hempty : a = .empty ∧ b = .empty ∧ (c = .equal ∨ c = .notEqual)
    · obtain ⟨rfl, rfl, rfl | rfl⟩ := hempty
      · exact ⟨_, .emptyEqual, fun _ => rfl⟩
      · exact ⟨_, .emptyNotEqual, fun _ => rfl⟩
    · exact ⟨_, .refused hkind hempty, fun _ => stops_compare_of_not_oneKind ha hkind hempty⟩

end

section

variable {σ : Setting} {a b : Value} {c : Comparator} {st st₁ st₂ : RunState}
  {q : Except Interrupt Bool}

theorem settled_compare (σ : Setting) (c : Comparator) (b : Value) (ha : ∀ o, a ≠ .object o) :
    Settled fun depth => compare σ (execute σ depth) c a b := by
  intro m n st _ _
  obtain ⟨q, -, hout⟩ := exists_compares σ c b ha st
  rw [hout, hout]

/-- Two trees are compared by their values, in the state that the second one leaves. -/
theorem ends_compare_of_ends {left right : Node}
    (ha : ∀ o, a ≠ .object o) (hleft : Ends σ left st (.ok a, st₁))
    (hright : Ends σ right st₁ (.ok b, st₂)) (hq : q ≠ .error .tooDeep)
    (hout : ∀ execute, outcome (compare σ execute c a b) st₂ = (q, st₂)) :
    Ends σ (.compare c left right) st (q.map .bool, st₂) := by
  have hcompare : ∀ w, Settled fun depth => compare σ (execute σ depth) c a w :=
    fun w => settled_compare σ c w ha
  let value (w : Value) (depth : Nat) : Run Value :=
    compare σ (execute σ depth) c a w >>= fun x => pure (.bool x)
  have hvalue : ∀ w, Settled (value w) := fun w => (hcompare w).bind fun _ => .const _
  have hlast : ComesTo (value b) st₂ (q.map .bool, st₂) := by
    have hcomes : ComesTo (fun depth => compare σ (execute σ depth) c a b) st₂ (q, st₂) :=
      ⟨hq, 0, hout _⟩
    cases q with
    | ok x =>
      have hpure := comesTo_const_iff.2 ⟨by simp, gives_pure (Value.bool x) st₂⟩
      exact ComesTo.bind hcomes hpure (hcompare b) (.const _)
    | error i => exact hcomes.bind_error
  have hafter : ComesTo (fun depth => execute σ depth right >>= fun w => value w depth) st₁
      (q.map .bool, st₂) := ComesTo.bind hright hlast (settled_execute σ right) (hvalue b)
  exact ends_iff_comesTo_step.2 <| ComesTo.bind hleft hafter (settled_execute σ left)
    ((settled_execute σ right).bind hvalue)

theorem Compares.ne_tooDeep {h : Heap} (hq : Compares σ h c a b q) : q ≠ .error .tooDeep := by
  cases hq <;> simp

end

end Run

open Run

/-- If the left value is no object, a comparison comes to what the rules say, whatever runs trees: it
runs none, and leaves everything as it was. Trees with such values are compared so as well. Of two
values of one kind each comparison says what its sign says. There just one of less, equal and greater
holds, less is irreflexive and transitive, and the other comparisons come down to less and equal by
turning the two values round and by negation. -/
theorem comparison_without_object (σ : Setting) (a b : Value) (ha : ∀ o, a ≠ .object o) :
    (∀ c st, ∃ q, Compares σ st.heap c a b q ∧
      ∀ execute, outcome (compare σ execute c a b) st = (q, st)) ∧
    (∀ c left right st st₁ st₂, Ends σ left st (.ok a, st₁) → Ends σ right st₁ (.ok b, st₂) →
      ∃ q, Compares σ st₂.heap c a b q ∧
        Ends σ (.compare c left right) st (q.map .bool, st₂)) ∧
    (a.OneKind b →
      (∃! c, c ∈ [Comparator.less, .equal, .greater] ∧ c.Says a b) ∧
      ∀ execute st, let verdict c x y := (outcome (compare σ execute c x y) st).1
        verdict .greater a b = verdict .less b a ∧
        verdict .lessOrEqual a b = verdict .greaterOrEqual b a ∧
        verdict .lessOrEqual a b = (verdict .less b a).map not ∧
        verdict .notEqual a b = (verdict .equal a b).map not) ∧
    ¬ Comparator.less.Says a a ∧
    ∀ x y, Comparator.less.Says a x → Comparator.less.Says x y → Comparator.less.Says a y := by
  refine ⟨fun c st => exists_compares σ c b ha st, fun c left right st st₁ st₂ hleft hright => ?_,
    fun hkind => ⟨?_, fun execute st => ?_⟩, Value.Before.irrefl a, fun x y => Value.Before.trans⟩
  · obtain ⟨q, hq, hout⟩ := exists_compares σ c b ha st₂
    exact ⟨q, hq, ends_compare_of_ends ha hleft hright hq.ne_tooDeep hout⟩
  · exact hkind.existsUnique_comparator
  · intro verdict
    have hverdict (c : Comparator) : verdict c a b = .ok (decide (c.Says a b)) :=
      congrArg Prod.fst (gives_compare_of_oneKind c hkind)
    have hturned (c : Comparator) : verdict c b a = .ok (decide (c.Says b a)) :=
      congrArg Prod.fst (gives_compare_of_oneKind c hkind.symm)
    simp only [hverdict, hturned, Except.map, Except.ok.injEq, ← decide_not, decide_eq_decide]
    refine ⟨.rfl, or_congr_right eq_comm, ?_, .rfl⟩
    exact or_congr_right eq_comm |>.trans hkind.symm.not_before_iff.symm

/-- A number is neither equal nor unequal to an object, even if the class of that has an `__eq__`. Of
two texts the one with the smaller code point in front is less. -/
theorem comparison_with_object_right :
    let eq : Method :=
      ⟨"__eq__", ["other"], .methodBody (.sequence [.returnValue (.constant (.bool true))])⟩
    let σ : Setting := ⟨.add .empty ⟨"A", none, [eq]⟩, true⟩
    let st := RunState.initial
    let st' : RunState := { st with heap := .add .empty ⟨0⟩ }
    Ends σ (.compare .notEqual (.constant (.number 1)) (.construct ⟨0⟩ [])) st
        (.error (.failed (.noEquality "Number" "A")), st') ∧
      (∃! c, c ∈ [Comparator.less, .equal, .greater] ∧ c.Says (.string "Z") (.string "a")) ∧
      Comparator.less.Says (.string "Z") (.string "ab") := by
  intro eq σ st st'
  have hleft : Ends σ (.constant (.number 1)) st (.ok (.number 1), st) := ⟨by simp, 1, rfl⟩
  have hright : Ends σ (.construct ⟨0⟩ []) st (.ok (.object ⟨0⟩), st') :=
    ⟨by simp, 2, by decide +kernel⟩
  obtain ⟨-, htrees, -⟩ := comparison_without_object σ (.number 1) (.object ⟨0⟩) (by simp)
  obtain ⟨-, -, hkind, -, htrans⟩ :=
    comparison_without_object σ (.string "Z") (.string "a") (by simp)
  refine ⟨?_, (hkind (.strings _ _)).1, htrans (.string "a") (.string "ab") ?_ ?_⟩
  · obtain ⟨q, hq, hends⟩ := htrees .notEqual _ _ _ _ _ hleft hright
    cases hq with
    | oneKind _ hkind => exact absurd hkind (by rintro ⟨⟩)
    | refused _ _ => exact hends
  · exact .strings (by decide)
  · exact .strings (by decide)

end Offside
