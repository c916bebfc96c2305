import Offside.Proofs.Endings

set_option autoImplicit false

/-! # Division

The quotient of two numbers is cut off towards zero: what is left over of the dividend is smaller than
the divisor, and has the sign of the dividend if it is anything at all. So much fixes the quotient,
whatever the signs are.

Both operands are run before anything is made of their values, the left one first. Only two numbers
are divided; all other pairs are refused for their types, even if the right one is zero. -/

namespace Offside

/-- The quotient of `a` and `b` is `q`, up to a remainder that is smaller than `b` and has the sign
of `a`. -/
def CutQuotient (a b q : Int) : Prop :=
  ∃ r, a = b * q + r ∧ r.natAbs < b.natAbs ∧ (r = 0 ∨ r.sign = a.sign)

section

variable {a b q : Int}

theorem cutQuotient_tdiv (hb : b ≠ 0) : CutQuotient a b (a.tdiv b) := by
  refine ⟨a.tmod b, (Int.mul_tdiv_add_tmod a b).symm, ?_, ?_⟩
  · rw [Int.natAbs_tmod]
    exact Nat.mod_lt _ (Int.natAbs_pos.2 hb)
  · by_cases hdvd : b ∣ a
    · exact .inl (Int.tmod_eq_zero_of_dvd hdvd)
    · exact .inr (by rw [Int.sign_tmod, if_neg hdvd])

/-- There is one such quotient only. -/
theorem CutQuotient.eq_tdiv (h : CutQuotient a b q) : q = a.tdiv b := by
  obtain ⟨r, ha, hlt, hsign⟩ := h
  have hb : b ≠ 0 := by
    rintro rfl
    simp at hlt
  rcases Int.le_total 0 a with hpos | hneg
  · have hr : 0 ≤ r := by
      rcases hsign with rfl | hsign
      · exact Int.le_refl 0
      · rwa [← Int.sign_nonneg_iff, hsign, Int.sign_nonneg_iff]
    exact ((Int.tdiv_tmod_unique hpos hb).2 ⟨by omega, hr, by omega⟩).1.symm
  · have hr : r ≤ 0 := by
      rcases hsign with rfl | hsign
      · exact Int.le_refl 0
      · rwa [← Int.sign_nonpos_iff, hsign, Int.sign_nonpos_iff]
    exact ((Int.tdiv_tmod_unique' hneg hb).2 ⟨by omega, by omega, hr⟩).1.symm

theorem cutQuotient_iff (hb : b ≠ 0) : CutQuotient a b q ↔ q = a.tdiv b := by
  constructor
  · exact CutQuotient.eq_tdiv
  · rintro rfl
    exact cutQuotient_tdiv hb

theorem CutQuotient.neg_left (h : CutQuotient a b q) : CutQuotient (-a) b (-q) := by
  obtain ⟨r, rfl, hlt, hsign⟩ := h
  refine ⟨-r, by rw [Int.neg_add, Int.mul_neg], by rwa [Int.natAbs_neg], ?_⟩
  rw [Int.neg_eq_zero, Int.sign_neg, Int.sign_neg, Int.neg_inj]
  exact hsign

theorem CutQuotient.neg_right (h : CutQuotient a b q) : CutQuotient a (-b) (-q) := by
  obtain ⟨r, rfl, hlt, hsign⟩ := h
  exact ⟨r, by rw [Int.neg_mul_neg], by rwa [Int.natAbs_neg], hsign⟩

/-- The quotient is that of the absolute values, with a minus if just one of the numbers has one. -/
theorem ArithmeticOp.apply_div_of_ne_zero (hb : b ≠ 0) :
    ArithmeticOp.div.apply a b =
      .ok (if a < 0 ↔ b < 0 then a.natAbs / b.natAbs else -(a.natAbs / b.natAbs)) := by
  simp only [ArithmeticOp.apply, if_neg hb, Except.ok.injEq]
  cases a with
  | ofNat m =>
    have hm : ¬ Int.ofNat m < 0 := by simp
    cases b with
    | ofNat n =>
      have hn : ¬ Int.ofNat n < 0 := by simp
      rw [if_pos (iff_of_false hm hn)]
      rfl
    | negSucc n =>
      rw [if_neg fun h => hm (h.2 (Int.negSucc_lt_zero n))]
      rfl
  | negSucc m =>
    have hm : Int.negSucc m < 0 := Int.negSucc_lt_zero m
    cases b with
    | ofNat n =>
      have hn : ¬ Int.ofNat n < 0 := by simp
      rw [if_neg fun h => hn (h.1 hm)]
      rfl
    | negSucc n =>
      rw [if_pos (iff_of_true hm (Int.negSucc_lt_zero n))]
      rfl

end

namespace Run

/-- What dividing one value by another comes to. -/
inductive QuotientOf (σ : Setting) (h : Heap) : Value → Value → Except Interrupt Value → Prop
  | byZero (a : Int) : QuotientOf σ h (.number a) (.number 0) (.error (.failed .divisionByZero))
  | cut {a b q : Int} (hq : CutQuotient a b q) :
    QuotientOf σ h (.number a) (.number b) (.ok (.number q))
  /-- Not both of them are numbers. -/
  | refused {v w : Value} (hvw : ¬ ∃ a b, v = .number a ∧ w = .number b) :
    QuotientOf σ h v w
      (.error (.failed (.unsupportedOperands .div (σ.typeName h v) (σ.typeName h w))))

/-- How a division ends: where the left operand stops, where the right one stops behind it, or with
what dividing the values comes to, in the state that the right operand leaves. -/
inductive Divides (σ : Setting) (left right : Node) (st : RunState) :
    Except Interrupt Value × RunState → Prop
  | leftStops {i : Interrupt} {st' : RunState} (hleft : Ends σ left st (.error i, st')) :
    Divides σ left right st (.error i, st')
  | rightStops {v : Value} {i : Interrupt} {st₁ st' : RunState}
    (hleft : Ends σ left st (.ok v, st₁)) (hright : Ends σ right st₁ (.error i, st')) :
    Divides σ left right st (.error i, st')
  | both {v w : Value} {st₁ st₂ : RunState} {q : Except Interrupt Value}
    (hleft : Ends σ left st (.ok v, st₁)) (hright : Ends σ right st₁ (.ok w, st₂))
    (hq : QuotientOf σ st₂.heap v w q) : Divides σ left right st (q, st₂)

section

variable {σ : Setting} {h : Heap} {v w : Value} {q q' : Except Interrupt Value} {a b : Int}
  {left right : Node} {st st₁ st₂ : RunState} {r : Except Interrupt Value × RunState}

/-- Dividing values runs no tree and leaves everything as it was. -/
theorem exists_quotientOf (σ : Setting) (v w : Value) (st : RunState) :
    ∃ q, QuotientOf σ st.heap v w q ∧
      ∀ execute, outcome (operate σ execute .div v w) st = (q, st) := by
  by_cases hvw : ∃ a b, v = .number a ∧ w = .number b
  · obtain ⟨a, b, rfl, rfl⟩ := hvw
    by_cases hb : b = 0
    · subst hb
      exact ⟨_, .byZero a, fun _ => rfl⟩
    · refine ⟨_, .cut (cutQuotient_tdiv hb), fun execute => ?_⟩
      simp only [operate, ArithmeticOp.apply, if_neg hb]
      rfl
  · refine ⟨_, .refused hvw, fun execute => ?_⟩
    cases v with
    | number a =>
      cases w with
      | number b => exact absurd ⟨a, b, rfl, rfl⟩ hvw
      | empty | string | bool | classObject | object => rfl
    | empty | string | bool | classObject | object => rfl

theorem QuotientOf.unique (hq : QuotientOf σ h v w q) (hq' : QuotientOf σ h v w q') : q = q' := by
  cases hq with
  | byZero a =>
    cases hq' with
    | byZero => rfl
    | cut hcut =>
      obtain ⟨r, -, hlt, -⟩ := hcut
      simp at hlt
    | refused hvw => exact absurd ⟨a, 0, rfl, rfl⟩ hvw
  | cut hcut =>
    cases hq' with
    | byZero =>
      obtain ⟨r, -, hlt, -⟩ := hcut
      simp at hlt
    | cut hcut' => rw [hcut.eq_tdiv, hcut'.eq_tdiv]
    | refused hvw => exact absurd ⟨_, _, rfl, rfl⟩ hvw
  | refused hvw =>
    cases hq' with
    | byZero a => exact absurd ⟨a, 0, rfl, rfl⟩ hvw
    | cut => exact absurd ⟨_, _, rfl, rfl⟩ hvw
    | refused => rfl

theorem comesTo_operate_div_iff :
    ComesTo (fun depth => operate σ (execute σ depth) .div v w) st r ↔
      QuotientOf σ st.heap v w r.1 ∧ r.2 = st := by
  obtain ⟨q, hq, hout⟩ := exists_quotientOf σ v w st
  have hdeep : q ≠ .error .tooDeep := by
    cases hq <;> simp
  constructor
  · rintro ⟨-, depth, rfl⟩
    rw [hout]
    exact ⟨hq, rfl⟩
  · rintro ⟨hr, hst⟩
    obtain rfl : r = (q, st) := Prod.ext (hr.unique hq) hst
    exact ⟨hdeep, 0, hout _⟩

theorem ends_div_iff : Ends σ (.arithmetic .div left right) st r ↔ Divides σ left right st r := by
  have hoperate : ∀ v w, Settled fun depth => operate σ (execute σ depth) .div v w := by
    intro v w m n st _ _
    obtain ⟨q, -, hout⟩ := exists_quotientOf σ v w st
    rw [hout, hout]
  have hright : ∀ v, Settled fun depth =>
      execute σ depth right >>= fun w => operate σ (execute σ depth) .div v w :=
    fun v => (settled_execute σ right).bind (hoperate v)
  rw [ends_iff_comesTo_step]
  show ComesTo (fun depth => execute σ depth left >>= fun v =>
    execute σ depth right >>= fun w => operate σ (execute σ depth) .div v w) st r ↔ _
  simp only [comesTo_bind_iff (settled_execute σ left) hright,
    comesTo_bind_iff (settled_execute σ right) (hoperate _), comesTo_operate_div_iff,
    ← ends_iff_comesTo]
  constructor
  · rintro (⟨i, st₁, hleft, rfl⟩ | ⟨v, st₁, hleft, ⟨i, st₂, hright, rfl⟩ | ⟨w, st₂, hright, hq, rfl⟩⟩)
    · exact .leftStops hleft
    · exact .rightStops hleft hright
    · exact .both hleft hright hq
  · rintro (hleft | ⟨hleft, hright⟩ | ⟨hleft, hright, hq⟩)
    · exact .inl ⟨_, _, hleft, rfl⟩
    · exact .inr ⟨_, _, hleft, .inl ⟨_, _, hright, rfl⟩⟩
    · exact .inr ⟨_, _, hleft, .inr ⟨_, _, hright, hq, rfl⟩⟩

end

end Run

open Run

/-- A division ends as the rules say. If the operands have the numbers `a` and `b` for values, it fails
for a division by zero just if `b` is zero, and else gives the one number that is the quotient of `a`
and `b` cut off towards zero; with the sign of either number turned round, so is the quotient. If the
values are not both numbers, they are refused, whatever the right one is, in the state that both
operands leave. -/
theorem division_truncates (σ : Setting) (left right : Node) (st : RunState) :
    (∀ r, Ends σ (.arithmetic .div left right) st r ↔ Divides σ left right st r) ∧
    (∀ a b st₁ st₂,
      Ends σ left st (.ok (.number a), st₁) → Ends σ right st₁ (.ok (.number b), st₂) →
        (∀ st', Ends σ (.arithmetic .div left right) st (.error (.failed .divisionByZero), st') ↔
          b = 0 ∧ st' = st₂) ∧
        (b ≠ 0 → ∃ q, Ends σ (.arithmetic .div left right) st (.ok (.number q), st₂) ∧
          (∀ q', CutQuotient a b q' ↔ q' = q) ∧
          CutQuotient (-a) b (-q) ∧ CutQuotient a (-b) (-q))) ∧
    ∀ v w st₁ st₂, Ends σ left st (.ok v, st₁) → Ends σ right st₁ (.ok w, st₂) →
      ¬ (∃ a b, v = .number a ∧ w = .number b) →
        Ends σ (.arithmetic .div left right) st (.error (.failed (.unsupportedOperands .div
          (σ.typeName st₂.heap v) (σ.typeName st₂.heap w))), st₂) := by
  refine ⟨fun r => ends_div_iff, fun a b st₁ st₂ hleft hright => ⟨fun st' => ?_, fun hb => ?_⟩, ?_⟩
  · constructor
    · intro hfails
      by_cases hb : b = 0
      · subst hb
        have hzero := ends_div_iff.2 (.both hleft hright (.byZero a))
        exact ⟨rfl, congrArg Prod.snd (hfails.unique hzero)⟩
      · have hcut := ends_div_iff.2 (.both hleft hright (.cut (cutQuotient_tdiv hb)))
        exact absurd (congrArg Prod.fst (hfails.unique hcut)) (by simp)
    · rintro ⟨rfl, rfl⟩
      exact ends_div_iff.2 (.both hleft hright (.byZero a))
  · have hcut : CutQuotient a b (a.tdiv b) := cutQuotient_tdiv hb
    exact ⟨a.tdiv b, ends_div_iff.2 (.both hleft hright (.cut hcut)), fun q' => cutQuotient_iff hb,
      hcut.neg_left, hcut.neg_right⟩
  · intro v w st₁ st₂ hleft hright hvw
    exact ends_div_iff.2 (.both hleft hright (.refused hvw))

/-- Minus seven halves are minus three. An object is not even divided by zero, and both operands have
left their traces. -/
theorem division_of_numbers_and_of_an_object :
    let σ : Setting := ⟨.add .empty ⟨"A", none, []⟩, true⟩
    let st := RunState.initial
    let st' : RunState := { st with heap := .add .empty ⟨0⟩, output := "0\n" }
    Ends σ (.arithmetic .div (.constant (.number (-7))) (.constant (.number 2))) st
        (.ok (.number (-3)), st) ∧
      CutQuotient 7 2 3 ∧
      Ends σ (.arithmetic .div (.construct ⟨0⟩ []) (.printValue (.constant (.number 0)))) st
        (.error (.failed (.unsupportedOperands .div "A" "Number")), st') := by
  intro σ st st'
  have hconstant (v : Value) : Ends σ (.constant v) st (.ok v, st) := ⟨by simp, 1, rfl⟩
  obtain ⟨-, hnumbers, -⟩ :=
    division_truncates σ (.constant (.number (-7))) (.constant (.number 2)) st
  obtain ⟨q, hq, hcut, hneg, -⟩ :=
    (hnumbers (-7) 2 st st (hconstant _) (hconstant _)).2 (by decide)
  obtain rfl : -3 = q := (hcut (-3)).1 ⟨-1, by decide, by decide, .inr rfl⟩
  obtain ⟨-, -, hrefused⟩ :=
    division_truncates σ (.construct ⟨0⟩ []) (.printValue (.constant (.number 0))) st
  refine ⟨hq, hneg, ?_⟩
  exact hrefused (.object ⟨0⟩) (.number 0) { st with heap := .add .empty ⟨0⟩ } st'
    ⟨by simp, 2, by decide +kernel⟩ ⟨by simp, 3, by decide +kernel⟩ (by simp)

end Offside
