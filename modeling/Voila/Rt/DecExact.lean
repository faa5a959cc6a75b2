import Voila.Rt.DecValue

/-!
# Voila.Rt.DecExact

The values of sums, differences, products and quotients of decimals.

As long as exponents stay in an `int`, what `vl_dec_add`, `vl_dec_sub` and `vl_dec_mul` return is
the exact result rounded once (`arithmetic_rounds`). `vl_dec_div` rounds twice: the dividend is
given so many zeros that the quotient has a digit or two more than it needs, and these are rounded
half-even before `round_to` rounds half-even. The second rounding sees a tie where the first one
made it, and does not know from which side (`vlDecDiv_rounds_iff`).
-/

namespace Voila.Rt

open Lib

/-- `v` is what rounding makes of `x`: `x` itself where it has no more digits, and canonical. -/
structure Dec.Rounds (digits : ℤ) (v : Dec) (x : ℚ) : Prop where
  value : v.value = roundDigits 10 digits x
  exact : HasDigits 10 digits x → v.value = x
  canonical : (v.neg = false ∧ v.d = [0] ∧ v.exp = 0) ∨ ∃ y ys, v.d = y :: ys ∧ y ≠ 0

theorem Dec.rounds_of_value {digits : ℤ} {v : Dec} {x : ℚ} (h : v.value = roundDigits 10 digits x) :
    v.Rounds digits x where
  value := h
  exact few := by rw [h, (roundDigits_eq_self_iff (by norm_num)).mpr few]
  canonical := v.canonical

/-- `vl_dec_add`. -/
def vlDecAdd (digits : ℤ) (a b : Dec) : Dec := (addSigned int32 false digits a b).1

/-- `vl_dec_sub`. -/
def vlDecSub (digits : ℤ) (a b : Dec) : Dec := (addSigned int32 true digits a b).1

section

variable {digits : ℤ} {a b x y : Dec}

theorem vlDecAdd_value (hd : 1 ≤ digits) (ha : FitsInt a.exp) (hb : FitsInt b.exp)
    (fits : FitsAdd digits false a b) :
    (vlDecAdd digits a b).value = roundDigits 10 digits (a.value + b.value) := by
  rw [vlDecAdd, addSigned_int32 ha hb fits, addSigned_value hd]
  simp

theorem vlDecSub_value (hd : 1 ≤ digits) (ha : FitsInt a.exp) (hb : FitsInt b.exp)
    (fits : FitsAdd digits true a b) :
    (vlDecSub digits a b).value = roundDigits 10 digits (a.value - b.value) := by
  rw [vlDecSub, addSigned_int32 ha hb fits, addSigned_value hd, sub_eq_add_neg]
  simp

/-- Sums, differences and products are exact, and rounded once. -/
theorem arithmetic_rounds (hd : 1 ≤ digits) (ha : FitsInt a.exp) (hb : FitsInt b.exp)
    (hadd : FitsAdd digits false a b) (hsub : FitsAdd digits true a b) (hmul : FitsMul digits a b) :
    (vlDecAdd digits a b).Rounds digits (a.value + b.value) ∧
      (vlDecSub digits a b).Rounds digits (a.value - b.value) ∧
      (vlDecMul int32 digits a b).1.Rounds digits (a.value * b.value) := by
  refine ⟨Dec.rounds_of_value (vlDecAdd_value hd ha hb hadd),
    Dec.rounds_of_value (vlDecSub_value hd ha hb hsub), Dec.rounds_of_value ?_⟩
  rw [vlDecMul_int32 hmul, vlDecMul_value hd]

/-- `99.95` and `0.5`, to three digits. -/
theorem arithmetic_rounds_carry :
    (vlDecAdd 3 (.make false [9, 9, 9, 5] (-2)) (.make false [5] (-1))).Rounds 3
        ((Dec.make false [9, 9, 9, 5] (-2)).value + (Dec.make false [5] (-1)).value) ∧
      (vlDecSub 3 (.make false [9, 9, 9, 5] (-2)) (.make false [5] (-1))).Rounds 3
        ((Dec.make false [9, 9, 9, 5] (-2)).value - (Dec.make false [5] (-1)).value) ∧
      (vlDecMul int32 3 (.make false [9, 9, 9, 5] (-2)) (.make false [5] (-1))).1.Rounds 3
        ((Dec.make false [9, 9, 9, 5] (-2)).value * (Dec.make false [5] (-1)).value) := by
  have sum : addMag [9, 9, 9, 5] [5, 0] = [1, 0, 0, 4, 5] := by
    simp [addMag, addDigits]
    decide
  refine arithmetic_rounds (by decide) (by decide) (by decide) ⟨by decide, by decide, ?_⟩
    ⟨by decide, by decide, fun _ => by decide⟩ ⟨by decide, fun _ => by decide⟩
  show FitsRound 3 (.make false (addMag [9, 9, 9, 5] [5, 0]) (-2))
  rw [sum]
  exact fun _ => by decide

/-! ### Division -/

/-- The quotient of the coefficients, once the dividend has its zeros: at least `10 ^ digits`. -/
def scaledQuotient (digits : ℤ) (x y : Dec) : ℚ :=
  coef x.d * 10 ^ (max (divShift digits x y) 0).toNat / coef y.d

theorem scaledQuotient_wide (hd : 1 ≤ digits) (hx : allZero x.d = false) (hy : allZero y.d = false) :
    ((10 : ℕ) : ℚ) ^ digits ≤ scaledQuotient digits x y := by
  obtain ⟨p, rfl⟩ := Int.eq_ofNat_of_zero_le (show 0 ≤ digits by omega)
  have used : usedDigits p = p := if_neg (by omega)
  have hx' := (Dec.lead hx).1
  have hy' := Dec.lead hy
  have some := List.length_pos_iff.mpr x.ne_nil
  have some' := List.length_pos_iff.mpr y.ne_nil
  generalize hs : (max (divShift p x y) 0).toNat = s
  have shift : p + y.d.length ≤ x.d.length - 1 + s := by
    unfold divShift at hs
    omega
  have pos : 0 < coef y.d := by
    have : 0 < 10 ^ (y.d.length - 1) := by positivity
    omega
  have wide : 10 ^ p * coef y.d ≤ coef x.d * 10 ^ s := by
    calc 10 ^ p * coef y.d ≤ 10 ^ p * 10 ^ y.d.length := Nat.mul_le_mul_left _ hy'.2.le
      _ = 10 ^ (p + y.d.length) := (pow_add ..).symm
      _ ≤ 10 ^ (x.d.length - 1 + s) := Nat.pow_le_pow_right (by norm_num) shift
      _ = 10 ^ (x.d.length - 1) * 10 ^ s := pow_add ..
      _ ≤ _ := Nat.mul_le_mul_right _ hx'
  rw [scaledQuotient, hs, le_div_iff₀ (by exact_mod_cast pos), zpow_natCast]
  exact_mod_cast wide

theorem Dec.normalize_value (v : Dec) : v.normalize.value = v.value := by
  cases hz : allZero v.d with
  | true => rw [Dec.normalize, if_pos hz]
  | false =>
    obtain ⟨k, shifted, -⟩ := Dec.normalize_shifted hz
    exact (Dec.value_shifted shifted).symm

theorem roundDigits_sign {s : ℤ} (hs : s = 1 ∨ s = -1) (p : ℤ) (q : ℚ) :
    roundDigits 10 p (s * q) = s * roundDigits 10 p q := by
  rcases hs with rfl | rfl
  · rw [Int.cast_one, one_mul, one_mul]
  · rw [Int.cast_neg, Int.cast_one, neg_one_mul, neg_one_mul, roundDigits_neg]

theorem offTie_nonzero {p : ℤ} {q : ℚ} (h : OffTie 10 p q) : q ≠ 0 := by
  rintro rfl
  obtain ⟨t, tie, -⟩ := h
  have zero : halfEven (0 : ℚ) = 0 := by exact_mod_cast halfEven_intCast (K := ℚ) 0
  have unit : ((10 : ℕ) : ℚ) ^ lastPlace 10 p (0 : ℚ) ≠ 0 := zpow_ne_zero _ (by norm_num)
  rw [zero, Int.cast_zero, eq_comm, mul_eq_zero, or_iff_left unit] at tie
  have odd : ((2 * t + 1 : ℤ) : ℚ) = 0 := by
    push_cast
    linarith
  have := Int.cast_eq_zero.mp odd
  omega

theorem roundDigits_shift (p : ℤ) (q : ℚ) (e : ℤ) :
    roundDigits 10 p (q * 10 ^ e) = roundDigits 10 p q * 10 ^ e := by
  have shift := roundDigits_mul_zpow (β := 10) (p := p) (by norm_num) q e
  rwa [Nat.cast_ofNat] at shift

/-- With the exponents that mathematics requires, a quotient is the exact one rounded twice. -/
theorem vlDecDiv_value (hd : 1 ≤ digits) (hx : allZero x.d = false) (hy : allZero y.d = false) :
    ∃ r, ∃ E : ℤ, vlDecDiv id digits x y = some r ∧
      x.value / y.value = (x.sign * y.sign : ℤ) * (scaledQuotient digits x y * 10 ^ E) ∧
      r.1.value = (x.sign * y.sign : ℤ) *
        (roundDigits 10 digits (halfEven (scaledQuotient digits x y) : ℚ) * 10 ^ E) := by
  have sign : x.sign * y.sign = 1 ∨ x.sign * y.sign = -1 := by
    rcases x.sign_eq with h | h <;> rcases y.sign_eq with h' | h' <;> rw [h, h'] <;> decide
  have ten : (10 : ℚ) ≠ 0 := by norm_num
  generalize hs : (max (divShift digits x y) 0).toNat = s
  have num : (if divShift digits x y > 0 then scaleBy id x (divShift digits x y) else x) = x.scale s := by
    split_ifs
    · rw [scaleBy_id, show (s : ℤ) = divShift digits x y by omega]
    · rw [Dec.scale, if_pos (by omega)]
  have exp : x.exp - y.exp - (if divShift digits x y > 0 then divShift digits x y else 0) =
      x.exp - y.exp - s := by
    split_ifs <;> omega
  have scaled : ((coef (x.scale s).d : ℕ) : ℚ) / coef y.d = scaledQuotient digits x y := by
    rw [Dec.scale_d hx, coef_append_zeros, Int.toNat_natCast, scaledQuotient, hs]
    push_cast
    rfl
  refine ⟨_, x.exp - y.exp - s, by
    rw [vlDecDiv, if_neg (by rw [hy]; decide), if_neg (by rw [hx]; decide)], ?_, ?_⟩
  · have ypos : (coef y.d : ℚ) ≠ 0 := by
      have := (allZero_iff y.d).not.mp (by rw [hy]; decide)
      exact_mod_cast this
    have inverse : ((y.sign : ℤ) : ℚ)⁻¹ = y.sign := by
      rcases y.sign_eq with h | h <;> rw [h] <;> norm_num
    have power : (10 : ℚ) ^ (x.exp - y.exp - s) * 10 ^ s * 10 ^ y.exp = 10 ^ x.exp := by
      rw [← zpow_natCast, ← zpow_add₀ ten, ← zpow_add₀ ten]
      congr 1
      omega
    have unit : (10 : ℚ) ^ y.exp ≠ 0 := zpow_ne_zero _ ten
    have sy : ((y.sign : ℤ) : ℚ) ≠ 0 := by
      rcases y.sign_eq with h | h <;> rw [h] <;> norm_num
    rw [scaledQuotient, hs, x.value_eq, y.value_eq, ← power]
    push_cast
    rw [div_eq_iff (mul_ne_zero (mul_ne_zero sy ypos) unit)]
    have square : ((y.sign : ℤ) : ℚ) * y.sign = 1 := by
      rcases y.sign_eq with h | h <;> rw [h] <;> norm_num
    field_simp
    linear_combination (-(x.sign : ℚ) * coef x.d) * square
  · dsimp only
    simp only [id]
    rw [Dec.normalize_value, roundTo_value hd, num, exp, divRounded_value _ _ hy, scaled, Int.cast_mul,
      mul_assoc, roundDigits_sign sign]
    congr 1
    exact roundDigits_shift _ _ _

/-- That rounding twice is rounding once, but for what the first rounding puts on a tie. -/
theorem vlDecDiv_value_iff (hd : 1 ≤ digits) (hy : allZero y.d = false) :
    ∃ r, vlDecDiv id digits x y = some r ∧
      (r.1.value = roundDigits 10 digits (x.value / y.value) ↔
        ¬ OffTie 10 digits (scaledQuotient digits x y)) := by
  cases hx : allZero x.d with
  | true =>
    refine ⟨_, by rw [vlDecDiv, if_neg (by rw [hy]; decide), if_pos hx], iff_of_true ?_ ?_⟩
    · have zero : x.value = 0 := by
        rw [Dec.eq_zero hx]
        simp [Dec.value, coef]
      rw [fromInt_zero_value, zero, zero_div, roundDigits_zero]
    · intro off
      refine offTie_nonzero off ?_
      rw [scaledQuotient, coef_allZero hx]
      simp
  | false =>
    obtain ⟨r, E, run, quotient, value⟩ := vlDecDiv_value hd hx hy
    have sign : x.sign * y.sign = 1 ∨ x.sign * y.sign = -1 := by
      rcases x.sign_eq with h | h <;> rcases y.sign_eq with h' | h' <;> rw [h, h'] <;> decide
    have sign0 : ((x.sign * y.sign : ℤ) : ℚ) ≠ 0 := by
      rcases sign with h | h <;> rw [h] <;> norm_num
    refine ⟨r, run, ?_⟩
    rw [value, quotient, roundDigits_sign sign, roundDigits_shift,
      mul_right_inj' sign0, mul_left_inj' (zpow_ne_zero _ (by norm_num))]
    exact roundDigits_halfEven (β := 10) (c := 5) rfl (by norm_num) hd (scaledQuotient_wide hd hx hy)

/-- `vl_dec_div` divides: no exponent overflows, and the result is the quotient rounded once. -/
def DividesOnce (digits : ℤ) (x y : Dec) : Prop :=
  FitsDiv digits x y ∧ ∃ r, vlDecDiv int32 digits x y = some r ∧
    r.1.value = roundDigits 10 digits (x.value / y.value)

/-- Quotients are rounded once where the whole number next to the scaled quotient is not a tie of
`digits` digits that the quotient is off, on the side that the tie does not go to. -/
theorem vlDecDiv_rounds_iff (hd : 1 ≤ digits) (hy : allZero y.d = false) :
    DividesOnce digits x y ↔
      FitsDiv digits x y ∧ ¬ OffTie 10 digits (scaledQuotient digits x y) := by
  obtain ⟨r, run, once⟩ := vlDecDiv_value_iff hd hy (x := x)
  refine and_congr_right fun fits => ?_
  rw [vlDecDiv_int32 fits, run, ← once]
  constructor
  · rintro ⟨r', ⟨⟩, value⟩
    exact value
  · exact fun value => ⟨r, rfl, value⟩

/-- A third, to three digits. -/
theorem vlDecDiv_rounds_third :
    DividesOnce 3 (.make false [1] 0) (.make false [3] 0) ↔
      FitsDiv 3 (.make false [1] 0) (.make false [3] 0) ∧
        ¬ OffTie 10 3 (scaledQuotient 3 (.make false [1] 0) (.make false [3] 0)) :=
  vlDecDiv_rounds_iff (by decide) (by decide)

end

/-- `5496 / 100` to one digit: `54.96` is `55.0` first, and then `60`. -/
theorem vlDecDiv_twice : ¬ DividesOnce 1 (.make false [5, 4, 9, 6] 0) (.make false [1, 0, 0] 0) := by
  rintro ⟨fits, r, run, value⟩
  obtain ⟨r', run', once⟩ := @vlDecDiv_value_iff 1 (.make false [5, 4, 9, 6] 0) (.make false [1, 0, 0] 0)
    (by decide) (by decide)
  rw [vlDecDiv_int32 fits, run', Option.some.injEq] at run
  subst run
  have scaled : scaledQuotient 1 (.make false [5, 4, 9, 6] 0) (.make false [1, 0, 0] 0) = 549.6 := by
    show ((5496 : ℕ) : ℚ) * 10 ^ 1 / (100 : ℕ) = 549.6
    norm_num
  have nearest : halfEven (549.6 : ℚ) = 550 := halfEven_of_near (by norm_num) (by norm_num)
  have place : lastPlace 10 1 (549.6 : ℚ) = 2 := by
    refine lastPlace_of (by norm_num) ?_ ?_
    · norm_num [abs_of_pos]
    · norm_num [abs_of_pos]
  refine once.mp value ⟨5, ?_, .inl ⟨?_, by decide⟩⟩
  · rw [scaled, nearest, place]
    norm_num
  · rw [scaled, nearest]
    norm_num

end Voila.Rt
