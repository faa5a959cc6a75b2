import Mathlib

/-!
# Voila.Lib.Binary64

IEEE binary64 data that are not NaNs, and their passage from and to the integers.

A datum is a sign and a *magnitude*, its exponent and fraction fields read as one number.
Magnitudes are ordered as the values they stand for, so a carry out of the significand
in a rounding needs no case of its own: it lands in the exponent field (`scale_normal`).
-/

namespace Voila.Lib

/-- The magnitude of the infinities. -/
def infMag : Nat := 2047 * 2 ^ 52

/-- A binary64 datum, NaNs excluded. -/
structure Binary64 where
  neg : Bool
  mag : Nat
  mag_le : mag ≤ infMag
  deriving DecidableEq

namespace Binary64

/-- The number 1, in units of `2 ^ -1074`. -/
def unit : Nat := 2 ^ 1074

/-- The value of a magnitude, in units of `2 ^ -1074`; an infinity is above the others. -/
def scale (m : Nat) : Nat :=
  if m / 2 ^ 52 = 0 then m % 2 ^ 52 else (2 ^ 52 + m % 2 ^ 52) * 2 ^ (m / 2 ^ 52 - 1)

/-- The value of `d`, in units of `2 ^ -1074`. -/
def value (d : Binary64) : Int := if d.neg then -(scale d.mag : Int) else scale d.mag

/-- The 64 bits of `d`. -/
def bits (d : Binary64) : Nat := (if d.neg then 2 ^ 63 else 0) + d.mag

/-- `a == b`. -/
def eq (a b : Binary64) : Bool := a.value = b.value

/-- `d`, with the sign of a zero dropped. -/
def dropZeroSign (d : Binary64) : Binary64 := if d.mag = 0 then ⟨false, 0, by decide⟩ else d

/-- The integer part of a finite `d`. -/
def trunc (d : Binary64) : Int :=
  if d.neg then -((scale d.mag / unit : Nat) : Int) else (scale d.mag / unit : Nat)

/-- `n / 2 ^ k`, rounded to the nearest, a tie to the even one. -/
def roundShift (n k : Nat) : Nat :=
  let q := n / 2 ^ k
  let r := n % 2 ^ k
  if 2 ^ k < 2 * r ∨ (2 ^ k = 2 * r ∧ q % 2 = 1) then q + 1 else q

/-- The significand of `n`, of 53 bits but for a carry. -/
def significand (n : Nat) : Nat :=
  if n.log2 ≤ 52 then n * 2 ^ (52 - n.log2) else roundShift n (n.log2 - 52)

/-- The magnitude nearest to `n`, before the overflow. -/
def magOfNat (n : Nat) : Nat := if n = 0 then 0 else (n.log2 + 1022) * 2 ^ 52 + significand n

/-- The datum nearest to `i`. -/
def ofInt (i : Int) : Binary64 := ⟨decide (i < 0), min (magOfNat i.natAbs) infMag, min_le_right _ _⟩

/-! ### Magnitudes and values -/

@[simp] theorem scale_zero : scale 0 = 0 := rfl

/-- A significand of 53 bits scales its exponent's unit, the carry included. -/
theorem scale_normal {e m : Nat} (hlo : 2 ^ 52 ≤ m) (hhi : m ≤ 2 ^ 53) :
    scale (e * 2 ^ 52 + m) = m * 2 ^ e := by
  rcases Nat.eq_or_lt_of_le hhi with rfl | hlt
  · have hdiv : (e * 2 ^ 52 + 2 ^ 53) / 2 ^ 52 = e + 2 := by omega
    have hmod : (e * 2 ^ 52 + 2 ^ 53) % 2 ^ 52 = 0 := by omega
    rw [scale, hdiv, hmod, if_neg (by omega), show e + 2 - 1 = e + 1 by omega, pow_succ]
    ring
  · have hdiv : (e * 2 ^ 52 + m) / 2 ^ 52 = e + 1 := by omega
    have hmod : (e * 2 ^ 52 + m) % 2 ^ 52 = m - 2 ^ 52 := by omega
    rw [scale, hdiv, hmod, if_neg (by omega), show 2 ^ 52 + (m - 2 ^ 52) = m by omega]
    rfl

theorem scale_lt_succ (m : Nat) : scale m < scale (m + 1) := by
  by_cases hsub : m + 1 < 2 ^ 52
  · -- both subnormal
    rw [scale, scale, if_pos (by omega), if_pos (by omega)]
    omega
  · obtain ⟨e, s, hlo, hhi, hm⟩ : ∃ e s, 2 ^ 52 ≤ s ∧ s < 2 ^ 53 ∧ m + 1 = e * 2 ^ 52 + s :=
      ⟨(m + 1) / 2 ^ 52 - 1, 2 ^ 52 + (m + 1) % 2 ^ 52, by omega, by omega, by omega⟩
    rw [hm, scale_normal hlo hhi.le]
    by_cases hs : s = 2 ^ 52
    · -- the step into the binade from the one below
      subst hs
      cases e with
      | zero =>
        have : m = 2 ^ 52 - 1 := by omega
        subst this
        decide
      | succ e =>
        have hm' : m = e * 2 ^ 52 + (2 ^ 53 - 1) := by omega
        have hpow : 2 ^ 52 * 2 ^ (e + 1) = 2 ^ 53 * 2 ^ e := by rw [pow_succ]; ring
        rw [hm', scale_normal (by norm_num) (by norm_num), hpow]
        exact Nat.mul_lt_mul_of_pos_right (by norm_num) (by positivity)
    · have hm' : m = e * 2 ^ 52 + (s - 1) := by omega
      rw [hm', scale_normal (by omega) (by omega)]
      exact Nat.mul_lt_mul_of_pos_right (by omega) (by positivity)

theorem scale_strictMono : StrictMono scale := strictMono_nat_of_lt_succ scale_lt_succ

variable {m n : Nat} {i : Int} {d : Binary64}

@[simp] theorem scale_eq_zero : scale m = 0 ↔ m = 0 :=
  scale_strictMono.injective.eq_iff' scale_zero

/-- Two data compare equal when they are the same or both zero. -/
theorem eq_iff {a b : Binary64} : a.eq b ↔ a.dropZeroSign = b.dropZeroSign := by
  obtain ⟨na, ma, ha⟩ := a
  obtain ⟨nb, mb, hb⟩ := b
  have hpos : ∀ {m : Nat}, m ≠ 0 → 0 < scale m := fun h =>
    Nat.pos_of_ne_zero (mt scale_eq_zero.mp h)
  have hinj : scale ma = scale mb ↔ ma = mb := scale_strictMono.injective.eq_iff
  by_cases ha0 : ma = 0 <;> by_cases hb0 : mb = 0
  · simp [eq, value, dropZeroSign, ha0, hb0]
  · have := hpos hb0
    have hne : ¬ (0 = mb) := fun h => hb0 h.symm
    cases na <;> cases nb <;> simp [eq, value, dropZeroSign, ha0, hb0, hne] <;> omega
  · cases na <;> cases nb <;> simp [eq, value, dropZeroSign, ha0, hb0]
  · have := hpos ha0
    cases na <;> cases nb <;> simp [eq, value, dropZeroSign, ha0, hb0] <;> omega

theorem natAbs_value (d : Binary64) : d.value.natAbs = scale d.mag := by
  unfold value
  split <;> simp

theorem value_dropZeroSign (d : Binary64) : d.dropZeroSign.value = d.value := by
  unfold dropZeroSign
  split
  · rename_i h
    simp [value, h]
  · rfl

theorem trunc_dropZeroSign (d : Binary64) : d.dropZeroSign.trunc = d.trunc := by
  unfold dropZeroSign
  split
  · rename_i h
    simp [trunc, h]
  · rfl

/-! ### Integers -/

theorem roundShift_bounds (n k : Nat) : n / 2 ^ k ≤ roundShift n k ∧ roundShift n k ≤ n / 2 ^ k + 1 := by
  unfold roundShift
  dsimp only
  split <;> omega

/-- A shift that loses nothing does not round. -/
theorem roundShift_mul (q k : Nat) : roundShift (q * 2 ^ k) k = q := by
  have : 0 < 2 ^ k := by positivity
  simp [roundShift]

theorem significand_bounds (hn : n ≠ 0) : 2 ^ 52 ≤ significand n ∧ significand n ≤ 2 ^ 53 := by
  have hlo : 2 ^ n.log2 ≤ n := Nat.log2_self_le hn
  have hhi : n < 2 ^ (n.log2 + 1) := Nat.lt_log2_self
  unfold significand
  split
  · rename_i h
    have hpow : 2 ^ n.log2 * 2 ^ (52 - n.log2) = 2 ^ 52 := by rw [← pow_add]; congr 1; omega
    constructor
    · exact hpow ▸ Nat.mul_le_mul_right _ hlo
    · calc n * 2 ^ (52 - n.log2) ≤ 2 ^ (n.log2 + 1) * 2 ^ (52 - n.log2) :=
            Nat.mul_le_mul_right _ hhi.le
        _ = 2 ^ 53 := by rw [pow_succ, mul_right_comm, hpow]; norm_num
  · rename_i h
    have hsplit : 2 ^ n.log2 = 2 ^ 52 * 2 ^ (n.log2 - 52) := by rw [← pow_add]; congr 1; omega
    have hq : 2 ^ 52 ≤ n / 2 ^ (n.log2 - 52) :=
      (Nat.le_div_iff_mul_le (by positivity)).mpr (hsplit ▸ hlo)
    have hq' : n / 2 ^ (n.log2 - 52) < 2 ^ 53 := by
      rw [Nat.div_lt_iff_lt_mul (by positivity)]
      calc n < 2 ^ (n.log2 + 1) := hhi
        _ = 2 ^ 53 * 2 ^ (n.log2 - 52) := by rw [pow_succ, hsplit]; ring
    have := roundShift_bounds n (n.log2 - 52)
    omega

/-- The integer that the magnitude nearest to `n` stands for. -/
def nearest (n : Nat) : Nat := if n.log2 ≤ 52 then n else significand n * 2 ^ (n.log2 - 52)

theorem scale_magOfNat (n : Nat) : scale (magOfNat n) = nearest n * unit := by
  by_cases hn : n = 0
  · simp [hn, magOfNat, nearest]
  · obtain ⟨hlo, hhi⟩ := significand_bounds hn
    rw [magOfNat, if_neg hn, scale_normal hlo hhi, nearest, unit]
    by_cases h : n.log2 ≤ 52
    · have hexp : 52 - n.log2 + (n.log2 + 1022) = 1074 := by omega
      rw [significand, if_pos h, if_pos h, mul_assoc, ← pow_add, hexp]
    · have hexp : n.log2 - 52 + 1074 = n.log2 + 1022 := by omega
      rw [if_neg h, mul_assoc, ← pow_add, hexp]

theorem log2_mul_pow {m k : Nat} (hlo : 2 ^ 52 ≤ m) (hhi : m < 2 ^ 53) :
    (m * 2 ^ k).log2 = 52 + k := by
  have hm : m ≠ 0 := by omega
  rw [Nat.log2_eq_iff (by positivity)]
  constructor
  · rw [pow_add]
    exact Nat.mul_le_mul_right _ hlo
  · rw [show 52 + k + 1 = 53 + k by omega, pow_add]
    exact Nat.mul_lt_mul_of_pos_right hhi (by positivity)

/-- An integer of 53 bits is its own nearest. -/
theorem magOfNat_mul_pow (k : Nat) (hlo : 2 ^ 52 ≤ m) (hhi : m ≤ 2 ^ 53) :
    magOfNat (m * 2 ^ k) = (k + 1074) * 2 ^ 52 + m := by
  -- the carry is the first significand of the next binade
  rcases Nat.eq_or_lt_of_le hhi with rfl | hlt
  · have hcarry : 2 ^ 53 * 2 ^ k = 2 ^ 52 * 2 ^ (k + 1) := by rw [pow_succ]; ring
    have hlog := log2_mul_pow (k := k + 1) (le_refl (2 ^ 52)) (by norm_num)
    have hne : 2 ^ 52 * 2 ^ (k + 1) ≠ 0 := by positivity
    rw [hcarry, magOfNat, if_neg hne, significand, hlog, if_neg (by omega),
      show 52 + (k + 1) - 52 = k + 1 by omega, roundShift_mul]
    omega
  · have hlog := log2_mul_pow (k := k) hlo hlt
    have hne : m * 2 ^ k ≠ 0 := by
      have : m ≠ 0 := by omega
      positivity
    rw [magOfNat, if_neg hne, significand, hlog]
    split
    · have : k = 0 := by omega
      subst this
      omega
    · rw [show 52 + k - 52 = k by omega, roundShift_mul]
      omega

/-- Rounding twice is rounding once. -/
theorem magOfNat_nearest (n : Nat) : magOfNat (nearest n) = magOfNat n := by
  unfold nearest
  split
  · rfl
  · rename_i h
    have hn : n ≠ 0 := by
      rintro rfl
      simp at h
    obtain ⟨hlo, hhi⟩ := significand_bounds hn
    rw [magOfNat_mul_pow _ hlo hhi, magOfNat, if_neg hn]
    omega

/-- Nothing up to `2 ^ 63` rounds to a larger number than that. -/
theorem nearest_le (hn : n ≤ 2 ^ 63) : nearest n ≤ 2 ^ 63 := by
  unfold nearest
  split
  · exact hn
  · rename_i h
    have h0 : n ≠ 0 := by
      rintro rfl
      simp at h
    obtain ⟨-, hhi⟩ := significand_bounds h0
    have hlog : n.log2 ≤ 63 := by
      have := Nat.log2_self_le h0
      exact (Nat.pow_le_pow_iff_right (by norm_num)).mp (this.trans hn)
    rcases Nat.lt_or_ge n.log2 63 with hlt | hge
    · calc significand n * 2 ^ (n.log2 - 52) ≤ 2 ^ 53 * 2 ^ 10 :=
            Nat.mul_le_mul hhi (Nat.pow_le_pow_right (by norm_num) (by omega))
        _ = 2 ^ 63 := by norm_num
    · have hpow : n = 2 ^ 63 := by
        have := Nat.log2_self_le h0
        rw [show n.log2 = 63 by omega] at this
        omega
      subst hpow
      decide

theorem magOfNat_lt_inf (hn : n ≤ 2 ^ 63) : magOfNat n < infMag := by
  have h : scale (magOfNat n) < scale infMag := by
    rw [scale_magOfNat]
    calc nearest n * unit ≤ 2 ^ 63 * unit := Nat.mul_le_mul_right _ (nearest_le hn)
      _ < scale infMag := by decide +kernel
  exact scale_strictMono.lt_iff_lt.mp h

theorem unit_pos : 0 < unit := by
  unfold unit
  positivity

theorem nearest_nearest (n : Nat) : nearest (nearest n) = nearest n := by
  have h : nearest (nearest n) * unit = nearest n * unit := by
    rw [← scale_magOfNat, ← scale_magOfNat, magOfNat_nearest]
  exact Nat.eq_of_mul_eq_mul_right unit_pos h

theorem mag_ofInt (hi : i.natAbs ≤ 2 ^ 63) : (ofInt i).mag = magOfNat i.natAbs := by
  have := magOfNat_lt_inf hi
  simp only [ofInt]
  omega

/-- The value nearest to an integer, within `2 ^ 63` of zero. -/
theorem value_ofInt (hi : i.natAbs ≤ 2 ^ 63) :
    (ofInt i).value = i.sign * nearest i.natAbs * unit := by
  have hscale : (scale (ofInt i).mag : Int) = nearest i.natAbs * unit := by
    rw [mag_ofInt hi, scale_magOfNat]
    push_cast
    rfl
  have hneg : (ofInt i).neg = decide (i < 0) := rfl
  rw [value, hneg, hscale]
  rcases lt_trichotomy i 0 with h | rfl | h
  · rw [decide_eq_true h, if_pos rfl, Int.sign_eq_neg_one_of_neg h]
    ring
  · have hzero : nearest (Int.natAbs 0) = 0 := rfl
    rw [decide_eq_false (lt_irrefl _), if_neg (by decide), hzero, Int.sign_zero]
    ring
  · rw [decide_eq_false h.not_gt, if_neg (by decide), Int.sign_eq_one_of_pos h]
    ring

theorem trunc_eq_of_value {k : Int} (h : d.value = k * unit) : d.trunc = k := by
  have hu : (0 : Int) < unit := by exact_mod_cast unit_pos
  unfold value at h
  unfold trunc
  split_ifs at h ⊢
  · push_cast
    rw [show (scale d.mag : Int) = -k * unit by linarith, Int.mul_ediv_cancel _ hu.ne', neg_neg]
  · push_cast
    rw [h, Int.mul_ediv_cancel _ hu.ne']

/-- The integer that `ofInt i` stands for. -/
theorem trunc_of_eq_ofInt (hi : i.natAbs ≤ 2 ^ 63) (h : d.eq (ofInt i)) :
    d.trunc = i.sign * nearest i.natAbs ∧ d.value = d.trunc * unit := by
  have hval : d.value = i.sign * nearest i.natAbs * unit := by
    rw [← value_ofInt hi]
    simpa [eq] using h
  rw [trunc_eq_of_value hval]
  exact ⟨rfl, hval⟩

/-- What an integer rounds to is a whole number, and rounds to itself. -/
theorem eq_ofInt_trunc (hi : i.natAbs ≤ 2 ^ 63) (h : d.eq (ofInt i)) : d.eq (ofInt d.trunc) := by
  obtain ⟨htrunc, hval⟩ := trunc_of_eq_ofInt hi h
  have habs : d.trunc.natAbs = nearest i.natAbs := by
    rw [htrunc, Int.natAbs_mul, Int.natAbs_natCast]
    by_cases h0 : i = 0
    · simp [h0, nearest]
    · rw [Int.natAbs_sign_of_ne_zero h0, one_mul]
  have hsign : d.trunc.sign * nearest i.natAbs = d.trunc := by
    rw [← habs, Int.sign_mul_natAbs]
  have hle : d.trunc.natAbs ≤ 2 ^ 63 := habs ▸ nearest_le hi
  simp only [eq, decide_eq_true_eq]
  rw [value_ofInt hle, habs, nearest_nearest, hsign, hval]

end Binary64

end Voila.Lib
