import Mathlib

/-!
# Voila.Lib.HalfEven

Rounding half to even: to a whole number (`halfEven`), and to so many significant digits in a base
(`roundDigits`).

A whole number is the rounding if it is nearest, and even where two are (`halfEven_eq_iff`). A
number that is rounded twice, first to a whole number and then to a multiple of an even one, is
rounded as at once but for the numbers that the first rounding puts on a tie
(`halfEven_halfEven_div`).
-/

namespace Voila.Lib

variable {K : Type*} [Field K] [LinearOrder K] [IsStrictOrderedRing K] [FloorRing K]

/-- The nearest whole number, and the even one of two. -/
def halfEven (x : K) : ℤ :=
  if Int.fract x < 1 / 2 then ⌊x⌋
  else if 1 / 2 < Int.fract x then ⌊x⌋ + 1
  else if ⌊x⌋ % 2 = 0 then ⌊x⌋ else ⌊x⌋ + 1

/-! ### Whole numbers -/

variable {n : ℤ}

theorem halfEven_of_near {x : K} (low : (n : K) - 1 / 2 < x) (high : x < n + 1 / 2) :
    halfEven x = n := by
  have half : (0 : K) < 1 / 2 := by norm_num
  rcases le_or_gt (n : K) x with above | below
  · have floor : ⌊x⌋ = n := Int.floor_eq_iff.mpr ⟨above, by linarith⟩
    have fract : Int.fract x = x - n := by rw [Int.fract, floor]
    rw [halfEven, fract, floor, if_pos (by linarith)]
  · have floor : ⌊x⌋ = n - 1 := by
      refine Int.floor_eq_iff.mpr ⟨?_, ?_⟩
      · push_cast
        linarith
      · push_cast
        linarith
    have fract : Int.fract x = x - n + 1 := by
      rw [Int.fract, floor]
      push_cast
      ring
    rw [halfEven, fract, floor, if_neg (by linarith), if_pos (by linarith)]
    ring

theorem halfEven_tie (n : ℤ) : halfEven ((n : K) + 1 / 2) = if n % 2 = 0 then n else n + 1 := by
  have floor : ⌊(n : K) + 1 / 2⌋ = n := by
    refine Int.floor_eq_iff.mpr ⟨?_, ?_⟩
    · linarith [show (0 : K) < 1 / 2 by norm_num]
    · linarith [show (1 / 2 : K) < 1 by norm_num]
  have fract : Int.fract ((n : K) + 1 / 2) = 1 / 2 := by
    rw [Int.fract, floor]
    ring
  rw [halfEven, fract, floor, if_neg (lt_irrefl _), if_neg (lt_irrefl _)]

/-- Every number is near a whole one, or between two. -/
theorem near_or_tie (x : K) :
    (∃ n : ℤ, (n : K) - 1 / 2 < x ∧ x < n + 1 / 2) ∨ ∃ n : ℤ, x = n + 1 / 2 := by
  have low := Int.floor_le x
  have high := Int.lt_floor_add_one x
  rcases lt_trichotomy x (⌊x⌋ + 1 / 2) with below | tie | above
  · refine .inl ⟨⌊x⌋, ?_, below⟩
    linarith [show (0 : K) < 1 / 2 by norm_num]
  · exact .inr ⟨⌊x⌋, tie⟩
  · refine .inl ⟨⌊x⌋ + 1, ?_, ?_⟩
    · push_cast
      linarith
    · push_cast
      linarith [show (0 : K) < 1 / 2 by norm_num]

@[simp] theorem halfEven_intCast (n : ℤ) : halfEven (n : K) = n := by
  refine halfEven_of_near ?_ ?_
  · linarith [show (0 : K) < 1 / 2 by norm_num]
  · linarith [show (0 : K) < 1 / 2 by norm_num]

/-- A rounding is nearest, and even where another is as near. -/
theorem halfEven_eq_iff {x : K} :
    halfEven x = n ↔ |x - n| < 1 / 2 ∨ (|x - n| = 1 / 2 ∧ n % 2 = 0) := by
  have half : (0 : K) < 1 / 2 := by norm_num
  constructor
  · rintro rfl
    rcases near_or_tie x with ⟨m, low, high⟩ | ⟨m, tie⟩
    · rw [halfEven_of_near low high]
      exact .inl (abs_lt.mpr ⟨by linarith, by linarith⟩)
    · rw [tie, halfEven_tie]
      split_ifs with even
      · refine .inr ⟨?_, even⟩
        rw [add_sub_cancel_left, abs_of_pos half]
      · refine .inr ⟨?_, by omega⟩
        push_cast
        rw [add_sub_add_left_eq_sub, show (1 / 2 : K) - 1 = -(1 / 2) by norm_num, abs_neg,
          abs_of_pos half]
  · rintro (near | ⟨tie, even⟩)
    · obtain ⟨low, high⟩ := abs_lt.mp near
      exact halfEven_of_near (by linarith) (by linarith)
    · rcases abs_cases (x - n) with ⟨eq, -⟩ | ⟨eq, -⟩
      · have above : x = n + 1 / 2 := by linarith
        rw [above, halfEven_tie, if_pos even]
      · have below : x = (n - 1 : ℤ) + 1 / 2 := by
          push_cast
          linarith [show (1 / 2 : K) + 1 / 2 = 1 by norm_num]
        rw [below, halfEven_tie, if_neg (by omega)]
        ring

theorem abs_sub_halfEven (x : K) : |x - halfEven x| ≤ 1 / 2 := by
  rcases halfEven_eq_iff.mp (rfl : halfEven x = halfEven x) with near | ⟨tie, -⟩
  · exact near.le
  · exact tie.le

theorem halfEven_neg (x : K) : halfEven (-x) = -halfEven x := by
  rw [halfEven_eq_iff]
  have same : |-x - ((-halfEven x : ℤ) : K)| = |x - halfEven x| := by
    push_cast
    rw [neg_sub_neg, abs_sub_comm]
  rw [same]
  rcases halfEven_eq_iff.mp (rfl : halfEven x = halfEven x) with near | ⟨tie, even⟩
  · exact .inl near
  · exact .inr ⟨tie, by omega⟩

/-- The rounding of a quotient of numbers, from its remainder. -/
theorem halfEven_natDiv (a : ℕ) {b : ℕ} (pos : 0 < b) :
    halfEven ((a : K) / b) =
      ((if b < 2 * (a % b) ∨ (b = 2 * (a % b) ∧ a / b % 2 ≠ 0) then a / b + 1 else a / b : ℕ) : ℤ) := by
  have pos' : (0 : K) < b := by exact_mod_cast pos
  have split : (a : K) = b * (a / b : ℕ) + (a % b : ℕ) := by
    exact_mod_cast (Nat.div_add_mod a b).symm
  have value : (a : K) / b = (a / b : ℕ) + (a % b : ℕ) / (b : K) := by
    rw [div_eq_iff pos'.ne', add_mul, div_mul_cancel₀ _ pos'.ne']
    linarith
  have rest : a % b < b := Nat.mod_lt a pos
  rw [value]
  generalize a / b = q
  generalize a % b = r at rest
  have nonneg : (0 : K) ≤ r / b := by positivity
  rcases lt_trichotomy (2 * r) b with below | tie | above
  · have small : (r : K) / b < 1 / 2 := by
      have cast : (2 : K) * r < b := by exact_mod_cast below
      rw [div_lt_iff₀ pos']
      linarith
    rw [if_neg (by omega)]
    refine halfEven_of_near ?_ ?_
    · push_cast
      linarith [show (0 : K) < 1 / 2 by norm_num]
    · push_cast
      linarith
  · have half : (r : K) / b = 1 / 2 := by
      have cast : (2 : K) * r = b := by exact_mod_cast tie
      rw [div_eq_iff pos'.ne']
      linarith
    have eq := halfEven_tie (K := K) (q : ℤ)
    rw [Int.cast_natCast] at eq
    rw [half, eq]
    by_cases even : q % 2 = 0
    · rw [if_pos (by omega), if_neg (by omega)]
    · rw [if_neg (by omega), if_pos (by omega)]
      push_cast
      rfl
  · have large : 1 / 2 < (r : K) / b := by
      have cast : (b : K) < 2 * r := by exact_mod_cast above
      rw [lt_div_iff₀ pos']
      linarith
    have small : (r : K) / b < 1 := by
      rw [div_lt_one pos']
      exact_mod_cast rest
    rw [if_pos (.inl above)]
    refine halfEven_of_near ?_ ?_
    · push_cast
      linarith
    · push_cast
      linarith [show (0 : K) < 1 / 2 by norm_num]

/-- Rounding twice, first to a whole number and then to a multiple of `2 * h`, is rounding once but
for numbers that the first rounding puts on a tie of the second, from the side that the tie does not
go to. -/
theorem halfEven_halfEven_div {x : K} {h : ℤ} (pos : 0 < h) :
    halfEven ((halfEven x : K) / (2 * h : ℤ)) = halfEven (x / (2 * h : ℤ)) ↔
      ¬ ∃ t : ℤ, halfEven x = t * (2 * h) + h ∧
        (x < halfEven x ∧ t % 2 ≠ 0 ∨ halfEven x < x ∧ t % 2 = 0) := by
  have near := abs_le.mp (abs_sub_halfEven x)
  generalize halfEven x = y at near ⊢
  have pos' : (1 : K) ≤ h := by exact_mod_cast pos
  have two : (0 : K) < (2 * h : ℤ) := by
    push_cast
    linarith
  have half : (0 : K) < 1 / 2 := by norm_num
  -- a number between two ties is rounded to what is between them
  have between {z : K} (t : ℤ) (low : (t : K) * (2 * h) - h < z) (high : z < t * (2 * h) + h) :
      halfEven (z / (2 * h : ℤ)) = t := by
    refine halfEven_of_near ?_ ?_
    · rw [lt_div_iff₀ two]
      push_cast
      linarith
    · rw [div_lt_iff₀ two]
      push_cast
      linarith
  have on_tie {t : ℤ} (eq : y = t * (2 * h) + h) : y / (2 * h) = t ∧ y % (2 * h) = h :=
    (Int.ediv_emod_unique (by omega)).mpr ⟨by rw [eq]; ring, by omega, by omega⟩
  have split : y = y / (2 * h) * (2 * h) + y % (2 * h) := by
    rw [mul_comm]
    exact (Int.mul_ediv_add_emod y (2 * h)).symm
  have rest := Int.emod_lt_of_pos y (show 0 < 2 * h by omega)
  have rest0 := Int.emod_nonneg y (show 2 * h ≠ 0 by omega)
  generalize y / (2 * h) = t at split on_tie
  generalize y % (2 * h) = r at split rest rest0 on_tie
  have cast : (y : K) = t * (2 * h) + r := by
    rw [split]
    push_cast
    ring
  rcases lt_trichotomy r h with below | tie | above
  · have small : (r : K) ≤ h - 1 := by exact_mod_cast (show r ≤ h - 1 by omega)
    have nonneg : (0 : K) ≤ r := by exact_mod_cast rest0
    rw [between t (by linarith) (by linarith), between t (by linarith) (by linarith)]
    refine iff_of_true rfl ?_
    rintro ⟨t', eq, -⟩
    exact absurd (on_tie eq).2 below.ne
  · subst tie
    have tied : (y : K) / (2 * r : ℤ) = t + 1 / 2 := by
      rw [div_eq_iff two.ne', cast]
      push_cast
      ring
    have eq : y = t * (2 * r) + r := split
    have only {s : ℤ} (eq' : y = s * (2 * r) + r) : s = t := (on_tie eq').1.symm
    rw [tied, halfEven_tie]
    rcases lt_trichotomy x y with below | same | above
    · rw [between t (by linarith) (by linarith)]
      by_cases even : t % 2 = 0
      · rw [if_pos even]
        refine iff_of_true rfl ?_
        rintro ⟨s, eq', ⟨-, odd⟩ | ⟨other, -⟩⟩
        · exact odd (only eq' ▸ even)
        · exact absurd other (not_lt.mpr below.le)
      · rw [if_neg even]
        exact iff_of_false (by omega) (not_not.mpr ⟨t, eq, .inl ⟨below, even⟩⟩)
    · rw [same, tied, halfEven_tie]
      refine iff_of_true rfl ?_
      rintro ⟨s, -, ⟨other, -⟩ | ⟨other, -⟩⟩
      · exact absurd other (lt_irrefl _)
      · exact absurd other (lt_irrefl _)
    · have up : halfEven (x / (2 * r : ℤ)) = t + 1 := by
        refine between (t + 1) ?_ ?_
        · push_cast
          linarith
        · push_cast
          linarith
      rw [up]
      by_cases even : t % 2 = 0
      · rw [if_pos even]
        exact iff_of_false (by omega) (not_not.mpr ⟨t, eq, .inr ⟨above, even⟩⟩)
      · rw [if_neg even]
        refine iff_of_true rfl ?_
        rintro ⟨s, eq', ⟨other, -⟩ | ⟨-, even'⟩⟩
        · exact absurd other (not_lt.mpr above.le)
        · exact even (only eq' ▸ even')
  · have large : (h : K) + 1 ≤ r := by exact_mod_cast (show h + 1 ≤ r by omega)
    have small : (r : K) ≤ 2 * h - 1 := by exact_mod_cast (show r ≤ 2 * h - 1 by omega)
    have up {z : K} (low : (y : K) - 1 / 2 ≤ z) (high : z ≤ y + 1 / 2) :
        halfEven (z / (2 * h : ℤ)) = t + 1 := by
      refine between (t + 1) ?_ ?_
      · push_cast
        linarith
      · push_cast
        linarith
    rw [up (by linarith) (by linarith), up (by linarith) (by linarith)]
    refine iff_of_true rfl ?_
    rintro ⟨t', eq, -⟩
    exact absurd (on_tie eq).2 above.ne'

/-! ### Significant digits -/

/-- The exponent of the last of `p` significant digits in base `β`. -/
def lastPlace (β : ℕ) (p : ℤ) (x : K) : ℤ := Int.log β |x| - p + 1

/-- `x` to `p` significant digits in base `β`. -/
def roundDigits (β : ℕ) (p : ℤ) (x : K) : K :=
  halfEven (x / (β : K) ^ lastPlace β p x) * (β : K) ^ lastPlace β p x

section

variable {β : ℕ} {p e : ℤ} {x : K}

theorem lastPlace_of (base : 1 < β) (low : (β : K) ^ (e + p - 1) ≤ |x|) (high : |x| < (β : K) ^ (e + p)) :
    lastPlace β p x = e := by
  have pos : 0 < |x| := lt_of_lt_of_le (zpow_pos (by exact_mod_cast Nat.zero_lt_of_lt base) _) low
  have above : e + p - 1 ≤ Int.log β |x| := (Int.zpow_le_iff_le_log base pos).mp low
  have below : Int.log β |x| < e + p := (Int.lt_zpow_iff_log_lt base pos).mp high
  unfold lastPlace
  omega

theorem roundDigits_of (base : 1 < β) (low : (β : K) ^ (e + p - 1) ≤ |x|)
    (high : |x| < (β : K) ^ (e + p)) :
    roundDigits β p x = halfEven (x / (β : K) ^ e) * (β : K) ^ e := by
  unfold roundDigits
  rw [lastPlace_of base low high]

@[simp] theorem roundDigits_zero (β : ℕ) (p : ℤ) : roundDigits β p (0 : K) = 0 := by
  have zero : halfEven (0 : K) = 0 := by exact_mod_cast halfEven_intCast (K := K) 0
  unfold roundDigits
  rw [zero_div, zero, Int.cast_zero, zero_mul]

theorem roundDigits_neg (β : ℕ) (p : ℤ) (x : K) : roundDigits β p (-x) = -roundDigits β p x := by
  have same : lastPlace β p (-x) = lastPlace β p x := by
    unfold lastPlace
    rw [abs_neg]
  unfold roundDigits
  rw [same, neg_div, halfEven_neg]
  push_cast
  ring

theorem lastPlace_mul_zpow (base : 1 < β) (nonzero : x ≠ 0) (k : ℤ) :
    lastPlace β p (x * (β : K) ^ k) = lastPlace β p x + k := by
  have pos : 0 < |x| := abs_pos.mpr nonzero
  have pos' : (0 : K) < β := by exact_mod_cast Nat.zero_lt_of_lt base
  have scaled : |x * (β : K) ^ k| = |x| * (β : K) ^ k := by
    rw [abs_mul, abs_of_pos (zpow_pos pos' k)]
  have low := Int.zpow_log_le_self base pos
  have high := Int.lt_zpow_succ_log_self base |x|
  refine lastPlace_of base ?_ ?_
  · have place : lastPlace β p x + k + p - 1 = Int.log β |x| + k := by
      unfold lastPlace
      ring
    rw [scaled, place, zpow_add₀ pos'.ne']
    exact mul_le_mul_of_nonneg_right low (zpow_pos pos' k).le
  · have place : lastPlace β p x + k + p = Int.log β |x| + 1 + k := by
      unfold lastPlace
      ring
    rw [scaled, place, zpow_add₀ pos'.ne']
    exact mul_lt_mul_of_pos_right high (zpow_pos pos' k)

/-- A power of the base goes through the rounding. -/
theorem roundDigits_mul_zpow (base : 1 < β) (x : K) (k : ℤ) :
    roundDigits β p (x * (β : K) ^ k) = roundDigits β p x * (β : K) ^ k := by
  have nonzero : (β : K) ≠ 0 := by exact_mod_cast (Nat.zero_lt_of_lt base).ne'
  by_cases hx : x = 0
  · rw [hx, zero_mul, roundDigits_zero, zero_mul]
  · unfold roundDigits
    rw [lastPlace_mul_zpow base hx, zpow_add₀ nonzero, mul_div_mul_right _ _ (zpow_ne_zero k nonzero)]
    ring

variable {n : ℤ}

/-- A number that ends no later than its last place is its own rounding. -/
theorem roundDigits_of_multiple (base : 1 < β) (hx : x = n * (β : K) ^ e)
    (place : lastPlace β p x ≤ e) : roundDigits β p x = x := by
  have nonzero : (β : K) ≠ 0 := by exact_mod_cast (Nat.zero_lt_of_lt base).ne'
  obtain ⟨j, hj⟩ := Int.eq_ofNat_of_zero_le (sub_nonneg.mpr place)
  have whole : x / (β : K) ^ lastPlace β p x = ((n * (β : ℤ) ^ j : ℤ) : K) := by
    have power : (β : K) ^ e = (β : K) ^ j * (β : K) ^ lastPlace β p x := by
      rw [← zpow_natCast, ← zpow_add₀ nonzero]
      congr 1
      omega
    rw [div_eq_iff (zpow_ne_zero _ nonzero)]
    conv_lhs => rw [hx, power]
    push_cast
    ring
  unfold roundDigits
  rw [whole, halfEven_intCast, ← whole, div_mul_cancel₀ _ (zpow_ne_zero _ nonzero)]

/-- A number of at most `p` digits is its own rounding. -/
theorem roundDigits_exact (base : 1 < β) (few : |(n : K)| < (β : K) ^ p) (e : ℤ) :
    roundDigits β p (n * (β : K) ^ e) = n * (β : K) ^ e := by
  by_cases zero : n = 0
  · rw [zero, Int.cast_zero, zero_mul, roundDigits_zero]
  have pos : (0 : K) < β := by exact_mod_cast Nat.zero_lt_of_lt base
  have nonzero : (n : K) ≠ 0 := by exact_mod_cast zero
  refine roundDigits_of_multiple base rfl ?_
  rw [lastPlace_mul_zpow base nonzero]
  have below := (Int.lt_zpow_iff_log_lt base (abs_pos.mpr nonzero)).mp few
  unfold lastPlace
  omega

/-- `x` has at most `p` significant digits in base `β`. -/
def HasDigits (β : ℕ) (p : ℤ) (x : K) : Prop := ∃ n e : ℤ, |(n : K)| < (β : K) ^ p ∧ x = n * (β : K) ^ e

/-- The numbers of at most `p` digits are those that rounding keeps. -/
theorem roundDigits_eq_self_iff (base : 1 < β) : roundDigits β p x = x ↔ HasDigits β p x := by
  have pos : (0 : K) < β := by exact_mod_cast Nat.zero_lt_of_lt base
  constructor
  · intro kept
    refine ⟨halfEven (x / (β : K) ^ lastPlace β p x), lastPlace β p x, ?_, kept.symm⟩
    have unit : (0 : K) < (β : K) ^ lastPlace β p x := zpow_pos pos _
    have whole : (halfEven (x / (β : K) ^ lastPlace β p x) : K) = x / (β : K) ^ lastPlace β p x :=
      (eq_div_iff unit.ne').mpr kept
    have place : p + lastPlace β p x = Int.log β |x| + 1 := by
      unfold lastPlace
      ring
    rw [whole, abs_div, abs_of_pos unit, div_lt_iff₀ unit, ← zpow_add₀ pos.ne', place]
    exact Int.lt_zpow_succ_log_self base |x|
  · rintro ⟨n, e, few, rfl⟩
    exact roundDigits_exact base few e

/-- A rounding is a multiple of its last place, and nearest to the number. -/
theorem roundDigits_eq_iff (base : 1 < β) {y : K} :
    roundDigits β p x = y ↔ ∃ n : ℤ, y = n * (β : K) ^ lastPlace β p x ∧
      (2 * |x - y| < (β : K) ^ lastPlace β p x ∨
        (2 * |x - y| = (β : K) ^ lastPlace β p x ∧ n % 2 = 0)) := by
  have unit : (0 : K) < (β : K) ^ lastPlace β p x :=
    zpow_pos (by exact_mod_cast Nat.zero_lt_of_lt base) _
  have scaled (n : ℤ) : 2 * |x - n * (β : K) ^ lastPlace β p x| =
      2 * |x / (β : K) ^ lastPlace β p x - n| * (β : K) ^ lastPlace β p x := by
    rw [mul_assoc, ← abs_of_pos unit, ← abs_mul, abs_of_pos unit, sub_mul, div_mul_cancel₀ _ unit.ne']
  have two : (0 : K) < 2 := by norm_num
  have nearest (n : ℤ) : halfEven (x / (β : K) ^ lastPlace β p x) = n ↔
      2 * |x - n * (β : K) ^ lastPlace β p x| < (β : K) ^ lastPlace β p x ∨
        (2 * |x - n * (β : K) ^ lastPlace β p x| = (β : K) ^ lastPlace β p x ∧ n % 2 = 0) := by
    rw [halfEven_eq_iff, scaled, mul_lt_iff_lt_one_left unit, mul_eq_right₀ unit.ne', lt_div_iff₀ two,
      eq_div_iff two.ne', mul_comm _ (2 : K)]
  constructor
  · rintro rfl
    exact ⟨_, rfl, (nearest _).mp rfl⟩
  · rintro ⟨n, rfl, near⟩
    rw [roundDigits, (nearest n).mpr near]

/-- No number but zero is rounded to zero. -/
theorem roundDigits_eq_zero (base : 1 < β) (hp : 1 ≤ p) : roundDigits β p x = 0 ↔ x = 0 := by
  refine ⟨fun zero => ?_, fun h => by rw [h, roundDigits_zero]⟩
  by_contra nonzero
  have pos : (0 : K) < β := by exact_mod_cast Nat.zero_lt_of_lt base
  obtain ⟨n, -, near⟩ := (roundDigits_eq_iff base).mp zero
  have unit : (β : K) ^ lastPlace β p x ≤ |x| := by
    have below : lastPlace β p x ≤ Int.log β |x| := by
      unfold lastPlace
      omega
    exact (zpow_le_zpow_right₀ (by exact_mod_cast base.le) below).trans
      (Int.zpow_log_le_self base (abs_pos.mpr nonzero))
  rw [sub_zero] at near
  have some : 0 < |x| := abs_pos.mpr nonzero
  rcases near with near | ⟨near, -⟩
  · linarith
  · linarith

end

/-! ### Rounding twice -/

/-- The whole number next to `x` is a tie of `p` digits that `x` is not on, and the tie goes away
from `x`. -/
def OffTie (β : ℕ) (p : ℤ) (x : K) : Prop :=
  ∃ t : ℤ, (halfEven x : K) = (t + 1 / 2) * (β : K) ^ lastPlace β p x ∧
    (x < halfEven x ∧ t % 2 ≠ 0 ∨ halfEven x < x ∧ t % 2 = 0)

/-- A number of more than `p` digits can be rounded to a whole number first, if that does not take
it onto a tie. -/
theorem roundDigits_halfEven {β c : ℕ} (even : β = 2 * c) (pos : 0 < c) {p : ℤ} (hp : 1 ≤ p) {x : K}
    (wide : (β : K) ^ p ≤ x) :
    roundDigits β p (halfEven x : K) = roundDigits β p x ↔ ¬ OffTie β p x := by
  have base : 1 < β := by omega
  have pos' : (0 : K) < β := by exact_mod_cast Nat.zero_lt_of_lt base
  have hx : 0 < x := lt_of_lt_of_le (zpow_pos pos' p) wide
  obtain ⟨low, high⟩ : (β : K) ^ (lastPlace β p x + p - 1) ≤ x ∧ x < (β : K) ^ (lastPlace β p x + p) := by
    have eq : lastPlace β p x + p = Int.log β x + 1 := by
      unfold lastPlace
      rw [abs_of_pos hx]
      ring
    rw [eq, add_sub_cancel_right]
    exact ⟨Int.zpow_log_le_self base hx, Int.lt_zpow_succ_log_self base x⟩
  obtain ⟨j, hj⟩ : ∃ j : ℕ, lastPlace β p x = j + 1 := by
    have above := (Int.zpow_le_iff_le_log base hx).mp wide
    have placed : 1 ≤ lastPlace β p x := by
      unfold lastPlace
      rw [abs_of_pos hx]
      omega
    exact ⟨(lastPlace β p x - 1).toNat, by omega⟩
  obtain ⟨q, rfl⟩ : ∃ q : ℕ, p = q + 1 := ⟨(p - 1).toNat, by omega⟩
  -- the last place is an even number
  have unit : (β : K) ^ lastPlace β (q + 1) x = ((2 * (c * β ^ j) : ℤ) : K) := by
    rw [hj, zpow_add_one₀ pos'.ne', zpow_natCast, even]
    push_cast
    ring
  have half : 0 < (c * β ^ j : ℤ) := by positivity
  have near := abs_le.mp (abs_sub_halfEven x)
  have tenth : (1 / 2 : K) < 1 := by norm_num
  have least : (β : K) ^ (lastPlace β (q + 1) x + (q + 1) - 1) ≤ halfEven x := by
    have whole : (β : K) ^ (lastPlace β (q + 1) x + (q + 1) - 1) = ((β ^ (j + 1 + q) : ℤ) : K) := by
      rw [hj, show ((j : ℤ) + 1 + (q + 1) - 1) = ((j + 1 + q : ℕ) : ℤ) by push_cast; ring, zpow_natCast]
      push_cast
      rfl
    rw [whole] at low ⊢
    have above : ((β ^ (j + 1 + q) : ℤ) : K) < (halfEven x + 1 : ℤ) := by
      push_cast at low ⊢
      linarith
    exact_mod_cast Int.lt_add_one_iff.mp (by exact_mod_cast above)
  have most : (halfEven x : K) ≤ (β : K) ^ (lastPlace β (q + 1) x + (q + 1)) := by
    have whole : (β : K) ^ (lastPlace β (q + 1) x + (q + 1)) = ((β ^ (j + 2 + q) : ℤ) : K) := by
      rw [hj, show ((j : ℤ) + 1 + (q + 1)) = ((j + 2 + q : ℕ) : ℤ) by push_cast; ring, zpow_natCast]
      push_cast
      rfl
    rw [whole] at high ⊢
    have below : (halfEven x : K) < ((β ^ (j + 2 + q) + 1 : ℤ) : K) := by
      push_cast at high ⊢
      linarith
    exact_mod_cast Int.lt_add_one_iff.mp (by exact_mod_cast below)
  have unit_pos : (0 : K) < ((2 * (c * β ^ j) : ℤ) : K) := unit ▸ zpow_pos pos' _
  unfold OffTie
  rcases lt_or_eq_of_le most with below | carried
  · have hy : (0 : K) < halfEven x := lt_of_lt_of_le (zpow_pos pos' _) least
    have least' := (abs_of_pos hy).symm ▸ least
    have below' : |(halfEven x : K)| < (β : K) ^ (lastPlace β (q + 1) x + (q + 1)) := by
      rw [abs_of_pos hy]
      exact below
    rw [roundDigits_of base least' below', roundDigits, unit, mul_left_inj' unit_pos.ne',
      Int.cast_inj, halfEven_halfEven_div half]
    refine not_congr (exists_congr fun t => and_congr_left' ?_)
    have cast : ((t : K) + 1 / 2) * ((2 * (c * β ^ j) : ℤ) : K) =
        ((t * (2 * (c * β ^ j)) + c * β ^ j : ℤ) : K) := by
      push_cast
      ring
    rw [cast, Int.cast_inj]
  · have split : (halfEven x : K) = (β ^ (q + 1) : ℤ) * ((2 * (c * β ^ j) : ℤ) : K) := by
      rw [carried, ← unit, add_comm, zpow_add₀ pos'.ne', show ((q : ℤ) + 1) = ((q + 1 : ℕ) : ℤ) by rfl,
        zpow_natCast]
      push_cast
      rfl
    have large : (2 : K) ≤ ((2 * (c * β ^ j) : ℤ) : K) := by
      exact_mod_cast (show (2 : ℤ) ≤ 2 * (c * β ^ j) by omega)
    have up : halfEven (x / ((2 * (c * β ^ j) : ℤ) : K)) = β ^ (q + 1) := by
      refine halfEven_of_near ?_ ?_
      · rw [lt_div_iff₀ unit_pos, sub_mul, ← split]
        linarith
      · rw [div_lt_iff₀ unit_pos, add_mul, ← split]
        linarith
    have kept : roundDigits β (q + 1) (halfEven x : K) = halfEven x := by
      have one : |((1 : ℤ) : K)| < (β : K) ^ ((q : ℤ) + 1) := by
        rw [Int.cast_one, abs_one]
        exact one_lt_zpow₀ (by exact_mod_cast base) (by omega)
      have exact := roundDigits_exact base one (lastPlace β (q + 1) x + (q + 1))
      rwa [Int.cast_one, one_mul, ← carried] at exact
    rw [kept, roundDigits, unit, up, ← split]
    refine iff_of_true rfl ?_
    rintro ⟨t, tie, -⟩
    rw [split, mul_left_inj' unit_pos.ne'] at tie
    have parity : ((2 * β ^ (q + 1) : ℤ) : K) = ((2 * t + 1 : ℤ) : K) := by
      push_cast at tie ⊢
      rw [tie]
      ring
    have := Int.cast_inj.mp parity
    omega

end Voila.Lib
