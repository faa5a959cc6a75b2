import Voila.Rt.Ops

/-!
# Voila.Rt.Dur

Arithmetic of durations (`dur_op`), and what the boxed integer operations compute.

The operations on `int`s go through the checked cores, each of which returns the mathematical result
or traps (`Computes`); `vl_ipow_i` squares ahead, but never beyond the power itself. Durations are
added, subtracted, multiplied and negated as `int64_t` without a check, so that such a result wraps
where it leaves the range (`calc_right_iff`).
-/

namespace Voila.Rt

variable {F O : Type*}

/-! ### Durations -/

/-- Why an operation stopped that durations can take part in. -/
inductive DurTrap (F O : Type*)
  /-- A trap of operands that are none. -/
  | other (t : Trap F O)
  | div0
  /-- `invalid duration operation`. -/
  | invalid

section

variable (o : FloatOps F)

/-- `dur_op` on two durations. -/
def durDur (op : ArithOp) (a b : Int64) : Except (DurTrap F O) (Value F O) :=
  match op with
  | .add => .ok (.dur (a + b))
  | .sub => .ok (.dur (a - b))
  | .div => if b = 0 then .error .div0 else .ok (.float (o.div (o.ofInt a) (o.ofInt b)))
  | .lt => .ok (.bool (a < b))
  | .le => .ok (.bool (a ≤ b))
  | .gt => .ok (.bool (a > b))
  | .ge => .ok (.bool (a ≥ b))
  | _ => .error .invalid

/-- `dur_op`: `none` where it returns false. -/
def durOp (op : ArithOp) (a b : Value F O) : Option (Except (DurTrap F O) (Value F O)) :=
  match a, b with
  | .dur a, .dur b => some (durDur o op a b)
  | .dur a, .int b => some <|
      match op with
      | .mul => .ok (.dur (a * b))
      | .div => if b = 0 then .error .div0 else .ok (.dur (a / b))
      | _ => .error .invalid
  | .int a, .dur b => some (if op = .mul then .ok (.dur (a * b)) else .error .invalid)
  | .dur _, _ => some (.error .invalid)
  | _, .dur _ => some (.error .invalid)
  | _, _ => none

/-- `arith` on immediate values. -/
def arithImm (op : ArithOp) (a b : Value F O) : Option (Except (DurTrap F O) (Value F O)) :=
  match a, b with
  | .obj _, _ => none
  | _, .obj _ => none
  | a, b =>
    match durOp o op (derune a) (derune b) with
    | some r => some r
    | none => (arith o op a b).map (Except.mapError .other)

/-- `vl_neg` on immediate values. -/
def negImm (a : Value F O) : Option (Except (DurTrap F O) (Value F O)) :=
  match a with
  | .dur a => some (.ok (.dur (-a)))
  | a => (neg o a).map (Except.mapError .other)

end

/-! ### Checked cores -/

/-- The range of an `int64_t`. -/
def FitsInt64 (n : Int) : Prop := -2 ^ 63 ≤ n ∧ n < 2 ^ 63

instance (n : Int) : Decidable (FitsInt64 n) := inferInstanceAs (Decidable (_ ∧ _))

theorem fitsInt64_toInt (w : Int64) : FitsInt64 w.toInt := ⟨w.le_toInt, w.toInt_lt⟩

variable {w : Int64}

/-- What is wrapped is the number if it is in range. -/
theorem wrapped_eq_iff {n : Int} (h : w.toInt = n.bmod (2 ^ 64)) : w.toInt = n ↔ FitsInt64 n := by
  constructor
  · intro eq
    exact eq ▸ fitsInt64_toInt w
  · rintro ⟨low, high⟩
    rw [h, Int.bmod_eq_of_le (by omega) (by omega)]

/-- A core returns the mathematical result, and traps only where there is none in range. -/
structure Computes (r : Except (NumTrap F) Int64) (exact : Option Int) : Prop where
  ok : ∀ w, r = .ok w → exact = some w.toInt
  trap : ∀ t n, r = .error t → exact = some n → ¬ FitsInt64 n

theorem checked_computes (op : ArithOp) (a b : Int64) {c : Int}
    (h : w.toInt = c.bmod (2 ^ 64)) : Computes (checked (F := F) op a b c w) (some c) := by
  unfold checked
  split_ifs with eq
  · exact ⟨fun v hv => by rw [← eq, Except.ok.inj hv], fun t n ht => nomatch ht⟩
  · refine ⟨fun v hv => (nomatch hv), fun t n _ hn fits => ?_⟩
    rw [← Option.some.inj hn, ← wrapped_eq_iff h] at fits
    exact eq fits

theorem iaddCk_computes (a b : Int64) : Computes (iaddCk (F := F) a b) (some (a.toInt + b.toInt)) :=
  checked_computes _ _ _ (Int64.toInt_add a b)

theorem isubCk_computes (a b : Int64) : Computes (isubCk (F := F) a b) (some (a.toInt - b.toInt)) :=
  checked_computes _ _ _ (Int64.toInt_sub a b)

theorem imulCk_computes (a b : Int64) : Computes (imulCk (F := F) a b) (some (a.toInt * b.toInt)) :=
  checked_computes _ _ _ (Int64.toInt_mul a b)

theorem minValue_toInt : Int64.minValue.toInt = -2 ^ 63 := by decide

theorem inegCk_computes (a : Int64) : Computes (inegCk (F := F) a) (some (-a.toInt)) := by
  have low := a.le_toInt
  have high := a.toInt_lt
  unfold inegCk
  split_ifs with least
  · refine ⟨fun v hv => (nomatch hv), fun t n _ hn fits => ?_⟩
    rw [← Option.some.inj hn, least, minValue_toInt] at fits
    exact absurd fits.2 (by decide)
  · have fits : FitsInt64 (-a.toInt) := by
      have : a.toInt ≠ -2 ^ 63 := fun h => least (Int64.toInt_inj.mp (h.trans minValue_toInt.symm))
      exact ⟨by omega, by omega⟩
    have eq := (wrapped_eq_iff (Int64.toInt_neg a)).mpr fits
    exact ⟨fun v hv => by rw [← eq, Except.ok.inj hv], fun t n ht => (nomatch ht)⟩

/-- The floor of a quotient, where there is one. -/
def floorDiv (a b : Int) : Option Int := if b = 0 then none else some (a.fdiv b)

/-- What is left of it. -/
def floorMod (a b : Int) : Option Int := if b = 0 then none else some (a.fmod b)

/-- C's remainder has the sign of the dividend. -/
theorem tmod_bounds {a b : Int} (hb : b ≠ 0) :
    (0 ≤ a → 0 ≤ a.tmod b) ∧ (a < 0 → a.tmod b ≤ 0) ∧ |a.tmod b| < |b| := by
  have below (c : Int) : |a.tmod c| < |c| ∨ c = 0 := by
    rcases lt_trichotomy c 0 with neg | zero | pos
    · have low := Int.lt_tmod_of_pos a (show 0 < -c by omega)
      have high := Int.tmod_lt_of_pos a (show 0 < -c by omega)
      rw [Int.tmod_neg] at low high
      rw [abs_of_neg neg]
      exact .inl (abs_lt.mpr ⟨by omega, high⟩)
    · exact .inr zero
    · rw [abs_of_pos pos]
      exact .inl (abs_lt.mpr ⟨Int.lt_tmod_of_pos a pos, Int.tmod_lt_of_pos a pos⟩)
  refine ⟨Int.tmod_nonneg b, fun neg => ?_, (below b).resolve_right hb⟩
  have nonneg := Int.tmod_nonneg b (show 0 ≤ -a by omega)
  rw [Int.neg_tmod] at nonneg
  omega

/-- C's division, corrected, is floor division. -/
theorem floor_of_trunc {a b : Int} (hb : b ≠ 0) :
    (a.tmod b ≠ 0 ∧ (decide (a < 0) ≠ decide (b < 0)) →
        a.fdiv b = a.tdiv b - 1 ∧ a.fmod b = a.tmod b + b) ∧
      (¬ (a.tmod b ≠ 0 ∧ (decide (a < 0) ≠ decide (b < 0))) →
        a.fdiv b = a.tdiv b ∧ a.fmod b = a.tmod b) := by
  have split := Int.tmod_add_mul_tdiv a b
  obtain ⟨nonneg, nonpos, small⟩ := tmod_bounds (a := a) hb
  have below := abs_lt.mp small
  have corrected : a.tmod b + b + b * (a.tdiv b - 1) = a := by linarith [split]
  simp only [ne_eq, decide_eq_decide]
  rcases lt_or_gt_of_ne hb with neg | pos
  · rw [abs_of_neg neg] at below
    constructor
    · intro down
      exact (Int.fdiv_fmod_unique' neg).mpr ⟨corrected, by omega, by omega⟩
    · intro stay
      exact (Int.fdiv_fmod_unique' neg).mpr ⟨split, by omega, by omega⟩
  · rw [abs_of_pos pos] at below
    constructor
    · intro down
      exact (Int.fdiv_fmod_unique pos).mpr ⟨corrected, by omega, by omega⟩
    · intro stay
      exact (Int.fdiv_fmod_unique pos).mpr ⟨split, by omega, by omega⟩

/-- The condition of the correction, in numbers. -/
theorem down_iff (a b : Int64) :
    (a % b ≠ 0 ∧ (decide (a < 0) ≠ decide (b < 0))) ↔
      (a.toInt.tmod b.toInt ≠ 0 ∧ (decide (a.toInt < 0) ≠ decide (b.toInt < 0))) := by
  have rest : a % b = 0 ↔ a.toInt.tmod b.toInt = 0 := by
    rw [← Int64.toInt_mod]
    exact Int64.toInt_inj.symm
  have sign (c : Int64) : c < 0 ↔ c.toInt < 0 := Int64.lt_iff_toInt_lt
  simp only [ne_eq, rest, sign]

theorem ifloordiv_computes (a b : Int64) :
    Computes (ifloordiv (F := F) a b) (floorDiv a.toInt b.toInt) := by
  have zero : b = 0 ↔ b.toInt = 0 := Int64.toInt_inj.symm
  unfold ifloordiv floorDiv
  by_cases hb : b = 0
  · rw [if_pos hb, if_pos (zero.mp hb)]
    exact ⟨fun v hv => (nomatch hv), fun t n _ hn => (nomatch hn)⟩
  have hb' := mt zero.mpr hb
  rw [if_neg hb, if_neg hb']
  by_cases least : b = -1 ∧ a = Int64.minValue
  · rw [if_pos least]
    refine ⟨fun v hv => (nomatch hv), fun t n _ hn fits => ?_⟩
    rw [← Option.some.inj hn, least.1, least.2] at fits
    exact absurd fits.2 (by decide)
  have quotient : (a / b).toInt = a.toInt.tdiv b.toInt := by
    by_cases one : b = -1
    · exact Int64.toInt_div_of_ne_left a b fun h => least ⟨one, h⟩
    · exact Int64.toInt_div_of_ne_right a b one
  have exact : (if a % b ≠ 0 ∧ (decide (a < 0) ≠ decide (b < 0)) then a / b - 1 else a / b).toInt =
      a.toInt.fdiv b.toInt := by
    obtain ⟨hdown, hstay⟩ := floor_of_trunc (a := a.toInt) hb'
    by_cases down : a % b ≠ 0 ∧ (decide (a < 0) ≠ decide (b < 0))
    · -- something remains, so the divisor is at least two, and the quotient far from the end
      have down' := (down_iff a b).mp down
      have two : 2 ≤ b.toInt.natAbs := by
        by_contra small
        rcases (show b.toInt = 1 ∨ b.toInt = -1 by omega) with one | one
        · exact down'.1 (by rw [one, Int.tmod_one])
        · exact down'.1 (by rw [one, Int.tmod_neg, Int.tmod_one])
      have half : (a.toInt.tdiv b.toInt).natAbs ≤ 2 ^ 63 / 2 := by
        have low := a.le_toInt
        have high := a.toInt_lt
        rw [Int.natAbs_tdiv]
        calc a.toInt.natAbs / b.toInt.natAbs ≤ 2 ^ 63 / b.toInt.natAbs := Nat.div_le_div_right (by omega)
          _ ≤ 2 ^ 63 / 2 := Nat.div_le_div_left two (by omega)
      have wrapped : (a / b - 1).toInt = (a.toInt.tdiv b.toInt - 1).bmod (2 ^ 64) := by
        rw [Int64.toInt_sub, quotient]
        rfl
      rw [if_pos down, (hdown down').1]
      exact (wrapped_eq_iff wrapped).mpr ⟨by omega, by omega⟩
    · rw [if_neg down, (hstay (mt (down_iff a b).mpr down)).1, quotient]
  rw [if_neg least]
  exact ⟨fun v hv => by rw [← Except.ok.inj hv, exact], fun t n ht => (nomatch ht)⟩

theorem ifloormod_computes (a b : Int64) :
    Computes (ifloormod (F := F) a b) (floorMod a.toInt b.toInt) := by
  have zero : b = 0 ↔ b.toInt = 0 := Int64.toInt_inj.symm
  unfold ifloormod floorMod
  by_cases hb : b = 0
  · rw [if_pos hb, if_pos (zero.mp hb)]
    exact ⟨fun v hv => (nomatch hv), fun t n _ hn => (nomatch hn)⟩
  have hb' := mt zero.mpr hb
  rw [if_neg hb, if_neg hb']
  by_cases one : b = -1
  · have none_left : a.toInt.fmod (-1) = 0 := by rw [Int.fmod_eq_tmod, Int.tmod_neg, Int.tmod_one]; simp
    rw [if_pos one, one]
    refine ⟨fun v hv => ?_, fun t n ht => (nomatch ht)⟩
    rw [← Except.ok.inj hv]
    exact congrArg some none_left
  have exact : (if a % b ≠ 0 ∧ (decide (a < 0) ≠ decide (b < 0)) then a % b + b else a % b).toInt =
      a.toInt.fmod b.toInt := by
    obtain ⟨hdown, hstay⟩ := floor_of_trunc (a := a.toInt) hb'
    by_cases down : a % b ≠ 0 ∧ (decide (a < 0) ≠ decide (b < 0))
    · have down' := (down_iff a b).mp down
      have wrapped : (a % b + b).toInt = (a.toInt.tmod b.toInt + b.toInt).bmod (2 ^ 64) := by
        rw [Int64.toInt_add, Int64.toInt_mod]
      obtain ⟨nonneg, nonpos, small⟩ := tmod_bounds (a := a.toInt) hb'
      have below := abs_lt.mp small
      have low := b.le_toInt
      have high := b.toInt_lt
      have signs := down'.2
      simp only [ne_eq, decide_eq_decide] at signs
      rw [if_pos down, (hdown down').2]
      refine (wrapped_eq_iff wrapped).mpr ?_
      -- the remainder and the divisor have opposite signs
      rcases lt_or_gt_of_ne hb' with neg | pos
      · rw [abs_of_neg neg] at below
        exact ⟨by omega, by omega⟩
      · rw [abs_of_pos pos] at below
        exact ⟨by omega, by omega⟩
    · rw [if_neg down, (hstay (mt (down_iff a b).mpr down)).2, Int64.toInt_mod]
  rw [if_neg one]
  exact ⟨fun v hv => by rw [← Except.ok.inj hv, exact], fun t n ht => (nomatch ht)⟩

/-! ### Powers -/

theorem checked_eq_ok {op : ArithOp} {a b : Int64} {c : Int} {w v : Int64}
    (h : checked (F := F) op a b c w = .ok v) : v.toInt = c := by
  unfold checked at h
  split_ifs at h with eq
  rw [← Except.ok.inj h, eq]

theorem checked_of_fits {op : ArithOp} {a b : Int64} {c : Int} (h : w.toInt = c.bmod (2 ^ 64))
    (fits : FitsInt64 c) : checked (F := F) op a b c w = .ok w := by
  rw [checked, if_pos ((wrapped_eq_iff h).mpr fits)]

theorem pow_split (x : Int) (e : Nat) : x ^ e = x ^ (e % 2) * (x * x) ^ (e / 2) := by
  rw [← pow_two, ← pow_mul, ← pow_add, Nat.mod_add_div]

theorem fits_of_mul {x k : Int} (hk : 1 ≤ k) (h : FitsInt64 (x * k)) : FitsInt64 x := by
  obtain ⟨low, high⟩ := h
  rcases le_or_gt 0 x with nonneg | neg
  · have : x ≤ x * k := le_mul_of_one_le_right nonneg hk
    exact ⟨by omega, by omega⟩
  · have : x * k ≤ x := by nlinarith
    exact ⟨by omega, by omega⟩

/-- A square that divides a number in range is in range: none is `2 ^ 63`. -/
theorem fits_square {x y : Int} (hy : y ≠ 0) (h : FitsInt64 (y * (x * x))) : FitsInt64 (x * x) := by
  obtain ⟨low, high⟩ := h
  have nonneg := mul_self_nonneg x
  have none : x * x ≠ 2 ^ 63 := by
    intro eq
    have few : x.natAbs * x.natAbs = 2 ^ 63 := by
      have := Int.natAbs_mul x x
      rw [eq] at this
      omega
    rcases Nat.lt_or_ge x.natAbs 3037000500 with small | large
    · have := Nat.mul_le_mul (Nat.le_of_lt_succ small) (Nat.le_of_lt_succ small)
      omega
    · have := Nat.mul_le_mul large large
      omega
  rcases lt_or_gt_of_ne hy with neg | pos
  · have : y * (x * x) ≤ -1 * (x * x) := mul_le_mul_of_nonneg_right (by omega) nonneg
    exact ⟨by omega, by omega⟩
  · have : 1 * (x * x) ≤ y * (x * x) := mul_le_mul_of_nonneg_right (by omega) nonneg
    exact ⟨by omega, by omega⟩

section

variable (a b : Int64)

variable {e : Nat}

/-- One round of the loop: the result takes the base where the exponent is odd, and the base is
squared where another round follows. -/
theorem ipowLoop_round {result base : Int64} (he : e ≠ 0) : ipowLoop (F := F) a b result base e =
      ((if e % 2 = 1 then checked .pow a b (result.toInt * base.toInt) (result * base)
        else .ok result).bind fun result =>
        (if e > 1 then checked .pow a b (base.toInt * base.toInt) (base * base) else .ok base).bind
          fun base => ipowLoop a b result base (e / 2)) := by
  rw [ipowLoop, dif_neg he]
  split
  next h =>
    rw [h]
    rfl
  next h =>
    rw [h]
    split
    next h' =>
      rw [h']
      rfl
    next h' =>
      rw [h']
      rfl

/-- What the loop returns is the power that is left. -/
theorem ipowLoop_ok {result base v : Int64}
    (h : ipowLoop (F := F) a b result base e = .ok v) : v.toInt = result.toInt * base.toInt ^ e := by
  induction e using Nat.strong_induction_on generalizing result base with
  | _ e ih =>
    by_cases he : e = 0
    · rw [ipowLoop, dif_pos he] at h
      rw [← Except.ok.inj h, he, pow_zero, mul_one]
    rw [ipowLoop_round a b he] at h
    cases h1 : (if e % 2 = 1 then checked (F := F) .pow a b (result.toInt * base.toInt) (result * base)
      else .ok result) with
    | error t =>
      rw [h1] at h
      cases h
    | ok result' =>
      cases h2 : (if e > 1 then checked (F := F) .pow a b (base.toInt * base.toInt) (base * base)
        else .ok base) with
      | error t =>
        rw [h1, h2] at h
        cases h
      | ok base' =>
        rw [h1, h2] at h
        have rest := ih (e / 2) (by omega) h
        have taken : result'.toInt = result.toInt * base.toInt ^ (e % 2) := by
          split_ifs at h1 with odd
          · rw [checked_eq_ok h1, odd, pow_one]
          · rw [← Except.ok.inj h1, show e % 2 = 0 by omega, pow_zero, mul_one]
        have squared : base'.toInt ^ (e / 2) = (base.toInt * base.toInt) ^ (e / 2) := by
          split_ifs at h2 with more
          · rw [checked_eq_ok h2]
          · rw [show e / 2 = 0 by omega, pow_zero, pow_zero]
        rw [rest, taken, squared, pow_split base.toInt e, mul_assoc]

/-- The loop multiplies nothing that is larger than the power that is left. -/
theorem ipowLoop_total {result base : Int64} (zero : result.toInt = 0 → base.toInt = 0)
    (fits : FitsInt64 (result.toInt * base.toInt ^ e)) : ∃ v, ipowLoop (F := F) a b result base e = .ok v := by
  induction e using Nat.strong_induction_on generalizing result base with
  | _ e ih =>
    by_cases he : e = 0
    · exact ⟨result, by rw [ipowLoop, dif_pos he]⟩
    have split : result.toInt * base.toInt ^ e =
        result.toInt * base.toInt ^ (e % 2) * (base.toInt * base.toInt) ^ (e / 2) := by
      rw [pow_split base.toInt e, mul_assoc]
    have square_pos (h0 : base.toInt ≠ 0) : 1 ≤ base.toInt * base.toInt := by
      have := mul_self_pos.mpr h0
      omega
    obtain ⟨result', h1, taken⟩ : ∃ result', (if e % 2 = 1 then
        checked (F := F) .pow a b (result.toInt * base.toInt) (result * base) else .ok result) = .ok result' ∧
          result'.toInt = result.toInt * base.toInt ^ (e % 2) := by
      by_cases odd : e % 2 = 1
      · have fits' : FitsInt64 (result.toInt * base.toInt) := by
          by_cases h0 : base.toInt = 0
          · rw [h0, mul_zero]
            decide
          · rw [split, odd, pow_one] at fits
            exact fits_of_mul (one_le_pow₀ (square_pos h0)) fits
        have wrapped := Int64.toInt_mul result base
        refine ⟨result * base, by rw [if_pos odd, checked_of_fits wrapped fits'], ?_⟩
        rw [odd, pow_one]
        exact (wrapped_eq_iff wrapped).mpr fits'
      · refine ⟨result, by rw [if_neg odd], ?_⟩
        rw [show e % 2 = 0 by omega, pow_zero, mul_one]
    obtain ⟨base', h2, squared⟩ : ∃ base', (if e > 1 then
        checked (F := F) .pow a b (base.toInt * base.toInt) (base * base) else .ok base) = .ok base' ∧
          (base'.toInt = base.toInt * base.toInt ∨ (e / 2 = 0 ∧ base' = base)) := by
      by_cases more : e > 1
      · have fits' : FitsInt64 (base.toInt * base.toInt) := by
          by_cases h0 : base.toInt = 0
          · rw [h0, mul_zero]
            decide
          · obtain ⟨k, hk⟩ : ∃ k, e / 2 = k + 1 := ⟨e / 2 - 1, by omega⟩
            rw [split, hk, pow_succ, ← mul_assoc] at fits
            refine fits_square ?_ fits
            exact mul_ne_zero (mul_ne_zero (mt zero h0) (pow_ne_zero _ h0))
              (pow_ne_zero _ (mul_self_ne_zero.mpr h0))
        have wrapped := Int64.toInt_mul base base
        exact ⟨base * base, by rw [if_pos more, checked_of_fits wrapped fits'],
          .inl ((wrapped_eq_iff wrapped).mpr fits')⟩
      · exact ⟨base, by rw [if_neg more], .inr ⟨by omega, rfl⟩⟩
    have power : base'.toInt ^ (e / 2) = (base.toInt * base.toInt) ^ (e / 2) := by
      rcases squared with squared | ⟨last, -⟩
      · rw [squared]
      · rw [last, pow_zero, pow_zero]
    have zero' : result'.toInt = 0 → base'.toInt = 0 := by
      intro h0
      have base0 : base.toInt = 0 := by
        rw [taken] at h0
        rcases mul_eq_zero.mp h0 with h | h
        · exact zero h
        · exact eq_zero_of_pow_eq_zero h
      rcases squared with squared | ⟨-, same⟩
      · rw [squared, base0, mul_zero]
      · rw [same, base0]
    rw [split, ← taken, ← power] at fits
    obtain ⟨v, hv⟩ := ih (e / 2) (by omega) zero' fits
    refine ⟨v, ?_⟩
    rw [ipowLoop_round a b he, h1, Except.bind, h2, Except.bind, hv]

/-- A power, of an exponent that is not negative. -/
def power (a b : Int) : Option Int := if b < 0 then none else some (a ^ b.toNat)

theorem ipowI_computes : Computes (ipowI (F := F) a b) (power a.toInt b.toInt) := by
  have sign : b < 0 ↔ b.toInt < 0 := Int64.lt_iff_toInt_lt
  unfold ipowI power
  by_cases neg : b < 0
  · rw [if_pos neg, if_pos (sign.mp neg)]
    exact ⟨fun v hv => (nomatch hv), fun t n _ hn => (nomatch hn)⟩
  rw [if_neg neg, if_neg (mt sign.mpr neg)]
  have one : (1 : Int64).toInt = 1 := by decide
  constructor
  · intro w hw
    rw [ipowLoop_ok a b hw, one, one_mul]
  · intro t n ht hn fits
    rw [← Option.some.inj hn] at fits
    have fits' : FitsInt64 ((1 : Int64).toInt * a.toInt ^ b.toInt.toNat) := by
      rwa [one, one_mul]
    obtain ⟨v, hv⟩ := ipowLoop_total (F := F) a b (fun h => absurd h (by decide)) fits'
    rw [hv] at ht
    cases ht

end

/-! ### Calculations -/

/-- An operand of a calculation in whole numbers. -/
inductive Operand
  | int (i : Int64)
  | dur (ns : Int64)
  deriving DecidableEq

namespace Operand

def value : Operand → Value F O
  | .int i => .int i
  | .dur ns => .dur ns

def amount : Operand → Int
  | .int i => i.toInt
  | .dur ns => ns.toInt

end Operand

/-- The operators of whole numbers: `+`, `-`, `*`, `~/`, `%` and `**`. -/
inductive WholeOp
  | add | sub | mul | idiv | mod | pow
  deriving DecidableEq

namespace WholeOp

def op : WholeOp → ArithOp
  | .add => .add
  | .sub => .sub
  | .mul => .mul
  | .idiv => .idiv
  | .mod => .mod
  | .pow => .pow

/-- The mathematical result: `none` for a zero divisor and a negative exponent. -/
def exact : WholeOp → Int → Int → Option Int
  | .add, a, b => some (a + b)
  | .sub, a, b => some (a - b)
  | .mul, a, b => some (a * b)
  | .idiv, a, b => floorDiv a b
  | .mod, a, b => floorMod a b
  | .pow, a, b => power a b

end WholeOp

/-- A calculation: an operator with two operands, or unary minus. -/
inductive Calc
  | binary (op : WholeOp) (x y : Operand)
  | neg (x : Operand)
  deriving DecidableEq

namespace Calc

def exact : Calc → Option Int
  | binary op x y => op.exact x.amount y.amount
  | neg x => some (-x.amount)

/-- No operand is a duration. -/
def ints : Calc → Bool
  | binary _ (.int _) (.int _) => true
  | neg (.int _) => true
  | _ => false

def run (o : FloatOps F) : Calc → Option (Except (DurTrap F O) (Value F O))
  | binary op x y => arithImm o op.op x.value y.value
  | neg x => negImm o x.value

/-- An operation on durations that there is, with a result out of range. -/
def Wraps : Calc → Prop
  | binary .add (.dur a) (.dur b) => ¬ FitsInt64 (a.toInt + b.toInt)
  | binary .sub (.dur a) (.dur b) => ¬ FitsInt64 (a.toInt - b.toInt)
  | binary .mul (.dur a) (.int b) => ¬ FitsInt64 (a.toInt * b.toInt)
  | binary .mul (.int a) (.dur b) => ¬ FitsInt64 (a.toInt * b.toInt)
  | neg (.dur a) => ¬ FitsInt64 (-a.toInt)
  | _ => False

/-- What is returned is the mathematical result; `int`s trap only where there is none in range; and
quotient and remainder of `int`s go together. -/
structure Right (o : FloatOps F) (c : Calc) : Prop where
  exact : ∀ v : Value F O, c.run o = some (.ok v) →
    ∃ n : Int64, v = (if c.ints then .int n else .dur n) ∧ c.exact = some n.toInt
  traps : c.ints = true → ∀ t : DurTrap F O, c.run o = some (.error t) →
    ∀ n, c.exact = some n → ¬ FitsInt64 n
  decided : ∃ r : Except (DurTrap F O) (Value F O), c.run o = some r
  law : ∀ a b q m : Int64, c = .binary .idiv (.int a) (.int b) ∨ c = .binary .mod (.int a) (.int b) →
    (binary .idiv (.int a) (.int b)).run o = some (.ok (.int q : Value F O)) →
    (binary .mod (.int a) (.int b)).run o = some (.ok (.int m : Value F O)) →
      a.toInt = b.toInt * q.toInt + m.toInt ∧ (m.toInt = 0 ∨ (0 < m.toInt ↔ 0 < b.toInt))

/-- The core of an operation on `int`s. -/
def core : WholeOp → Int64 → Int64 → Except (NumTrap F) Int64
  | .add => iaddCk
  | .sub => isubCk
  | .mul => imulCk
  | .idiv => ifloordiv
  | .mod => ifloormod
  | .pow => ipowI

theorem core_computes (op : WholeOp) (a b : Int64) :
    Computes (core (F := F) op a b) (op.exact a.toInt b.toInt) := by
  cases op with
  | add => exact iaddCk_computes a b
  | sub => exact isubCk_computes a b
  | mul => exact imulCk_computes a b
  | idiv => exact ifloordiv_computes a b
  | mod => exact ifloormod_computes a b
  | pow => exact ipowI_computes a b

/-- An operation on `int`s boxes what its core makes. -/
theorem run_ints (o : FloatOps F) (op : WholeOp) (a b : Int64) :
    (binary op (.int a) (.int b)).run (O := O) o =
      some ((ofNum (core op a b) .int).mapError .other) := by
  cases op <;> rfl

theorem run_neg_int (o : FloatOps F) (a : Int64) :
    (neg (.int a)).run (O := O) o = some ((ofNum (inegCk a) .int).mapError .other) := rfl

variable {r : Except (NumTrap F) Int64}

/-- The mathematical result of a core, through the box. -/
theorem boxed_computes {e : Option Int} (h : Computes r e) :
    (∀ v : Value F O, (ofNum r .int).mapError DurTrap.other = .ok v → ∃ n : Int64, v = .int n ∧
        e = some n.toInt) ∧
      ∀ t : DurTrap F O, (ofNum r .int).mapError .other = .error t → ∀ n, e = some n → ¬ FitsInt64 n := by
  cases r with
  | ok w => exact ⟨fun v hv => ⟨w, (Except.ok.inj hv).symm, h.ok w rfl⟩, fun t ht => (nomatch ht)⟩
  | error t => exact ⟨fun v hv => (nomatch hv), fun _ _ n hn => h.trap t n rfl hn⟩

theorem floor_law {a b q m : Int} (hq : floorDiv a b = some q) (hm : floorMod a b = some m) :
    a = b * q + m ∧ (m = 0 ∨ (0 < m ↔ 0 < b)) := by
  unfold floorDiv at hq
  unfold floorMod at hm
  split_ifs at hq hm with zero
  cases hq
  cases hm
  rcases lt_or_gt_of_ne zero with neg | pos
  · obtain ⟨split, low, high⟩ := (Int.fdiv_fmod_unique' (a := a) neg).mp ⟨rfl, rfl⟩
    exact ⟨by linarith, by omega⟩
  · obtain ⟨split, low, high⟩ := (Int.fdiv_fmod_unique (a := a) pos).mp ⟨rfl, rfl⟩
    exact ⟨by linarith, by omega⟩

variable {o : FloatOps F} {c : Calc}

theorem law_of_ints (o : FloatOps F) (a b q m : Int64)
    (hq : (binary .idiv (.int a) (.int b)).run o = some (.ok (.int q : Value F O)))
    (hm : (binary .mod (.int a) (.int b)).run o = some (.ok (.int m : Value F O))) :
    a.toInt = b.toInt * q.toInt + m.toInt ∧ (m.toInt = 0 ∨ (0 < m.toInt ↔ 0 < b.toInt)) := by
  rw [run_ints, Option.some.injEq] at hq hm
  obtain ⟨q', eq, quotient⟩ := (boxed_computes (core_computes .idiv a b)).1 _ hq
  obtain ⟨m', eq', rest⟩ := (boxed_computes (core_computes .mod a b)).1 _ hm
  obtain rfl := Value.int.inj eq
  obtain rfl := Value.int.inj eq'
  exact floor_law quotient rest

/-- An operation on `int`s is right. -/
theorem right_of_core (ints : c.ints = true)
    (run : c.run (O := O) o = some ((ofNum r .int).mapError .other)) (h : Computes r c.exact) :
    Right (O := O) o c where
  exact v hv := by
    rw [run, Option.some.injEq] at hv
    rw [ints]
    exact (boxed_computes h).1 v hv
  traps _ t ht := by
    rw [run, Option.some.injEq] at ht
    exact (boxed_computes h).2 t ht
  decided := ⟨_, run⟩
  law a b q m _ := law_of_ints o a b q m

/-- An operation on durations that there is not is refused. -/
theorem right_of_invalid (ints : c.ints = false) {t : DurTrap F O} (run : c.run o = some (.error t)) :
    Right (O := O) o c where
  exact v hv := by
    rw [run] at hv
    cases hv
  traps h := by
    rw [ints] at h
    cases h
  decided := ⟨_, run⟩
  law a b q m _ := law_of_ints o a b q m

/-- An operation on durations is right where its result is in range. -/
theorem right_iff_of_dur (ints : c.ints = false) {w : Int64} {n : Int}
    (run : c.run (O := O) o = some (.ok (.dur w))) (exact : c.exact = some n)
    (wrapped : w.toInt = n.bmod (2 ^ 64)) : Right (O := O) o c ↔ ¬ ¬ FitsInt64 n := by
  rw [not_not, ← wrapped_eq_iff wrapped]
  constructor
  · intro right
    obtain ⟨v, eq, exact'⟩ := right.exact _ run
    rw [ints] at eq
    obtain rfl := Value.dur.inj eq
    rw [exact] at exact'
    exact (Option.some.inj exact').symm
  · intro eq
    refine ⟨fun v hv => ⟨w, ?_, by rw [exact, eq]⟩, fun h => ?_, ⟨_, run⟩, fun a b q m _ =>
      law_of_ints o a b q m⟩
    · rw [run] at hv
      rw [ints]
      exact (Except.ok.inj (Option.some.inj hv)).symm
    · rw [ints] at h
      cases h

/-- Calculations are right, but for those on durations with a result out of range. -/
theorem calc_right_iff (o : FloatOps F) (c : Calc) : Right (O := O) o c ↔ ¬ c.Wraps := by
  have refused {c : Calc} (ints : c.ints = false) {t : DurTrap F O} (run : c.run o = some (.error t))
      (none : ¬ c.Wraps) : Right (O := O) o c ↔ ¬ c.Wraps :=
    iff_of_true (right_of_invalid ints run) none
  cases c with
  | neg x =>
    cases x with
    | int a => exact iff_of_true (right_of_core rfl (run_neg_int o a) (inegCk_computes a)) not_false
    | dur a => exact right_iff_of_dur rfl rfl rfl (Int64.toInt_neg a)
  | binary op x y =>
    cases x with
    | int a =>
      cases y with
      | int b =>
        have right := right_of_core (O := O) rfl (run_ints o op a b) (core_computes op a b)
        refine iff_of_true right ?_
        cases op <;> exact not_false
      | dur b =>
        cases op with
        | mul => exact right_iff_of_dur rfl rfl rfl (Int64.toInt_mul a b)
        | add | sub | idiv | mod | pow => exact refused rfl rfl not_false
    | dur a =>
      cases y with
      | int b =>
        cases op with
        | mul => exact right_iff_of_dur rfl rfl rfl (Int64.toInt_mul a b)
        | add | sub | idiv | mod | pow => exact refused rfl rfl not_false
      | dur b =>
        cases op with
        | add => exact right_iff_of_dur rfl rfl rfl (Int64.toInt_add a b)
        | sub => exact right_iff_of_dur rfl rfl rfl (Int64.toInt_sub a b)
        | mul | idiv | mod | pow => exact refused rfl rfl not_false

/-- The longest duration and one nanosecond, whatever the floats are. -/
theorem dur_wraps : ¬ ∀ o : FloatOps Unit,
    Right (O := Unit) o (.binary .add (.dur 9223372036854775807) (.dur 1)) := by
  intro right
  let o : FloatOps Unit :=
    { ofInt _ := (), add _ _ := (), sub _ _ := (), mul _ _ := (), div _ _ := (), neg _ := (),
      fmod _ _ := (), pow _ _ := (), floor _ := (), lt _ _ := false, le _ _ := true, eq _ _ := true,
      zero := (), toInt _ := none, lit _ := (), constant _ := () }
  obtain ⟨n, -, exact⟩ := (right o).exact (.dur (9223372036854775807 + 1)) rfl
  have high := n.toInt_lt
  rw [← Option.some.inj exact] at high
  exact absurd high (by decide)

end Calc

end Voila.Rt
