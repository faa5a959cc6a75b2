import Voila.Rt.DecExact

/-!
# Voila.Rt.DecWhole

Whole parts of decimals: `vl_dec_round`, `vl_dec_trunc`, `vl_dec_floor` and `vl_dec_ceil`, and the
`int` of a decimal (`vl_dec_to_int`).

Cutting and rounding at a place are exact. The floor of a negative number is the cut number less
one, and that difference is rounded to `numeric digits`, so that a long number is not taken down
right (`whole_parts_iff`). The `int` is read in a `long double` and compared with a constant that
is seven short of the greatest `int` (`vlDecToInt_iff`).
-/

namespace Voila.Rt

open Lib List

/-- `vl_dec_neg_v`. -/
def vlDecNegV (v : Dec) : Dec := if allZero v.d then v else .make (!v.neg) v.d v.exp

section

-- what becomes of the result of a computation with exponents
variable (int : Int → Int)

/-- `vl_dec_round`. -/
def vlDecRound (v : Dec) (places : Int) : Dec :=
  if v.exp ≥ int (-places) then v else reduceExp int v (int (-places))

/-- `vl_dec_trunc`. -/
def vlDecTrunc (v : Dec) : Dec :=
  if v.exp ≥ 0 then v
  else
    let drop := int (-v.exp)
    if drop ≥ v.d.length then .fromInt 0 else .make v.neg (v.d.take (v.d.length - drop.toNat)) 0

/-- `vl_dec_floor`. -/
def vlDecFloor (digits : Int) (v : Dec) : Dec :=
  let t := vlDecTrunc int v
  if !v.neg then t
  else
    let back := (addSigned int true digits v t).1
    if allZero back.d then t else (addSigned int true digits t (.fromInt 1)).1

/-- `vl_dec_ceil`. -/
def vlDecCeil (digits : Int) (v : Dec) : Dec := vlDecNegV (vlDecFloor int digits (vlDecNegV v))

end

section

variable (digits : Int)

/-- The number of digits behind the point is in range. -/
def FitsTrunc (v : Dec) : Prop := v.exp < 0 → FitsInt (-v.exp)

/-- The place to round at is in range, and so is the number of digits behind it. -/
def FitsPlaces (v : Dec) (places : Int) : Prop :=
  FitsInt (-places) ∧ (v.exp < -places → FitsInt (-places - v.exp))

/-- The differences to the cut number, and from it, are in range. -/
def FitsFloor (v : Dec) : Prop :=
  FitsTrunc v ∧ (v.neg = true → FitsAdd digits true v (vlDecTrunc id v) ∧
    (v.value ≠ (vlDecTrunc id v).value → FitsAdd digits true (vlDecTrunc id v) (.fromInt 1)))

end

section

variable {digits : ℤ} {v : Dec}

theorem vlDecTrunc_int32 (fits : FitsTrunc v) : vlDecTrunc int32 v = vlDecTrunc id v := by
  unfold vlDecTrunc
  split_ifs with whole
  · rfl
  · rw [int32_eq (fits (by omega))]
    rfl

theorem vlDecRound_int32 {places : ℤ} (fits : FitsPlaces v places) :
    vlDecRound int32 v places = vlDecRound id v places := by
  unfold vlDecRound
  rw [int32_eq fits.1]
  simp only [id]
  split_ifs with coarse
  · rfl
  · rw [reduceExp, reduceExp, int32_eq (fits.2 (by omega))]
    rfl

theorem fitsInt_vlDecTrunc (hv : FitsInt v.exp) (int : Int → Int) : FitsInt (vlDecTrunc int v).exp := by
  unfold vlDecTrunc
  dsimp only
  split_ifs
  · exact hv
  · exact fitsInt_fromInt 0
  · exact fitsInt_make (by decide) _ _

/-! ### Cutting and rounding at a place -/

/-- The integer part, toward zero. -/
def integerPart (x : ℚ) : ℤ := if x < 0 then ⌈x⌉ else ⌊x⌋

theorem integerPart_intCast (n : ℤ) : integerPart (n : ℚ) = n := by
  unfold integerPart
  split_ifs
  · exact Int.ceil_intCast n
  · exact Int.floor_intCast n

theorem integerPart_neg (x : ℚ) : integerPart (-x) = -integerPart x := by
  unfold integerPart
  rcases lt_trichotomy x 0 with below | rfl | above
  · rw [if_neg (by linarith), if_pos below, Int.floor_neg]
  · simp
  · rw [if_pos (by linarith), if_neg (by linarith), Int.ceil_neg]

theorem Dec.value_of_nonneg (v : Dec) {k : ℤ} (h : 0 ≤ v.exp + k) :
    v.value * 10 ^ k = ((v.sign * coef v.d * 10 ^ (v.exp + k).toNat : ℤ) : ℚ) := by
  obtain ⟨n, hn⟩ := Int.eq_ofNat_of_zero_le h
  rw [v.value_eq, mul_assoc, ← zpow_add₀ (by norm_num), hn, Int.toNat_natCast, zpow_natCast]
  push_cast
  rfl

theorem coef_take (ds : List (Fin 10)) (n : ℕ) : coef (ds.take n) = coef ds / 10 ^ (ds.length - n) := by
  have split := coef_append (ds.take n) (ds.drop n)
  have behind := coef_lt (ds.drop n)
  rw [take_append_drop, length_drop] at split
  rw [length_drop] at behind
  rw [split, Nat.add_comm, Nat.add_mul_div_right _ _ (by positivity), Nat.div_eq_of_lt behind, Nat.zero_add]

/-- The number in front of the point. -/
theorem integerPart_value {v : Dec} {k : ℕ} (h : v.exp = -k) :
    integerPart v.value = v.sign * (coef v.d / 10 ^ k : ℕ) := by
  have value : v.value = v.sign * ((coef v.d : ℚ) / (10 ^ k : ℕ)) := by
    rw [v.value_eq, h, zpow_neg, zpow_natCast]
    push_cast
    ring
  have front : integerPart ((coef v.d : ℚ) / (10 ^ k : ℕ)) = (coef v.d / 10 ^ k : ℕ) := by
    rw [integerPart, if_neg (not_lt.mpr (by positivity))]
    exact Rat.floor_natCast_div_natCast _ _
  rw [value]
  rcases v.sign_eq with hs | hs
  · rw [hs, Int.cast_one, one_mul, one_mul, front]
  · rw [hs, Int.cast_neg, Int.cast_one, neg_one_mul, neg_one_mul, integerPart_neg, front]

theorem vlDecTrunc_value (v : Dec) : (vlDecTrunc id v).value = integerPart v.value := by
  unfold vlDecTrunc
  dsimp only [id]
  by_cases whole : v.exp ≥ 0
  · have value := v.value_of_nonneg (k := 0) (by omega)
    rw [zpow_zero, mul_one] at value
    rw [if_pos whole, value, integerPart_intCast]
  obtain ⟨k, hk⟩ := Int.eq_ofNat_of_zero_le (show 0 ≤ -v.exp by omega)
  have exp : v.exp = -k := by omega
  rw [if_neg whole, integerPart_value exp, exp, neg_neg]
  split_ifs with all
  · have below := (coef_lt v.d).trans_le (Nat.pow_le_pow_right (n := 10) (by omega)
      (show v.d.length ≤ k by omega))
    rw [Nat.div_eq_of_lt below, fromInt_zero_value]
    simp
  · rw [make_signed, coef_take, Int.toNat_natCast, zpow_zero, mul_one,
      show v.d.length - (v.d.length - k) = k by omega]

/-- `vl_dec_round` with the exponents that mathematics requires. -/
theorem vlDecRound_value (v : Dec) (places : ℤ) :
    (vlDecRound id v places).value = halfEven (v.value * 10 ^ places) / 10 ^ places := by
  have unit : (10 : ℚ) ^ places ≠ 0 := zpow_ne_zero _ (by norm_num)
  unfold vlDecRound
  dsimp only [id]
  split_ifs with coarse
  · rw [v.value_of_nonneg (by omega), halfEven_intCast, ← v.value_of_nonneg (by omega),
      mul_div_cancel_right₀ _ unit]
  · rw [reduceExp_value (by omega), zpow_neg, div_inv_eq_mul, ← div_eq_mul_inv]

/-! ### Floor and ceiling -/

theorem Dec.value_eq_zero (v : Dec) : v.value = 0 ↔ allZero v.d = true := by
  rw [allZero_iff, v.value_eq, mul_eq_zero, or_iff_left (zpow_ne_zero _ (by norm_num)), Int.cast_eq_zero]
  rcases v.sign_eq with h | h <;> rw [h] <;> omega

theorem Dec.value_neg (v : Dec) : v.value < 0 ↔ v.neg = true := by
  have unit : (0 : ℚ) < 10 ^ v.exp := zpow_pos (by norm_num) _
  have nonneg : (0 : ℚ) ≤ coef v.d * 10 ^ v.exp := mul_nonneg (Nat.cast_nonneg _) unit.le
  cases hn : v.neg with
  | false =>
    have sign : v.sign = 1 := by rw [Dec.sign, hn]; rfl
    rw [v.value_eq, sign, one_mul, Int.cast_natCast]
    exact iff_of_false (not_lt.mpr nonneg) (by decide)
  | true =>
    have sign : v.sign = -1 := by rw [Dec.sign, hn]; rfl
    refine iff_of_true (lt_of_le_of_ne ?_ fun zero => ?_) rfl
    · rw [v.value_eq, sign]
      push_cast
      linarith
    · have := congrArg Dec.neg (Dec.eq_zero (v.value_eq_zero.mp zero))
      rw [hn] at this
      exact absurd this (by decide)

theorem vlDecNegV_value (v : Dec) : (vlDecNegV v).value = -v.value := by
  unfold vlDecNegV
  split_ifs with hz
  · rw [v.value_eq_zero.mpr hz, neg_zero]
  · rw [make_value, Dec.value]
    cases v.neg <;> simp

theorem fitsInt_vlDecNegV (hv : FitsInt v.exp) : FitsInt (vlDecNegV v).exp := by
  unfold vlDecNegV
  split_ifs
  · exact hv
  · exact fitsInt_make hv _ _

/-- What remains behind the point is rounded, and not to zero. -/
theorem behind_zero (hd : 1 ≤ digits) (v t : Dec) :
    allZero (addSigned id true digits v t).1.d = true ↔ v.value = t.value := by
  rw [← Dec.value_eq_zero, addSigned_value hd, roundDigits_eq_zero (by norm_num) hd, if_pos rfl,
    neg_one_mul, ← sub_eq_add_neg, sub_eq_zero]

theorem vlDecFloor_int32 (hd : 1 ≤ digits) (hv : FitsInt v.exp) (fits : FitsFloor digits v) :
    vlDecFloor int32 digits v = vlDecFloor id digits v := by
  obtain ⟨htrunc, hneg⟩ := fits
  unfold vlDecFloor
  rw [vlDecTrunc_int32 htrunc]
  dsimp only
  cases hn : v.neg with
  | false => rfl
  | true =>
    obtain ⟨hback, hdown⟩ := hneg hn
    have cut := fitsInt_vlDecTrunc hv id
    rw [addSigned_int32 hv cut hback]
    by_cases same : v.value = (vlDecTrunc id v).value
    · have zero := (behind_zero hd v (vlDecTrunc id v)).mpr same
      simp only [zero, if_true]
    · rw [addSigned_int32 cut (fitsInt_fromInt 1) (hdown same)]

/-- `vl_dec_floor` with the exponents that mathematics requires. -/
theorem vlDecFloor_value (hd : 1 ≤ digits) (v : Dec) : (vlDecFloor id digits v).value =
    if v.value < 0 ∧ v.value ≠ ⌊v.value⌋ then roundDigits 10 digits (⌊v.value⌋ : ℚ) else ⌊v.value⌋ := by
  have cut := vlDecTrunc_value v
  unfold vlDecFloor
  dsimp only
  cases hn : v.neg with
  | false =>
    have nonneg : ¬ v.value < 0 := by
      rw [v.value_neg, hn]
      decide
    rw [Bool.not_false, if_pos rfl, cut, integerPart, if_neg nonneg, if_neg fun h => nonneg h.1]
  | true =>
    have below := v.value_neg.mpr hn
    rw [integerPart, if_pos below] at cut
    rw [Bool.not_true, if_neg (by decide)]
    by_cases whole : v.value = ⌊v.value⌋
    · have up : ((⌈v.value⌉ : ℤ) : ℚ) = v.value := by
        rw [whole, Int.ceil_intCast]
      rw [if_pos ((behind_zero hd v _).mpr (by rw [cut, up])), if_neg fun h => h.2 whole, cut, up, ← whole]
    · have broken : v.value ≠ (vlDecTrunc id v).value := by
        rw [cut]
        intro same
        refine whole ?_
        rw [same, Int.floor_intCast]
      have down : ⌈v.value⌉ = ⌊v.value⌋ + 1 := by
        have above := lt_of_le_of_ne (Int.floor_le v.value) (Ne.symm whole)
        have next := Int.lt_floor_add_one v.value
        refine Int.ceil_eq_iff.mpr ⟨?_, ?_⟩
        · push_cast
          linarith
        · push_cast
          linarith
      rw [if_neg fun h => broken ((behind_zero hd v _).mp h), if_pos ⟨below, whole⟩, addSigned_value hd,
        cut, fromInt_one_value, if_pos rfl, down]
      congr 1
      push_cast
      ring

/-- `vl_dec_ceil` with the exponents that mathematics requires. -/
theorem vlDecCeil_value (hd : 1 ≤ digits) (v : Dec) : (vlDecCeil id digits v).value =
    if 0 < v.value ∧ v.value ≠ ⌈v.value⌉ then roundDigits 10 digits (⌈v.value⌉ : ℚ) else ⌈v.value⌉ := by
  have same : (-v.value < 0 ∧ -v.value ≠ ((-⌈v.value⌉ : ℤ) : ℚ)) ↔ (0 < v.value ∧ v.value ≠ ⌈v.value⌉) := by
    rw [neg_lt_zero, Int.cast_neg, Ne, neg_inj]
  rw [vlDecCeil, vlDecNegV_value, vlDecFloor_value hd, vlDecNegV_value, Int.floor_neg]
  simp only [same]
  split_ifs
  · rw [Int.cast_neg, roundDigits_neg, neg_neg]
  · rw [Int.cast_neg, neg_neg]

/-- Rounding at a place, cutting, floor and ceiling are exact, and no exponent overflows. -/
structure WholeParts (digits places : ℤ) (v : Dec) : Prop where
  fits_places : FitsPlaces v places
  fits_floor : FitsFloor digits v
  fits_ceil : FitsFloor digits (vlDecNegV v)
  round : (vlDecRound int32 v places).value = halfEven (v.value * 10 ^ places) / 10 ^ places
  trunc : (vlDecTrunc int32 v).value = integerPart v.value
  floor : (vlDecFloor int32 digits v).value = ⌊v.value⌋
  ceil : (vlDecCeil int32 digits v).value = ⌈v.value⌉

/-- The parts are exact where no exponent overflows and the floor of a negative number that is not
whole, or the ceiling of a positive one, has no more than `digits` digits. -/
theorem whole_parts_iff (hd : 1 ≤ digits) (hv : FitsInt v.exp) (places : ℤ) :
    WholeParts digits places v ↔
      FitsPlaces v places ∧ FitsFloor digits v ∧ FitsFloor digits (vlDecNegV v) ∧
        (v.value < 0 → v.value ≠ ⌊v.value⌋ → HasDigits 10 digits (⌊v.value⌋ : ℚ)) ∧
        (0 < v.value → v.value ≠ ⌈v.value⌉ → HasDigits 10 digits (⌈v.value⌉ : ℚ)) := by
  have kept {n : ℤ} {P Q : Prop} [Decidable (P ∧ Q)] :
      (if P ∧ Q then roundDigits 10 digits (n : ℚ) else n) = n ↔ (P → Q → HasDigits 10 digits (n : ℚ)) := by
    rw [← roundDigits_eq_self_iff (by norm_num)]
    split_ifs with broken
    · exact ⟨fun h _ _ => h, fun h => h broken.1 broken.2⟩
    · exact iff_of_true rfl fun h h' => absurd ⟨h, h'⟩ broken
  have floor (fits : FitsFloor digits v) : (vlDecFloor int32 digits v).value = ⌊v.value⌋ ↔
      (v.value < 0 → v.value ≠ ⌊v.value⌋ → HasDigits 10 digits (⌊v.value⌋ : ℚ)) := by
    rw [vlDecFloor_int32 hd hv fits, vlDecFloor_value hd, kept]
  have ceil (fits : FitsFloor digits (vlDecNegV v)) : (vlDecCeil int32 digits v).value = ⌈v.value⌉ ↔
      (0 < v.value → v.value ≠ ⌈v.value⌉ → HasDigits 10 digits (⌈v.value⌉ : ℚ)) := by
    have same : vlDecCeil int32 digits v = vlDecCeil id digits v := by
      rw [vlDecCeil, vlDecFloor_int32 hd (fitsInt_vlDecNegV hv) fits, vlDecCeil]
    rw [same, vlDecCeil_value hd, kept]
  constructor
  · intro h
    exact ⟨h.fits_places, h.fits_floor, h.fits_ceil, (floor h.fits_floor).mp h.floor,
      (ceil h.fits_ceil).mp h.ceil⟩
  · rintro ⟨hplaces, hfloor, hceil, few, few'⟩
    refine ⟨hplaces, hfloor, hceil, ?_, ?_, (floor hfloor).mpr few, (ceil hceil).mpr few'⟩
    · rw [vlDecRound_int32 hplaces, vlDecRound_value]
    · rw [vlDecTrunc_int32 hfloor.1, vlDecTrunc_value]

/-- `2.5`. -/
theorem whole_parts_half :
    WholeParts 28 0 (.make false [2, 5] (-1)) ↔
      FitsPlaces (.make false [2, 5] (-1)) 0 ∧ FitsFloor 28 (.make false [2, 5] (-1)) ∧
        FitsFloor 28 (vlDecNegV (.make false [2, 5] (-1))) ∧
        ((Dec.make false [2, 5] (-1)).value < 0 →
          (Dec.make false [2, 5] (-1)).value ≠ ⌊(Dec.make false [2, 5] (-1)).value⌋ →
            HasDigits 10 28 (⌊(Dec.make false [2, 5] (-1)).value⌋ : ℚ)) ∧
        (0 < (Dec.make false [2, 5] (-1)).value →
          (Dec.make false [2, 5] (-1)).value ≠ ⌈(Dec.make false [2, 5] (-1)).value⌉ →
            HasDigits 10 28 (⌈(Dec.make false [2, 5] (-1)).value⌉ : ℚ)) :=
  whole_parts_iff (by decide) (by decide) 0

end

/-- `-10.5` to one digit: the floor is `-11`, and `-10` is returned. -/
theorem floor_rounds : ¬ WholeParts 1 0 (.make true [1, 0, 5] (-1)) := by
  intro parts
  have floor := parts.floor
  have number : (Dec.make true [1, 0, 5] (-1)).value = -21 / 2 := by
    rw [make_value]
    norm_num [coef]
  have down : ⌊(-21 / 2 : ℚ)⌋ = -11 := by norm_num [Int.floor_eq_iff]
  have rounded : roundDigits 10 1 (-11 : ℚ) = -10 := by
    have nearest : halfEven (11 / 10 : ℚ) = 1 := halfEven_of_near (by norm_num) (by norm_num)
    have place : lastPlace 10 1 (11 : ℚ) = 1 :=
      lastPlace_of (by norm_num) (by norm_num [abs_of_pos]) (by norm_num [abs_of_pos])
    rw [roundDigits_neg, roundDigits, place]
    norm_num [nearest]
  rw [vlDecFloor_int32 (by decide) (by decide) parts.fits_floor, vlDecFloor_value (by decide), number, down,
    if_pos (by norm_num)] at floor
  push_cast at floor
  rw [rounded] at floor
  norm_num at floor

/-! ### The `int` of a decimal -/

/-- The numbers that a `long double` accumulates: what a result is rounded to, `none` if to
infinity. Whole numbers below `2 ^ 64` are held, and larger ones stay large. -/
structure LongDouble where
  round : ℕ → Option ℕ
  exact : ∀ n < 2 ^ 64, round n = some n
  wide : ∀ n m, 2 ^ 64 ≤ n → round n = some m → 2 ^ 64 ≤ m

/-- The format of 80 bits: 64 binary digits, half-even. -/
def LongDouble.extended : LongDouble where
  round n :=
    let unit := 2 ^ (n.log2 - 63)
    let up := unit < 2 * (n % unit) ∨ (unit = 2 * (n % unit) ∧ n / unit % 2 = 1)
    let m := (if up then n / unit + 1 else n / unit) * unit
    if m.log2 < 16384 then some m else none
  exact n small := by
    have below : n.log2 < 64 := by
      by_cases zero : n = 0
      · rw [zero]
        decide
      · exact (Nat.log2_lt zero).mpr small
    have none_lost : ¬ (1 < 2 * 0 ∨ (1 = 2 * 0 ∧ n % 2 = 1)) := by omega
    dsimp only
    rw [show n.log2 - 63 = 0 by omega, pow_zero, Nat.mod_one, Nat.div_one, if_neg none_lost, mul_one,
      if_pos (by omega)]
  wide n m large hm := by
    dsimp only at hm
    have some : n ≠ 0 := by omega
    have most := (Nat.le_log2 some).mpr large
    have whole : 2 ^ 63 ≤ n / 2 ^ (n.log2 - 63) := by
      rw [Nat.le_div_iff_mul_le (by positivity), ← pow_add, show 63 + (n.log2 - 63) = n.log2 by omega]
      exact Nat.log2_self_le some
    have unit : 2 ≤ 2 ^ (n.log2 - 63) := by
      calc 2 = 2 ^ 1 := rfl
        _ ≤ _ := Nat.pow_le_pow_right (by omega) (by omega)
    generalize n / 2 ^ (n.log2 - 63) = q at hm whole
    split_ifs at hm with up fits fits
    · cases hm
      calc 2 ^ 64 = 2 ^ 63 * 2 := rfl
        _ ≤ (q + 1) * 2 ^ (n.log2 - 63) := Nat.mul_le_mul (by omega) unit
    · cases hm
      calc 2 ^ 64 = 2 ^ 63 * 2 := rfl
        _ ≤ q * 2 ^ (n.log2 - 63) := Nat.mul_le_mul whole unit

instance : Inhabited LongDouble := ⟨.extended⟩

section

-- what becomes of the result of a computation with exponents
variable (int : Int → Int)

/-- `vl_dec_is_int`. -/
def vlDecIsInt (v : Dec) : Bool :=
  if v.exp ≥ 0 then true
  else
    let drop := int (-v.exp)
    if drop ≥ v.d.length then allZero v.d else allZero (v.d.drop (v.d.length - drop.toNat))

/-- The first loop of `vl_dec_to_int`. -/
def readDigits (ld : LongDouble) (ds : List (Fin 10)) : Option ℕ :=
  ds.foldl (fun acc x => do ld.round ((← ld.round ((← acc) * 10)) + x.val)) (some 0)

/-- The second. -/
def timesTen (ld : LongDouble) (acc : Option ℕ) : ℕ → Option ℕ
  | 0 => acc
  | n + 1 => timesTen ld (do ld.round ((← acc) * 10)) n

/-- `vl_dec_to_int`: `none` where it returns false. -/
def vlDecToInt (ld : LongDouble) (v : Dec) : Option Int64 :=
  if vlDecIsInt int v then
    let t := vlDecTrunc int v
    match timesTen ld (readDigits ld t.d) t.exp.toNat with
    | none => none
    | some acc =>
      if acc > 9223372036854775800 then none
      else some (if t.neg then -Int64.ofNat acc else Int64.ofNat acc)
  else none

end

section

variable {v : Dec}

/-- What a `long double` is while it accumulates `n`. -/
structure Accumulates (acc : Option ℕ) (n : ℕ) : Prop where
  small : n < 2 ^ 64 → acc = some n
  large : 2 ^ 64 ≤ n → ∀ m, acc = some m → 2 ^ 64 ≤ m

theorem Accumulates.next (ld : LongDouble) {acc : Option ℕ} {n : ℕ} (h : Accumulates acc n) {f : ℕ → ℕ}
    (grows : ∀ m, m ≤ f m) : Accumulates (acc.bind fun m => ld.round (f m)) (f n) := by
  constructor
  · intro small
    rw [h.small ((grows n).trans_lt small), Option.bind_some, ld.exact _ small]
  · intro large m hm
    obtain ⟨a, ha, hr⟩ := Option.bind_eq_some_iff.mp hm
    by_cases small : n < 2 ^ 64
    · obtain rfl : n = a := Option.some.inj ((h.small small).symm.trans ha)
      exact ld.wide _ _ large hr
    · exact ld.wide _ _ ((h.large (not_lt.mp small) a ha).trans (grows a)) hr

theorem readDigits_accumulates (ld : LongDouble) (ds : List (Fin 10)) :
    Accumulates (readDigits ld ds) (coef ds) := by
  have from_acc (ds : List (Fin 10)) (acc : Option ℕ) (n : ℕ) (h : Accumulates acc n) :
      Accumulates (ds.foldl (fun acc x => do ld.round ((← ld.round ((← acc) * 10)) + x.val)) acc)
        (ds.foldl (fun n x => 10 * n + x.val) n) := by
    induction ds generalizing acc n with
    | nil => exact h
    | cons x ds ih =>
      have digit := (h.next ld (f := (· * 10)) fun m => Nat.le_mul_of_pos_right m (by omega)).next ld
        (f := (· + x.val)) fun m => Nat.le_add_right m _
      rw [Option.bind_assoc, Nat.mul_comm] at digit
      exact ih _ _ digit
  exact from_acc ds (some 0) 0 ⟨fun _ => rfl, fun h => absurd h (by decide)⟩

theorem timesTen_accumulates (ld : LongDouble) {acc : Option ℕ} {n : ℕ} (h : Accumulates acc n) (k : ℕ) :
    Accumulates (timesTen ld acc k) (n * 10 ^ k) := by
  induction k generalizing acc n with
  | zero => rwa [pow_zero, mul_one]
  | succ k ih =>
    have step := ih (h.next ld (f := (· * 10)) fun m => Nat.le_mul_of_pos_right m (by omega))
    rwa [mul_assoc, ← pow_succ'] at step

theorem vlDecIsInt_int32 (fits : FitsTrunc v) : vlDecIsInt int32 v = vlDecIsInt id v := by
  unfold vlDecIsInt
  split_ifs with whole
  · rfl
  · rw [int32_eq (fits (by omega))]
    rfl

theorem vlDecIsInt_iff (v : Dec) : vlDecIsInt id v = true ↔ v.value = integerPart v.value := by
  unfold vlDecIsInt
  dsimp only [id]
  by_cases whole : v.exp ≥ 0
  · have value := v.value_of_nonneg (k := 0) (by omega)
    rw [zpow_zero, mul_one] at value
    rw [if_pos whole, value, integerPart_intCast]
    exact iff_of_true rfl rfl
  obtain ⟨k, hk⟩ := Int.eq_ofNat_of_zero_le (show 0 ≤ -v.exp by omega)
  have exp : v.exp = -k := by omega
  have pos : (0 : ℚ) < (10 ^ k : ℕ) := by positivity
  have behind : v.value = integerPart v.value ↔ coef v.d % 10 ^ k = 0 := by
    have sign : ((v.sign : ℤ) : ℚ) ≠ 0 := by
      rcases v.sign_eq with h | h <;> rw [h] <;> norm_num
    have value : v.value = v.sign * ((coef v.d : ℚ) / (10 ^ k : ℕ)) := by
      rw [v.value_eq, exp, zpow_neg, zpow_natCast]
      push_cast
      ring
    rw [integerPart_value exp, value, Int.cast_mul, mul_right_inj' sign, div_eq_iff pos.ne', Int.cast_natCast]
    norm_cast
    have division := Nat.div_add_mod' (coef v.d) (10 ^ k)
    omega
  rw [if_neg whole, behind, exp, neg_neg]
  split_ifs with all
  · have below := (coef_lt v.d).trans_le (Nat.pow_le_pow_right (n := 10) (by omega)
      (show v.d.length ≤ k by omega))
    rw [Nat.mod_eq_of_lt below, allZero_iff]
  · have split := coef_append (v.d.take (v.d.length - k)) (v.d.drop (v.d.length - k))
    have less := coef_lt (v.d.drop (v.d.length - k))
    have length : (v.d.drop (v.d.length - k)).length = k := by
      rw [length_drop]
      omega
    rw [take_append_drop, length] at split
    rw [length] at less
    rw [allZero_iff, Int.toNat_natCast, split, Nat.add_comm, Nat.add_mul_mod_self_right,
      Nat.mod_eq_of_lt less]

/-- A decimal that is read is whole, and no larger than the constant. -/
theorem vlDecToInt_eq_some (ld : LongDouble) (v : Dec) (n : Int64) :
    vlDecToInt id ld v = some n ↔ v.value = n.toInt ∧ n.toInt.natAbs ≤ 9223372036854775800 := by
  generalize ht : vlDecTrunc id v = t
  have cut : t.value = integerPart v.value := ht ▸ vlDecTrunc_value v
  have whole : 0 ≤ t.exp := by
    rw [← ht]
    unfold vlDecTrunc
    dsimp only
    split_ifs with h
    · exact h
    · exact le_refl 0
    · rcases make_exp v.neg (v.d.take (v.d.length - (id (-v.exp)).toNat)) 0 with h | h <;> rw [h]
  have value := t.value_of_nonneg (k := 0) (by omega)
  rw [zpow_zero, mul_one, add_zero] at value
  have read := timesTen_accumulates ld (readDigits_accumulates ld t.d) t.exp.toNat
  have sign : t.sign = if t.neg then -1 else 1 := rfl
  generalize hM : coef t.d * 10 ^ t.exp.toNat = M at read
  have number : t.value = ((t.sign * M : ℤ) : ℚ) := by
    rw [value, ← hM]
    push_cast
    ring
  have absM : (t.sign * M).natAbs = M := by
    rcases t.sign_eq with h | h <;> rw [h] <;> omega
  have signed (small : M ≤ 9223372036854775800) :
      (if t.neg then -Int64.ofNat M else Int64.ofNat M).toInt = t.sign * M := by
    rw [sign]
    split_ifs
    · rw [Int64.toInt_neg_ofNat_of_le (by omega), neg_one_mul]
    · rw [Int64.toInt_ofNat_of_lt (by omega), one_mul]
  rw [vlDecToInt, ht]
  dsimp only
  generalize timesTen ld (readDigits ld t.d) t.exp.toNat = acc at read
  by_cases isInt : vlDecIsInt id v = true
  · have integral := (vlDecIsInt_iff v).mp isInt
    rw [if_pos isInt, integral, ← cut, number, Int.cast_inj]
    by_cases bounded : M ≤ 9223372036854775800
    · obtain rfl := read.small (by omega)
      dsimp only
      rw [if_neg (by omega), Option.some.injEq, ← Int64.toInt_inj, signed bounded]
      refine ⟨fun eq => ⟨eq, by rw [← eq, absM]; exact bounded⟩, fun eq => eq.1⟩
    · refine iff_of_false ?_ ?_
      · cases hacc : acc with
        | none => exact nofun
        | some m =>
          have far : 9223372036854775800 < m := by
            by_cases small : M < 2 ^ 64
            · have := Option.some.inj ((read.small small).symm.trans hacc)
              omega
            · have := read.large (not_lt.mp small) m hacc
              omega
          dsimp only
          rw [if_pos far]
          exact nofun
      · rintro ⟨eq, small⟩
        rw [← eq, absM] at small
        exact bounded small
  · rw [if_neg isInt]
    refine iff_of_false nofun ?_
    rintro ⟨eq, -⟩
    refine isInt ((vlDecIsInt_iff v).mpr ?_)
    rw [eq, integerPart_intCast]

theorem vlDecToInt_int32 (ld : LongDouble) (fits : FitsTrunc v) :
    vlDecToInt int32 ld v = vlDecToInt id ld v := by
  rw [vlDecToInt, vlDecIsInt_int32 fits, vlDecTrunc_int32 fits, vlDecToInt]

/-- `vl_dec_to_int` reads exactly the whole numbers in range, and nothing overflows. -/
def ReadsInt (ld : LongDouble) (v : Dec) : Prop :=
  FitsTrunc v ∧ ∀ n : Int64, vlDecToInt int32 ld v = some n ↔ v.value = n.toInt

/-- The `int`s that are larger than the constant are not read. -/
theorem vlDecToInt_iff (ld : LongDouble) (v : Dec) :
    ReadsInt ld v ↔
      FitsTrunc v ∧ ¬ ∃ n : Int64, v.value = n.toInt ∧ 9223372036854775800 < n.toInt.natAbs := by
  refine and_congr_right fun fits => ?_
  simp only [vlDecToInt_int32 ld fits, vlDecToInt_eq_some]
  constructor
  · rintro reads ⟨n, eq, large⟩
    exact absurd ((reads n).mpr eq).2 (by omega)
  · intro small n
    refine ⟨fun h => h.1, fun eq => ⟨eq, ?_⟩⟩
    by_contra large
    exact small ⟨n, eq, by omega⟩

end

theorem fromInt_value (n : Int64) : (Dec.fromInt n).value = n.toInt := by
  by_cases zero : n = 0
  · rw [zero, fromInt_zero_value]
    rfl
  obtain ⟨-, exp, neg, digits⟩ := Dec.fromInt_nonzero zero
  have same : (Nat.digits 10 n.toInt.natAbs).map (Fin.val ∘ Fin.ofNat 10) = Nat.digits 10 n.toInt.natAbs := by
    refine map_congr_left (g := id) (fun d hd => ?_) |>.trans (map_id _)
    exact digit_val (Nat.digits_lt_base (by norm_num) hd)
  have number : coef (Dec.fromInt n).d = n.toInt.natAbs := by
    rw [coef_eq, digits, ← map_reverse, reverse_reverse, List.map_map, same, Nat.ofDigits_digits]
  have sign : n < 0 ↔ n.toInt < 0 := Int64.lt_iff_toInt_lt
  rw [Dec.value, exp, neg, number, zpow_zero, mul_one]
  simp only [decide_eq_true_eq, sign]
  split_ifs with below
  · have abs : (n.toInt.natAbs : ℤ) = -n.toInt := by omega
    rw [← Int.cast_natCast, abs]
    push_cast
    ring
  · have abs : (n.toInt.natAbs : ℤ) = n.toInt := by omega
    rw [← Int.cast_natCast, abs, one_mul]

/-- The greatest `int` is not read. -/
theorem vlDecToInt_max : ¬ ReadsInt .extended (.fromInt 9223372036854775807) := by
  rintro ⟨fits, reads⟩
  have read := (reads 9223372036854775807).mpr (fromInt_value _)
  rw [vlDecToInt_int32 _ fits, vlDecToInt_eq_some] at read
  exact absurd read.2 (by decide)

end Voila.Rt
