import Voila.Rt.DecExact

/-!
# Voila.Rt.DecMod

Floor division and remainder of decimals (`vl_dec_idiv`, `vl_dec_mod`).

The quotient is cut to a whole number, of any length. A negative one that is not whole is taken
down by one through `add_signed`, which rounds to `numeric digits`; and `vl_dec_mod` multiplies and
subtracts with the operations that round. So the floor is right where no such step loses digits
(`idiv_mod_iff`), and the law of the remainder where the product loses less than half of what the
last place of the difference is.
-/

namespace Voila.Rt

open Lib

/-- The quotient of decimals of one exponent, toward zero, and the digits of the remainder. -/
def divWhole (p q2 : Dec) : Dec × List (Fin 10) :=
  let (q, r) := divmodMag p.d q2.d
  (.make (p.neg != q2.neg) q 0, r)

section

-- what becomes of the result of a computation with exponents
variable (int : Int → Int)

/-- What `vl_dec_idiv` makes of decimals that are scaled to one exponent: a negative quotient that
leaves something is taken down by one. -/
def idivAligned (digits : Int) (p q2 : Dec) : Dec :=
  let (out, r) := divWhole p q2
  if p.neg ≠ q2.neg ∧ r ≠ [0] then (addSigned int true digits out (.fromInt 1)).1 else out

/-- `vl_dec_idiv`: `none` where it throws. -/
def vlDecIdiv (digits : Int) (x y : Dec) : Option Dec :=
  if allZero y.d then none
  else
    let exp := min x.exp y.exp
    some (idivAligned int digits (scaleBy int x (int (x.exp - exp))) (scaleBy int y (int (y.exp - exp))))

/-- `vl_dec_mod`. -/
def vlDecMod (digits : Int) (a b : Dec) : Option Dec := do
  let q ← vlDecIdiv int digits a b
  let p := (vlDecMul int digits q b).1
  return (addSigned int true digits a p).1

end

section

variable (digits : Int)

/-- The distance of the exponents is in range, and so is what a quotient is taken down to. -/
def FitsIdiv (x y : Dec) : Prop :=
  let exp := min x.exp y.exp
  let p := x.scale (x.exp - exp)
  let q2 := y.scale (y.exp - exp)
  FitsInt (x.exp - exp) ∧ FitsInt (y.exp - exp) ∧
    (p.neg ≠ q2.neg ∧ (divWhole p q2).2 ≠ [0] → FitsAdd digits true (divWhole p q2).1 (.fromInt 1))

/-- The product with the quotient is in range, and so is the difference to it. -/
def FitsMod (x y : Dec) : Prop :=
  FitsIdiv digits x y ∧ ∀ q ∈ vlDecIdiv int32 digits x y,
    FitsMul digits q y ∧ FitsAdd digits true x (vlDecMul int32 digits q y).1

end

section

variable {digits : ℤ} {x y : Dec}

theorem fitsInt_divWhole (p q2 : Dec) : FitsInt (divWhole p q2).1.exp := fitsInt_make (by decide) _ _

theorem vlDecIdiv_int32 (hx : FitsInt x.exp) (hy : FitsInt y.exp) (fits : FitsIdiv digits x y) :
    vlDecIdiv int32 digits x y = vlDecIdiv id digits x y := by
  obtain ⟨hkx, hky, hadd⟩ := fits
  have hexp : FitsInt (min x.exp y.exp) := by
    rcases min_choice x.exp y.exp with heq | heq <;> rw [heq] <;> assumption
  have hp : scaleBy int32 x (x.exp - min x.exp y.exp) = x.scale (x.exp - min x.exp y.exp) :=
    scaleBy_int32 (by simpa using hexp)
  have hq : scaleBy int32 y (y.exp - min x.exp y.exp) = y.scale (y.exp - min x.exp y.exp) :=
    scaleBy_int32 (by simpa using hexp)
  have same (p q2 : Dec) (h : p.neg ≠ q2.neg ∧ (divWhole p q2).2 ≠ [0] →
      FitsAdd digits true (divWhole p q2).1 (.fromInt 1)) :
      idivAligned int32 digits p q2 = idivAligned id digits p q2 := by
    unfold idivAligned
    dsimp only
    split_ifs with down
    · rw [addSigned_int32 (fitsInt_divWhole p q2) (fitsInt_fromInt 1) (h down)]
    · rfl
  simp only [vlDecIdiv, int32_eq hkx, int32_eq hky, hp, hq, id, scaleBy_id, same _ _ hadd]

theorem vlDecMod_int32 (hx : FitsInt x.exp) (hy : FitsInt y.exp) (fits : FitsMod digits x y) :
    vlDecMod int32 digits x y = vlDecMod id digits x y := by
  obtain ⟨hidiv, hrest⟩ := fits
  rw [vlDecMod, vlDecMod, ← vlDecIdiv_int32 hx hy hidiv]
  cases hq : vlDecIdiv int32 digits x y with
  | none => rfl
  | some q =>
    obtain ⟨hmul, hadd⟩ := hrest q hq
    have hsub := addSigned_int32 hx fitsInt_vlDecMul hadd
    rw [vlDecMul_int32 hmul] at hsub
    simp only [Option.bind_eq_bind, Option.bind_some, vlDecMul_int32 hmul, hsub]

/-! ### The floor -/

variable {e : ℤ}

/-- The quotient toward zero, and whether something remains. -/
theorem divWhole_value {p q2 : Dec} (hp : p.value = p.sign * coef p.d * 10 ^ e)
    (hq : q2.value = q2.sign * coef q2.d * 10 ^ e) (hz : allZero q2.d = false) :
    p.value / q2.value = ((p.sign * q2.sign * coef p.d : ℤ) : ℚ) / (coef q2.d : ℕ) ∧
      (divWhole p q2).1.value = (p.sign * q2.sign * (coef p.d / coef q2.d : ℕ) : ℤ) ∧
      ((divWhole p q2).2 = [0] ↔ coef p.d % coef q2.d = 0) := by
  have pos : 0 < coef q2.d := Nat.pos_of_ne_zero ((allZero_iff q2.d).not.mp (by rw [hz]; decide))
  obtain ⟨quotient, -, -, rest, -⟩ := divmodMag_spec pos p.ne_nil
  have sign : (p.sign * q2.sign : ℤ) = if (p.neg != q2.neg) then -1 else 1 := by
    unfold Dec.sign
    cases p.neg <;> cases q2.neg <;> rfl
  refine ⟨?_, ?_, rest⟩
  · have pos' : (coef q2.d : ℚ) ≠ 0 := by exact_mod_cast pos.ne'
    have unit : (10 : ℚ) ^ e ≠ 0 := zpow_ne_zero _ (by norm_num)
    have square : ((q2.sign : ℤ) : ℚ) * q2.sign = 1 := by
      rcases q2.sign_eq with h | h <;> rw [h] <;> norm_num
    have sq : ((q2.sign : ℤ) : ℚ) ≠ 0 := left_ne_zero_of_mul_eq_one square
    rw [hp, hq]
    push_cast
    rw [mul_div_mul_right _ _ unit, div_eq_div_iff (mul_ne_zero sq pos') pos']
    linear_combination (-(p.sign : ℚ) * coef p.d * coef q2.d) * square
  · rw [divWhole]
    dsimp only
    rw [make_value, quotient, sign]
    generalize coef p.d / coef q2.d = n
    split_ifs <;> push_cast <;> ring

/-- What a quotient should be, rounded where it is taken down. -/
theorem idivAligned_value (hd : 1 ≤ digits) {p q2 : Dec}
    (hp : p.value = p.sign * coef p.d * 10 ^ e) (hq : q2.value = q2.sign * coef q2.d * 10 ^ e)
    (hz : allZero q2.d = false) :
    (idivAligned id digits p q2).value =
      if p.value / q2.value < 0 ∧ p.value / q2.value ≠ ⌊p.value / q2.value⌋ then
        roundDigits 10 digits (⌊p.value / q2.value⌋ : ℚ) else ⌊p.value / q2.value⌋ := by
  have pos : 0 < coef q2.d := Nat.pos_of_ne_zero ((allZero_iff q2.d).not.mp (by rw [hz]; decide))
  have pos' : (0 : ℚ) < coef q2.d := by exact_mod_cast pos
  obtain ⟨exact, cut, rest⟩ := divWhole_value hp hq hz
  have split := Nat.div_add_mod (coef p.d) (coef q2.d)
  have below := Nat.mod_lt (coef p.d) pos
  rw [exact, Rat.floor_intCast_div_natCast, idivAligned]
  dsimp only
  by_cases same : p.neg = q2.neg
  · have sign : p.sign * q2.sign = 1 := by
      unfold Dec.sign
      rw [same]
      cases q2.neg <;> rfl
    have nonneg : ¬ (((1 * coef p.d : ℤ) : ℚ) / (coef q2.d : ℕ) < 0) := by
      rw [one_mul, Int.cast_natCast]
      exact not_lt.mpr (by positivity)
    rw [if_neg (fun h => h.1 same), cut, sign, if_neg (fun h => nonneg h.1), one_mul, one_mul]
    norm_cast
  · have sign : p.sign * q2.sign = -1 := by
      unfold Dec.sign
      cases hpn : p.neg <;> cases hqn : q2.neg <;> simp_all
    rw [sign] at cut ⊢
    generalize coef p.d / coef q2.d = N at split cut
    by_cases whole : coef p.d % coef q2.d = 0
    · have floor : (-1 * coef p.d : ℤ) / (coef q2.d : ℕ) = -1 * N := by
        refine ((Int.ediv_emod_unique (by exact_mod_cast pos)).mpr ⟨?_, le_refl 0, by exact_mod_cast pos⟩).1
        rw [whole] at split
        have : (coef q2.d : ℤ) * N = coef p.d := by exact_mod_cast split
        linear_combination -this
      rw [if_neg (fun h => h.2 (rest.mpr whole)), cut, floor, if_neg]
      rintro ⟨-, broken⟩
      refine broken ?_
      rw [div_eq_iff pos'.ne']
      have : (coef q2.d : ℚ) * N = coef p.d := by exact_mod_cast (show coef q2.d * N = coef p.d by omega)
      push_cast
      linear_combination this
    · have floor : (-1 * coef p.d : ℤ) / (coef q2.d : ℕ) = -1 * N - 1 := by
        refine ((Int.ediv_emod_unique (r := coef q2.d - (coef p.d % coef q2.d : ℕ))
          (by exact_mod_cast pos)).mpr ⟨?_, by omega, by omega⟩).1
        have : (coef q2.d : ℤ) * N + (coef p.d % coef q2.d : ℕ) = coef p.d := by exact_mod_cast split
        linear_combination -this
      have negative : ((-1 * coef p.d : ℤ) : ℚ) / (coef q2.d : ℕ) < 0 := by
        have some : (0 : ℚ) < coef p.d := by
          have : coef p.d ≠ 0 := fun h => whole (by rw [h, Nat.zero_mod])
          exact_mod_cast Nat.pos_of_ne_zero this
        push_cast
        rw [div_lt_iff₀ pos']
        linarith
      have broken : ((-1 * coef p.d : ℤ) : ℚ) / (coef q2.d : ℕ) ≠ ((-1 * N - 1 : ℤ) : ℚ) := by
        intro eq
        rw [div_eq_iff pos'.ne'] at eq
        push_cast at eq
        have : (coef q2.d : ℚ) * N + (coef p.d % coef q2.d : ℕ) = coef p.d := by exact_mod_cast split
        have : ((coef p.d % coef q2.d : ℕ) : ℚ) < coef q2.d := by exact_mod_cast below
        linarith
      rw [if_pos ⟨same, fun h => whole (rest.mp h)⟩, addSigned_value hd, cut, fromInt_one_value, floor,
        if_pos rfl, if_pos ⟨negative, broken⟩]
      congr 1
      push_cast
      ring

/-- `vl_dec_idiv` with the exponents that mathematics requires. -/
theorem vlDecIdiv_value (hd : 1 ≤ digits) (hz : allZero y.d = false) :
    ∃ q, vlDecIdiv id digits x y = some q ∧
      q.value = if x.value / y.value < 0 ∧ x.value / y.value ≠ ⌊x.value / y.value⌋ then
        roundDigits 10 digits (⌊x.value / y.value⌋ : ℚ) else ⌊x.value / y.value⌋ := by
  have hx := @scale_value x (x.exp - min x.exp y.exp) (by omega)
  have hy := @scale_value y (y.exp - min x.exp y.exp) (by omega)
  rw [sub_sub_cancel] at hx hy
  have hz' : allZero (y.scale (y.exp - min x.exp y.exp)).d = false := by
    obtain ⟨z, zs, hd, hz0⟩ := Dec.cons_of_nonzero hz
    rw [Dec.scale_d hz, hd, List.cons_append, allZero_cons hz0]
  have value := idivAligned_value hd hx.1 hy.1 hz'
  rw [hx.2, hy.2] at value
  exact ⟨_, by rw [vlDecIdiv, if_neg (by rw [hz]; decide)]; rfl, value⟩

/-! ### Floor and remainder -/

/-- The remainder of a floor division. -/
def floorRem (x y : ℚ) : ℚ := x - y * ⌊x / y⌋

/-- What rounding to `digits` digits takes off the product with a floor. -/
def lostProduct (digits : ℤ) (x y : ℚ) : ℚ := y * ⌊x / y⌋ - roundDigits 10 digits (y * ⌊x / y⌋)

/-- `vl_dec_idiv` is the floor and `vl_dec_mod` the remainder, zero or of the sign of the divisor;
and no exponent overflows. -/
structure FloorDivides (digits : ℤ) (x y : Dec) : Prop where
  fits : FitsMod digits x y
  idiv : ∃ q, vlDecIdiv int32 digits x y = some q ∧ q.value = ⌊x.value / y.value⌋
  mod : ∃ m, vlDecMod int32 digits x y = some m ∧ m.value = floorRem x.value y.value ∧
    0 ≤ m.value * y.value ∧ |m.value| < |y.value|

/-- The remainder is a multiple of the last place of what is subtracted, and what the product loses
is less than half of that place. -/
def KeepsRemainder (digits : ℤ) (x y : ℚ) : Prop :=
  ∃ n : ℤ, floorRem x y = n * 10 ^ lastPlace 10 digits (floorRem x y + lostProduct digits x y) ∧
    (2 * |lostProduct digits x y| < 10 ^ lastPlace 10 digits (floorRem x y + lostProduct digits x y) ∨
      (2 * |lostProduct digits x y| = 10 ^ lastPlace 10 digits (floorRem x y + lostProduct digits x y) ∧
        n % 2 = 0))

theorem floorRem_bounds (x : ℚ) {y : ℚ} (hy : y ≠ 0) :
    0 ≤ floorRem x y * y ∧ |floorRem x y| < |y| := by
  have fract : floorRem x y = y * Int.fract (x / y) := by
    rw [floorRem, Int.fract]
    field_simp
  have nonneg := Int.fract_nonneg (x / y)
  have small := Int.fract_lt_one (x / y)
  rw [fract]
  constructor
  · nlinarith [mul_self_nonneg y]
  · rw [abs_mul, abs_of_nonneg nonneg]
    exact mul_lt_of_lt_one_right (abs_pos.mpr hy) small

theorem keepsRemainder_iff (digits : ℤ) (x y : ℚ) :
    roundDigits 10 digits (x - roundDigits 10 digits (y * ⌊x / y⌋)) = floorRem x y ↔
      KeepsRemainder digits x y := by
  have split : x - roundDigits 10 digits (y * ⌊x / y⌋) = floorRem x y + lostProduct digits x y := by
    rw [floorRem, lostProduct]
    ring
  rw [split, roundDigits_eq_iff (by norm_num), add_sub_cancel_left]
  rfl

/-- Floor and remainder are right where no exponent overflows, a quotient that is taken down has
no more than `digits` digits, and the remainder is kept. -/
theorem idiv_mod_iff (hd : 1 ≤ digits) (hx : FitsInt x.exp) (hy : FitsInt y.exp)
    (hz : allZero y.d = false) :
    FloorDivides digits x y ↔ FitsMod digits x y ∧
      (x.value / y.value < 0 → x.value / y.value ≠ ⌊x.value / y.value⌋ →
        HasDigits 10 digits (⌊x.value / y.value⌋ : ℚ)) ∧
      KeepsRemainder digits x.value y.value := by
  have hz0 : y.value ≠ 0 := by
    rw [← abs_pos, Dec.abs_value]
    have : coef y.d ≠ 0 := (allZero_iff y.d).not.mp (by rw [hz]; decide)
    exact mul_pos (by exact_mod_cast Nat.pos_of_ne_zero this) (zpow_pos (by norm_num) _)
  obtain ⟨q, run, value⟩ := vlDecIdiv_value hd hz (x := x)
  -- the quotient is right where rounding keeps it
  have quotient : q.value = ⌊x.value / y.value⌋ ↔
      (x.value / y.value < 0 → x.value / y.value ≠ ⌊x.value / y.value⌋ →
        HasDigits 10 digits (⌊x.value / y.value⌋ : ℚ)) := by
    rw [value, ← roundDigits_eq_self_iff (by norm_num)]
    split_ifs with down
    · exact ⟨fun h _ _ => h, fun h => h down.1 down.2⟩
    · exact iff_of_true rfl fun h h' => absurd ⟨h, h'⟩ down
  have mod : vlDecMod id digits x y = some (addSigned id true digits x (vlDecMul id digits q y).1).1 := by
    rw [vlDecMod, run]
    rfl
  have remainder (h : q.value = ⌊x.value / y.value⌋) :
      (addSigned id true digits x (vlDecMul id digits q y).1).1.value = floorRem x.value y.value ↔
        KeepsRemainder digits x.value y.value := by
    rw [addSigned_value hd, vlDecMul_value hd, h, ← keepsRemainder_iff, if_pos rfl, neg_one_mul,
      ← sub_eq_add_neg, mul_comm y.value]
  constructor
  · rintro ⟨fits, ⟨q', run', floor⟩, m, mrun, rem, -⟩
    rw [vlDecIdiv_int32 hx hy fits.1, run, Option.some.injEq] at run'
    subst run'
    rw [vlDecMod_int32 hx hy fits, mod, Option.some.injEq] at mrun
    subst mrun
    exact ⟨fits, quotient.mp floor, (remainder floor).mp rem⟩
  · rintro ⟨fits, few, keeps⟩
    have floor := quotient.mpr few
    have rem := (remainder floor).mpr keeps
    refine ⟨fits, ⟨q, by rw [vlDecIdiv_int32 hx hy fits.1, run], floor⟩,
      _, by rw [vlDecMod_int32 hx hy fits, mod], rem, ?_⟩
    rw [rem]
    exact floorRem_bounds _ hz0

/-- `7` and `-2`. -/
theorem idiv_mod_seven :
    FloorDivides 28 (.make false [7] 0) (.make true [2] 0) ↔
      FitsMod 28 (.make false [7] 0) (.make true [2] 0) ∧
        ((Dec.make false [7] 0).value / (Dec.make true [2] 0).value < 0 →
          (Dec.make false [7] 0).value / (Dec.make true [2] 0).value ≠
            ⌊(Dec.make false [7] 0).value / (Dec.make true [2] 0).value⌋ →
          HasDigits 10 28 (⌊(Dec.make false [7] 0).value / (Dec.make true [2] 0).value⌋ : ℚ)) ∧
        KeepsRemainder 28 (Dec.make false [7] 0).value (Dec.make true [2] 0).value :=
  idiv_mod_iff (by decide) (by decide) (by decide) (by decide)

end

/-- `-101` and `2`, to one digit: the floor is `-51`, and `-50` is returned. -/
theorem idiv_rounds : ¬ FloorDivides 1 (.make true [1, 0, 1] 0) (.make false [2] 0) := by
  rintro ⟨fits, ⟨q, run, floor⟩, -⟩
  obtain ⟨q', run', value⟩ := @vlDecIdiv_value 1 (.make true [1, 0, 1] 0) (.make false [2] 0)
    (by decide) (by decide)
  rw [vlDecIdiv_int32 (by decide) (by decide) fits.1, run', Option.some.injEq] at run
  subst run
  have ratio : (Dec.make true [1, 0, 1] 0).value / (Dec.make false [2] 0).value = -101 / 2 := by
    rw [make_value, make_value]
    norm_num [coef]
  have down : ⌊(-101 / 2 : ℚ)⌋ = -51 := by norm_num [Int.floor_eq_iff]
  have rounded : roundDigits 10 1 (-51 : ℚ) = -50 := by
    have nearest : halfEven (51 / 10 : ℚ) = 5 := halfEven_of_near (by norm_num) (by norm_num)
    have place : lastPlace 10 1 (51 : ℚ) = 1 :=
      lastPlace_of (by norm_num) (by norm_num [abs_of_pos]) (by norm_num [abs_of_pos])
    rw [roundDigits_neg, roundDigits, place]
    norm_num [nearest]
  rw [floor, ratio, down, if_pos (by norm_num)] at value
  push_cast at value
  rw [rounded] at value
  norm_num at value

end Voila.Rt
