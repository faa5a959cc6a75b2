import Voila.Lib.Steps
import Voila.Rt.DecText

/-!
# Voila.Rt.DecOps

Arithmetic of decimals (`dec.c`): `vl_dec_add`, `vl_dec_sub`, `vl_dec_mul`, `vl_dec_div` and
`vl_dec_pow`, digit by digit.

Exponents are computed in an `int`. Each operation takes what becomes of such a result: `int32` is
the code, and `id` the exponents that mathematics requires. Nothing but the reader bounds an
exponent, so a few multiplications leave the range (`exponents_wrap`); as long as each operation
stays in it, all decimals are those of mathematics (`exponents_exact`).
-/

namespace Voila.Rt

open Lib List

/-- What 32 bits keep of a result. -/
def int32 (x : Int) : Int := x.bmod (2 ^ 32)

/-- The range of an `int`. -/
def FitsInt (x : Int) : Prop := -2 ^ 31 ≤ x ∧ x < 2 ^ 31

instance (x : Int) : Decidable (FitsInt x) := inferInstanceAs (Decidable (_ ∧ _))

theorem int32_eq {x : Int} (h : FitsInt x) : int32 x = x := by
  obtain ⟨hlow, hhigh⟩ := h
  rw [int32, Int.bmod_eq_of_le (by omega) (by omega)]

/-! ### Coefficients -/

/-- The loop of `add_mag`, from the last digits: as many as the longer has, and one more. -/
def addDigits : Nat → List (Fin 10) → List (Fin 10) → List (Fin 10)
  | c, [], [] => [Fin.ofNat 10 c]
  | c, x :: xs, [] => Fin.ofNat 10 (x + c) :: addDigits ((x + c) / 10) xs []
  | c, [], y :: ys => Fin.ofNat 10 (y + c) :: addDigits ((y + c) / 10) [] ys
  | c, x :: xs, y :: ys => Fin.ofNat 10 (x + y + c) :: addDigits ((x + y + c) / 10) xs ys

/-- `add_mag`. -/
def addMag (a b : List (Fin 10)) : List (Fin 10) := (addDigits 0 a.reverse b.reverse).reverse

/-- The loop of `sub_mag`, from the last digits. -/
def subDigits : Nat → List (Fin 10) → List (Fin 10) → List (Fin 10)
  | _, [], _ => []
  | borrow, x :: xs, ys =>
    let s : Int := x - (ys.headD 0 : Fin 10) - borrow
    if s < 0 then Fin.ofNat 10 (s + 10).toNat :: subDigits 1 xs ys.tail
    else Fin.ofNat 10 s.toNat :: subDigits 0 xs ys.tail

/-- `sub_mag`, of a coefficient that is not the smaller. -/
def subMag (a b : List (Fin 10)) : List (Fin 10) := (subDigits 0 a.reverse b.reverse).reverse

/-- What `mul_mag` accumulates at each place, from the last. -/
def products : List (Fin 10) → List (Fin 10) → List Nat
  | [], ys => ys.map fun _ => 0
  | x :: xs, ys => List.zipWith (· + ·) (ys.map (fun y => x.val * y.val) ++ List.replicate (xs.length + 1) 0)
      (0 :: products xs ys)

/-- The loop of `mul_mag` that carries. -/
def carry : Nat → List Nat → List (Fin 10)
  | _, [] => []
  | c, s :: acc => Fin.ofNat 10 (s + c) :: carry ((s + c) / 10) acc

/-- `mul_mag`: as many digits as both have. -/
def mulMag (a b : List (Fin 10)) : List (Fin 10) := (carry 0 (products a.reverse b.reverse)).reverse

/-- The inner loop of `divmod_mag`: the divisor goes while it can. The remainder is below ten times
the divisor, so that it goes at most nine times. -/
def subWhile (b : List (Fin 10)) : Nat → Nat → List (Fin 10) → Nat × List (Fin 10)
  | 0, digit, rem => (digit, rem)
  | fuel + 1, digit, rem =>
    if cmpMag rem b ≥ 0 then subWhile b fuel (digit + 1) (stripLead (subMag rem b)) else (digit, rem)

/-- The outer loop of `divmod_mag`: the digits of the quotient and the remainder. -/
def divDigits (b : List (Fin 10)) : List (Fin 10) → List (Fin 10) → List (Fin 10) × List (Fin 10)
  | rem, [] => ([], rem)
  | rem, x :: a =>
    let rem := stripLead (if rem ≠ [0] ∧ 0 < rem.length then rem ++ [x] else [x])
    let (digit, rem) := subWhile b 9 0 rem
    let (q, r) := divDigits b rem a
    (Fin.ofNat 10 digit :: q, r)

/-- `divmod_mag`. -/
def divmodMag (a b : List (Fin 10)) : List (Fin 10) × List (Fin 10) := divDigits b [] a

/-- A coefficient is rounded up in its last digit, from there. -/
def roundUp : List (Fin 10) → List (Fin 10)
  | [] => [1]
  | x :: xs => if x < 9 then (x + 1) :: xs else 0 :: roundUp xs

/-! ### Operations -/

/-- The sum of two decimals that are scaled to one exponent. -/
def addAligned (bneg : Bool) (x y : Dec) (exp : Int) : Dec :=
  let yneg := if bneg then !y.neg else y.neg
  if x.neg = yneg then .make x.neg (addMag x.d y.d) exp
  else
    let c := cmpMag x.d y.d
    if c = 0 then .fromInt 0
    else if c > 0 then .make x.neg (subMag x.d y.d) exp
    else .make yneg (subMag y.d x.d) exp

/-- The quotient of a scaled dividend, half-even on the remainder. -/
def divRounded (x num y : Dec) (exp : Int) : Dec :=
  let (q, r) := divmodMag num.d y.d
  let c := cmpMag (addMag r r) y.d
  let up := c > 0 ∨ (c = 0 ∧ (q.getLastD 0).val % 2 ≠ 0)
  .make (x.neg != y.neg) (if up then (roundUp q.reverse).reverse else q) exp

section

-- what becomes of the result of a computation with exponents
variable (int : Int → Int)

/-- `reduce_exp`: half-even. -/
def reduceExp (v : Dec) (target : Int) : Dec :=
  let drop := int (target - v.exp)
  if drop ≤ 0 then v
  else if drop ≥ v.d.length then
    let first := v.d.headD 0
    let up := drop = v.d.length ∧ (first > 5 ∨ (first = 5 ∧ ¬ allZero v.d.tail))
    .make v.neg (if up then [1] else [0]) target
  else
    let keep := v.d.length - drop.toNat
    let digits := v.d.take keep
    let first := v.d.getD keep 0
    let up := first > 5 ∨
      (first = 5 ∧ (¬ allZero (v.d.drop (keep + 1)) ∨ (digits.getLastD 0).val % 2 ≠ 0))
    .make v.neg (if up then (roundUp digits.reverse).reverse else digits) target

/-- The digits to round to: 28 where none are set. -/
def usedDigits (digits : Int) : Int := if digits ≤ 0 then 28 else digits

/-- `round_to`. -/
def roundTo (digits : Int) (v : Dec) : Dec :=
  if v.d.length ≤ usedDigits digits then v
  else reduceExp int v (int (v.exp + (v.d.length - usedDigits digits)))

/-- `scale`. -/
def scaleBy (v : Dec) (k : Int) : Dec :=
  if k ≤ 0 then v else .make v.neg (v.d ++ List.replicate k.toNat 0) (int (v.exp - k))

/-- `add_signed`, and what it makes on the way. -/
def addSigned (bneg : Bool) (digits : Int) (a b : Dec) : Dec × List Dec :=
  let exp := min a.exp b.exp
  let x := scaleBy int a (int (a.exp - exp))
  let y := scaleBy int b (int (b.exp - exp))
  let out := addAligned bneg x y exp
  let r := roundTo int digits out
  (r, [x, y, out, r])

/-- `vl_dec_mul`. -/
def vlDecMul (digits : Int) (x y : Dec) : Dec × List Dec :=
  let out := Dec.make (x.neg != y.neg) (mulMag x.d y.d) (int (x.exp + y.exp))
  let r := roundTo int digits out
  (r, [out, r])

/-- The zeros that `vl_dec_div` gives the dividend. -/
def divShift (digits : Int) (x y : Dec) : Int := usedDigits digits + y.d.length - x.d.length + 1

/-- `vl_dec_div`: `none` where it throws. -/
def vlDecDiv (digits : Int) (x y : Dec) : Option (Dec × List Dec) :=
  if allZero y.d then none
  else if allZero x.d then some (.fromInt 0, [.fromInt 0])
  else
    let shift := divShift digits x y
    let num := if shift > 0 then scaleBy int x shift else x
    let exp := int (int (x.exp - y.exp) - if shift > 0 then shift else 0)
    let out := divRounded x num y exp
    let rounded := roundTo int digits out
    some (rounded.normalize, [num, out, rounded, rounded.normalize])

/-- The loop of `vl_dec_pow`. -/
def powLoop (digits : Int) (n : Nat) (result base : Dec) : Dec × List Dec :=
  if n = 0 then (result, [])
  else
    let t := if n % 2 = 1 then vlDecMul int digits result base else (result, [])
    let b := if n / 2 ≠ 0 then vlDecMul int digits base base else (base, [])
    let rest := powLoop digits (n / 2) t.1 b.1
    (rest.1, t.2 ++ b.2 ++ rest.2)
termination_by n
decreasing_by omega

/-- `vl_dec_pow`. The least `int64_t` is its own negation, and then the loop does not run. -/
def vlDecPow (digits : Int) (a : Dec) (n : Int64) : Option (Dec × List Dec) :=
  let invert := n < 0
  let n := if invert then -n else n
  let (result, made) := powLoop int digits n.toInt.toNat (.fromInt 1) a
  if invert then
    (vlDecDiv int digits (.fromInt 1) result).map fun (inv, made') => (inv, .fromInt 1 :: made ++ made')
  else some (result, .fromInt 1 :: made)

end

/-! ### Runs -/

/-- An operation on decimals that there are, under `numeric digits`. -/
inductive DecOp
  | add (i j : Nat)
  | sub (i j : Nat)
  | mul (i j : Nat)
  | div (i j : Nat)
  | pow (i : Nat) (n : Int64)
  deriving DecidableEq

/-- What an operation makes: its result, and all decimals on the way. -/
def DecOp.apply (int : Int → Int) (digits : Int) (vs : List Dec) : DecOp → Option (Dec × List Dec)
  | .add i j => do return addSigned int false digits (← vs[i]?) (← vs[j]?)
  | .sub i j => do return addSigned int true digits (← vs[i]?) (← vs[j]?)
  | .mul i j => do return vlDecMul int digits (← vs[i]?) (← vs[j]?)
  | .div i j => do vlDecDiv int digits (← vs[i]?) (← vs[j]?)
  | .pow i n => do vlDecPow int digits (← vs[i]?) n

/-- The result joins the decimals; seen of the step are the decimals that it made. -/
def decStep (int : Int → Int) (m : Int × DecOp) (vs : List Dec) : Option (List Dec × List Dec) :=
  (m.2.apply int m.1 vs).map fun (r, made) => (made, vs ++ [r])

/-! ### The exponent of a product -/

theorem coef_eq (ds : List (Fin 10)) : coef ds = Nat.ofDigits 10 (ds.reverse.map Fin.val) := by
  induction ds using List.reverseRecOn with
  | nil => rfl
  | append_singleton ds x ih =>
    rw [coef, foldl_append, reverse_append, reverse_singleton, map_append,
      map_singleton, singleton_append, Nat.ofDigits_cons, ← ih]
    show 10 * coef ds + x.val = _
    exact Nat.add_comm ..

theorem coef_lt (ds : List (Fin 10)) : coef ds < 10 ^ ds.length := by
  have hlt := Nat.ofDigits_lt_base_pow_length (b := 10) (l := ds.reverse.map Fin.val) (by norm_num)
    fun x hx => by
      obtain ⟨y, -, rfl⟩ := mem_map.mp hx
      exact y.isLt
  rw [coef_eq]
  simpa using hlt

theorem coef_stripLead (ds : List (Fin 10)) : coef (stripLead ds) = coef ds := by
  fun_induction stripLead ds with
  | case1 y ds ih =>
    rw [ih]
    rfl
  | case2 => rfl
  | case3 => rfl

theorem coef_allZero {ds : List (Fin 10)} (h : allZero ds = true) : coef ds = 0 := by
  induction ds with
  | nil => rfl
  | cons x ds ih =>
    simp only [allZero, all_cons, Bool.and_eq_true, beq_iff_eq] at h
    rw [h.1]
    exact ih h.2

theorem make_value (neg : Bool) (ds : List (Fin 10)) (exp : Int) :
    (Dec.make neg ds exp).value = (if neg then -1 else 1) * coef ds * 10 ^ exp := by
  unfold Dec.make
  split
  next h =>
    rw [← coef_stripLead, coef_allZero h]
    simp [Dec.value, coef]
  · show (if neg then -1 else 1) * (coef (stripLead ds) : ℚ) * 10 ^ exp = _
    rw [coef_stripLead]

theorem length_products (xs ys : List (Fin 10)) :
    (products xs ys).length = xs.length + ys.length := by
  induction xs with
  | nil => simp [products]
  | cons x xs ih =>
    simp [products, ih]
    omega

theorem ofDigits_zipWith_add {as bs : List Nat} (h : as.length = bs.length) :
    Nat.ofDigits 10 (List.zipWith (· + ·) as bs) = Nat.ofDigits 10 as + Nat.ofDigits 10 bs := by
  induction as generalizing bs with
  | nil =>
    cases bs with
    | nil => rfl
    | cons b bs => simp at h
  | cons a as ih =>
    cases bs with
    | nil => simp at h
    | cons b bs =>
      rw [zipWith_cons_cons, Nat.ofDigits_cons, Nat.ofDigits_cons, Nat.ofDigits_cons,
        ih (by simpa using h)]
      ring

theorem ofDigits_products (xs ys : List (Fin 10)) : Nat.ofDigits 10 (products xs ys) =
    Nat.ofDigits 10 (xs.map Fin.val) * Nat.ofDigits 10 (ys.map Fin.val) := by
  have hrow : ∀ k : Nat, Nat.ofDigits 10 (ys.map fun y => k * y.val) =
      k * Nat.ofDigits 10 (ys.map Fin.val) := by
    intro k
    induction ys with
    | nil => rfl
    | cons y ys ih =>
      rw [map_cons, map_cons, Nat.ofDigits_cons, Nat.ofDigits_cons, ih]
      ring
  induction xs with
  | nil => simp [products]
  | cons x xs ih =>
    rw [products, ofDigits_zipWith_add (by simp [length_products]; omega), Nat.ofDigits_append,
      hrow, Nat.ofDigits_replicate_zero, Nat.ofDigits_cons, ih, map_cons, Nat.ofDigits_cons]
    ring

/-- What is carried out of the last place is lost. -/
theorem ofDigits_carry (c : Nat) (acc : List Nat) : Nat.ofDigits 10 ((carry c acc).map Fin.val) =
    (Nat.ofDigits 10 acc + c) % 10 ^ acc.length := by
  induction acc generalizing c with
  | nil => simp [carry, Nat.mod_one]
  | cons s acc ih =>
    rw [carry, map_cons, Nat.ofDigits_cons, ih, Nat.ofDigits_cons, length_cons, pow_succ',
      Nat.mod_mul]
    have hsum : (s + 10 * Nat.ofDigits 10 acc + c) / 10 = Nat.ofDigits 10 acc + (s + c) / 10 := by
      omega
    rw [hsum]
    show (s + c) % 10 + 10 * _ = _
    omega

/-- `mul_mag` multiplies. -/
theorem coef_mulMag (a b : List (Fin 10)) : coef (mulMag a b) = coef a * coef b := by
  have hlen : (products a.reverse b.reverse).length = a.length + b.length := by
    rw [length_products, length_reverse, length_reverse]
  have hlt : coef a * coef b < 10 ^ (a.length + b.length) := by
    rw [pow_add]
    exact Nat.mul_lt_mul'' (coef_lt a) (coef_lt b)
  rw [coef_eq, mulMag, reverse_reverse, ofDigits_carry, ofDigits_products, hlen, Nat.add_zero,
    ← coef_eq, ← coef_eq, Nat.mod_eq_of_lt hlt]

/-- With the sum of the exponents, a product is exact until it is rounded. -/
theorem mul_exact (x y : Dec) :
    (Dec.make (x.neg != y.neg) (mulMag x.d y.d) (x.exp + y.exp)).value = x.value * y.value := by
  rw [make_value, coef_mulMag, zpow_add₀ (by norm_num), Dec.value, Dec.value]
  push_cast
  cases x.neg <;> cases y.neg <;> simp <;> ring

/-! ### Operations in range -/

section

variable (digits : Int)

/-- Rounding keeps the exponent in range. -/
def FitsRound (v : Dec) : Prop :=
  usedDigits digits < v.d.length → FitsInt (v.d.length - usedDigits digits) ∧
    FitsInt (v.exp + (v.d.length - usedDigits digits))

/-- The distance of the exponents is in range, and so is the sum when it is rounded. -/
def FitsAdd (bneg : Bool) (a b : Dec) : Prop :=
  let exp := min a.exp b.exp
  FitsInt (a.exp - exp) ∧ FitsInt (b.exp - exp) ∧
    FitsRound digits (addAligned bneg (a.scale (a.exp - exp)) (b.scale (b.exp - exp)) exp)

/-- The sum of the exponents is in range, and so is the product when it is rounded. -/
def FitsMul (x y : Dec) : Prop :=
  FitsInt (x.exp + y.exp) ∧
    FitsRound digits (.make (x.neg != y.neg) (mulMag x.d y.d) (x.exp + y.exp))

/-- The difference of the exponents is in range, also less the zeros that the dividend is given, and
so is the quotient when it is rounded. -/
def FitsDiv (x y : Dec) : Prop :=
  let shift := max (divShift digits x y) 0
  allZero y.d = false → allZero x.d = false → FitsInt (x.exp - y.exp) ∧ FitsInt (x.exp - shift) ∧
    FitsInt (x.exp - y.exp - shift) ∧
    FitsRound digits (divRounded x (x.scale shift) y (x.exp - y.exp - shift))

/-- Every multiplication of the loop is in range. -/
def FitsPowLoop (n : Nat) (result base : Dec) : Prop :=
  n ≠ 0 → (n % 2 = 1 → FitsMul digits result base) ∧ (n / 2 ≠ 0 → FitsMul digits base base) ∧
    FitsPowLoop (n / 2) (if n % 2 = 1 then vlDecMul int32 digits result base else (result, [])).1
      (if n / 2 ≠ 0 then vlDecMul int32 digits base base else (base, [])).1
termination_by n
decreasing_by omega

end

/-- An operation is in range, on the decimals that there are. -/
def DecOp.Fits (digits : Int) (vs : List Dec) : DecOp → Prop
  | .add i j => ∀ a ∈ vs[i]?, ∀ b ∈ vs[j]?, FitsAdd digits false a b
  | .sub i j => ∀ a ∈ vs[i]?, ∀ b ∈ vs[j]?, FitsAdd digits true a b
  | .mul i j => ∀ a ∈ vs[i]?, ∀ b ∈ vs[j]?, FitsMul digits a b
  | .div i j => ∀ a ∈ vs[i]?, ∀ b ∈ vs[j]?, FitsDiv digits a b
  | .pow i n => ∀ a ∈ vs[i]?, FitsPowLoop digits (if n < 0 then -n else n).toInt.toNat (.fromInt 1) a ∧
      (n < 0 → FitsDiv digits (.fromInt 1)
        (powLoop int32 digits (-n).toInt.toNat (.fromInt 1) a).1)

variable {digits : Int} {v a b x y : Dec}

theorem scaleBy_id (v : Dec) (k : Int) : scaleBy id v k = v.scale k := rfl

theorem scaleBy_int32 {k : Int} (h : FitsInt (v.exp - k)) : scaleBy int32 v k = v.scale k := by
  rw [scaleBy, int32_eq h]
  rfl

theorem roundTo_int32 (h : FitsRound digits v) : roundTo int32 digits v = roundTo id digits v := by
  unfold roundTo
  split_ifs with hlen
  · rfl
  · obtain ⟨hdrop, htarget⟩ := h (by omega)
    have hback : v.exp + (v.d.length - usedDigits digits) - v.exp = v.d.length - usedDigits digits := by
      omega
    rw [int32_eq htarget, reduceExp, reduceExp, hback, int32_eq hdrop]
    simp only [id, hback]

variable {bneg : Bool} {op : DecOp} {vs : List Dec} {r : Dec × List Dec}

theorem addSigned_int32 (ha : FitsInt a.exp) (hb : FitsInt b.exp)
    (h : FitsAdd digits bneg a b) : addSigned int32 bneg digits a b = addSigned id bneg digits a b := by
  obtain ⟨hka, hkb, hround⟩ := h
  have hexp : FitsInt (min a.exp b.exp) := by
    rcases min_choice a.exp b.exp with heq | heq <;> rw [heq] <;> assumption
  have hx : scaleBy int32 a (a.exp - min a.exp b.exp) = a.scale (a.exp - min a.exp b.exp) :=
    scaleBy_int32 (by simpa using hexp)
  have hy : scaleBy int32 b (b.exp - min a.exp b.exp) = b.scale (b.exp - min a.exp b.exp) :=
    scaleBy_int32 (by simpa using hexp)
  simp only [addSigned, int32_eq hka, int32_eq hkb, hx, hy, id, roundTo_int32 hround]
  rfl

theorem vlDecMul_int32 (h : FitsMul digits x y) : vlDecMul int32 digits x y = vlDecMul id digits x y := by
  simp only [vlDecMul, int32_eq h.1, id, roundTo_int32 h.2]

theorem vlDecDiv_int32 (h : FitsDiv digits x y) : vlDecDiv int32 digits x y = vlDecDiv id digits x y := by
  unfold vlDecDiv
  split_ifs with hy hx
  · rfl
  · rfl
  · obtain ⟨hdiff, hnum, hexp, hround⟩ := h (by simpa using hy) (by simpa using hx)
    have hshift : (if divShift digits x y > 0 then divShift digits x y else 0) =
        max (divShift digits x y) 0 := by
      split_ifs <;> omega
    have hscale : ∀ int : Int → Int, int (x.exp - max (divShift digits x y) 0) =
        x.exp - max (divShift digits x y) 0 →
          (if divShift digits x y > 0 then scaleBy int x (divShift digits x y) else x) =
            x.scale (max (divShift digits x y) 0) := by
      intro int hint
      split_ifs with hpos
      · rw [max_eq_left (by omega)] at hint ⊢
        rw [scaleBy, hint]
        rfl
      · rw [max_eq_right (by omega)]
        rfl
    simp only [hscale int32 (int32_eq hnum), hscale id rfl, int32_eq hdiff, hshift, int32_eq hexp, id,
      roundTo_int32 hround]

theorem powLoop_int32 (n : Nat) (result base : Dec) (h : FitsPowLoop digits n result base) :
    powLoop int32 digits n result base = powLoop id digits n result base := by
  induction n using Nat.strong_induction_on generalizing result base with
  | _ n ih =>
    rw [powLoop, powLoop]
    by_cases h0 : n = 0
    · rw [if_pos h0, if_pos h0]
    · rw [FitsPowLoop] at h
      obtain ⟨hodd, hsquare, hrest⟩ := h h0
      have ht : (if n % 2 = 1 then vlDecMul int32 digits result base else (result, [])) =
          if n % 2 = 1 then vlDecMul id digits result base else (result, []) := by
        by_cases h1 : n % 2 = 1
        · rw [if_pos h1, if_pos h1, vlDecMul_int32 (hodd h1)]
        · rw [if_neg h1, if_neg h1]
      have hb : (if n / 2 ≠ 0 then vlDecMul int32 digits base base else (base, [])) =
          if n / 2 ≠ 0 then vlDecMul id digits base base else (base, []) := by
        by_cases h2 : n / 2 ≠ 0
        · rw [if_pos h2, if_pos h2, vlDecMul_int32 (hsquare h2)]
        · rw [if_neg h2, if_neg h2]
      have hloop := ih (n / 2) (by omega) _ _ hrest
      rw [ht, hb] at hloop
      rw [if_neg h0, if_neg h0, ht, hb]
      dsimp only
      rw [hloop]

theorem vlDecPow_int32 {n : Int64}
    (h : FitsPowLoop digits (if n < 0 then -n else n).toInt.toNat (.fromInt 1) a)
    (hinv : n < 0 → FitsDiv digits (.fromInt 1)
      (powLoop int32 digits (-n).toInt.toNat (.fromInt 1) a).1) :
    vlDecPow int32 digits a n = vlDecPow id digits a n := by
  have hloop := powLoop_int32 _ _ _ h
  simp only [vlDecPow, ← hloop]
  split_ifs with hneg
  · rw [vlDecDiv_int32 (hinv hneg)]
  · rfl

theorem DecOp.apply_int32 (hvs : ∀ v ∈ vs, FitsInt v.exp)
    (h : op.Fits digits vs) : op.apply int32 digits vs = op.apply id digits vs := by
  have hmem : ∀ {i : Nat} {v : Dec}, vs[i]? = some v → FitsInt v.exp := fun hv =>
    hvs _ (mem_of_getElem? hv)
  cases op with
  | add i j =>
    cases ha : vs[i]? <;> cases hb : vs[j]?
    case some.some a b =>
      simp [apply, ha, hb, addSigned_int32 (hmem ha) (hmem hb) (h a ha b hb)]
    all_goals simp [apply, ha, hb]
  | sub i j =>
    cases ha : vs[i]? <;> cases hb : vs[j]?
    case some.some a b =>
      simp [apply, ha, hb, addSigned_int32 (hmem ha) (hmem hb) (h a ha b hb)]
    all_goals simp [apply, ha, hb]
  | mul i j =>
    cases ha : vs[i]? <;> cases hb : vs[j]?
    case some.some a b => simp [apply, ha, hb, vlDecMul_int32 (h a ha b hb)]
    all_goals simp [apply, ha, hb]
  | div i j =>
    cases ha : vs[i]? <;> cases hb : vs[j]?
    case some.some a b => simp [apply, ha, hb, vlDecDiv_int32 (h a ha b hb)]
    all_goals simp [apply, ha, hb]
  | pow i n =>
    cases ha : vs[i]? with
    | none => simp [apply, ha]
    | some a => simp [apply, ha, vlDecPow_int32 (h a ha).1 (h a ha).2]

/-! ### Results in range -/

theorem fitsInt_int32 (x : Int) : FitsInt (int32 x) := by
  have hlow := Int.le_bmod (x := x) (m := 2 ^ 32) (by norm_num)
  have hhigh := Int.bmod_lt (x := x) (m := 2 ^ 32) (by norm_num)
  unfold FitsInt int32
  omega

theorem make_exp (neg : Bool) (ds : List (Fin 10)) (exp : Int) :
    (Dec.make neg ds exp).exp = exp ∨ (Dec.make neg ds exp).exp = 0 := by
  unfold Dec.make
  split
  · exact .inr rfl
  · exact .inl rfl

theorem fitsInt_make {exp : Int} (h : FitsInt exp) (neg : Bool) (ds : List (Fin 10)) :
    FitsInt (Dec.make neg ds exp).exp := by
  rcases make_exp neg ds exp with heq | heq <;> rw [heq]
  · exact h
  · decide

theorem fitsInt_fromInt (n : Int64) : FitsInt (Dec.fromInt n).exp := fitsInt_make (by decide) _ _

theorem fitsInt_roundTo (hv : FitsInt v.exp) : FitsInt (roundTo int32 digits v).exp := by
  unfold roundTo reduceExp
  dsimp only
  split_ifs
  all_goals first | exact hv | exact fitsInt_make (fitsInt_int32 _) _ _

theorem fitsInt_normalize (hv : FitsInt v.exp) : FitsInt v.normalize.exp := by
  cases hz : allZero v.d with
  | true =>
    rw [Dec.normalize, if_pos hz]
    exact hv
  | false =>
    obtain ⟨k, hk, hkz⟩ := Dec.normalize_shifted hz
    have hexp := hk.exp
    obtain ⟨hlow, hhigh⟩ := hv
    unfold FitsInt
    omega

theorem fitsInt_addSigned (ha : FitsInt a.exp) (hb : FitsInt b.exp) :
    FitsInt (addSigned int32 bneg digits a b).1.exp := by
  have hexp : FitsInt (min a.exp b.exp) := by
    rcases min_choice a.exp b.exp with heq | heq <;> rw [heq] <;> assumption
  refine fitsInt_roundTo ?_
  unfold addAligned
  dsimp only
  split_ifs
  all_goals first | exact fitsInt_make hexp _ _ | exact fitsInt_fromInt 0

theorem fitsInt_vlDecMul : FitsInt (vlDecMul int32 digits x y).1.exp :=
  fitsInt_roundTo (fitsInt_make (fitsInt_int32 _) _ _)

theorem fitsInt_vlDecDiv (h : vlDecDiv int32 digits x y = some r) : FitsInt r.1.exp := by
  unfold vlDecDiv at h
  split_ifs at h
  · cases h
    exact fitsInt_fromInt 0
  · cases h
    refine fitsInt_normalize (fitsInt_roundTo ?_)
    exact fitsInt_make (fitsInt_int32 _) _ _

theorem fitsInt_powLoop (n : Nat) {result : Dec} (base : Dec) (hr : FitsInt result.exp) :
    FitsInt (powLoop int32 digits n result base).1.exp := by
  induction n using Nat.strong_induction_on generalizing result base with
  | _ n ih =>
    rw [powLoop]
    split_ifs with h0 h1
    · exact hr
    all_goals
      refine ih (n / 2) (by omega) _ ?_
      first | exact fitsInt_vlDecMul | exact hr

theorem fitsInt_apply
    (hvs : ∀ v ∈ vs, FitsInt v.exp) (h : op.apply int32 digits vs = some r) : FitsInt r.1.exp := by
  have hmem : ∀ {i : Nat} {v : Dec}, vs[i]? = some v → FitsInt v.exp := fun hv =>
    hvs _ (mem_of_getElem? hv)
  cases op with
  | add i j | sub i j =>
    simp only [DecOp.apply, Option.bind_eq_bind, Option.bind_eq_some_iff, Option.pure_def,
      Option.some.injEq] at h
    obtain ⟨a, ha, b, hb, rfl⟩ := h
    exact fitsInt_addSigned (hmem ha) (hmem hb)
  | mul i j =>
    simp only [DecOp.apply, Option.bind_eq_bind, Option.bind_eq_some_iff, Option.pure_def,
      Option.some.injEq] at h
    obtain ⟨a, ha, b, hb, rfl⟩ := h
    exact fitsInt_vlDecMul
  | div i j =>
    simp only [DecOp.apply, Option.bind_eq_bind, Option.bind_eq_some_iff] at h
    obtain ⟨a, ha, b, hb, h⟩ := h
    exact fitsInt_vlDecDiv h
  | pow i n =>
    simp only [DecOp.apply, Option.bind_eq_bind, Option.bind_eq_some_iff] at h
    obtain ⟨a, ha, h⟩ := h
    unfold vlDecPow at h
    dsimp only at h
    split_ifs at h
    · obtain ⟨r', hr', rfl⟩ := Option.map_eq_some_iff.mp h
      show FitsInt r'.1.exp
      exact fitsInt_vlDecDiv hr'
    · cases h
      exact fitsInt_powLoop _ _ (fitsInt_fromInt 1)

/-! ### The exponents of a run -/

theorem decStep_fits {m : Int × DecOp} {vs vs' ev : List Dec} (hvs : ∀ v ∈ vs, FitsInt v.exp)
    (h : decStep int32 m vs = some (ev, vs')) : ∀ v ∈ vs', FitsInt v.exp := by
  obtain ⟨r, hr, heq⟩ := Option.map_eq_some_iff.mp h
  obtain ⟨-, rfl⟩ : r.2 = ev ∧ vs ++ [r.1] = vs' := by simpa using heq
  intro v hv
  rcases mem_append.mp hv with hv | hv
  · exact hvs v hv
  · rw [mem_singleton.mp hv]
    exact fitsInt_apply hvs hr

theorem fitsInt_of_parse {s : Bytes} (h : vlDecParse s = some v) : FitsInt v.exp := by
  obtain ⟨hlow, hhigh⟩ := exp_of_parse h
  unfold decMaxExp at hlow hhigh
  unfold FitsInt
  omega

/-- On decimals that were read, operations that are in range make all their decimals with the
exponents that mathematics requires. -/
theorem exponents_exact {vs : List Dec} {ms : List (Int × DecOp)}
    (hparsed : ∀ v ∈ vs, ∃ s, vlDecParse s = some v)
    (h : Along (fun m vs => m.2.Fits m.1 vs) (decStep int32) ms vs) :
    runSchedule (decStep int32) ms vs = runSchedule (decStep id) ms vs := by
  refine runSchedule_congr (fun vs => ∀ v ∈ vs, FitsInt v.exp)
    (fun m vs ev vs' hvs hm => decStep_fits hvs hm) (fun m vs hvs hfit => ?_) ms ?_ h
  · rw [decStep, decStep, DecOp.apply_int32 hvs hfit]
  · intro v hv
    obtain ⟨s, hs⟩ := hparsed v hv
    exact fitsInt_of_parse hs

/-- `1.5` squared. -/
theorem exponents_exact_square :
    runSchedule (decStep int32) [(28, .mul 0 0)] [.make false [1, 5] (-1)] =
      runSchedule (decStep id) [(28, .mul 0 0)] [.make false [1, 5] (-1)] := by
  refine exponents_exact (fun v hv => ⟨[49, 46, 53], ?_⟩) ⟨fun a ha b hb => ?_, fun _ _ _ => trivial⟩
  · rw [mem_singleton.mp hv]
    rfl
  · obtain rfl : .make false [1, 5] (-1) = a := by simpa using ha
    obtain rfl : .make false [1, 5] (-1) = b := by simpa using hb
    exact ⟨by decide, fun hlen => absurd hlen (by decide)⟩

/-- The cube of `1e999999999`. -/
theorem exponents_wrap : ∃ v, vlDecParse [49, 101, 57, 57, 57, 57, 57, 57, 57, 57, 57] = some v ∧
    runSchedule (decStep int32) [(28, .mul 0 0), (28, .mul 0 1)] [v] ≠
      runSchedule (decStep id) [(28, .mul 0 0), (28, .mul 0 1)] [v] :=
  ⟨_, rfl, by decide +kernel⟩

end Voila.Rt
