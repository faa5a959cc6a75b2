import Voila.Lib.HalfEven
import Voila.Rt.DecOps

/-!
# Voila.Rt.DecValue

What the operations of decimals mean: the numbers that their coefficients are (`coef_addMag`,
`coef_subMag`, `divmodMag_spec`), and the number that a rounded decimal is (`roundTo_value`).

Coefficients are compared as numbers (`cmpMag_eq`) if they have digits, which the coefficients of
decimals and the remainders of a division have.
-/

namespace Voila.Rt

open Lib List

/-! ### Coefficients -/

/-- The number of digits that come last digit first. -/
abbrev rcoef (ds : List (Fin 10)) : Nat := Nat.ofDigits 10 (ds.map Fin.val)

theorem coef_reverse (ds : List (Fin 10)) : coef ds.reverse = rcoef ds := by
  rw [coef_eq, reverse_reverse]

theorem rcoef_reverse (ds : List (Fin 10)) : rcoef ds.reverse = coef ds := (coef_eq ds).symm

theorem rcoef_cons (x : Fin 10) (ds : List (Fin 10)) : rcoef (x :: ds) = x + 10 * rcoef ds := by
  rw [rcoef, map_cons, Nat.ofDigits_cons]

theorem coef_cons (x : Fin 10) (ds : List (Fin 10)) : coef (x :: ds) = x * 10 ^ ds.length + coef ds := by
  rw [coef_eq, reverse_cons, map_append, Nat.ofDigits_append, ← coef_eq]
  simp
  ring

theorem coef_append (ds es : List (Fin 10)) : coef (ds ++ es) = coef ds * 10 ^ es.length + coef es := by
  induction ds with
  | nil => simp [coef]
  | cons x ds ih =>
    rw [cons_append, coef_cons, coef_cons, ih, length_append, pow_add]
    ring

theorem coef_singleton (x : Fin 10) : coef [x] = x := by
  rw [coef_cons]
  simp [coef]

theorem coef_snoc (ds : List (Fin 10)) (x : Fin 10) : coef (ds ++ [x]) = 10 * coef ds + x := by
  rw [coef_append, coef_singleton]
  simp
  ring

theorem digit_val {n : Nat} (h : n < 10) : (Fin.ofNat 10 n).val = n := Nat.mod_eq_of_lt h

theorem rcoef_addDigits {c : Nat} (hc : c ≤ 1) (xs ys : List (Fin 10)) :
    rcoef (addDigits c xs ys) = rcoef xs + rcoef ys + c := by
  have step (n : Nat) : (Fin.ofNat 10 n).val + 10 * (n / 10) = n := Nat.mod_add_div n 10
  fun_induction addDigits c xs ys with
  | case1 c =>
    have none : rcoef [] = 0 := rfl
    rw [rcoef_cons, digit_val (by omega), none]
    omega
  | case2 c x xs ih =>
    have one := ih (by omega)
    have digit := step (x + c)
    rw [rcoef_cons, rcoef_cons, one]
    have none : rcoef [] = 0 := rfl
    rw [none]
    omega
  | case3 c y ys ih =>
    have one := ih (by omega)
    have digit := step (y + c)
    rw [rcoef_cons, rcoef_cons, one]
    have none : rcoef [] = 0 := rfl
    rw [none]
    omega
  | case4 c x xs y ys ih =>
    have one := ih (by omega)
    have digit := step (x + y + c)
    rw [rcoef_cons, rcoef_cons, rcoef_cons, one]
    omega

theorem coef_addMag (a b : List (Fin 10)) : coef (addMag a b) = coef a + coef b := by
  rw [addMag, coef_reverse, rcoef_addDigits (by omega), rcoef_reverse, rcoef_reverse, Nat.add_zero]

/-- What is borrowed is paid back as long as enough is left. -/
theorem rcoef_subDigits (borrow : Nat) (hb : borrow ≤ 1) (xs ys : List (Fin 10))
    (enough : rcoef ys + borrow ≤ rcoef xs) :
    rcoef (subDigits borrow xs ys) + rcoef ys + borrow = rcoef xs := by
  induction xs generalizing borrow ys with
  | nil =>
    have none : rcoef [] = 0 := rfl
    rw [none] at enough ⊢
    rw [subDigits, none]
    omega
  | cons x xs ih =>
    have split : rcoef ys = (ys.headD 0).val + 10 * rcoef ys.tail := by
      cases ys with
      | nil => rfl
      | cons y ys => exact rcoef_cons y ys
    have hx := x.isLt
    have hy := (ys.headD 0).isLt
    rw [rcoef_cons, split] at enough
    rw [rcoef_cons, split, subDigits]
    by_cases short : ((x : Int) - (ys.headD 0 : Fin 10) - borrow) < 0
    · have paid := ih 1 (by omega) ys.tail (by omega)
      rw [if_pos short, rcoef_cons, digit_val (by omega)]
      omega
    · have paid := ih 0 (by omega) ys.tail (by omega)
      rw [if_neg short, rcoef_cons, digit_val (by omega)]
      omega

theorem coef_subMag {a b : List (Fin 10)} (h : coef b ≤ coef a) :
    coef (subMag a b) = coef a - coef b := by
  have paid := rcoef_subDigits 0 (by omega) a.reverse b.reverse (by
    rw [rcoef_reverse, rcoef_reverse]
    omega)
  rw [rcoef_reverse, rcoef_reverse] at paid
  rw [subMag, coef_reverse]
  omega

theorem rcoef_roundUp (ds : List (Fin 10)) : rcoef (roundUp ds) = rcoef ds + 1 := by
  induction ds with
  | nil => rfl
  | cons x ds ih =>
    rw [roundUp]
    split_ifs with h
    · have next : (x + 1).val = x.val + 1 := by
        have := Fin.lt_def.mp h
        rw [Fin.val_add_one_of_lt (Fin.lt_def.mpr (by simpa using this))]
      rw [rcoef_cons, rcoef_cons, next]
      omega
    · have nine : x.val = 9 := by
        have := x.isLt
        have := Fin.le_def.mp (not_lt.mp h)
        have c9 : (9 : Fin 10).val = 9 := rfl
        omega
      rw [rcoef_cons, rcoef_cons, ih, nine]
      show 0 + 10 * _ = _
      omega

theorem coef_roundUp (ds : List (Fin 10)) : coef (roundUp ds.reverse).reverse = coef ds + 1 := by
  rw [coef_reverse, rcoef_roundUp, rcoef_reverse]

/-! ### Comparing -/

variable {ds : List (Fin 10)} {v : Dec} {digits : ℤ}

theorem stripLead_ne_nil (h : ds ≠ []) : stripLead ds ≠ [] := by
  fun_induction stripLead ds with
  | case1 y ds ih => exact ih (by simp)
  | case2 => simp
  | case3 => exact h

theorem stripLead_idem (ds : List (Fin 10)) : stripLead (stripLead ds) = stripLead ds := by
  fun_induction stripLead ds with
  | case1 y ds ih => exact ih
  | case2 x y ds h => rw [stripLead, if_neg h]
  | case3 ds h =>
    rcases ds with - | ⟨x, - | ⟨y, ds⟩⟩
    · rfl
    · rfl
    · exact absurd rfl (h x y ds)

theorem coef_pos_of_lead {x : Fin 10} (hx : x ≠ 0) (xs : List (Fin 10)) :
    10 ^ xs.length ≤ coef (x :: xs) := by
  have one : 1 ≤ x.val := Nat.one_le_iff_ne_zero.mpr fun h => hx (Fin.ext h)
  rw [coef_cons]
  calc 10 ^ xs.length = 1 * 10 ^ xs.length := (Nat.one_mul _).symm
    _ ≤ x * 10 ^ xs.length := Nat.mul_le_mul_right _ one
    _ ≤ _ := Nat.le_add_right _ _

theorem length_stripLead (ds : List (Fin 10)) : (stripLead ds).length ≤ ds.length := by
  fun_induction stripLead ds with
  | case1 y ds ih => exact ih.trans (Nat.le_succ _)
  | case2 => exact le_rfl
  | case3 => exact le_rfl

/-- A coefficient without zeros at its front has one digit, or shows its first. -/
theorem stripped_cases (full : ds ≠ []) (h : stripLead ds = ds) :
    (∃ x, ds = [x]) ∨ ∃ x xs, ds = x :: xs ∧ x ≠ 0 := by
  rcases ds with - | ⟨x, - | ⟨y, ds⟩⟩
  · exact absurd rfl full
  · exact .inl ⟨x, rfl⟩
  · refine .inr ⟨x, y :: ds, rfl, fun hx => ?_⟩
    rw [stripLead, if_pos hx] at h
    have shorter := length_stripLead (y :: ds)
    rw [h] at shorter
    simp at shorter

theorem stripped_zero (full : ds ≠ []) (h : stripLead ds = ds) : ds = [0] ↔ coef ds = 0 := by
  constructor
  · rintro rfl
    rfl
  · intro zero
    rcases stripped_cases full h with ⟨x, rfl⟩ | ⟨x, xs, rfl, hx⟩
    · rw [coef_singleton] at zero
      rw [Fin.ext (show x.val = (0 : Fin 10).val from zero)]
    · have := coef_pos_of_lead hx xs
      have : 0 < 10 ^ xs.length := by positivity
      omega

theorem memcmp_eq {a b : List (Fin 10)} (h : a.length = b.length) :
    memcmp a b = if coef a < coef b then -1 else if coef b < coef a then 1 else 0 := by
  induction a generalizing b with
  | nil =>
    obtain rfl := length_eq_zero_iff.mp h.symm
    rfl
  | cons x xs ih =>
    cases b with
    | nil => exact absurd h (by simp)
    | cons y ys =>
      have same : xs.length = ys.length := by simpa using h
      have hx := coef_lt xs
      have hy := coef_lt ys
      rw [memcmp, coef_cons, coef_cons, same]
      rw [same] at hx
      generalize 10 ^ ys.length = P at hx hy
      rcases lt_trichotomy x y with below | rfl | above
      · have step : (x.val + 1) * P ≤ y.val * P := Nat.mul_le_mul_right _ (Fin.lt_def.mp below)
        rw [Nat.add_mul, Nat.one_mul] at step
        rw [if_pos below, if_pos (by omega)]
      · rw [if_neg (lt_irrefl _), if_neg (lt_irrefl _), ih same]
        simp only [Nat.add_lt_add_iff_left]
      · have step : (y.val + 1) * P ≤ x.val * P := Nat.mul_le_mul_right _ (Fin.lt_def.mp above)
        rw [Nat.add_mul, Nat.one_mul] at step
        rw [if_neg above.not_gt, if_pos above, if_neg (by omega), if_pos (by omega)]

/-- `cmp_mag` compares coefficients as numbers. -/
theorem cmpMag_eq {a b : List (Fin 10)} (ha : a ≠ []) (hb : b ≠ []) :
    cmpMag a b = if coef a < coef b then -1 else if coef b < coef a then 1 else 0 := by
  -- the shorter of two stripped coefficients is the smaller
  have shorter {c d : List (Fin 10)} (hc : c ≠ []) (hd : stripLead d = d) (h : c.length < d.length) :
      coef c < coef d := by
    have some := length_pos_iff.mpr hc
    rcases stripped_cases (length_pos_iff.mp (by omega)) hd with ⟨x, rfl⟩ | ⟨x, xs, rfl, hx⟩
    · rw [length_singleton] at h
      omega
    · rw [length_cons] at h
      calc coef c < 10 ^ c.length := coef_lt c
        _ ≤ 10 ^ xs.length := Nat.pow_le_pow_right (by omega) (by omega)
        _ ≤ _ := coef_pos_of_lead hx xs
  rw [cmpMag, ← coef_stripLead a, ← coef_stripLead b]
  have ha' := stripLead_ne_nil ha
  have hb' := stripLead_ne_nil hb
  have idem_a := stripLead_idem a
  have idem_b := stripLead_idem b
  generalize stripLead a = a at *
  generalize stripLead b = b at *
  by_cases same : a.length = b.length
  · rw [if_neg (not_not.mpr same), memcmp_eq same]
  · rw [if_pos same]
    rcases Nat.lt_or_gt_of_ne same with h | h
    · rw [if_pos h, if_pos (shorter ha' idem_b h)]
    · have below := shorter hb' idem_a h
      rw [if_neg (by omega), if_neg (by omega), if_pos below]

/-! ### Long division -/

theorem subMag_ne_nil {a : List (Fin 10)} (h : a ≠ []) (b : List (Fin 10)) : subMag a b ≠ [] := by
  have length : ∀ (borrow : Nat) (xs ys : List (Fin 10)), (subDigits borrow xs ys).length = xs.length := by
    intro borrow xs
    induction xs generalizing borrow with
    | nil => exact fun _ => rfl
    | cons x xs ih =>
      intro ys
      rw [subDigits]
      split_ifs
      · rw [length_cons, ih, length_cons]
      · rw [length_cons, ih, length_cons]
  intro empty
  have := congrArg List.length empty
  rw [subMag, length_reverse, length, length_reverse, length_nil] at this
  exact h (length_eq_zero_iff.mp this)

section

variable {b : List (Fin 10)}

/-- The divisor goes as often as it can. -/
theorem subWhile_spec (pos : 0 < coef b) (fuel digit : Nat) {rem : List (Fin 10)} (full : rem ≠ [])
    (stripped : stripLead rem = rem) (small : coef rem < (fuel + 1) * coef b) :
    (subWhile b fuel digit rem).1 = digit + coef rem / coef b ∧
      coef (subWhile b fuel digit rem).2 = coef rem % coef b ∧ (subWhile b fuel digit rem).2 ≠ [] ∧
      stripLead (subWhile b fuel digit rem).2 = (subWhile b fuel digit rem).2 := by
  have hb : b ≠ [] := by
    rintro rfl
    exact absurd pos (by decide)
  have stays (f d : Nat) {rem : List (Fin 10)} (full : rem ≠ []) (h : coef rem < coef b) :
      subWhile b f d rem = (d, rem) := by
    cases f with
    | zero => rfl
    | succ f => rw [subWhile, cmpMag_eq full hb, if_pos h, if_neg (by decide)]
  induction fuel generalizing digit rem with
  | zero =>
    have below : coef rem < coef b := by omega
    rw [stays 0 digit full below, Nat.div_eq_of_lt below, Nat.mod_eq_of_lt below]
    exact ⟨rfl, rfl, full, stripped⟩
  | succ fuel ih =>
    rcases Nat.lt_or_ge (coef rem) (coef b) with below | above
    · rw [stays _ digit full below, Nat.div_eq_of_lt below, Nat.mod_eq_of_lt below]
      exact ⟨rfl, rfl, full, stripped⟩
    · have go : cmpMag rem b ≥ 0 := by
        rw [cmpMag_eq full hb, if_neg (by omega)]
        split_ifs <;> decide
      have less : coef (stripLead (subMag rem b)) = coef rem - coef b := by
        rw [coef_stripLead, coef_subMag above]
      have small' : coef (stripLead (subMag rem b)) < (fuel + 1) * coef b := by
        rw [less]
        have : (fuel + 1 + 1) * coef b = (fuel + 1) * coef b + coef b := Nat.succ_mul _ _
        omega
      obtain ⟨count, rest, full', stripped'⟩ := ih (digit + 1)
        (stripLead_ne_nil (subMag_ne_nil full b)) (stripLead_idem _) small'
      rw [subWhile, if_pos go, Nat.div_eq_sub_div pos above, Nat.mod_eq_sub_mod above, ← less]
      exact ⟨by omega, rest, full', stripped'⟩

/-- The digits of the quotient and the remainder, which is stripped. -/
theorem divDigits_spec (pos : 0 < coef b) {rem a : List (Fin 10)} (stripped : stripLead rem = rem)
    (small : coef rem < coef b) :
    coef rem * 10 ^ a.length + coef a = coef (divDigits b rem a).1 * coef b + coef (divDigits b rem a).2 ∧
      coef (divDigits b rem a).2 < coef b ∧ (divDigits b rem a).1.length = a.length ∧
      stripLead (divDigits b rem a).2 = (divDigits b rem a).2 ∧
      (rem ++ a ≠ [] → (divDigits b rem a).2 ≠ []) := by
  induction a generalizing rem with
  | nil =>
    rw [divDigits]
    exact ⟨by simp [coef], small, rfl, stripped, fun h => by simpa using h⟩
  | cons x a ih =>
    rw [divDigits]
    dsimp only
    have next : coef (stripLead (if rem ≠ [0] ∧ 0 < rem.length then rem ++ [x] else [x])) =
        10 * coef rem + x := by
      rw [coef_stripLead]
      split_ifs with h
      · exact coef_snoc rem x
      · have zero : coef rem = 0 := by
          by_cases hz : rem = [0]
          · rw [hz]
            rfl
          · have : rem = [] := length_eq_zero_iff.mp (by
              by_contra some
              exact h ⟨hz, by omega⟩)
            rw [this]
            rfl
        rw [coef_singleton, zero]
        omega
    have next_full : stripLead (if rem ≠ [0] ∧ 0 < rem.length then rem ++ [x] else [x]) ≠ [] := by
      refine stripLead_ne_nil ?_
      split_ifs <;> simp
    have next_small : 10 * coef rem + x < (9 + 1) * coef b := by
      have := x.isLt
      omega
    have next_stripped := stripLead_idem (if rem ≠ [0] ∧ 0 < rem.length then rem ++ [x] else [x])
    generalize stripLead (if rem ≠ [0] ∧ 0 < rem.length then rem ++ [x] else [x]) = rem' at *
    rw [← next] at next_small
    obtain ⟨count, rest, full, stripped'⟩ :=
      subWhile_spec pos 9 0 next_full next_stripped next_small
    have digit : (subWhile b 9 0 rem').1 < 10 := by
      rw [count, Nat.zero_add]
      exact Nat.div_lt_of_lt_mul (by rw [Nat.mul_comm]; exact next_small)
    have rest_small : coef (subWhile b 9 0 rem').2 < coef b := by
      rw [rest]
      exact Nat.mod_lt _ pos
    obtain ⟨value, below, length, last, full'⟩ := ih stripped' rest_small
    refine ⟨?_, below, by rw [length_cons, length, length_cons], last, fun _ =>
      full' (by simp [full])⟩
    have split : coef rem' = coef b * (subWhile b 9 0 rem').1 + coef (subWhile b 9 0 rem').2 := by
      rw [count, rest, Nat.zero_add]
      exact (Nat.div_add_mod _ _).symm
    rw [coef_cons, coef_cons, digit_val digit, length, length_cons, pow_succ]
    calc coef rem * (10 ^ a.length * 10) + (x * 10 ^ a.length + coef a)
        = (10 * coef rem + x) * 10 ^ a.length + coef a := by ring
      _ = (coef b * (subWhile b 9 0 rem').1) * 10 ^ a.length +
            (coef (subWhile b 9 0 rem').2 * 10 ^ a.length + coef a) := by
          rw [← next, split]
          ring
      _ = _ := by
          rw [value]
          ring

/-- `divmod_mag` divides. -/
theorem divmodMag_spec (pos : 0 < coef b) {a : List (Fin 10)} (full : a ≠ []) :
    coef (divmodMag a b).1 = coef a / coef b ∧ coef (divmodMag a b).2 = coef a % coef b ∧
      (divmodMag a b).1.length = a.length ∧ ((divmodMag a b).2 = [0] ↔ coef a % coef b = 0) ∧
      (divmodMag a b).2 ≠ [] := by
  obtain ⟨value, below, length, stripped, some⟩ := @divDigits_spec b pos [] a rfl pos
  have none : coef [] = 0 := rfl
  rw [none, Nat.zero_mul, Nat.zero_add] at value
  have split : coef (divDigits b [] a).2 + coef b * coef (divDigits b [] a).1 = coef a := by
    rw [value]
    ring
  have unique := (Nat.div_mod_unique pos).mpr ⟨split, below⟩
  have full' := some (by simpa using full)
  unfold divmodMag
  rw [unique.1, unique.2]
  exact ⟨rfl, rfl, length, stripped_zero full' stripped, full'⟩

end

/-! ### Rounding -/

/-- The sign of a decimal. -/
def Dec.sign (v : Dec) : ℤ := if v.neg then -1 else 1

theorem Dec.value_eq (v : Dec) : v.value = ((v.sign * coef v.d : ℤ) : ℚ) * 10 ^ v.exp := by
  unfold Dec.value Dec.sign
  cases v.neg <;> simp

theorem allZero_iff (ds : List (Fin 10)) : allZero ds = true ↔ coef ds = 0 := by
  refine ⟨coef_allZero, fun h => ?_⟩
  induction ds with
  | nil => rfl
  | cons x ds ih =>
    rw [coef_cons, Nat.add_eq_zero_iff, Nat.mul_eq_zero] at h
    have hx : x.val = 0 := h.1.resolve_right (by positivity)
    have zero : x = 0 := Fin.ext hx
    have rest := ih h.2
    unfold allZero at rest ⊢
    rw [all_cons, rest, zero]
    rfl

/-- The first digit tells which half of the unit in front of it a coefficient is in. -/
theorem first_half (x : Fin 10) (xs : List (Fin 10)) :
    (10 ^ (x :: xs).length < 2 * coef (x :: xs) ↔ x > 5 ∨ (x = 5 ∧ ¬ allZero xs = true)) ∧
      (10 ^ (x :: xs).length = 2 * coef (x :: xs) ↔ x = 5 ∧ allZero xs = true) := by
  have below := coef_lt xs
  have five : x = 5 ↔ x.val = 5 := Fin.ext_iff
  have above : x > 5 ↔ 5 < x.val := Fin.lt_def
  rw [five, above, allZero_iff, coef_cons, length_cons, pow_succ]
  generalize coef xs = c at below ⊢
  generalize x.val = d
  generalize 10 ^ xs.length = P at below ⊢
  rcases lt_trichotomy d 5 with less | rfl | more
  · have : (d + 1) * P ≤ 5 * P := Nat.mul_le_mul_right _ less
    rw [Nat.add_mul, Nat.one_mul] at this
    constructor <;> constructor <;> omega
  · constructor <;> constructor <;> omega
  · have : (5 + 1) * P ≤ d * P := Nat.mul_le_mul_right _ more
    constructor <;> constructor <;> omega

theorem coef_parity (full : ds ≠ []) : coef ds % 2 = (ds.getLastD 0).val % 2 := by
  obtain ⟨init, x, rfl⟩ := (eq_nil_or_concat ds).resolve_left full
  rw [concat_eq_append, coef_snoc, getLastD_concat]
  omega

/-- What is rounded at a place, once the digits behind it are cut off. -/
theorem halfEven_cut (front : List (Fin 10)) (x : Fin 10) (xs : List (Fin 10)) (full : front ≠ []) :
    halfEven ((coef (front ++ x :: xs) : ℚ) / (10 ^ (x :: xs).length : ℕ)) =
      ((if x > 5 ∨ (x = 5 ∧ (¬ allZero xs = true ∨ (front.getLastD 0).val % 2 ≠ 0)) then coef front + 1
        else coef front : ℕ) : ℤ) := by
  have pos : 0 < 10 ^ (x :: xs).length := by positivity
  have behind := coef_lt (x :: xs)
  have quotient : coef (front ++ x :: xs) / 10 ^ (x :: xs).length = coef front := by
    rw [coef_append, Nat.add_comm, Nat.add_mul_div_right _ _ pos, Nat.div_eq_of_lt behind, Nat.zero_add]
  have rest : coef (front ++ x :: xs) % 10 ^ (x :: xs).length = coef (x :: xs) := by
    rw [coef_append, Nat.add_comm, Nat.add_mul_mod_self_right, Nat.mod_eq_of_lt behind]
  rw [halfEven_natDiv _ pos, quotient, rest, coef_parity full]
  have same : (10 ^ (x :: xs).length < 2 * coef (x :: xs) ∨
      10 ^ (x :: xs).length = 2 * coef (x :: xs) ∧ (front.getLastD 0).val % 2 ≠ 0) ↔
      (x > 5 ∨ (x = 5 ∧ (¬ allZero xs = true ∨ (front.getLastD 0).val % 2 ≠ 0))) := by
    rw [(first_half x xs).1, (first_half x xs).2]
    tauto
  simp only [same]

theorem Dec.sign_eq (v : Dec) : v.sign = 1 ∨ v.sign = -1 := by
  unfold Dec.sign
  cases v.neg
  · exact .inl rfl
  · exact .inr rfl

theorem Dec.halfEven_sign (v : Dec) (x : ℚ) : halfEven (v.sign * x) = v.sign * halfEven x := by
  rcases v.sign_eq with h | h
  · rw [h, Int.cast_one, one_mul, one_mul]
  · rw [h, Int.cast_neg, Int.cast_one, neg_one_mul, neg_one_mul, halfEven_neg]

theorem make_signed (v : Dec) (ds : List (Fin 10)) (exp : ℤ) :
    (Dec.make v.neg ds exp).value = (v.sign * coef ds : ℤ) * 10 ^ exp := by
  rw [make_value, Dec.sign]
  cases v.neg <;> simp

/-- `reduce_exp` rounds to a multiple of the unit that it is given. -/
theorem reduceExp_value {target : ℤ} (h : v.exp ≤ target) :
    (reduceExp id v target).value = halfEven (v.value / 10 ^ target) * 10 ^ target := by
  obtain ⟨k, hk⟩ := Int.eq_ofNat_of_zero_le (sub_nonneg.mpr h)
  have quotient : v.value / 10 ^ target = v.sign * ((coef v.d : ℚ) / (10 ^ k : ℕ)) := by
    have power : (10 : ℚ) ^ target = (10 ^ k : ℕ) * 10 ^ v.exp := by
      rw [show target = k + v.exp by omega, zpow_add₀ (by norm_num), zpow_natCast]
      push_cast
      rfl
    rw [v.value_eq, power, mul_div_mul_right _ _ (zpow_ne_zero _ (by norm_num))]
    push_cast
    ring
  have cut {n : ℕ} (hn : halfEven ((coef v.d : ℚ) / (10 ^ k : ℕ)) = n) {ds : List (Fin 10)}
      (hds : coef ds = n) : (Dec.make v.neg ds target).value =
        halfEven (v.value / 10 ^ target) * 10 ^ target := by
    rw [make_signed, quotient, v.halfEven_sign, hn, hds]
  have pos : 0 < 10 ^ k := by positivity
  rw [reduceExp, id, hk]
  dsimp only
  by_cases none : (k : ℤ) ≤ 0
  · have zero : k = 0 := by omega
    rw [if_pos none, quotient, v.halfEven_sign, zero, pow_zero, Nat.cast_one, div_one,
      show ((coef v.d : ℕ) : ℚ) = ((coef v.d : ℤ) : ℚ) by rfl, halfEven_intCast, v.value_eq,
      show v.exp = target by omega]
  rw [if_neg none]
  by_cases all : (k : ℤ) ≥ v.d.length
  · -- nothing is in front of the cut
    rw [if_pos all]
    have below := coef_lt v.d
    have wide : 10 ^ v.d.length ≤ 10 ^ k := Nat.pow_le_pow_right (by omega) (by omega)
    have rounded := halfEven_natDiv (K := ℚ) (coef v.d) pos
    rw [Nat.div_eq_of_lt (below.trans_le wide), Nat.mod_eq_of_lt (below.trans_le wide)] at rounded
    refine cut rounded ?_
    obtain ⟨x, xs, hd⟩ := exists_cons_of_ne_nil v.ne_nil
    by_cases edge : k = v.d.length
    · have half := (first_half x xs).1
      rw [edge, hd, headD_cons, tail_cons]
      simp only [half, Nat.zero_mod, ne_eq, not_true_eq_false, and_false, or_false, true_and]
      split_ifs
      · rfl
      · rfl
    · have more : 10 * 10 ^ v.d.length ≤ 10 ^ k := by
        rw [← pow_succ']
        exact Nat.pow_le_pow_right (by omega) (by omega)
      rw [if_neg (by omega), if_neg (by omega)]
      rfl
  · rw [if_neg all, Int.toNat_natCast]
    obtain ⟨keep, hkeep⟩ : ∃ keep, v.d.length = keep + 1 + (k - 1) := ⟨v.d.length - k, by omega⟩
    have split : v.d = v.d.take keep ++ v.d[keep] :: v.d.drop (keep + 1) := by
      rw [cons_getElem_drop_succ, take_append_drop]
    have length : (v.d[keep] :: v.d.drop (keep + 1)).length = k := by
      rw [length_cons, length_drop]
      omega
    have full : v.d.take keep ≠ [] := by
      intro empty
      have := congrArg List.length empty
      rw [length_take, length_nil] at this
      omega
    have rounded := halfEven_cut (v.d.take keep) v.d[keep] (v.d.drop (keep + 1)) full
    rw [← split, length] at rounded
    refine cut rounded ?_
    rw [show v.d.length - k = keep by omega, getD_eq_getElem?_getD,
      List.getElem?_eq_getElem (by omega), Option.getD_some]
    split_ifs
    · exact coef_roundUp _
    · rfl

/-- A number between two powers of ten has as many digits. -/
theorem Dec.lead (h : allZero v.d = false) :
    10 ^ (v.d.length - 1) ≤ coef v.d ∧ coef v.d < 10 ^ v.d.length := by
  obtain ⟨x, xs, hd, hx⟩ := Dec.cons_of_nonzero h
  refine ⟨?_, coef_lt v.d⟩
  rw [hd, length_cons, Nat.add_sub_cancel]
  exact coef_pos_of_lead hx xs

theorem Dec.abs_value (v : Dec) : |v.value| = coef v.d * 10 ^ v.exp := by
  have pos : (0 : ℚ) ≤ coef v.d * 10 ^ v.exp :=
    mul_nonneg (Nat.cast_nonneg _) (zpow_nonneg (by norm_num) _)
  rw [v.value_eq]
  rcases v.sign_eq with h | h
  · rw [h, one_mul, Int.cast_natCast, abs_of_nonneg pos]
  · rw [h, neg_one_mul, Int.cast_neg, Int.cast_natCast, neg_mul, abs_neg, abs_of_nonneg pos]

/-- `round_to` rounds to so many significant digits. -/
theorem roundTo_value (hd : 1 ≤ digits) (v : Dec) :
    (roundTo id digits v).value = roundDigits 10 digits v.value := by
  have used : usedDigits digits = digits := if_neg (by omega)
  rw [roundTo, used]
  split_ifs with few
  · have short : |((v.sign * coef v.d : ℤ) : ℚ)| < (10 : ℕ) ^ digits := by
      have below : (coef v.d : ℚ) < 10 ^ v.d.length := by exact_mod_cast coef_lt v.d
      have wide : (10 : ℚ) ^ (v.d.length : ℤ) ≤ 10 ^ digits := zpow_le_zpow_right₀ (by norm_num) few
      rw [zpow_natCast] at wide
      have sign : |((v.sign * coef v.d : ℤ) : ℚ)| = coef v.d := by
        have nonneg : (0 : ℚ) ≤ coef v.d := by positivity
        rcases v.sign_eq with h | h
        · rw [h, one_mul, Int.cast_natCast, abs_of_nonneg nonneg]
        · rw [h, neg_one_mul, Int.cast_neg, Int.cast_natCast, abs_neg, abs_of_nonneg nonneg]
      rw [sign]
      push_cast
      linarith
    have exact := roundDigits_exact (K := ℚ) (β := 10) (by norm_num) short v.exp
    rw [v.value_eq]
    exact exact.symm
  · have nonzero : allZero v.d = false := by
      by_contra zero
      have one : v.d.length = 1 := congrArg (·.d.length) (Dec.eq_zero (Bool.eq_true_of_not_eq_false zero))
      omega
    obtain ⟨low, high⟩ := Dec.lead nonzero
    have some := length_pos_iff.mpr v.ne_nil
    have pos : (0 : ℚ) < 10 ^ v.exp := zpow_pos (by norm_num) _
    rw [id, reduceExp_value (by omega)]
    refine (roundDigits_of (K := ℚ) (β := 10) (by norm_num) ?_ ?_).symm
    · have place : v.exp + (v.d.length - digits) + digits - 1 = (v.d.length - 1 : ℕ) + v.exp := by
        omega
      rw [place, zpow_add₀ (by norm_num), zpow_natCast, v.abs_value]
      exact mul_le_mul_of_nonneg_right (by exact_mod_cast low) pos.le
    · have place : v.exp + (v.d.length - digits) + digits = (v.d.length : ℕ) + v.exp := by omega
      rw [place, zpow_add₀ (by norm_num), zpow_natCast, v.abs_value]
      exact mul_lt_mul_of_pos_right (by exact_mod_cast high) pos

/-! ### Sums -/

theorem scale_value {v : Dec} {k : ℤ} (hk : 0 ≤ k) :
    (v.scale k).value = (v.scale k).sign * coef (v.scale k).d * 10 ^ (v.exp - k) ∧
      (v.scale k).value = v.value := by
  have zero_value {w : Dec} (h : allZero w.d = true) (e : ℤ) :
      w.value = w.sign * coef w.d * 10 ^ e := by
    rw [w.value_eq, coef_allZero h]
    push_cast
    ring
  cases hz : allZero v.d with
  | true =>
    have zeros : coef (v.d ++ List.replicate k.toNat 0) = 0 := by
      rw [coef_append_zeros, coef_allZero hz, Nat.zero_mul]
    unfold Dec.scale
    split_ifs
    · exact ⟨zero_value hz _, rfl⟩
    · refine ⟨zero_value ?_ _, ?_⟩
      · rw [allZero_iff, Dec.make]
        split
        · rfl
        · rw [coef_stripLead, zeros]
      · rw [make_value, zeros, zero_value hz v.exp, coef_allZero hz]
        ring
  | false =>
    obtain ⟨x, xs, hd, hx⟩ := Dec.cons_of_nonzero hz
    have exp : (v.scale k).exp = v.exp - k := by
      unfold Dec.scale
      split_ifs
      · omega
      · rw [hd, cons_append, make_cons hx]
    have neg : (v.scale k).neg = v.neg := by
      unfold Dec.scale
      split_ifs
      · rfl
      · rw [hd, cons_append, make_cons hx]
    constructor
    · rw [Dec.value_eq, exp]
      push_cast
      rfl
    · have shifted : (v.scale k).Shifted v k.toNat := ⟨neg, Dec.scale_d hz k, by omega⟩
      exact Dec.value_shifted shifted

theorem fromInt_zero_value : (Dec.fromInt 0).value = 0 := by
  have zero : Dec.fromInt 0 = .make false [0] 0 := rfl
  rw [zero, make_value]
  simp [coef]

theorem fromInt_one_value : (Dec.fromInt 1).value = 1 := by
  have one : Dec.fromInt 1 = .make false [1] 0 := rfl
  rw [one, make_value]
  simp [coef]

/-- The sum or the difference of aligned decimals, before it is rounded. -/
theorem addAligned_value (bneg : Bool) {x y : Dec} {exp : ℤ}
    (hx : x.value = x.sign * coef x.d * 10 ^ exp) (hy : y.value = y.sign * coef y.d * 10 ^ exp) :
    (addAligned bneg x y exp).value = x.value + (if bneg then -1 else 1) * y.value := by
  have flip : (if bneg then !y.neg else y.neg) = (bneg != y.neg) := by
    cases bneg <;> cases y.neg <;> rfl
  have sign : ((if bneg then -1 else 1 : ℚ)) * y.sign = if (bneg != y.neg) then -1 else 1 := by
    unfold Dec.sign
    cases bneg <;> cases y.neg <;> norm_num
  have sum : x.value + (if bneg then -1 else 1) * y.value =
      ((if x.neg then -1 else 1) * coef x.d + (if (bneg != y.neg) then -1 else 1) * coef y.d) * 10 ^ exp := by
    have own : (x.sign : ℚ) = if x.neg then -1 else 1 := by
      unfold Dec.sign
      cases x.neg <;> norm_num
    rw [hx, hy, ← sign, ← own]
    ring
  rw [sum, addAligned, flip]
  generalize (bneg != y.neg) = yneg
  dsimp only
  by_cases same : x.neg = yneg
  · rw [if_pos same, make_value, coef_addMag, ← same]
    push_cast
    ring
  rw [if_neg same, cmpMag_eq x.ne_nil y.ne_nil]
  have opposite : (if yneg then -1 else 1 : ℚ) = -(if x.neg then -1 else 1) := by
    cases hn : x.neg <;> cases yneg <;> simp_all
  rcases lt_trichotomy (coef x.d) (coef y.d) with below | tie | above
  · rw [if_pos below, if_neg (by decide), if_neg (by decide), make_value, coef_subMag below.le,
      Nat.cast_sub below.le, opposite]
    ring
  · rw [tie, if_neg (lt_irrefl _), if_neg (lt_irrefl _), if_pos rfl, fromInt_zero_value, opposite]
    ring
  · rw [if_neg above.not_gt, if_pos above, if_neg (by decide), if_pos (by decide), make_value,
      coef_subMag above.le, Nat.cast_sub above.le, opposite]
    ring

/-- With the exponents that mathematics requires, a sum is rounded once. -/
theorem addSigned_value (hd : 1 ≤ digits) (bneg : Bool) (a b : Dec) :
    (addSigned id bneg digits a b).1.value =
      roundDigits 10 digits (a.value + (if bneg then -1 else 1) * b.value) := by
  have ha := @scale_value a (a.exp - min a.exp b.exp) (by omega)
  have hb := @scale_value b (b.exp - min a.exp b.exp) (by omega)
  rw [sub_sub_cancel] at ha hb
  have aligned := addAligned_value bneg ha.1 hb.1
  rw [ha.2, hb.2] at aligned
  rw [← aligned]
  exact roundTo_value hd _

/-- With the exponents that mathematics requires, a product is rounded once. -/
theorem vlDecMul_value (hd : 1 ≤ digits) (x y : Dec) :
    (vlDecMul id digits x y).1.value = roundDigits 10 digits (x.value * y.value) := by
  rw [← mul_exact]
  exact roundTo_value hd _

/-! ### Quotients -/

theorem addMag_ne_nil (a b : List (Fin 10)) : addMag a b ≠ [] := by
  have some : ∀ (c : Nat) (xs ys : List (Fin 10)), addDigits c xs ys ≠ [] := by
    intro c xs ys
    cases xs <;> cases ys <;> simp [addDigits]
  intro empty
  exact some 0 a.reverse b.reverse (reverse_eq_nil_iff.mp empty)

/-- A quotient is rounded to a whole number of its last place. -/
theorem divRounded_value (x num : Dec) {y : Dec} (hy : allZero y.d = false) (exp : ℤ) :
    (divRounded x num y exp).value =
      (x.sign * y.sign * halfEven ((coef num.d : ℚ) / coef y.d) : ℤ) * 10 ^ exp := by
  have pos : 0 < coef y.d := by
    have below := (Dec.lead hy).1
    have : 0 < 10 ^ (y.d.length - 1) := by positivity
    omega
  have full : y.d ≠ [] := y.ne_nil
  obtain ⟨quotient, rest, length, -, -⟩ := divmodMag_spec pos num.ne_nil
  have some : (divmodMag num.d y.d).1 ≠ [] := by
    intro empty
    rw [empty, length_nil] at length
    exact num.ne_nil (length_eq_zero_iff.mp length.symm)
  have parity := coef_parity some
  have rounded := halfEven_natDiv (K := ℚ) (coef num.d) pos
  have sign : (x.sign * y.sign : ℤ) = if (x.neg != y.neg) then -1 else 1 := by
    unfold Dec.sign
    cases x.neg <;> cases y.neg <;> rfl
  rw [rounded, sign, divRounded]
  generalize divmodMag num.d y.d = qr at quotient rest some parity
  obtain ⟨q, r⟩ := qr
  dsimp only at quotient rest parity ⊢
  rw [cmpMag_eq (addMag_ne_nil r r) full, coef_addMag, rest, ← parity, quotient, ← two_mul, make_value]
  generalize coef num.d / coef y.d = Q at quotient
  generalize coef num.d % coef y.d = R
  have up : ((if 2 * R < coef y.d then -1 else if coef y.d < 2 * R then 1 else 0 : ℤ) > 0 ∨
      (if 2 * R < coef y.d then -1 else if coef y.d < 2 * R then 1 else 0 : ℤ) = 0 ∧ Q % 2 ≠ 0) ↔
      (coef y.d < 2 * R ∨ coef y.d = 2 * R ∧ Q % 2 ≠ 0) := by
    rcases lt_trichotomy (2 * R) (coef y.d) with below | tie | above
    · rw [if_pos below]
      omega
    · rw [tie, if_neg (lt_irrefl _), if_neg (lt_irrefl _)]
      omega
    · rw [if_neg above.not_gt, if_pos above]
      omega
  simp only [up]
  split_ifs
  all_goals simp only [coef_roundUp, quotient]
  all_goals push_cast
  all_goals ring

end Voila.Rt
