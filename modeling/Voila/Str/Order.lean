import Voila.Rt.Dec

/-!
# Voila.Str.Order

The order of strings: `strcmp` under the operators (`arith` of `ops.c`) and `vl_compare`, beside `vl_equal`.

A string is bytes with a length, and `vl_equal` goes by these. `strcmp` knows nothing of the length and stops
at a NUL, so two strings that differ only behind one are neither equal nor in any order, and `vl_compare`, for
which what is neither equal nor less is greater, has each of them above the other (`compare_right_iff`).
-/

namespace Voila.Str

open Rt

/-! ### C strings -/

/-- The C string at the start of the bytes: up to the first NUL, or up to the NUL behind the last byte. -/
def cStr (s : Bytes) : Bytes := s.takeWhile (· ≠ 0)

/-- The loop of `strcmp`, up to the end of both. -/
def strcmpLoop : Bytes → Bytes → Int
  | [], [] => 0
  | [], _ :: _ => -1
  | _ :: _, [] => 1
  | x :: a, y :: b => if x = y then strcmpLoop a b else if x < y then -1 else 1

/-- `strcmp`, of which only the sign is known. -/
def strcmp (a b : Bytes) : Int := strcmpLoop (cStr a) (cStr b)

/-! ### The operators -/

/-- `vl_equal` of two strings. -/
def strEqual (a b : Bytes) : Bool := a.length == b.length && a.take a.length == b.take a.length

/-- `arith` on two strings. -/
def strArith (op : ArithOp) (a b : Bytes) : Except String Bool :=
  let c := strcmp a b
  match op with
  | .lt => .ok (c < 0)
  | .le => .ok (c ≤ 0)
  | .gt => .ok (c > 0)
  | .ge => .ok (c ≥ 0)
  | .add => .error "`+` never concatenates; use `||` (§5.1)"
  | _ => .error "invalid operands: str and str"

/-- `vl_compare` of two strings. -/
def strCompare (a b : Bytes) : Except String Int :=
  if strEqual a b then .ok 0
  else do
    let lt ← strArith .lt a b
    return if lt then -1 else 1

/-! ### What they are -/

theorem strEqual_iff (a b : Bytes) : strEqual a b = true ↔ a = b := by
  unfold strEqual
  constructor
  · intro h
    obtain ⟨len, same⟩ : a.length = b.length ∧ a = b.take a.length := by simpa using h
    rw [len, List.take_length] at same
    exact same
  · rintro rfl
    simp

theorem strcmpLoop_eq_zero (a b : Bytes) : strcmpLoop a b = 0 ↔ a = b := by
  fun_induction strcmpLoop a b with
  | case1 => simp
  | case2 => simp
  | case3 => simp
  | case4 x a b ih => simpa using ih
  | case5 x a y b hne => simp [hne]
  | case6 x a y b hne => simp [hne]

theorem strcmpLoop_neg (a b : Bytes) : strcmpLoop a b < 0 ↔ a < b := by
  fun_induction strcmpLoop a b with
  | case1 => simp
  | case2 => simp
  | case3 => simp
  | case4 x a b ih => simpa [List.cons_lt_cons_iff] using ih
  | case5 x a y b hne less => simp [List.cons_lt_cons_iff, less]
  | case6 x a y b hne notLess => simp [List.cons_lt_cons_iff, hne, notLess]

theorem strcmpLoop_swap (a b : Bytes) : strcmpLoop b a = -strcmpLoop a b := by
  fun_induction strcmpLoop a b with
  | case1 => rfl
  | case2 => rfl
  | case3 => rfl
  | case4 x a b ih => simpa [strcmpLoop] using ih
  | case5 x a y b hne less => simp [strcmpLoop, Ne.symm hne, UInt8.lt_asymm less]
  | case6 x a y b hne notLess =>
    have greater : y < x := UInt8.lt_of_le_of_ne (UInt8.not_lt.mp notLess) (Ne.symm hne)
    simp [strcmpLoop, Ne.symm hne, greater]

theorem strcmpLoop_pos (a b : Bytes) : 0 < strcmpLoop a b ↔ b < a := by
  rw [← strcmpLoop_neg, strcmpLoop_swap a b]
  omega

/-- `vl_compare` of two strings, by the order of the C strings at their start. -/
theorem strCompare_eq (a b : Bytes) :
    strCompare a b = .ok (if a = b then 0 else if cStr a < cStr b then -1 else 1) := by
  unfold strCompare
  simp only [strEqual_iff]
  split
  · rfl
  · simp only [strArith, strcmp, strcmpLoop_neg]
    show Except.ok _ = _
    simp only [decide_eq_true_eq]

/-! ### The order -/

/-- What an order promises of three strings: `vl_compare` is zero of equal ones only, changes its sign with
the places and is transitive, and of the operators one and no other is true. -/
structure Ordered (a b c : Bytes) : Prop where
  zero : strCompare a b = .ok 0 ↔ a = b
  antisymm : strCompare b a = (strCompare a b).map (-·)
  trans : ∀ x y z, strCompare a b = .ok x → strCompare b c = .ok y → strCompare a c = .ok z →
    x ≤ 0 → y ≤ 0 → z ≤ 0
  one : (strArith .lt a b = .ok true ∧ strEqual a b = false ∧ strArith .gt a b = .ok false) ∨
    (strArith .lt a b = .ok false ∧ strEqual a b = true ∧ strArith .gt a b = .ok false) ∨
    (strArith .lt a b = .ok false ∧ strEqual a b = false ∧ strArith .gt a b = .ok true)

theorem cStr_lt_or_gt {a b : Bytes} (hne : cStr a ≠ cStr b) :
    (cStr a < cStr b ∧ ¬ cStr b < cStr a) ∨ (cStr b < cStr a ∧ ¬ cStr a < cStr b) := by
  have nonzero : strcmpLoop (cStr a) (cStr b) ≠ 0 := by
    rw [Ne, strcmpLoop_eq_zero]
    exact hne
  rw [← strcmpLoop_neg, ← strcmpLoop_pos]
  omega

theorem trans_always {a b c : Bytes} {x y z : Int} (hx : strCompare a b = .ok x)
    (hy : strCompare b c = .ok y) (hz : strCompare a c = .ok z) (hx0 : x ≤ 0) (hy0 : y ≤ 0) : z ≤ 0 := by
  rw [strCompare_eq] at hx hy hz
  have below : ∀ {a b : Bytes} {x : Int},
      (if a = b then 0 else if cStr a < cStr b then -1 else 1) = x → x ≤ 0 → a = b ∨ cStr a < cStr b := by
    intro a b x hx hx0
    by_cases same : a = b
    · exact .inl same
    · by_cases less : cStr a < cStr b
      · exact .inr less
      · rw [if_neg same, if_neg less] at hx
        omega
  rw [← Except.ok.inj hz]
  rcases below (Except.ok.inj hx) hx0 with rfl | ab
  · rw [Except.ok.inj hy]
    exact hy0
  · rcases below (Except.ok.inj hy) hy0 with rfl | bc
    · rw [Except.ok.inj hx]
      exact hx0
    · have less := List.lt_trans ab bc
      rw [if_pos less]
      split
      · exact le_rfl
      · decide

/-- Of two strings with different C strings one is less, whichever way it is asked. -/
theorem ordered_of_ne {a b c : Bytes} (hne : cStr a ≠ cStr b) : Ordered a b c := by
  have differ : a ≠ b := by
    rintro rfl
    exact hne rfl
  have unequal : strEqual a b = false := by
    rw [Bool.eq_false_iff, Ne, strEqual_iff]
    exact differ
  refine ⟨?_, ?_, fun x y z => trans_always, ?_⟩
  · rw [strCompare_eq, if_neg differ]
    refine iff_of_false ?_ differ
    split <;> simp
  · rw [strCompare_eq, strCompare_eq, if_neg differ, if_neg differ.symm]
    rcases cStr_lt_or_gt hne with ⟨less, not⟩ | ⟨greater, not⟩
    · rw [if_pos less, if_neg not]
      rfl
    · rw [if_pos greater, if_neg not]
      rfl
  · simp only [strArith, strcmp, strcmpLoop_neg, gt_iff_lt, strcmpLoop_pos, unequal]
    rcases cStr_lt_or_gt hne with ⟨less, not⟩ | ⟨greater, not⟩
    · simp [less, not]
    · simp [greater, not]

/-- The strings are in order, unless they differ behind a NUL only. -/
theorem compare_right_iff (a b c : Bytes) : Ordered a b c ↔ a = b ∨ cStr a ≠ cStr b := by
  constructor
  · intro h
    by_cases same : cStr a = cStr b
    · left
      have swap := h.antisymm
      rw [strCompare_eq, strCompare_eq] at swap
      by_contra differ
      simp only [if_neg differ, if_neg (Ne.symm differ), same, Except.map, List.lt_irrefl, if_false,
        Except.ok.injEq] at swap
      omega
    · exact .inr same
  · rintro (rfl | hne)
    · refine ⟨?_, ?_, fun x y z => trans_always, ?_⟩
      · rw [strCompare_eq]
        simp
      · rw [strCompare_eq]
        simp [Except.map]
      · have equal := (strEqual_iff a a).mpr rfl
        simp [strArith, strcmp, (strcmpLoop_eq_zero _ _).mpr, equal]
    · exact ordered_of_ne hne

/-- Two strings that differ behind a NUL are each above the other. -/
theorem compare_nul : ¬ Ordered [97, 0, 98] [97, 0, 99] [] := by
  intro h
  have swap := h.antisymm
  revert swap
  decide

end Voila.Str
