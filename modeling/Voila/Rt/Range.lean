import Voila.Rt.Dur

/-!
# Voila.Rt.Range

Ranges (`vl_range_new`): their iteration (`vl_iter_next`) and the membership test (`vl_cmpin`).

Both work on the same four fields. The iteration computes each element from a counter, with `int64_t`
arithmetic that nothing checks; the test compares with the bounds and does not look at the step.
-/

open List

namespace Voila.Rt

/-- `VlRange`, of `lo..hi by by` or `lo..=hi by by`. -/
structure Range where
  lo : Int64
  hi : Int64
  by_ : Int64
  inclusive : Bool

namespace Range

/-- `more` of `vl_iter_next`. -/
def more (r : Range) (n : Int64) : Bool :=
  if r.by_ > 0 then n < r.hi || (r.inclusive && n == r.hi)
  else n > r.hi || (r.inclusive && n == r.hi)

/-- `vl_iter_next` with the counter `it->i` at `i`: the key, the value and the counter after it, or the end. -/
def iterNext (r : Range) (i : Int64) : Except String (Option (Int64 × Int64 × Int64)) :=
  if r.by_ = 0 then .error "range step cannot be 0"
  else
    let n := r.lo + i * r.by_
    if r.more n then .ok (some (i, n, i + 1)) else .ok none

/-- `vl_cmpin` of a range. -/
def cmpin {F O : Type*} (r : Range) : Value F O → Bool
  | .int v => if r.inclusive then v ≥ r.lo && v ≤ r.hi else v ≥ r.lo && v < r.hi
  | _ => false

end Range

end Voila.Rt

/-!
Which ranges are iterated as they read, and which of their elements the membership test knows.

The iteration is right as long as the first element past the end can be computed (`iterates_iff`): the loop
has no other way to learn that it is over. The test is right for elements between the bounds, read upwards,
that are a whole number of steps away (`cmpin_right_iff`).
-/

namespace Voila.Rt.Range

/-! ### The sequence -/

/-- `n` lies before the end. -/
def Before (r : Range) (n : Int) : Prop :=
  (if 0 < r.by_.toInt then n < r.hi.toInt else r.hi.toInt < n) ∨ (r.inclusive = true ∧ n = r.hi.toInt)

/-- How far the end is, in the direction of the step. -/
def distance (r : Range) : Int :=
  (if 0 < r.by_.toInt then r.hi.toInt - r.lo.toInt else r.lo.toInt - r.hi.toInt) +
    if r.inclusive then 1 else 0

/-- How many elements there are. -/
def count (r : Range) : Nat := ((r.distance + (r.by_.toInt.natAbs - 1)) / r.by_.toInt.natAbs).toNat

/-- The elements `lo`, `lo + by`, `lo + 2 * by` and so on. -/
def terms (r : Range) : List Int := (List.range r.count).map fun i : Nat => r.lo.toInt + i * r.by_.toInt

variable {r : Range}

theorem by_ne_zero (hby : r.by_ ≠ 0) : r.by_.toInt ≠ 0 := by
  intro zero
  exact hby (Int64.toInt_inj.mp zero)

/-- The elements counted are those before the end. -/
theorem lt_count_iff (hby : r.by_ ≠ 0) (i : Nat) :
    i < r.count ↔ r.Before (r.lo.toInt + i * r.by_.toInt) := by
  have nonzero := by_ne_zero hby
  have pos : (0 : Int) < r.by_.toInt.natAbs := by omega
  have counted : i < r.count ↔ (i : Int) * r.by_.toInt.natAbs < r.distance := by
    unfold count
    rw [Int.lt_toNat, Int.lt_iff_add_one_le, Int.le_ediv_iff_mul_le pos, add_mul, one_mul]
    omega
  rw [counted]
  unfold distance Before
  rcases lt_or_gt_of_ne nonzero with down | up
  · have size : (r.by_.toInt.natAbs : Int) = -r.by_.toInt := by omega
    rw [size, mul_neg, if_neg (not_lt.mpr down.le), if_neg (not_lt.mpr down.le)]
    cases r.inclusive <;> simp <;> omega
  · have size : (r.by_.toInt.natAbs : Int) = r.by_.toInt := by omega
    rw [size, if_pos up, if_pos up]
    cases r.inclusive <;> simp <;> omega

/-! ### The iteration -/

/-- Calls from the start have yielded the values, and the counter is at `i`. -/
inductive Yields (r : Range) : List Int64 → Int64 → Prop
  | start : Yields r [] 0
  | next {vs : List Int64} {i key n i' : Int64} :
      Yields r vs i → r.iterNext i = .ok (some (key, n, i')) → Yields r (vs ++ [n]) i'

/-- The call after `k` values computes `lo + k * by`, and no part of it wraps. -/
def Exact (r : Range) (k : Nat) (i : Int64) : Prop :=
  i.toInt = k ∧ (i * r.by_).toInt = k * r.by_.toInt ∧ (r.lo + i * r.by_).toInt = r.lo.toInt + k * r.by_.toInt

/-- The iteration yields the sequence and then stops, and no call of it computes anything that wraps. -/
structure Iterates (r : Range) : Prop where
  stops : ∃ vs i, Yields r vs i ∧ r.iterNext i = .ok none ∧ vs.map Int64.toInt = r.terms
  exactly : ∀ vs i, Yields r vs i → r.Exact vs.length i

/-- The first element past the end, its distance from `lo` and its index are in the range of `int64_t`. -/
def InLimits (r : Range) : Prop :=
  FitsInt64 r.count ∧ FitsInt64 (r.count * r.by_.toInt) ∧ FitsInt64 (r.lo.toInt + r.count * r.by_.toInt)

theorem more_iff (n : Int64) : r.more n = true ↔ r.Before n.toInt := by
  have zero : (0 : Int64).toInt = 0 := rfl
  have same : n = r.hi ↔ n.toInt = r.hi.toInt := Int64.toInt_inj.symm
  unfold more Before
  simp only [gt_iff_lt, Int64.lt_iff_toInt_lt, zero]
  split
  · simp [same]
  · simp [same]

variable {i : Int64} {k : Nat}

theorem exact_of_inLimits (limits : r.InLimits) (hk : k ≤ r.count) (hi : i.toInt = k) :
    r.Exact k i := by
  obtain ⟨-, far, last⟩ := limits
  have lo := fitsInt64_toInt r.lo
  -- an element on the way is between the first and the one past the end
  have between : (0 ≤ k * r.by_.toInt ∧ k * r.by_.toInt ≤ r.count * r.by_.toInt) ∨
      (r.count * r.by_.toInt ≤ k * r.by_.toInt ∧ k * r.by_.toInt ≤ 0) := by
    have le : (k : Int) ≤ r.count := by exact_mod_cast hk
    rcases le_total 0 r.by_.toInt with up | down
    · exact .inl ⟨mul_nonneg (Int.natCast_nonneg k) up, mul_le_mul_of_nonneg_right le up⟩
    · exact .inr ⟨mul_le_mul_of_nonpos_right le down,
        mul_nonpos_of_nonneg_of_nonpos (Int.natCast_nonneg k) down⟩
  have product : (i * r.by_).toInt = k * r.by_.toInt := by
    refine (wrapped_eq_iff ?_).mpr ?_
    · rw [Int64.toInt_mul, hi]
    · unfold FitsInt64 at far ⊢
      omega
  refine ⟨hi, product, (wrapped_eq_iff ?_).mpr ?_⟩
  · rw [Int64.toInt_add, product]
  · unfold FitsInt64 at far last lo ⊢
    omega

/-- One call of the iteration. -/
theorem iterNext_eq (hby : r.by_ ≠ 0) (exactly : r.Exact k i) :
    r.iterNext i = .ok (if k < r.count then some (i, r.lo + i * r.by_, i + 1) else none) := by
  have more : r.more (r.lo + i * r.by_) = true ↔ k < r.count := by
    rw [more_iff, exactly.2.2, lt_count_iff hby]
  unfold iterNext
  rw [if_neg hby]
  simp only [more]
  split <;> rfl

theorem counter_next (limits : r.InLimits) (hk : k < r.count) (hi : i.toInt = k) :
    (i + 1).toInt = (k + 1 : Nat) := by
  refine (wrapped_eq_iff ?_).mpr ?_
  · rw [Int64.toInt_add, hi]
    rfl
  · have fits := limits.1
    unfold FitsInt64 at fits ⊢
    omega

theorem take_terms (hk : k < r.count) :
    r.terms.take (k + 1) = r.terms.take k ++ [r.lo.toInt + k * r.by_.toInt] := by
  have len : r.terms.length = r.count := by simp [terms]
  rw [take_add_one, List.getElem?_eq_getElem (len ▸ hk)]
  simp only [terms, getElem_map, getElem_range, Option.toList_some]

/-- What any number of calls has yielded. -/
theorem yields_inv (hby : r.by_ ≠ 0) (limits : r.InLimits) {vs : List Int64} (h : Yields r vs i) :
    i.toInt = vs.length ∧ vs.length ≤ r.count ∧ vs.map Int64.toInt = r.terms.take vs.length := by
  induction h with
  | start => exact ⟨rfl, Nat.zero_le _, rfl⟩
  | @next vs i key n i' _ hnext ih =>
    obtain ⟨counter, le, values⟩ := ih
    have exactly := exact_of_inLimits limits le counter
    rw [iterNext_eq hby exactly] at hnext
    split at hnext
    next lt =>
      cases hnext
      rw [length_append, length_singleton, map_append, values, take_terms lt]
      refine ⟨counter_next limits lt counter, lt, ?_⟩
      rw [map_singleton, exactly.2.2]
    · cases hnext

/-- The calls go on as long as there are elements. -/
theorem yields_upto (hby : r.by_ ≠ 0) (limits : r.InLimits) (hk : k ≤ r.count) :
    ∃ vs i, Yields r vs i ∧ vs.length = k := by
  induction k with
  | zero => exact ⟨[], 0, .start, rfl⟩
  | succ k ih =>
    obtain ⟨vs, i, yields, len⟩ := ih (Nat.le_of_succ_le hk)
    obtain ⟨counter, le, -⟩ := yields_inv hby limits yields
    have hnext := iterNext_eq hby (exact_of_inLimits limits le counter)
    rw [if_pos (len ▸ hk)] at hnext
    exact ⟨_, _, yields.next hnext, by simp [len]⟩

theorem iterates_of_inLimits (hby : r.by_ ≠ 0) (limits : r.InLimits) : r.Iterates where
  stops := by
    obtain ⟨vs, i, yields, len⟩ := yields_upto hby limits le_rfl
    obtain ⟨counter, le, values⟩ := yields_inv hby limits yields
    refine ⟨vs, i, yields, ?_, ?_⟩
    · rw [iterNext_eq hby (exact_of_inLimits limits le counter), if_neg (by omega)]
    · rw [values, len, take_of_length_le (by simp [terms])]
  exactly vs i yields := by
    obtain ⟨counter, le, -⟩ := yields_inv hby limits yields
    exact exact_of_inLimits limits le counter

/-- A range is iterated as it reads when the element past its end can be computed, and only then. -/
theorem iterates_iff (hby : r.by_ ≠ 0) : r.Iterates ↔ r.InLimits := by
  constructor
  · intro h
    obtain ⟨vs, i, yields, -, values⟩ := h.stops
    have len : vs.length = r.count := by
      simpa [terms] using congrArg List.length values
    obtain ⟨counter, product, sum⟩ := h.exactly vs i yields
    rw [len] at counter product sum
    exact ⟨counter ▸ fitsInt64_toInt _, product ▸ fitsInt64_toInt _, sum ▸ fitsInt64_toInt _⟩
  · exact iterates_of_inLimits hby

theorem iterates_iff_by_three : (⟨0, 10, 3, false⟩ : Range).Iterates :=
  (iterates_iff (by decide)).mpr ⟨by decide, by decide, by decide⟩

/-- Up to the greatest int, inclusive: the element past the end is the least one, and the loop goes on. -/
theorem iterates_wraps : ¬ (⟨9223372036854775806, 9223372036854775807, 1, true⟩ : Range).Iterates := by
  intro h
  have twice : Yields ⟨9223372036854775806, 9223372036854775807, 1, true⟩
      [9223372036854775806, 9223372036854775807] 2 := (Yields.start.next rfl).next rfl
  have sum := (h.exactly _ _ twice).2.2
  revert sum
  decide

/-! ### Membership -/

/-- The iteration yields `x`. -/
def Has (r : Range) (x : Int64) : Prop := ∃ vs i, Yields r vs i ∧ x ∈ vs

/-- Between the bounds, read upwards. -/
def Within (r : Range) (x : Int) : Prop :=
  r.lo.toInt ≤ x ∧ (x < r.hi.toInt ∨ (r.inclusive = true ∧ x = r.hi.toInt))

/-- Between the bounds, read downwards, and a whole number of steps from the first. -/
def Down (r : Range) (x : Int) : Prop :=
  x ≤ r.lo.toInt ∧ (r.hi.toInt < x ∨ (r.inclusive = true ∧ x = r.hi.toInt)) ∧ r.by_.toInt ∣ x - r.lo.toInt

theorem mem_terms_iff (hby : r.by_ ≠ 0) (n : Int) :
    n ∈ r.terms ↔ if 0 < r.by_.toInt then r.Within n ∧ r.by_.toInt ∣ n - r.lo.toInt else r.Down n := by
  have nonzero := by_ne_zero hby
  have mem : n ∈ r.terms ↔ ∃ k : Nat, r.Before n ∧ r.lo.toInt + k * r.by_.toInt = n := by
    unfold terms
    rw [mem_map]
    constructor
    · rintro ⟨k, hk, rfl⟩
      exact ⟨k, (lt_count_iff hby k).mp (mem_range.mp hk), rfl⟩
    · rintro ⟨k, before, rfl⟩
      exact ⟨k, mem_range.mpr ((lt_count_iff hby k).mpr before), rfl⟩
  rw [mem]
  unfold Before Within Down
  split
  next up =>
    constructor
    · rintro ⟨k, before, rfl⟩
      have ahead : 0 ≤ (k : Int) * r.by_.toInt := mul_nonneg (Int.natCast_nonneg k) up.le
      exact ⟨⟨by omega, before⟩, ⟨k, by rw [add_sub_cancel_left, mul_comm]⟩⟩
    · rintro ⟨⟨ge, before⟩, q, steps⟩
      have nonneg : 0 ≤ q := nonneg_of_mul_nonneg_right (steps ▸ sub_nonneg.mpr ge) up
      refine ⟨q.toNat, before, ?_⟩
      rw [Int.toNat_of_nonneg nonneg, mul_comm, ← steps]
      exact add_sub_cancel ..
  next notUp =>
    have down : r.by_.toInt < 0 := lt_of_le_of_ne (not_lt.mp notUp) nonzero
    constructor
    · rintro ⟨k, before, rfl⟩
      have behind : (k : Int) * r.by_.toInt ≤ 0 :=
        mul_nonpos_of_nonneg_of_nonpos (Int.natCast_nonneg k) down.le
      exact ⟨by omega, before, ⟨k, by rw [add_sub_cancel_left, mul_comm]⟩⟩
    · rintro ⟨le, before, q, steps⟩
      have nonneg : 0 ≤ q := by
        by_contra neg
        have pos : 0 < r.by_.toInt * q := mul_pos_of_neg_of_neg down (not_le.mp neg)
        omega
      refine ⟨q.toNat, before, ?_⟩
      rw [Int.toNat_of_nonneg nonneg, mul_comm, ← steps]
      exact add_sub_cancel ..

/-- What the iteration yields, in a range that it can go through. -/
theorem has_iff (hby : r.by_ ≠ 0) (limits : r.InLimits) (x : Int64) : r.Has x ↔ x.toInt ∈ r.terms := by
  constructor
  · rintro ⟨vs, i, yields, mem⟩
    obtain ⟨-, -, values⟩ := yields_inv hby limits yields
    have here := mem_map_of_mem (f := Int64.toInt) mem
    rw [values] at here
    exact mem_of_mem_take here
  · intro mem
    obtain ⟨vs, i, yields, -, values⟩ := (iterates_of_inLimits hby limits).stops
    rw [← values] at mem
    obtain ⟨y, here, same⟩ := mem_map.mp mem
    exact ⟨vs, i, yields, Int64.toInt_inj.mp same ▸ here⟩

theorem cmpin_iff {F O : Type*} (x : Int64) :
    r.cmpin (.int x : Value F O) = true ↔ r.Within x.toInt := by
  unfold cmpin Within
  cases r.inclusive with
  | false => simp [Int64.le_iff_toInt_le, Int64.lt_iff_toInt_lt]
  | true =>
    simp only [if_true, ge_iff_le, Bool.and_eq_true, decide_eq_true_eq, Int64.le_iff_toInt_le, true_and]
    omega

/-- Where the test is right: of what is between the bounds only elements are asked for, or, of a range that
goes down, only what is in neither, or the one element of a range of one. -/
def Tells (r : Range) (x : Int) : Prop :=
  if 0 < r.by_.toInt then r.Within x → r.by_.toInt ∣ x - r.lo.toInt
  else ¬ r.Within x ∧ ¬ r.Down x ∨ r.inclusive = true ∧ x = r.lo.toInt ∧ r.lo = r.hi

/-- The membership test is true of the elements that the iteration yields, of exactly these `x`. -/
theorem cmpin_right_iff {F O : Type*} (hby : r.by_ ≠ 0) (limits : r.InLimits) (x : Int64) :
    (r.cmpin (.int x : Value F O) = true ↔ r.Has x) ↔ r.Tells x.toInt := by
  rw [cmpin_iff, has_iff hby limits, mem_terms_iff hby]
  unfold Tells
  split
  · constructor
    · intro same within
      exact (same.mp within).2
    · intro steps
      exact ⟨fun within => ⟨within, steps within⟩, And.left⟩
  · have one : r.Within x.toInt ∧ r.Down x.toInt ↔
        r.inclusive = true ∧ x.toInt = r.lo.toInt ∧ r.lo = r.hi := by
      rw [← Int64.toInt_inj]
      unfold Within Down
      constructor
      · rintro ⟨⟨ge, up⟩, le, down, -⟩
        rcases up with up | ⟨inclusive, same⟩
        · rcases down with down | ⟨inclusive, same⟩
          · omega
          · omega
        · exact ⟨inclusive, by omega, by omega⟩
      · rintro ⟨inclusive, first, same⟩
        refine ⟨⟨first.ge, .inr ⟨inclusive, first.trans same⟩⟩, first.le,
          .inr ⟨inclusive, first.trans same⟩, ?_⟩
        rw [first, sub_self]
        exact dvd_zero _
    rw [← one]
    tauto

theorem cmpin_right_iff_evens :
    (⟨0, 10, 2, false⟩ : Range).cmpin (.int 4 : Value Unit Unit) = true ↔
      (⟨0, 10, 2, false⟩ : Range).Has 4 := by
  refine (cmpin_right_iff (by decide) ⟨by decide, by decide, by decide⟩ 4).mpr ?_
  exact fun _ => ⟨2, rfl⟩

/-- The test knows a `3` among the even numbers below ten, which the iteration does not yield. -/
theorem cmpin_odd :
    ¬ ∀ x : Int64, (⟨0, 10, 2, false⟩ : Range).cmpin (.int x : Value Unit Unit) = true ↔
      (⟨0, 10, 2, false⟩ : Range).Has x := by
  intro h
  have has := (h 3).mp rfl
  rw [has_iff (by decide) ⟨by decide, by decide, by decide⟩] at has
  revert has
  decide

end Voila.Rt.Range
