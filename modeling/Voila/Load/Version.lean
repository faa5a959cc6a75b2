import Voila.Str.SplitSound

/-!
# Voila.Load.Version

`VerCmp` (`mod.voi`) on the strings of the runtime: bytes, ordered by `strcmp`, and segments read as
numbers of 64 bits, which raise where they do not fit.

`Mod` has the same comparison over texts whose segments fit an `int`.
-/

open List

-- the decision by the list, and not over all bytes
attribute [local instance (high)] List.decidableBAll

namespace Voila.Load.Version

open Rt Str
open Voila.Rt.Json (ch)

/-- `trim_v`. -/
def trimV (v : Bytes) : Bytes := if v.head? = some (ch 'v') then v.tail else v

/-- The value of `+` and `*` on two `int`s: out of range, they raise. -/
def checked (n : Int) : Except String Int :=
  if -2 ^ 63 ≤ n ∧ n < 2 ^ 63 then .ok n else .error "integer overflow"

/-- The loop of `ver_num`. -/
def verNumLoop : Int → Bytes → Except String Int
  | n, [] => .ok n
  | n, b :: s =>
    if b < 48 ∨ b > 57 then .ok (-1)
    else do
      let m ← checked (n * 10)
      let n ← checked (m + (b.toNat - 48))
      verNumLoop n s

/-- `ver_num`. -/
def verNum (s : Bytes) : Except String Int := if s = [] then .ok (-1) else verNumLoop 0 s

/-- One turn of the loop of `VerCmp`. -/
def segCmp (x y : Bytes) : Except String Int := do
  let xn ← verNum x
  let yn ← verNum y
  if xn ≥ 0 ∧ yn ≥ 0 then return if xn < yn then -1 else if xn > yn then 1 else 0
  else if ← strArith .lt x y then return -1
  else if ← strArith .gt x y then return 1
  else return 0

/-- What a missing segment is. -/
def zero : Bytes := [ch '0']

/-- The loop of `VerCmp`, with so many turns to go. -/
def verLoop : Nat → List Bytes → List Bytes → Except String Int
  | 0, _, _ => .ok 0
  | k + 1, av, bv => do
    let c ← segCmp (av.headD zero) (bv.headD zero)
    if c ≠ 0 then return c else verLoop k av.tail bv.tail

/-- The segments of a version. -/
def segs (v : Bytes) : List Bytes := split (trimV v) [ch '.']

/-- `VerCmp`. -/
def verCmp (a b : Bytes) : Except String Int :=
  verLoop (max (segs a).length (segs b).length) (segs a) (segs b)

end Voila.Load.Version

/-!
When `VerCmp` puts versions in order.

A segment that is a number fits 64 bits or raises; numbers are in order among themselves, and so are
texts. What goes wrong is a text between two numbers: `2` is below `10`, `10` below `1a` and `1a` below
`2`. `preordered_iff` is that nothing else does.
-/

namespace Voila.Load.Version

open Rt Str
open Voila.Rt.Json (ch)

/-! ### Segments -/

def isDigit (b : UInt8) : Bool := 48 ≤ b && b ≤ 57

/-- The number that digits spell, after those of `n`. -/
def valueFrom (n : Nat) (s : Bytes) : Nat := s.foldl (fun n b => n * 10 + (b.toNat - 48)) n

def value (s : Bytes) : Nat := valueFrom 0 s

/-- A segment that is compared as a number. -/
def Number (s : Bytes) : Prop := s ≠ [] ∧ ∀ b ∈ s, isDigit b = true

instance (s : Bytes) : Decidable (Number s) := inferInstanceAs (Decidable (_ ∧ _))

/-- The digits that a segment starts with are an `int`. -/
def Fits (s : Bytes) : Prop := value (s.takeWhile isDigit) < 2 ^ 63

instance (s : Bytes) : Decidable (Fits s) := inferInstanceAs (Decidable (_ < _))

theorem le_valueFrom (n : Nat) (s : Bytes) : n ≤ valueFrom n s := by
  induction s generalizing n with
  | nil => exact le_rfl
  | cons b s ih =>
    have rest := ih (n * 10 + (b.toNat - 48))
    rw [valueFrom, foldl_cons, ← valueFrom]
    omega

theorem isDigit_iff (b : UInt8) : isDigit b = true ↔ ¬ (b < 48 ∨ b > 57) := by
  simp [isDigit, UInt8.not_lt]

theorem checked_nat (n : Nat) : checked n = if n < 2 ^ 63 then .ok (n : Int) else .error "integer overflow" := by
  have inside : (-2 ^ 63 ≤ (n : Int) ∧ (n : Int) < 2 ^ 63) ↔ n < 2 ^ 63 := by omega
  simp only [checked, inside]

/-- `ver_num` reads on as long as there are digits. -/
theorem verNumLoop_eq {n : Nat} (hn : n < 2 ^ 63) (s : Bytes) : verNumLoop n s =
    if valueFrom n (s.takeWhile isDigit) < 2 ^ 63 then
      .ok (if ∀ b ∈ s, isDigit b = true then (valueFrom n s : Int) else -1)
    else .error "integer overflow" := by
  induction s generalizing n with
  | nil =>
    rw [takeWhile_nil, if_pos (show valueFrom n [] < 2 ^ 63 from hn)]
    simp [verNumLoop, valueFrom]
  | cons b s ih =>
    by_cases hb : isDigit b = true
    · have digit := (isDigit_iff b).mp hb
      have low : 48 ≤ b.toNat := UInt8.not_lt.mp (not_or.mp digit).1
      have next : ((n * 10 : Nat) : Int) + (b.toNat - 48) = ((n * 10 + (b.toNat - 48) : Nat) : Int) := by omega
      have grow := le_valueFrom (n * 10 + (b.toNat - 48)) (s.takeWhile isDigit)
      have step : verNumLoop n (b :: s) = (checked ((n * 10 : Nat) : Int) >>= fun m =>
          checked (m + (b.toNat - 48)) >>= fun n => verNumLoop n s) := by
        rw [verNumLoop, if_neg digit]
        rfl
      have whole (s' : Bytes) : valueFrom n (b :: s') = valueFrom (n * 10 + (b.toNat - 48)) s' := rfl
      have all : (∀ c ∈ b :: s, isDigit c = true) ↔ ∀ c ∈ s, isDigit c = true := by simp [hb]
      rw [step, takeWhile_cons_of_pos hb, whole, whole, checked_nat]
      simp only [all]
      by_cases small : n * 10 + (b.toNat - 48) < 2 ^ 63
      · rw [if_pos (by omega : n * 10 < 2 ^ 63)]
        change (checked (((n * 10 : Nat) : Int) + (b.toNat - 48)) >>= fun n => verNumLoop n s) = _
        rw [next, checked_nat, if_pos small]
        exact ih small
      · have large : ¬ valueFrom (n * 10 + (b.toNat - 48)) (s.takeWhile isDigit) < 2 ^ 63 := by omega
        rw [if_neg large]
        by_cases tens : n * 10 < 2 ^ 63
        · rw [if_pos tens]
          change (checked (((n * 10 : Nat) : Int) + (b.toNat - 48)) >>= fun n => verNumLoop n s) = _
          rw [next, checked_nat, if_neg small]
          rfl
        · rw [if_neg tens]
          rfl
    · have other := not_not.mp fun h => hb ((isDigit_iff b).mpr h)
      rw [verNumLoop, if_pos other, takeWhile_cons_of_neg hb, if_pos (show valueFrom n [] < 2 ^ 63 from hn),
        if_neg fun h => hb (h b mem_cons_self)]

/-- What `ver_num` gives of a segment whose digits fit. -/
def numOf (s : Bytes) : Int := if Number s then value s else -1

theorem verNum_eq (s : Bytes) : verNum s = if Fits s then .ok (numOf s) else .error "integer overflow" := by
  unfold verNum numOf Number
  by_cases empty : s = []
  · subst empty
    simp [Fits, value, valueFrom]
  · rw [if_neg empty, show (0 : Int) = ((0 : Nat) : Int) from rfl, verNumLoop_eq (by omega)]
    simp [Fits, value, empty]

/-- A segment that the order puts above another: numbers as numbers, and everything else as text. -/
def Above (x y : Bytes) : Prop :=
  if Number x ∧ Number y then value y < value x else cStr y < cStr x

instance (x y : Bytes) : Decidable (Above x y) :=
  inferInstanceAs (Decidable (if Number x ∧ Number y then value y < value x else cStr y < cStr x))

/-- Segments of which neither is above the other. -/
def Alike (x y : Bytes) : Prop := ¬ Above x y ∧ ¬ Above y x

variable {x y a : Bytes} {f g : Nat → Bytes} {r : Int} {k : Nat}

theorem Above.asymm (h : Above x y) : ¬ Above y x := by
  unfold Above at *
  by_cases both : Number x ∧ Number y
  · rw [if_pos both] at h
    rw [if_pos both.symm]
    omega
  · rw [if_neg both] at h
    rw [if_neg (both ∘ And.symm)]
    exact List.lt_asymm h

theorem Alike.symm (h : Alike x y) : Alike y x := And.symm h

theorem not_above_self (x : Bytes) : ¬ Above x x := fun h => h.asymm h

theorem numOf_nonneg (s : Bytes) : 0 ≤ numOf s ↔ Number s := by
  unfold numOf
  split
  · simp [*]
  · simp [*]

/-- **One turn of the loop.** -/
theorem segCmp_eq (x y : Bytes) : segCmp x y =
    if Fits x ∧ Fits y then .ok (if Above x y then 1 else if Above y x then -1 else 0)
    else .error "integer overflow" := by
  unfold segCmp
  rw [verNum_eq, verNum_eq]
  by_cases hx : Fits x
  · by_cases hy : Fits y
    · rw [if_pos hx, if_pos hy, if_pos (And.intro hx hy)]
      have kinds : (numOf x ≥ 0 ∧ numOf y ≥ 0) ↔ Number x ∧ Number y :=
        and_congr (numOf_nonneg x) (numOf_nonneg y)
      simp only [bind, Except.bind, pure, Except.pure, kinds, Above]
      by_cases both : Number x ∧ Number y
      · simp only [if_pos both, if_pos both.symm, numOf, if_pos both.1, if_pos both.2, Nat.cast_lt, gt_iff_lt]
        split_ifs <;> first | rfl | omega
      · have swapped : ¬ (Number y ∧ Number x) := both ∘ And.symm
        simp only [if_neg both, if_neg swapped, strArith, strcmp, strcmpLoop_neg, gt_iff_lt, strcmpLoop_pos,
          decide_eq_true_eq]
        split_ifs with less more
        · exact absurd more (List.lt_asymm less)
        · rfl
        · rfl
        · rfl
    · rw [if_pos hx, if_neg hy, if_neg fun h => hy (And.right h)]
      rfl
  · rw [if_neg hx, if_neg fun h => hx (And.left h)]
    rfl

/-! ### Versions -/

/-- The segments of a version, and `0` for those it lacks. -/
def segAt (v : List Bytes) (i : Nat) : Bytes := v.getD i zero

/-- The first segments that are not alike decide, and it is `f`'s that is above. -/
def Newer (f g : Nat → Bytes) : Prop := ∃ k, (∀ j, j < k → Alike (f j) (g j)) ∧ Above (f k) (g k)

theorem newer_iff (f g : Nat → Bytes) : Newer f g ↔
    Above (f 0) (g 0) ∨ Alike (f 0) (g 0) ∧ Newer (fun i => f (i + 1)) fun i => g (i + 1) := by
  constructor
  · rintro ⟨k, alike, above⟩
    cases k with
    | zero => exact .inl above
    | succ k => exact .inr ⟨alike 0 k.succ_pos, k, fun j hj => alike (j + 1) (Nat.succ_lt_succ hj), above⟩
  · intro h
    cases h with
    | inl above => exact ⟨0, fun j hj => absurd hj (Nat.not_lt_zero j), above⟩
    | inr h =>
      obtain ⟨head, k, alike, above⟩ := h
      refine ⟨k + 1, fun j hj => ?_, above⟩
      cases j with
      | zero => exact head
      | succ j => exact alike j (Nat.lt_of_succ_lt_succ hj)

theorem Newer.asymm (h : Newer f g) : ¬ Newer g f := by
  obtain ⟨k, alike, above⟩ := h
  rintro ⟨l, alike', above'⟩
  obtain less | rfl | more := Nat.lt_trichotomy k l
  · exact (alike' k less).2 above
  · exact above.asymm above'
  · exact (alike l more).2 above'

/-- What a result of `VerCmp` says of the segments. -/
def Says (r : Int) (f g : Nat → Bytes) : Prop :=
  r = 1 ∧ Newer f g ∨ r = -1 ∧ Newer g f ∨ r = 0 ∧ ∀ i, Alike (f i) (g i)

theorem Says.pos_iff (h : Says r f g) : 0 < r ↔ Newer f g := by
  obtain ⟨rfl, newer⟩ | ⟨rfl, newer⟩ | ⟨rfl, alike⟩ := h
  · simp [newer]
  · simp [newer.asymm]
  · refine iff_of_false (by omega) ?_
    rintro ⟨k, -, above⟩
    exact (alike k).1 above

theorem Says.unique {r r' : Int} (h : Says r f g) (h' : Says r' f g) : r = r' := by
  have never (alike : ∀ i, Alike (f i) (g i)) : ¬ Newer f g ∧ ¬ Newer g f :=
    ⟨fun ⟨k, _, above⟩ => (alike k).1 above, fun ⟨k, _, above⟩ => (alike k).2 above⟩
  obtain ⟨rfl, newer⟩ | ⟨rfl, newer⟩ | ⟨rfl, alike⟩ := h <;>
    obtain ⟨rfl, newer'⟩ | ⟨rfl, newer'⟩ | ⟨rfl, alike'⟩ := h'
  · rfl
  · exact absurd newer' newer.asymm
  · exact absurd newer (never alike').1
  · exact absurd newer' newer.asymm
  · rfl
  · exact absurd newer (never alike').2
  · exact absurd newer' (never alike).1
  · exact absurd newer' (never alike).2
  · rfl

theorem Says.symm (h : Says r f g) : Says (-r) g f := by
  obtain ⟨rfl, newer⟩ | ⟨rfl, newer⟩ | ⟨rfl, alike⟩ := h
  · exact .inr (.inl ⟨rfl, newer⟩)
  · exact .inl ⟨rfl, newer⟩
  · exact .inr (.inr ⟨rfl, fun i => (alike i).symm⟩)

theorem fits_zero : Fits zero := by decide

theorem segAt_fits {v : List Bytes} (h : ∀ s ∈ v, Fits s) (i : Nat) : Fits (segAt v i) := by
  rw [segAt, getD_eq_getElem?_getD]
  cases hi : v[i]? with
  | none => exact fits_zero
  | some s => exact h s (mem_of_getElem? hi)

theorem segAt_tail (v : List Bytes) : (fun i => segAt v (i + 1)) = segAt v.tail := by
  funext i
  cases v <;> rfl

theorem segAt_head (v : List Bytes) : v.headD zero = segAt v 0 := by cases v <;> rfl

/-- **The loop of `VerCmp`** over segments that fit. -/
theorem verLoop_says {av bv : List Bytes} (ha : ∀ s ∈ av, Fits s) (hb : ∀ s ∈ bv, Fits s)
    (hk : max av.length bv.length ≤ k) : ∃ r, verLoop k av bv = .ok r ∧ Says r (segAt av) (segAt bv) := by
  induction k generalizing av bv with
  | zero =>
    have none : av = [] ∧ bv = [] := by
      rw [← length_eq_zero_iff, ← length_eq_zero_iff]
      omega
    obtain ⟨rfl, rfl⟩ := none
    exact ⟨0, rfl, .inr (.inr ⟨rfl, fun i => ⟨not_above_self _, not_above_self _⟩⟩)⟩
  | succ k ih =>
    have tails : max av.tail.length bv.tail.length ≤ k := by
      simp only [length_tail]
      omega
    obtain ⟨r, rest, told⟩ := ih (fun s hs => ha s (mem_of_mem_tail hs))
      (fun s hs => hb s (mem_of_mem_tail hs)) tails
    rw [verLoop, segAt_head, segAt_head, segCmp_eq, if_pos ⟨segAt_fits ha 0, segAt_fits hb 0⟩]
    by_cases above : Above (segAt av 0) (segAt bv 0)
    · refine ⟨1, ?_, .inl ⟨rfl, (newer_iff _ _).mpr (.inl above)⟩⟩
      rw [if_pos above]
      rfl
    · rw [if_neg above]
      by_cases below : Above (segAt bv 0) (segAt av 0)
      · refine ⟨-1, ?_, .inr (.inl ⟨rfl, (newer_iff _ _).mpr (.inl below)⟩)⟩
        rw [if_pos below]
        rfl
      · refine ⟨r, ?_, ?_⟩
        · rw [if_neg below]
          exact rest
        · have alike : Alike (segAt av 0) (segAt bv 0) := ⟨above, below⟩
          unfold Says
          rw [newer_iff, newer_iff (segAt bv), segAt_tail, segAt_tail]
          obtain ⟨hr, newer⟩ | ⟨hr, newer⟩ | ⟨hr, all⟩ := told
          · exact .inl ⟨hr, .inr ⟨alike, newer⟩⟩
          · exact .inr (.inl ⟨hr, .inr ⟨alike.symm, newer⟩⟩)
          · refine .inr (.inr ⟨hr, fun i => ?_⟩)
            cases i with
            | zero => exact alike
            | succ i =>
              have at_i := all i
              rwa [← segAt_tail, ← segAt_tail] at at_i

/-- A version compared with itself is read to its end. -/
theorem fits_of_self {av : List Bytes} (h : verLoop k av av = .ok r) (hk : av.length ≤ k) :
    ∀ s ∈ av, Fits s := by
  induction k generalizing av with
  | zero =>
    obtain rfl := length_eq_zero_iff.mp (Nat.le_zero.mp hk)
    simp
  | succ k ih =>
    cases av with
    | nil => simp
    | cons s av =>
      have same := segCmp_eq s s
      rw [verLoop, headD_cons, same] at h
      by_cases fits : Fits s
      · rw [if_pos ⟨fits, fits⟩, if_neg (not_above_self s), if_neg (not_above_self s)] at h
        have rest : ∀ s ∈ av, Fits s := ih h (Nat.le_of_succ_le_succ hk)
        exact forall_mem_cons.mpr ⟨fits, rest⟩
      · rw [if_neg fun both => fits both.1] at h
        cases h

/-! ### Orders of versions -/

/-- `VerCmp` is a total preorder on some versions. -/
structure Preordered (S : Set Bytes) : Prop where
  total : ∀ a ∈ S, ∀ b ∈ S, ∃ r, verCmp a b = .ok r ∧ verCmp b a = .ok (-r)
  trans : ∀ a ∈ S, ∀ b ∈ S, ∀ c ∈ S, ∀ x y z, verCmp a b = .ok x → verCmp b c = .ok y → verCmp a c = .ok z →
    x ≤ 0 → y ≤ 0 → z ≤ 0

/-- At the first place where three versions are not all alike, two have numbers and the third a text that
stands between them in the order of texts, the other way round than the two versions are. -/
def Twisted (x y z : Nat → Bytes) : Prop :=
  ∃ m, (∀ j, j < m → Alike (x j) (y j) ∧ Alike (y j) (z j) ∧ Alike (x j) (z j)) ∧
    Number (x m) ∧ Number (y m) ∧ ¬ Number (z m) ∧ y m < z m ∧ z m < x m ∧ ¬ Newer x y

/-- The segments of a version, as a sequence. -/
def places (v : Bytes) : Nat → Bytes := segAt (segs v)

theorem verCmp_says {a b : Bytes} (ha : ∀ s ∈ segs a, Fits s) (hb : ∀ s ∈ segs b, Fits s) :
    ∃ r, verCmp a b = .ok r ∧ Says r (places a) (places b) :=
  verLoop_says ha hb le_rfl

theorem mem_join {sep p : Bytes} {b : UInt8} : ∀ {ps : List Bytes}, p ∈ ps → b ∈ p → b ∈ join sep ps
  | [q], hp, hb => mem_singleton.mp hp ▸ hb
  | q :: q' :: ps, hp, hb => by
    rw [join_cons sep q (cons_ne_nil q' ps)]
    obtain rfl | hp := mem_cons.mp hp
    · simp [hb]
    · simp [mem_join hp hb]

/-- A version without NUL bytes has none in its segments. -/
theorem places_clean (h : 0 ∉ a) (i : Nat) : 0 ∉ places a i := by
  have trimmed : 0 ∉ trimV a := by
    unfold trimV
    split
    · exact fun hb => h (mem_of_mem_tail hb)
    · exact h
  rw [places, segAt, getD_eq_getElem?_getD]
  cases hi : (segs a)[i]? with
  | none => decide
  | some s =>
    intro hb
    have whole : 0 ∈ join [ch '.'] (segs a) := mem_join (mem_of_getElem? hi) hb
    rw [segs, join_split (by decide)] at whole
    exact trimmed whole

theorem cStr_of_clean {s : Bytes} (h : 0 ∉ s) : cStr s = s :=
  takeWhile_eq_self_iff.mpr fun b hb => by
    simpa using fun zero : b = 0 => h (zero ▸ hb)

/-- Among segments without NUL bytes, what is not a number, or is compared with what is not, goes by the order of
texts. -/
theorem above_text (hx : 0 ∉ x) (hy : 0 ∉ y) (h : ¬ (Number x ∧ Number y)) : Above x y ↔ y < x := by
  rw [Above, if_neg h, cStr_of_clean hx, cStr_of_clean hy]

theorem above_numbers (hx : Number x) (hy : Number y) : Above x y ↔ value y < value x := by
  rw [Above, if_pos ⟨hx, hy⟩]

theorem text_ring {a b c : Bytes} (hab : ¬ b < a) (hbc : ¬ c < b) (hca : ¬ a < c) : a = b ∧ b = c := by
  have ab : a ≤ b := List.not_lt.mp hab
  have bc : b ≤ c := List.not_lt.mp hbc
  have ca : c ≤ a := List.not_lt.mp hca
  exact ⟨List.le_antisymm ab (List.le_trans bc ca), List.le_antisymm bc (List.le_trans ca ab)⟩

theorem text_lt {a b : Bytes} (h : ¬ b < a) (ne : a ≠ b) : a < b :=
  not_not.mp fun not => ne (List.le_antisymm (List.not_lt.mp h) (List.not_lt.mp not))

theorem alike_self (x : Bytes) : Alike x x := ⟨not_above_self x, not_above_self x⟩

/-- Three segments in a ring, not all alike: a text between two numbers that are not in its order. -/
theorem ring_cases {a b c : Bytes} (ha : 0 ∉ a) (hb : 0 ∉ b) (hc : 0 ∉ c) (hab : ¬ Above a b) (hbc : ¬ Above b c)
    (hca : ¬ Above c a) (differ : ¬ (Alike a b ∧ Alike b c ∧ Alike a c)) :
    (Number c ∧ Number a ∧ ¬ Number b ∧ a < b ∧ b < c) ∨ (Number b ∧ Number c ∧ ¬ Number a ∧ c < a ∧ a < b) ∨
      (Number a ∧ Number b ∧ ¬ Number c ∧ b < c ∧ c < a) := by
  -- what the three comparisons say where they are comparisons of texts
  have textAB (h : ¬ (Number a ∧ Number b)) : ¬ b < a := (above_text ha hb h).not.mp hab
  have textBC (h : ¬ (Number b ∧ Number c)) : ¬ c < b := (above_text hb hc h).not.mp hbc
  have textCA (h : ¬ (Number c ∧ Number a)) : ¬ a < c := (above_text hc ha h).not.mp hca
  have other {x y : Bytes} (hx : Number x) (hy : ¬ Number y) : x ≠ y := fun same => hy (same ▸ hx)
  have texts (hab : ¬ b < a) (hbc : ¬ c < b) (hca : ¬ a < c) : False := by
    obtain ⟨rfl, rfl⟩ := text_ring hab hbc hca
    exact differ ⟨alike_self a, alike_self a, alike_self a⟩
  by_cases na : Number a <;> by_cases nb : Number b <;> by_cases nc : Number c
  · have vab := (above_numbers na nb).not.mp hab
    have vbc := (above_numbers nb nc).not.mp hbc
    have vca := (above_numbers nc na).not.mp hca
    refine absurd ⟨⟨hab, ?_⟩, ⟨hbc, ?_⟩, ⟨?_, hca⟩⟩ differ
    · rw [above_numbers nb na]
      omega
    · rw [above_numbers nc nb]
      omega
    · rw [above_numbers na nc]
      omega
  · exact .inr (.inr ⟨na, nb, nc, text_lt (textBC fun h => nc h.2) (other nb nc),
      text_lt (textCA fun h => nc h.1) (other na nc).symm⟩)
  · exact .inl ⟨nc, na, nb, text_lt (textAB fun h => nb h.2) (other na nb),
      text_lt (textBC fun h => nb h.1) (other nc nb).symm⟩
  · exact (texts (textAB fun h => nb h.2) (textBC fun h => nb h.1) (textCA fun h => nc h.1)).elim
  · exact .inr (.inl ⟨nb, nc, na, text_lt (textCA fun h => na h.2) (other nc na),
      text_lt (textAB fun h => na h.1) (other nb na).symm⟩)
  · exact (texts (textAB fun h => na h.1) (textBC fun h => nc h.2) (textCA fun h => na h.2)).elim
  · exact (texts (textAB fun h => na h.1) (textBC fun h => nb h.1) (textCA fun h => na h.2)).elim
  · exact (texts (textAB fun h => na h.1) (textBC fun h => nb h.1) (textCA fun h => na h.2)).elim

/-- Three versions of which each is not newer than the next, and the first is newer than the last, are twisted. -/
theorem twisted_of_ring {f g h : Nat → Bytes} (hf : ∀ i, 0 ∉ f i) (hg : ∀ i, 0 ∉ g i) (hh : ∀ i, 0 ∉ h i)
    (fg : ¬ Newer f g) (gh : ¬ Newer g h) (fh : Newer f h) :
    Twisted h f g ∨ Twisted g h f ∨ Twisted f g h := by
  classical
  obtain ⟨k, alike, above⟩ := id fh
  have some : ∃ m, ¬ (Alike (f m) (g m) ∧ Alike (g m) (h m) ∧ Alike (f m) (h m)) := ⟨k, fun all => all.2.2.1 above⟩
  -- the first place where they are not all alike
  obtain ⟨m, differ, before⟩ : ∃ m, ¬ (Alike (f m) (g m) ∧ Alike (g m) (h m) ∧ Alike (f m) (h m)) ∧
      ∀ j, j < m → Alike (f j) (g j) ∧ Alike (g j) (h j) ∧ Alike (f j) (h j) :=
    ⟨Nat.find some, Nat.find_spec some, fun j hj => not_not.mp (Nat.find_min some hj)⟩
  have le : m ≤ k := not_lt.mp fun less => (before k less).2.2.1 above
  have hab : ¬ Above (f m) (g m) := fun up => fg ⟨m, fun j hj => (before j hj).1, up⟩
  have hbc : ¬ Above (g m) (h m) := fun up => gh ⟨m, fun j hj => (before j hj).2.1, up⟩
  have hca : ¬ Above (h m) (f m) := by
    obtain less | rfl := le.lt_or_eq
    · exact (alike m less).2
    · exact above.asymm
  obtain ⟨nh, nf, ng, less, more⟩ | ⟨ng, nh, nf, less, more⟩ | ⟨nf, ng, nh, less, more⟩ :=
    ring_cases (hf m) (hg m) (hh m) hab hbc hca differ
  · exact .inl ⟨m, fun j hj => ⟨(before j hj).2.2.symm, (before j hj).1, (before j hj).2.1.symm⟩, nh, nf, ng, less,
      more, fh.asymm⟩
  · exact .inr (.inl ⟨m, fun j hj => ⟨(before j hj).2.1, (before j hj).2.2.symm, (before j hj).1.symm⟩, ng, nh, nf, less,
      more, gh⟩)
  · exact .inr (.inr ⟨m, before, nf, ng, nh, less, more, fg⟩)

/-- **`VerCmp` is a total preorder on some versions** just where the digits that their segments start with are
`int`s, and no text of one stands between numbers of two others. -/
theorem preordered_iff {S : Set Bytes} (clean : ∀ a ∈ S, 0 ∉ a) : Preordered S ↔
    (∀ a ∈ S, ∀ s ∈ segs a, Fits s) ∧
      ∀ x ∈ S, ∀ y ∈ S, ∀ z ∈ S, ¬ Twisted (places x) (places y) (places z) := by
  constructor
  · intro pre
    have fits : ∀ a ∈ S, ∀ s ∈ segs a, Fits s := by
      intro a ha
      obtain ⟨r, self, -⟩ := pre.total a ha a ha
      exact fits_of_self self (le_max_left _ _)
    refine ⟨fits, ?_⟩
    intro x hx y hy z hz twisted
    obtain ⟨m, before, nx, ny, nz, yz, zx, older⟩ := twisted
    have xz : Newer (places x) (places z) := by
      refine ⟨m, fun j hj => (before j hj).2.2, ?_⟩
      exact (above_text (places_clean (clean x hx) m) (places_clean (clean z hz) m) fun h => nz h.2).mpr zx
    have zy : Newer (places z) (places y) := by
      refine ⟨m, fun j hj => (before j hj).2.1.symm, ?_⟩
      exact (above_text (places_clean (clean z hz) m) (places_clean (clean y hy) m) fun h => nz h.1).mpr yz
    obtain ⟨r, hr, told⟩ := verCmp_says (fits x hx) (fits y hy)
    obtain ⟨s, hs, told'⟩ := verCmp_says (fits y hy) (fits z hz)
    obtain ⟨t, ht, told''⟩ := verCmp_says (fits x hx) (fits z hz)
    have low : r ≤ 0 := not_lt.mp fun h => older (told.pos_iff.mp h)
    have low' : s ≤ 0 := not_lt.mp fun h => zy.asymm (told'.pos_iff.mp h)
    have high := told''.pos_iff.mpr xz
    have := pre.trans x hx y hy z hz r s t hr hs ht low low'
    omega
  · intro h
    obtain ⟨fits, straight⟩ := h
    constructor
    · intro a ha b hb
      obtain ⟨r, hr, told⟩ := verCmp_says (fits a ha) (fits b hb)
      obtain ⟨s, hs, told'⟩ := verCmp_says (fits b hb) (fits a ha)
      exact ⟨r, hr, told'.unique told.symm ▸ hs⟩
    · intro a ha b hb c hc x y z hx hy hz low low'
      obtain ⟨r, hr, told⟩ := verCmp_says (fits a ha) (fits b hb)
      obtain ⟨s, hs, told'⟩ := verCmp_says (fits b hb) (fits c hc)
      obtain ⟨t, ht, told''⟩ := verCmp_says (fits a ha) (fits c hc)
      obtain rfl := Except.ok.inj (hr.symm.trans hx)
      obtain rfl := Except.ok.inj (hs.symm.trans hy)
      obtain rfl := Except.ok.inj (ht.symm.trans hz)
      refine not_lt.mp fun high => ?_
      have nab : ¬ Newer (places a) (places b) := fun h => absurd (told.pos_iff.mpr h) (by omega)
      have nbc : ¬ Newer (places b) (places c) := fun h => absurd (told'.pos_iff.mpr h) (by omega)
      have nac : Newer (places a) (places c) := told''.pos_iff.mp high
      obtain twisted | twisted | twisted := twisted_of_ring (places_clean (clean a ha)) (places_clean (clean b hb))
        (places_clean (clean c hc)) nab nbc nac
      · exact straight c hc a ha b hb twisted
      · exact straight b hb c hc a ha twisted
      · exact straight a ha b hb c hc twisted

/-- Versions of numbers only. -/
theorem places_number (h : ∀ s ∈ segs a, Number s) (i : Nat) : Number (places a i) := by
  rw [places, segAt, getD_eq_getElem?_getD]
  cases hi : (segs a)[i]? with
  | none => decide
  | some s => exact h s (mem_of_getElem? hi)

/-- `1.2` and `v10`. -/
theorem preordered_two : Preordered {[49, 46, 50], [118, 49, 48]} := by
  refine (preordered_iff ?_).mpr ⟨?_, ?_⟩
  · rintro a (rfl | rfl) <;> decide
  · rintro a (rfl | rfl) <;> decide
  · rintro x - y - z hz ⟨m, -, -, -, text, -⟩
    refine text (places_number ?_ m)
    obtain rfl | rfl := hz <;> decide

/-- `2` is below `10`, `10` below `1a`, and `1a` below `2`; and a segment of twenty nines raises. -/
theorem preordered_not : ¬ Preordered Set.univ := by
  intro h
  have := h.trans [50] trivial [49, 48] trivial [49, 97] trivial (-1) (-1) 1 (by decide) (by decide) (by decide)
    (by decide) (by decide)
  omega

end Voila.Load.Version
