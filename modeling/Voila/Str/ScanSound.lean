import Voila.Str.Str

/-!
# Voila.Str.ScanSound

The scans for a string in another: `contains`, `index`, `last_index`, `count`, `split` and `replace`, and `in`.

All but the last compare with `memcmp` at the offsets where the needle fits, and find it where it occurs
(`Occurs`). `in` asks `strstr`, which sees both only up to their first NUL, so it answers as the others do where
that makes no difference (`scans_iff`).
-/

namespace Voila.Str

open Rt List

/-! ### Occurrences -/

/-- `t` occurs in `s` at the offset `i`. -/
def Occurs (t s : Bytes) (i : Nat) : Prop := i ≤ s.length ∧ t <+: s.drop i

theorem occurs_zero (t s : Bytes) : Occurs t s 0 ↔ t <+: s := and_iff_right (Nat.zero_le _)

theorem occurs_succ (t s : Bytes) (a : UInt8) (i : Nat) : Occurs t (a :: s) (i + 1) ↔ Occurs t s i := by
  unfold Occurs
  rw [length_cons, drop_succ_cons, Nat.add_le_add_iff_right]

theorem infix_iff_occurs (t s : Bytes) : t <:+: s ↔ ∃ i, Occurs t s i := by
  constructor
  · rintro ⟨x, y, rfl⟩
    refine ⟨x.length, ?_, ?_⟩
    · simp only [length_append]
      omega
    · rw [append_assoc, drop_left]
      exact prefix_append t y
  · rintro ⟨i, -, h⟩
    exact h.isInfix.trans (drop_suffix i s).isInfix

variable {s t : Bytes} {a : UInt8} {k : Nat}

theorem not_infix_of_short (h : ¬ t.length ≤ s.length) : ¬ t <:+: s := fun hin => h hin.length_le

theorem isPrefixOf_iff (t s : Bytes) : t.isPrefixOf s = true ↔ t <+: s := isPrefixOf_iff_prefix

/-! ### The scans -/

theorem containsLoop_iff (t s : Bytes) : containsLoop t s = true ↔ t <:+: s := by
  induction s with
  | nil => rw [containsLoop, isPrefixOf_iff, prefix_nil, infix_nil]
  | cons a s ih =>
    rw [containsLoop, infix_cons_iff]
    split_ifs with fits here
    · exact iff_of_true rfl (.inl ((isPrefixOf_iff t _).mp here))
    · rw [ih, ← isPrefixOf_iff]
      exact (or_iff_right here).symm
    · rw [← infix_cons_iff]
      exact iff_of_false nofun (not_infix_of_short fits)

theorem contains_iff (s t : Bytes) : contains s t = true ↔ t <:+: s := by
  unfold contains
  split_ifs with h
  · exact iff_of_true rfl (h ▸ nil_infix)
  · exact containsLoop_iff t s

theorem least_cons (here : ¬ t <+: a :: s)
    (h : IsLeast {j | Occurs t s j} k) : IsLeast {j | Occurs t (a :: s) j} (k + 1) := by
  refine ⟨(occurs_succ t s a k).mpr h.1, fun j hj => ?_⟩
  cases j with
  | zero => exact absurd ((occurs_zero t _).mp hj) here
  | succ j => exact Nat.succ_le_succ (h.2 ((occurs_succ t s a j).mp hj))

theorem greatest_cons (a : UInt8) (h : IsGreatest {j | Occurs t s j} k) :
    IsGreatest {j | Occurs t (a :: s) j} (k + 1) := by
  refine ⟨(occurs_succ t s a k).mpr h.1, fun j hj => ?_⟩
  cases j with
  | zero => exact Nat.zero_le _
  | succ j => exact Nat.succ_le_succ (h.2 ((occurs_succ t s a j).mp hj))

theorem nowhere_cons (here : ¬ t <+: a :: s) (h : ∀ j, ¬ Occurs t s j) (j : Nat) :
    ¬ Occurs t (a :: s) j := by
  intro hj
  cases j with
  | zero => exact here ((occurs_zero t _).mp hj)
  | succ j => exact h j ((occurs_succ t s a j).mp hj)

theorem nowhere_short (h : ¬ t.length ≤ s.length) (j : Nat) : ¬ Occurs t s j :=
  fun hj => not_infix_of_short h ((infix_iff_occurs t s).mpr ⟨j, hj⟩)

/-- `index` breaks at the first hit. -/
theorem indexLoop_spec (t s : Bytes) (i : Int) :
    (∃ k : Nat, IsLeast {j | Occurs t s j} k ∧ indexLoop t i s = i + k) ∨
      ((∀ j, ¬ Occurs t s j) ∧ indexLoop t i s = -1) := by
  have hit : ∀ {s : Bytes} (i : Int), t.isPrefixOf s = true →
      ∃ k : Nat, IsLeast {j | Occurs t s j} k ∧ i = i + k := by
    intro s i here
    refine ⟨0, ⟨?_, fun j _ => Nat.zero_le j⟩, (Int.add_zero i).symm⟩
    exact (occurs_zero t s).mpr ((isPrefixOf_iff t s).mp here)
  induction s generalizing i with
  | nil =>
    rw [indexLoop]
    split_ifs with here
    · exact .inl (hit i here)
    · refine .inr ⟨fun j hj => here ?_, rfl⟩
      rw [isPrefixOf_iff]
      simpa using hj.2
  | cons a s ih =>
    rw [indexLoop]
    split_ifs with fits here
    · exact .inl (hit i here)
    · rw [isPrefixOf_iff] at here
      rcases ih (i + 1) with ⟨k, least, run⟩ | ⟨nowhere, run⟩
      · exact .inl ⟨k + 1, least_cons here least, by rw [run]; omega⟩
      · exact .inr ⟨nowhere_cons here nowhere, run⟩
    · exact .inr ⟨nowhere_short fits, rfl⟩

/-- `last_index` goes on to the last. -/
theorem lastLoop_spec (t s : Bytes) (i found : Int) :
    (∃ k : Nat, IsGreatest {j | Occurs t s j} k ∧ lastLoop t i found s = i + k) ∨
      ((∀ j, ¬ Occurs t s j) ∧ lastLoop t i found s = found) := by
  induction s generalizing i found with
  | nil =>
    rw [lastLoop]
    split_ifs with here
    · rw [isPrefixOf_iff, ← occurs_zero] at here
      exact .inl ⟨0, ⟨here, fun j hj => hj.1⟩, (Int.add_zero i).symm⟩
    · refine .inr ⟨fun j hj => here ?_, rfl⟩
      rw [isPrefixOf_iff]
      simpa using hj.2
  | cons a s ih =>
    rw [lastLoop]
    split_ifs with fits here
    · rw [isPrefixOf_iff, ← occurs_zero] at here
      rcases ih (i + 1) i with ⟨k, greatest, run⟩ | ⟨nowhere, run⟩
      · exact .inl ⟨k + 1, greatest_cons a greatest, by rw [run]; omega⟩
      · refine .inl ⟨0, ⟨here, fun j hj => ?_⟩, by rw [run]; omega⟩
        cases j with
        | zero => exact Nat.le_refl 0
        | succ j => exact absurd ((occurs_succ t s a j).mp hj) (nowhere j)
    · rw [isPrefixOf_iff] at here
      rcases ih (i + 1) found with ⟨k, greatest, run⟩ | ⟨nowhere, run⟩
      · exact .inl ⟨k + 1, greatest_cons a greatest, by rw [run]; omega⟩
      · exact .inr ⟨nowhere_cons here nowhere, run⟩
    · exact .inr ⟨nowhere_short fits, rfl⟩

theorem index_eq_iff (s t : Bytes) (k : Nat) : index s t = k ↔ IsLeast {j | Occurs t s j} k := by
  rcases indexLoop_spec t s 0 with ⟨k', least, run⟩ | ⟨nowhere, run⟩
  · rw [index, run, Int.zero_add, Int.ofNat_inj]
    constructor
    · rintro rfl
      exact least
    · exact least.unique
  · rw [index, run]
    refine iff_of_false (by omega) ?_
    intro least
    exact nowhere k least.1

theorem lastIndex_eq_iff (s t : Bytes) (k : Nat) : lastIndex s t = k ↔ IsGreatest {j | Occurs t s j} k := by
  rcases lastLoop_spec t s 0 (-1) with ⟨k', greatest, run⟩ | ⟨nowhere, run⟩
  · rw [lastIndex, run, Int.zero_add, Int.ofNat_inj]
    constructor
    · rintro rfl
      exact greatest
    · exact greatest.unique
  · rw [lastIndex, run]
    refine iff_of_false (by omega) ?_
    intro greatest
    exact nowhere k greatest.1

theorem index_nonneg_iff (s t : Bytes) : 0 ≤ index s t ↔ t <:+: s := by
  rw [infix_iff_occurs]
  rcases indexLoop_spec t s 0 with ⟨k, least, run⟩ | ⟨nowhere, run⟩
  · rw [index, run]
    exact iff_of_true (by omega) ⟨k, least.1⟩
  · rw [index, run]
    exact iff_of_false (by decide) (not_exists.mpr nowhere)

theorem lastIndex_nonneg_iff (s t : Bytes) : 0 ≤ lastIndex s t ↔ t <:+: s := by
  rw [infix_iff_occurs]
  rcases lastLoop_spec t s 0 (-1) with ⟨k, greatest, run⟩ | ⟨nowhere, run⟩
  · rw [lastIndex, run]
    exact iff_of_true (by omega) ⟨k, greatest.1⟩
  · rw [lastIndex, run]
    exact iff_of_false (by decide) (not_exists.mpr nowhere)

/-- Nothing is skipped before the first hit. -/
theorem countLoop_pos_iff (ht : t ≠ []) (s : Bytes) : 0 < countLoop t 0 s ↔ t <:+: s := by
  induction s with
  | nil =>
    rw [countLoop, infix_nil]
    exact iff_of_false (Nat.lt_irrefl 0) ht
  | cons a s ih =>
    rw [countLoop]
    split_ifs with fits here
    · exact iff_of_true (Nat.succ_pos _) ((isPrefixOf_iff t _).mp here).isInfix
    · rw [isPrefixOf_iff] at here
      rw [ih, infix_cons_iff, or_iff_right here]
    · exact iff_of_false (Nat.lt_irrefl 0) (not_infix_of_short fits)

theorem count_pos_iff (ht : t ≠ []) (s : Bytes) : 0 < count s t ↔ t <:+: s := by
  rw [count, if_neg ht]
  exact countLoop_pos_iff ht s

theorem splitLoop_ne_nil (sep : Bytes) (limit : Int) (skip : Nat) (parts : Int) (cur s : Bytes) :
    splitLoop sep limit skip parts cur s ≠ [] := by
  induction s generalizing skip parts cur with
  | nil =>
    cases skip <;> exact nofun
  | cons a s ih =>
    cases skip with
    | succ skip => exact ih skip parts cur
    | zero =>
      rw [splitLoop]
      split_ifs
      · exact ih 0 parts _
      · exact nofun
      · exact nofun

theorem splitLoop_length_iff (ht : t ≠ []) (parts : Int) (cur s : Bytes) :
    1 < (splitLoop t 0 0 parts cur s).length ↔ t <:+: s := by
  induction s generalizing cur with
  | nil =>
    rw [infix_nil]
    exact iff_of_false (Nat.lt_irrefl 1) ht
  | cons a s ih =>
    rw [splitLoop]
    simp only [Int.lt_irrefl, gt_iff_lt, false_and, false_or]
    split_ifs with fits here
    · rw [isPrefixOf_iff] at here
      refine iff_of_true ?_ here.isInfix
      rw [length_cons]
      exact Nat.succ_lt_succ (length_pos_of_ne_nil (splitLoop_ne_nil t 0 _ _ _ s))
    · rw [isPrefixOf_iff] at here
      rw [ih, infix_cons_iff, or_iff_right here]
    · exact iff_of_false (Nat.lt_irrefl 1) (not_infix_of_short fits)

theorem split_length_iff (ht : t ≠ []) (s : Bytes) : 1 < (split s t).length ↔ t <:+: s := by
  rw [split, splitStr, if_neg ht]
  exact splitLoop_length_iff ht 0 [] s

theorem replaceLoop_self (t s : Bytes) (limit done : Int) (skip : Nat) :
    replaceLoop t t limit skip done s = s.drop skip := by
  induction s generalizing skip done with
  | nil => rw [replaceLoop, drop_nil]
  | cons a s ih =>
    cases skip with
    | succ skip => exact ih done skip
    | zero =>
      rw [replaceLoop]
      split_ifs with hit
      · obtain ⟨pos, -, here, -⟩ := hit
        obtain ⟨rest, parts⟩ := (isPrefixOf_iff t _).mp here
        cases t with
        | nil => exact absurd pos (Nat.lt_irrefl 0)
        | cons b t =>
          rw [cons_append] at parts
          obtain ⟨rfl, rfl⟩ := List.cons.inj parts
          rw [ih, length_cons, Nat.add_sub_cancel, drop_left]
          rfl
      · rw [ih]
        rfl

theorem replace_self (s t : Bytes) : replace s t t = s := replaceLoop_self t s (-1) 0 0

/-! ### Membership -/

theorem cmpin_iff (t s : Bytes) : cmpin t s = true ↔ cStr t <:+: cStr s := by
  unfold cmpin strstr
  rw [any_eq_true, infix_iff_prefix_suffix]
  simp only [mem_tails, isPrefixOf_iff]
  exact exists_congr fun rest => and_comm

/-- What is asked of the scans. -/
structure Scans (s t : Bytes) : Prop where
  member : t ≠ [] → (cmpin t s = true ↔ contains s t = true)
  index : t ≠ [] → (0 ≤ index s t ↔ contains s t = true)
  last : t ≠ [] → (0 ≤ lastIndex s t ↔ contains s t = true)
  count : t ≠ [] → (0 < count s t ↔ contains s t = true)
  split : t ≠ [] → (1 < (split s t).length ↔ contains s t = true)
  least : ∀ k : Nat, Str.index s t = k ↔ IsLeast {i | Occurs t s i} k
  greatest : ∀ k : Nat, lastIndex s t = k ↔ IsGreatest {i | Occurs t s i} k
  same : replace s t t = s

/-- They agree where what is before the first NULs decides. -/
theorem scans_iff (s t : Bytes) :
    Scans s t ↔ (t ≠ [] → (t.takeWhile (· ≠ 0) <:+: s.takeWhile (· ≠ 0) ↔ t <:+: s)) := by
  constructor
  · intro scans ht
    have member := scans.member ht
    rw [cmpin_iff, contains_iff] at member
    exact member
  · intro same
    refine ⟨?_, ?_, ?_, ?_, ?_, index_eq_iff s t, lastIndex_eq_iff s t, replace_self s t⟩
    all_goals
      intro ht
      rw [contains_iff]
    · exact (cmpin_iff t s).trans (same ht)
    · exact index_nonneg_iff s t
    · exact lastIndex_nonneg_iff s t
    · exact count_pos_iff ht s
    · exact split_length_iff ht s

/-- Behind a NUL, `in` finds nothing. -/
theorem scans_nul : ¬ Scans [0, 0x61] [0x61] ∧ cmpin [0x61] [0, 0x61] = false ∧ contains [0, 0x61] [0x61] = true := by
  have missed : cmpin [0x61] [0, 0x61] = false := by decide
  have found : contains [0, 0x61] [0x61] = true := by decide
  refine ⟨?_, missed, found⟩
  intro scans
  have member := (scans.member nofun).mpr found
  rw [missed] at member
  cases member

end Voila.Str
