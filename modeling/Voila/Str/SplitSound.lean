import Voila.Str.ScanSound

/-!
# Voila.Str.SplitSound

The laws of `split`, `split_n` and `lines`.

One loop serves all three. What it makes joins to the string again (`join_splitLoop`), there is one piece more
than `count` finds separators (`splitLoop_length`), and a limit leaves the rest as one piece (`splitLoop_limit`).
`lines` drops a newline at the end first and takes what is then empty for no line at all, so that it loses a
line that is empty and the only one (`split_laws_iff`).
-/

namespace Voila.Str

open Rt List

/-! ### Split and join -/

theorem join_cons (sep e : Bytes) {ps : List Bytes} (h : ps ≠ []) :
    join sep (e :: ps) = e ++ sep ++ join sep ps := by
  cases ps with
  | nil => exact absurd rfl h
  | cons p ps => rfl

variable {s sep : Bytes} {limit : Int} {L : List Bytes} {c : UInt8}

/-- Behind a hit goes on what is behind the separator. -/
theorem sep_drop (ne : sep ≠ []) {a : UInt8} (here : sep.isPrefixOf (a :: s) = true) :
    sep ++ s.drop (sep.length - 1) = a :: s := by
  obtain ⟨rest, parts⟩ := (isPrefixOf_iff sep _).mp here
  cases sep with
  | nil => exact absurd rfl ne
  | cons b t =>
    rw [cons_append] at parts
    obtain ⟨rfl, rfl⟩ := List.cons.inj parts
    rw [length_cons, Nat.add_sub_cancel, drop_left]
    rfl

theorem join_splitLoop (ne : sep ≠ []) (limit : Int) (skip : Nat) (parts : Int) (cur s : Bytes) :
    join sep (splitLoop sep limit skip parts cur s) = cur ++ s.drop skip := by
  induction s generalizing skip parts cur with
  | nil => cases skip <;> exact (append_nil cur).symm
  | cons a s ih =>
    cases skip with
    | succ skip => exact ih skip parts cur
    | zero =>
      rw [splitLoop]
      split_ifs with fits miss
      · rw [ih, drop_zero, append_assoc]
        rfl
      · have here : sep.isPrefixOf (a :: s) = true := not_not.mp (not_or.mp miss).2
        rw [join_cons sep cur (splitLoop_ne_nil sep limit _ _ _ s), ih, nil_append, append_assoc,
          sep_drop ne here]
        rfl
      · rfl

theorem join_split (ne : sep ≠ []) : join sep (split s sep) = s := by
  rw [split, splitStr, if_neg ne, join_splitLoop ne]
  rfl

theorem splitLoop_length (sep : Bytes) (skip : Nat) (parts : Int) (cur s : Bytes) :
    (splitLoop sep 0 skip parts cur s).length = countLoop sep skip s + 1 := by
  induction s generalizing skip parts cur with
  | nil => cases skip <;> rfl
  | cons a s ih =>
    cases skip with
    | succ skip => exact ih skip parts cur
    | zero =>
      rw [splitLoop, countLoop]
      simp only [Int.lt_irrefl, gt_iff_lt, false_and, false_or, ite_not]
      split_ifs
      · rw [length_cons, ih]
      · exact ih 0 parts _
      · rfl

theorem split_length (ne : sep ≠ []) : (split s sep).length = count s sep + 1 := by
  rw [split, splitStr, count, if_neg ne, if_neg ne]
  exact splitLoop_length sep 0 0 [] s

/-! ### The limit -/

/-- The first `r` pieces, and the others joined to one. -/
def capped (sep : Bytes) (r : Nat) (ps : List Bytes) : List Bytes :=
  if ps.length ≤ r then ps else ps.take r ++ [join sep (ps.drop r)]

theorem capped_cons (sep e : Bytes) (r : Nat) (ps : List Bytes) :
    capped sep (r + 1) (e :: ps) = e :: capped sep r ps := by
  unfold capped
  rw [length_cons, take_succ_cons, drop_succ_cons, cons_append]
  simp only [Nat.add_le_add_iff_right]
  split_ifs <;> rfl

theorem capped_one (sep e : Bytes) (r : Nat) : capped sep r [e] = [e] := by
  cases r with
  | zero => rfl
  | succ r => exact capped_cons sep e r []

/-- At the limit nothing is a hit. -/
theorem splitLoop_full (pos : 0 < limit) (skip : Nat) (cur s : Bytes) :
    splitLoop sep limit skip (limit - 1) cur s = [cur ++ s.drop skip] := by
  induction s generalizing skip cur with
  | nil => cases skip <;> rw [splitLoop, drop_nil, append_nil]
  | cons a s ih =>
    cases skip with
    | succ skip => exact ih skip cur
    | zero =>
      have stop : (limit > 0 ∧ limit - 1 = limit - 1) ∨ ¬ sep.isPrefixOf (a :: s) = true := .inl ⟨pos, rfl⟩
      rw [splitLoop, if_pos stop, ih, append_assoc]
      exact ite_self _

theorem splitLoop_limit (ne : sep ≠ []) (pos : 0 < limit) (r skip : Nat)
    (free : Int) (cur s : Bytes) : splitLoop sep limit skip (limit - 1 - r) cur s =
      capped sep r (splitLoop sep 0 skip free cur s) := by
  induction s generalizing r skip free cur with
  | nil => cases skip <;> exact (capped_one sep cur r).symm
  | cons a s ih =>
    cases skip with
    | succ skip => exact ih r skip free cur
    | zero =>
      cases r with
      | zero =>
        have all := join_splitLoop ne 0 0 free cur (a :: s)
        have some := splitLoop_ne_nil sep 0 0 free cur (a :: s)
        have full : limit - 1 - ((0 : Nat) : Int) = limit - 1 := by omega
        rw [full, splitLoop_full pos, capped, if_neg (Nat.not_le.mpr (length_pos_of_ne_nil some))]
        exact congrArg (fun whole => [whole]) all.symm
      | succ r =>
        have next : limit - 1 - ((r + 1 : Nat) : Int) + 1 = limit - 1 - (r : Int) := by omega
        have open_ : ¬ limit - 1 - ((r + 1 : Nat) : Int) = limit - 1 := by omega
        rw [splitLoop, splitLoop]
        simp only [open_, and_false, Int.lt_irrefl, gt_iff_lt, false_and, false_or, ite_not]
        split_ifs
        · rw [next, ih r _ (free + 1), capped_cons]
        · exact ih (r + 1) 0 free _
        · exact (capped_one sep _ _).symm

theorem splitN_eq (ne : sep ≠ []) {n : Int64} (pos : 1 ≤ n.toInt) :
    splitN s sep n = capped sep (n.toInt.toNat - 1) (split s sep) := by
  have limit : 0 < n.toInt := by omega
  rw [splitN, split, splitStr, splitStr, if_neg ne, if_neg ne, ← splitLoop_limit ne limit _ 0 0 [] s]
  have start : n.toInt - 1 - ((n.toInt.toNat - 1 : Nat) : Int) = 0 := by omega
  rw [start]

/-! ### Lines -/

theorem unlines_eq (ne : L ≠ []) : L.flatMap (· ++ [10]) = join [10] L ++ [10] := by
  induction L with
  | nil => exact absurd rfl ne
  | cons w L ih =>
    cases L with
    | nil => exact append_nil _
    | cons v L =>
      rw [flatMap_cons, ih (cons_ne_nil v L), join_cons [10] w (cons_ne_nil v L), append_assoc, append_assoc,
        append_assoc]

/-- Bytes that are not the separator are put to the piece. -/
theorem splitLoop_line {w : Bytes} (clean : c ∉ w) (parts : Int) (cur s : Bytes) :
    splitLoop [c] 0 0 parts cur (w ++ s) = splitLoop [c] 0 0 parts (cur ++ w) s := by
  induction w generalizing cur with
  | nil => rw [append_nil, nil_append]
  | cons a w ih =>
    obtain ⟨other, clean⟩ := not_or.mp (mt mem_cons.mpr clean)
    have miss : ¬ [c].isPrefixOf (a :: (w ++ s)) = true := by
      rw [isPrefixOf_iff, cons_prefix_cons]
      exact fun h => other h.1
    rw [cons_append, splitLoop, if_pos (by simp), if_pos (.inr miss), ih clean, append_assoc]
    rfl

theorem splitLoop_lines (clean : ∀ w ∈ L, c ∉ w) (ne : L ≠ []) (parts : Int) :
    splitLoop [c] 0 0 parts [] (join [c] L) = L := by
  induction L generalizing parts with
  | nil => exact absurd rfl ne
  | cons w L ih =>
    obtain ⟨here, clean⟩ := forall_mem_cons.mp clean
    cases L with
    | nil =>
      have line := splitLoop_line here parts [] []
      rw [append_nil] at line
      exact line
    | cons v L =>
      rw [join_cons [c] w (cons_ne_nil v L), append_assoc, splitLoop_line here, nil_append,
        singleton_append, splitLoop, if_pos (by simp), if_neg (by simp)]
      exact congrArg (w :: ·) (ih clean (cons_ne_nil v L) _)

theorem join_eq_nil (ne : L ≠ []) : join [10] L = [] ↔ L = [[]] := by
  cases L with
  | nil => exact absurd rfl ne
  | cons w L =>
    cases L with
    | nil => simp [join]
    | cons v L => simp [join]

/-- `lines` finds the lines again, but for the one empty line. -/
theorem lines_iff (clean : ∀ w ∈ L, 10 ∉ w) : lines (L.flatMap (· ++ [10])) = L ↔ L ≠ [[]] := by
  by_cases ne : L = []
  · subst ne
    exact iff_of_true rfl (by simp)
  · rw [unlines_eq ne]
    unfold lines
    dsimp only
    rw [getLast?_concat, if_pos rfl, dropLast_concat]
    split_ifs with empty
    · rw [join_eq_nil ne] at empty
      subst empty
      exact iff_of_false (by simp) (not_not.mpr rfl)
    · rw [splitStr, if_neg (by simp), splitLoop_lines clean ne]
      rw [join_eq_nil ne] at empty
      exact iff_of_true rfl empty

/-- What is asked of the three, for lines, a string, a separator and a limit. -/
structure SplitLaws (L : List Bytes) (s sep : Bytes) (n : Int64) : Prop where
  lines : lines (L.flatMap (· ++ [10])) = L
  join : join sep (split s sep) = s
  count : (split s sep).length = count s sep + 1
  /-- With fewer pieces than `n` the limit is not met. -/
  few : (split s sep).length < n.toInt → splitN s sep n = split s sep
  rest : n.toInt ≤ (split s sep).length → ∃ rest,
    splitN s sep n = (split s sep).take (n.toInt.toNat - 1) ++ [rest] ∧ Str.join sep (splitN s sep n) = s

/-- They hold but for the one empty line. -/
theorem split_laws_iff {L : List Bytes} (clean : ∀ w ∈ L, 10 ∉ w) {s sep : Bytes} (ne : sep ≠ []) {n : Int64}
    (pos : 1 ≤ n.toInt) : SplitLaws L s sep n ↔ L ≠ [[]] := by
  constructor
  · intro laws
    exact (lines_iff clean).mp laws.lines
  · intro other
    refine ⟨(lines_iff clean).mpr other, join_split ne, split_length ne, ?_, ?_⟩
    · intro few
      rw [splitN_eq ne pos, capped, if_pos (by omega)]
    · intro many
      refine ⟨join sep ((split s sep).drop (n.toInt.toNat - 1)), ?_, ?_⟩
      · rw [splitN_eq ne pos, capped, if_neg (by omega)]
      · rw [splitN, splitStr, if_neg ne, join_splitLoop ne]
        rfl

theorem split_laws_three : SplitLaws [[0x61], [], [0x62]] [0x61, 0x2C, 0x2C, 0x62, 0x2C] [0x2C] 2 :=
  (split_laws_iff (by decide) (by decide) (by decide)).mpr (by decide)

/-- The line of `"\n"` is lost. -/
theorem lines_lost : lines ([[]].flatMap (· ++ [10])) = [] ∧ ¬ SplitLaws [[]] [0x61] [0x2C] 1 := by
  refine ⟨rfl, ?_⟩
  intro laws
  cases laws.lines

end Voila.Str
