import Voila.Http.Text
import Voila.Rt.Dur

/-!
# Voila.Flag.Dur

Durations on a command line (`flag.voi`): the text that a duration prints as (`vl_tostr`) and `parse_dur`.

`parse_dur` reads numbers, each with a unit. Its numbers, products and sums are ints that nothing bounds, and one
that leaves the range is thrown (`Overflows`); it knows no sign, so what a negative duration prints as is refused.
-/

open List

namespace Voila.CommandLine

open Voila.Rt (Bytes FitsInt64 isDigit readNat printNat)
open Voila.Rt.Json (ch)
open Voila.Http (lit Fail intText)

/-- `err`. -/
def err {α : Type} (msg : Bytes) : Except Fail α := .error (.err msg)

/-- The result of an operation on ints. -/
def int (n : Int) : Except Fail Int := if FitsInt64 n then .ok n else .error (.throws "OverflowError")

/-- `vl_tostr` of a duration. -/
def durText (d : Int64) : Bytes :=
  let ns := d.toInt
  if ns.tmod 1000000000 = 0 then intText (ns.tdiv 1000000000) ++ lit "s"
  else if ns.tmod 1000000 = 0 then intText (ns.tdiv 1000000) ++ lit "ms"
  else if ns.tmod 1000 = 0 then intText (ns.tdiv 1000) ++ lit "µs"
  else intText ns ++ lit "ns"

/-! ### Parsing -/

/-- `n = n * 10 + (bs[i] - 48)`. -/
def addDigit (n : Int) (b : UInt8) : Except Fail Int := do
  let m ← int (n * 10)
  int (m + (b.toNat - 48 : Nat))

/-- The loop of `parse_dur` over digits: the number, how many there were, and what is left. -/
def digitsLoop (n : Int) (digits : Nat) : Bytes → Except Fail (Int × Nat × Bytes)
  | [] => .ok (n, digits, [])
  | b :: bs =>
    if isDigit b then do
      let n ← addDigit n b
      digitsLoop n (digits + 1) bs
    else .ok (n, digits, b :: bs)

/-- The scale of a unit, 0 for none. -/
def scaleOf (u : Bytes) : Int :=
  if u = lit "ns" then 1
  else if u = lit "us" ∨ u = lit "µs" then 1000
  else if u = lit "ms" then 1000000
  else if u = lit "s" then 1000000000
  else if u = lit "m" then 60000000000
  else if u = lit "h" then 3600000000000
  else 0

def quoted (s : Bytes) : Bytes := ch '\x60' :: (s ++ [ch '\x60'])

/-- A round of `parse_dur`: a number and its unit. -/
def term (s bs : Bytes) : Except Fail (Int × Bytes) := do
  let (n, digits, bs) ← digitsLoop 0 0 bs
  if digits = 0 then err (quoted s ++ lit " is not a duration")
  else
    let u := bs.takeWhile (!isDigit ·)
    if scaleOf u = 0 then
      if u = [] then err (quoted s ++ lit " needs a unit (ms, s, m, h)")
      else err (quoted s ++ lit ": unknown unit " ++ quoted u)
    else do
      let m ← int (n * scaleOf u)
      .ok (m, bs.dropWhile (!isDigit ·))

/-! What a term of a text is: its digits, their number, its unit, and what is behind it. -/

def digits (bs : Bytes) : Bytes := bs.takeWhile isDigit

def number (bs : Bytes) : Nat := readNat (digits bs)

def unit (bs : Bytes) : Bytes := (bs.dropWhile isDigit).takeWhile (!isDigit ·)

def after (bs : Bytes) : Bytes := (bs.dropWhile isDigit).dropWhile (!isDigit ·)

theorem le_readFrom (n : Nat) (ds : Bytes) : n ≤ ds.foldl (fun n b => 10 * n + (b.toNat - 48)) n := by
  induction ds generalizing n with
  | nil => exact Nat.le_refl n
  | cons b ds ih =>
    have grows : n ≤ 10 * n + (b.toNat - 48) := by omega
    exact Nat.le_trans grows (ih _)

variable {n k : Nat} {u : Bytes} {d : Int64}

theorem int_of (fits : n < 2 ^ 63) : int n = .ok n := if_pos ⟨by omega, by omega⟩

theorem int_throws (big : 2 ^ 63 ≤ n) : int n = .error (.throws "OverflowError") :=
  if_neg fun fits => by have high := fits.2; omega

theorem ok_bind {α β : Type} (a : α) (f : α → Except Fail β) : (Except.ok a >>= f) = f a := rfl

theorem addDigit_eq (n : Nat) (b : UInt8) :
    addDigit n b =
      if 10 * n + (b.toNat - 48) < 2 ^ 63 then .ok ((10 * n + (b.toNat - 48) : Nat) : Int)
      else .error (.throws "OverflowError") := by
  have ten : (n : Int) * 10 = ((10 * n : Nat) : Int) := by omega
  have sum : ((10 * n : Nat) : Int) + ((b.toNat - 48 : Nat) : Int) = ((10 * n + (b.toNat - 48) : Nat) : Int) :=
    (Nat.cast_add ..).symm
  rw [addDigit, ten]
  by_cases small : 10 * n < 2 ^ 63
  · rw [int_of small, ok_bind, sum]
    by_cases small' : 10 * n + (b.toNat - 48) < 2 ^ 63
    · rw [if_pos small', int_of small']
    · rw [if_neg small', int_throws (Nat.not_lt.mp small')]
  · rw [int_throws (Nat.not_lt.mp small), if_neg (by omega)]
    rfl

theorem digitsLoop_eq (fits : n < 2 ^ 63) (k : Nat) (bs : Bytes) :
    digitsLoop n k bs =
      if (digits bs).foldl (fun n b => 10 * n + (b.toNat - 48)) n < 2 ^ 63 then
        .ok (((digits bs).foldl (fun n b => 10 * n + (b.toNat - 48)) n : Nat), k + (digits bs).length,
          bs.dropWhile isDigit)
      else .error (.throws "OverflowError") := by
  induction bs generalizing n k with
  | nil =>
    rw [digits, takeWhile_nil, foldl_nil, if_pos fits]
    rfl
  | cons b bs ih =>
    rw [digitsLoop, digits, takeWhile_cons, dropWhile_cons]
    by_cases digit : isDigit b = true
    · simp only [digit, if_true, foldl_cons, length_cons]
      rw [addDigit_eq]
      by_cases small : 10 * n + (b.toNat - 48) < 2 ^ 63
      · rw [if_pos small, ok_bind, ih small (k + 1), digits, Nat.add_right_comm, Nat.add_assoc]
      · have more := le_readFrom (10 * n + (b.toNat - 48)) (bs.takeWhile isDigit)
        rw [if_neg small, if_neg (by omega)]
        rfl
    · simp only [Bool.eq_false_iff.mpr digit, Bool.false_eq_true, if_false, foldl_nil, if_pos fits]
      rfl

/-- A term is read, or an int of it leaves the range, or it is ill-formed. -/
theorem term_eq (s bs : Bytes) :
    term s bs =
      if 2 ^ 63 ≤ number bs then .error (.throws "OverflowError")
      else if digits bs = [] then err (quoted s ++ lit " is not a duration")
      else if scaleOf (unit bs) = 0 then
        if unit bs = [] then err (quoted s ++ lit " needs a unit (ms, s, m, h)")
        else err (quoted s ++ lit ": unknown unit " ++ quoted (unit bs))
      else (int (number bs * scaleOf (unit bs))).map (·, after bs) := by
  have loop := digitsLoop_eq (n := 0) (by decide) 0 bs
  rw [Nat.cast_zero, Nat.zero_add] at loop
  rw [term, loop]
  rw [← readNat, ← number]
  by_cases small : number bs < 2 ^ 63
  · rw [if_pos small, if_neg (Nat.not_le.mpr small)]
    dsimp only [bind, Except.bind]
    by_cases none_ : digits bs = []
    · rw [if_pos none_, if_pos (length_eq_zero_iff.mpr none_)]
    rw [if_neg none_, if_neg (mt length_eq_zero_iff.mp none_), unit]
    by_cases unknown : scaleOf ((bs.dropWhile isDigit).takeWhile (!isDigit ·)) = 0
    · rw [if_pos unknown, if_pos unknown]
    rw [if_neg unknown, if_neg unknown]
    rfl
  · rw [if_neg small, if_pos (Nat.not_lt.mp small)]
    rfl

theorem after_shorter {bs : Bytes} (some_ : digits bs ≠ []) : (after bs).length < bs.length := by
  have cut := congrArg List.length (takeWhile_append_dropWhile (p := isDigit) (l := bs))
  rw [length_append] at cut
  have pos := length_pos_of_ne_nil some_
  have shorter := ((bs.dropWhile isDigit).dropWhile_suffix (!isDigit ·)).length_le
  rw [digits] at pos
  rw [after]
  omega

theorem term_shorter {s bs rest : Bytes} {m : Int} (h : term s bs = .ok (m, rest)) : rest.length < bs.length := by
  rw [term_eq] at h
  split_ifs at h with big none_ unknown bare
  · cases h
  · cases h
  · cases h
  · cases product : int (number bs * scaleOf (unit bs)) with
    | error e => rw [product] at h; cases h
    | ok m' =>
      rw [product] at h
      cases h
      exact after_shorter none_

/-- The loop of `parse_dur` over terms. -/
def durLoop (s : Bytes) (total : Int) (bs : Bytes) : Except Fail Int :=
  if bs = [] then .ok total
  else
    match _h : term s bs with
    | .error e => .error e
    | .ok (m, rest) => do
      let total ← int (total + m)
      durLoop s total rest
termination_by bs.length
decreasing_by exact term_shorter _h

/-- `parse_dur`. -/
def parseDur (s : Bytes) : Except Fail Int64 :=
  if s = lit "0" then .ok 0
  else if s = [] then err (quoted [] ++ lit " is not a duration")
  else do
    let total ← durLoop s 0 s
    .ok (Int64.ofInt total)

/-! ### What is thrown -/

/-- A result or an error value. -/
def Returns {α : Type} (r : Except Fail α) : Prop := (∃ a, r = .ok a) ∨ ∃ msg, r = .error (.err msg)

/-- In front of its first ill-formed term, a text has a number of `2 ^ 63` or more, or its terms sum up to that. -/
inductive Overflows : Int → Bytes → Prop
  | number {total : Int} {bs : Bytes} (big : 2 ^ 63 ≤ number bs) : Overflows total bs
  | sum {total : Int} {bs : Bytes} (formed : digits bs ≠ [] ∧ scaleOf (unit bs) ≠ 0)
      (big : 2 ^ 63 ≤ total + number bs * scaleOf (unit bs)) : Overflows total bs
  | later {total : Int} {bs : Bytes} (formed : digits bs ≠ [] ∧ scaleOf (unit bs) ≠ 0)
      (h : Overflows (total + number bs * scaleOf (unit bs)) (after bs)) : Overflows total bs

theorem scaleOf_nonneg (u : Bytes) : 0 ≤ scaleOf u := by
  unfold scaleOf
  split_ifs <;> decide

theorem int_ok_iff {n : Int} (pos : 0 ≤ n) : int n = .ok n ↔ n < 2 ^ 63 := by
  unfold int
  split_ifs with fits
  · exact iff_of_true rfl fits.2
  · exact iff_of_false nofun fun small => fits ⟨by omega, small⟩

theorem int_eq {n : Int} (pos : 0 ≤ n) :
    int n = if n < 2 ^ 63 then .ok n else .error (.throws "OverflowError") := by
  unfold int FitsInt64
  exact if_congr (and_iff_right (by omega)) rfl rfl

theorem durLoop_cons {s bs : Bytes} (ne : bs ≠ []) (total : Int) :
    durLoop s total bs = (term s bs >>= fun r => int (total + r.1) >>= fun total => durLoop s total r.2) := by
  rw [durLoop, if_neg ne]
  split <;> rename_i ht <;> rw [ht] <;> rfl

/-- The sum of the terms, an error value or the exception. -/
theorem durLoop_cases (s : Bytes) {total : Int} (range : 0 ≤ total ∧ total < 2 ^ 63) (bs : Bytes) :
    (∃ e, durLoop s total bs = .error (.throws e)) ∧ Overflows total bs ∨
      ((∃ n, durLoop s total bs = .ok n) ∨ ∃ msg, durLoop s total bs = .error (.err msg)) ∧ ¬ Overflows total bs := by
  induction h : bs.length using Nat.strong_induction_on generalizing bs total with
  | _ len ih =>
    subst h
    by_cases empty : bs = []
    · subst empty
      refine .inr ⟨.inl ⟨total, by rw [durLoop, if_pos rfl]⟩, fun large => ?_⟩
      rcases large with big | ⟨formed, -⟩ | ⟨formed, -⟩
      · exact absurd big (by decide)
      all_goals exact formed.1 rfl
    rw [durLoop_cons empty]
    -- nothing of an ill-formed term can leave the range
    have refused {msg : Bytes} (small : ¬ 2 ^ 63 ≤ number bs) (ill : digits bs = [] ∨ scaleOf (unit bs) = 0)
        (ht : term s bs = err msg) :
        (∃ msg, (term s bs >>= fun r => int (total + r.1) >>= fun total => durLoop s total r.2) =
          .error (.err msg)) ∧ ¬ Overflows total bs := by
      refine ⟨⟨msg, by rw [ht]; rfl⟩, ?_⟩
      rintro (big | ⟨formed, -⟩ | ⟨formed, -⟩)
      · exact small big
      all_goals exact ill.elim formed.1 formed.2
    have eq := term_eq s bs
    split_ifs at eq with big none_ unknown bare
    · exact .inl ⟨⟨"OverflowError", by rw [eq]; rfl⟩, .number big⟩
    · exact .inr ((refused big (.inl none_) eq).imp .inr id)
    · exact .inr ((refused big (.inr unknown) eq).imp .inr id)
    · exact .inr ((refused big (.inr unknown) eq).imp .inr id)
    · have formed : digits bs ≠ [] ∧ scaleOf (unit bs) ≠ 0 := ⟨none_, unknown⟩
      have pos : 0 ≤ (number bs : Int) * scaleOf (unit bs) := mul_nonneg (by omega) (scaleOf_nonneg _)
      rw [eq, int_eq pos]
      by_cases fits : (number bs : Int) * scaleOf (unit bs) < 2 ^ 63
      · rw [if_pos fits, Except.map, ok_bind, int_eq (by omega)]
        by_cases more : total + number bs * scaleOf (unit bs) < 2 ^ 63
        · rw [if_pos more, ok_bind]
          rcases ih _ (after_shorter none_) ⟨by omega, more⟩ (after bs) rfl with ⟨thrown, large⟩ | ⟨done, fine⟩
          · exact .inl ⟨thrown, .later formed large⟩
          · refine .inr ⟨done, ?_⟩
            rintro (big' | ⟨-, big'⟩ | ⟨-, large⟩)
            · exact big big'
            · omega
            · exact fine large
        · rw [if_neg more]
          exact .inl ⟨⟨"OverflowError", rfl⟩, .sum formed (by omega)⟩
      · rw [if_neg fits]
        exact .inl ⟨⟨"OverflowError", rfl⟩, .sum formed (by omega)⟩

theorem parseDur_cases (s : Bytes) :
    (∃ e, parseDur s = .error (.throws e)) ∧ Overflows 0 s ∨ Returns (parseDur s) ∧ ¬ Overflows 0 s := by
  unfold parseDur
  by_cases zero : s = lit "0"
  · subst zero
    refine .inr ⟨.inl ⟨0, if_pos rfl⟩, ?_⟩
    rintro (big | ⟨formed, -⟩ | ⟨formed, -⟩)
    · exact absurd big (by decide)
    all_goals exact formed.2 rfl
  rw [if_neg zero]
  by_cases empty : s = []
  · subst empty
    refine .inr ⟨.inr ⟨_, if_pos rfl⟩, ?_⟩
    rintro (big | ⟨formed, -⟩ | ⟨formed, -⟩)
    · exact absurd big (by decide)
    all_goals exact formed.1 rfl
  rw [if_neg empty]
  rcases durLoop_cases s ⟨Int.le_refl 0, by decide⟩ s with ⟨⟨e, thrown⟩, large⟩ | ⟨⟨n, done⟩ | ⟨msg, done⟩, fine⟩
  · exact .inl ⟨⟨e, by rw [thrown]; rfl⟩, large⟩
  · exact .inr ⟨.inl ⟨_, by rw [done]; rfl⟩, fine⟩
  · exact .inr ⟨.inr ⟨msg, by rw [done]; rfl⟩, fine⟩

theorem parseDur_returns_iff (s : Bytes) : Returns (parseDur s) ↔ ¬ Overflows 0 s := by
  rcases parseDur_cases s with ⟨⟨e, thrown⟩, large⟩ | ⟨returns, fine⟩
  · rw [thrown]
    exact iff_of_false (by rintro (⟨_, h⟩ | ⟨_, h⟩) <;> cases h) (not_not_intro large)
  · exact iff_of_true returns fine

/-! ### What a duration prints as -/

theorem term_text (plain : ∀ b ∈ u, isDigit b = false) :
    digits (printNat k ++ u) = printNat k ∧ unit (printNat k ++ u) = u ∧ after (printNat k ++ u) = [] := by
  have all : ∀ b ∈ printNat k, isDigit b = true := all_eq_true.mp (Voila.Rt.printNat_digits k).1
  have none_ : u.takeWhile isDigit = [] ∧ u.dropWhile isDigit = u := by
    cases u with
    | nil => exact ⟨rfl, rfl⟩
    | cons b u =>
      have here := plain b mem_cons_self
      rw [takeWhile_cons, dropWhile_cons, here]
      exact ⟨rfl, rfl⟩
  have rest : ∀ b ∈ u, (!isDigit b) = true := fun b member => by rw [plain b member]; rfl
  unfold digits unit after
  rw [takeWhile_append_of_pos all, dropWhile_append_of_pos all, none_.1, none_.2, List.append_nil]
  exact ⟨rfl, takeWhile_eq_self_iff.mpr rest, dropWhile_eq_nil_iff.mpr rest⟩

theorem parseDur_scaled (known : scaleOf u ≠ 0) (plain : ∀ b ∈ u, isDigit b = false)
    (scaled : (k : Int) * scaleOf u = d.toInt) : parseDur (printNat k ++ u) = .ok d := by
  obtain ⟨-, full, value⟩ := Voila.Rt.printNat_digits k
  obtain ⟨hd, hu, ha⟩ := term_text (k := k) plain
  have hn : number (printNat k ++ u) = k := by rw [number, hd, value]
  have high := d.toInt_lt
  have scale := scaleOf_nonneg u
  have small : k < 2 ^ 63 := by
    have grows : (k : Int) ≤ k * scaleOf u := le_mul_of_one_le_right (by omega) (by omega)
    omega
  have zero : printNat k ++ u ≠ lit "0" := by
    intro same
    cases u with
    | nil => exact known rfl
    | cons b u =>
      have member : b ∈ lit "0" := same ▸ mem_append_right _ mem_cons_self
      obtain rfl := mem_singleton.mp member
      exact absurd (plain 48 mem_cons_self) (by decide)
  have some_ : printNat k ++ u ≠ [] := append_ne_nil_of_left_ne_nil full u
  have low : 0 ≤ (k : Int) * scaleOf u := mul_nonneg (by omega) scale
  have total : int (k * scaleOf u) = .ok (k * scaleOf u) := (int_ok_iff low).mpr (scaled ▸ high)
  rw [parseDur, if_neg zero, if_neg some_, durLoop_cons some_, term_eq, hn, hd, hu, ha, if_neg (Nat.not_le.mpr small),
    if_neg full, if_neg known, total, Except.map, ok_bind, zero_add, total, ok_bind, durLoop, if_pos rfl, ok_bind, scaled,
    Int64.ofInt_toInt]

/-- A text that begins with no digit is refused. -/
theorem parseDur_sign (s : Bytes) : ∃ msg, parseDur (ch '-' :: s) = .error (.err msg) := by
  have head : isDigit (ch '-') = false := by decide
  have none_ : digits (ch '-' :: s) = [] := by rw [digits, takeWhile_cons, head]; rfl
  have value : number (ch '-' :: s) = 0 := by rw [number, none_]; rfl
  have zero : ch '-' :: s ≠ lit "0" := fun same => absurd (List.cons.inj same).1 (by decide)
  refine ⟨quoted (ch '-' :: s) ++ lit " is not a duration", ?_⟩
  rw [parseDur, if_neg zero, if_neg (cons_ne_nil _ _), durLoop_cons (cons_ne_nil _ _), term_eq, value,
    if_neg (by decide), if_pos none_]
  rfl

/-- A quotient without remainder, and its unit. -/
theorem parseDur_text (known : scaleOf u ≠ 0) (plain : ∀ b ∈ u, isDigit b = false) {q : Int}
    (scaled : q * scaleOf u = d.toInt) : parseDur (intText q ++ u) = .ok d ↔ 0 ≤ d.toInt := by
  have scale := scaleOf_nonneg u
  have pos : 0 < scaleOf u := by omega
  unfold intText
  by_cases neg : q < 0
  · have below : d.toInt < 0 := scaled ▸ mul_neg_of_neg_of_pos neg pos
    obtain ⟨msg, refused⟩ := parseDur_sign (printNat q.natAbs ++ u)
    refine iff_of_false ?_ (by omega)
    rw [if_pos neg, append_assoc, singleton_append, refused]
    exact nofun
  · have abs : ((q.natAbs : Nat) : Int) = q := Int.natAbs_of_nonneg (by omega)
    rw [if_neg neg, nil_append]
    refine iff_of_true (parseDur_scaled known plain (by rw [abs, scaled])) ?_
    rw [← scaled]
    exact mul_nonneg (by omega) scale

theorem parseDur_durText (d : Int64) : parseDur (durText d) = .ok d ↔ 0 ≤ d.toInt := by
  have exact_ {c : Int} (zero : d.toInt.tmod c = 0) : d.toInt.tdiv c * c = d.toInt := by
    have split := Int.mul_tdiv_add_tmod d.toInt c
    rw [zero, add_zero, mul_comm] at split
    exact split
  unfold durText
  dsimp only
  split_ifs with s ms us
  · exact parseDur_text (by decide) (by decide +kernel) (exact_ s)
  · exact parseDur_text (by decide) (by decide +kernel) (exact_ ms)
  · exact parseDur_text (by decide) (by decide +kernel) (exact_ us)
  · exact parseDur_text (by decide) (by decide +kernel) (mul_one _)

end Voila.CommandLine
