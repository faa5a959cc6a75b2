import Mathlib

/-!
# Voila.Lib.Chunks

A list in blocks of one size, and a fold over the blocks of a list that comes in pieces. What a consumer of such
pieces has to keep is the state behind the full blocks and the rest that fills none (`Consumed`).
-/

open List

namespace Voila.Lib

variable {α H : Type*}

/-- The full blocks at the front of a list. -/
def chunks (n : Nat) (l : List α) : List (List α) :=
  if n = 0 ∨ l.length < n then [] else l.take n :: chunks n (l.drop n)
termination_by l.length
decreasing_by
  rw [length_drop]
  omega

variable {l : List α}

theorem chunks_short {n : Nat} (h : l.length < n) : chunks n l = [] := by
  rw [chunks, if_pos (Or.inr h)]

theorem chunks_cons {n : Nat} (pos : 0 < n) (h : n ≤ l.length) :
    chunks n l = l.take n :: chunks n (l.drop n) := by
  rw [chunks, if_neg (by omega)]

/-- A list of full blocks in front. -/
theorem chunks_append {n : Nat} (pos : 0 < n) (full : n ∣ l.length) (m : List α) :
    chunks n (l ++ m) = chunks n l ++ chunks n m := by
  obtain ⟨k, hk⟩ := full
  induction k generalizing l with
  | zero =>
    have none : l = [] := eq_nil_of_length_eq_zero hk
    rw [none, chunks_short (l := ([] : List α)) pos, nil_append, nil_append]
  | succ k ih =>
    have fits : n ≤ l.length := by
      rw [hk, Nat.mul_succ]
      omega
    have rest : (l.drop n).length = n * k := by
      rw [length_drop, hk, Nat.mul_succ]
      omega
    rw [chunks_cons pos fits, chunks_cons pos (by rw [length_append]; omega),
      take_append_of_le_length fits, drop_append_of_le_length fits, ih rest, cons_append]

/-- A message is behind a state and a rest: its full blocks have gone into the state. -/
structure Consumed (f : H → List α → H) (n : Nat) (start : H) (message : List α) (state : H) (rest : List α) :
    Prop where
  short : rest.length < n
  blocks : ∃ full, message = full ++ rest ∧ n ∣ full.length ∧ state = (chunks n full).foldl f start

variable {f : H → List α → H} {n : Nat} {start state : H} {message rest : List α}

theorem Consumed.nil (pos : 0 < n) : Consumed f n start [] start [] :=
  ⟨pos, [], rfl, Nat.dvd_zero n, by rw [chunks_short (l := ([] : List α)) pos]; rfl⟩

/-- A message that fills no block more. -/
theorem Consumed.more (h : Consumed f n start message state rest) {p : List α} (short : (rest ++ p).length < n) :
    Consumed f n start (message ++ p) state (rest ++ p) := by
  obtain ⟨full, cut, whole, same⟩ := h.blocks
  exact ⟨short, full, by rw [cut, append_assoc], whole, same⟩

/-- A message that fills a block. -/
theorem Consumed.block (h : Consumed f n start message state rest) {p : List α} (filled : (rest ++ p).length = n) :
    Consumed f n start (message ++ p) (f state (rest ++ p)) [] := by
  have pos : 0 < n := Nat.lt_of_le_of_lt (Nat.zero_le _) h.short
  obtain ⟨full, cut, whole, rfl⟩ := h.blocks
  refine ⟨pos, full ++ (rest ++ p), by rw [cut]; simp, ?_, ?_⟩
  · rw [length_append, filled]
    exact (Nat.dvd_add_right whole).mpr (Nat.dvd_refl n)
  · have last : (rest ++ p).drop n = [] := drop_eq_nil_of_le (Nat.le_of_eq filled)
    rw [chunks_append pos whole, foldl_append, chunks_cons pos (Nat.le_of_eq filled.symm), last,
      chunks_short (l := ([] : List α)) pos, take_of_length_le (Nat.le_of_eq filled)]
    rfl

/-- Behind a message of full blocks all of it has gone into the state. -/
theorem Consumed.whole (h : Consumed f n start message state rest) (full : n ∣ message.length) :
    state = (chunks n message).foldl f start := by
  obtain ⟨front, cut, whole, same⟩ := h.blocks
  have short := h.short
  have divides : n ∣ rest.length := by
    rw [cut, length_append] at full
    exact (Nat.dvd_add_right whole).mp full
  have none : rest = [] := eq_nil_of_length_eq_zero (Nat.eq_zero_of_dvd_of_lt divides short)
  rw [same, cut, none, List.append_nil]

end Voila.Lib
