import Mathlib

/-!
# Voila.Lib.Weave

Elements inserted into a list, each batch behind one of its elements.

`place` says where an element ends up; every other position holds an inserted one
(`weave_cases`). Whatever looks only at elements that are never inserted (`filter`,
`findIdx?`) sees the list as it was.
-/

open List

namespace Voila.Lib

variable {α β : Type*}

/-- The list with `ins i` behind its `i`-th element. -/
def weave : (Nat → List α) → List α → List α
  | _, [] => []
  | ins, x :: xs => x :: (ins 0 ++ weave (fun i => ins (i + 1)) xs)

/-- Where the `i`-th element stands. -/
def place : (Nat → List α) → Nat → Nat
  | _, 0 => 0
  | ins, i + 1 => 1 + (ins 0).length + place (fun i => ins (i + 1)) i

theorem place_succ (ins : Nat → List α) (i : Nat) :
    place ins (i + 1) = place ins i + 1 + (ins i).length := by
  induction i generalizing ins with
  | zero => simp [place]
  | succ i ih =>
    rw [place, ih]
    simp only [place]
    omega

theorem place_lt {ins : Nat → List α} {i j : Nat} (h : i < j) : place ins i < place ins j := by
  induction j with
  | zero => exact absurd h (Nat.not_lt_zero i)
  | succ j ih =>
    rw [place_succ]
    rcases Nat.lt_succ_iff_lt_or_eq.mp h with h | rfl
    · have := ih h
      omega
    · omega

/-- The elements stand at their places. -/
theorem weave_place (ins : Nat → List α) (xs : List α) (i : Nat) :
    (weave ins xs)[place ins i]? = xs[i]? := by
  induction xs generalizing ins i with
  | nil => simp [weave]
  | cons x xs ih =>
    cases i with
    | zero => rfl
    | succ i =>
      have hp : place ins (i + 1) = ((ins 0).length + place (fun i => ins (i + 1)) i) + 1 := by
        simp only [place]
        omega
      rw [weave, hp, List.getElem?_cons_succ, List.getElem?_append_right (Nat.le_add_right _ _),
        Nat.add_sub_cancel_left, ih, List.getElem?_cons_succ]

variable {xs : List α}

/-- The inserted elements stand behind them. -/
theorem weave_inserted (ins : Nat → List α) {i j : Nat} (hi : i < xs.length)
    (hj : j < (ins i).length) : (weave ins xs)[place ins i + 1 + j]? = (ins i)[j]? := by
  induction xs generalizing ins i with
  | nil => exact absurd hi (Nat.not_lt_zero i)
  | cons x xs ih =>
    cases i with
    | zero =>
      have hp : place ins 0 + 1 + j = j + 1 := by
        simp only [place]
        omega
      rw [weave, hp, List.getElem?_cons_succ, List.getElem?_append_left hj]
    | succ i =>
      have hp : place ins (i + 1) + 1 + j =
          ((ins 0).length + (place (fun i => ins (i + 1)) i + 1 + j)) + 1 := by
        simp only [place]
        omega
      rw [weave, hp, List.getElem?_cons_succ, List.getElem?_append_right (Nat.le_add_right _ _),
        Nat.add_sub_cancel_left]
      exact ih _ (Nat.lt_of_succ_lt_succ hi) hj

/-- Every position is an element's place or an inserted one. -/
theorem weave_cases {ins : Nat → List α} {p : Nat} (hp : p < (weave ins xs).length) :
    ∃ i < xs.length, p = place ins i ∨ ∃ j < (ins i).length, p = place ins i + 1 + j := by
  induction xs generalizing ins p with
  | nil => exact absurd hp (Nat.not_lt_zero p)
  | cons x xs ih =>
    cases p with
    | zero => exact ⟨0, by simp, Or.inl rfl⟩
    | succ p =>
      by_cases hlt : p < (ins 0).length
      · refine ⟨0, by simp, Or.inr ⟨p, hlt, ?_⟩⟩
        simp only [place]
        omega
      · have hrest : p - (ins 0).length < (weave (fun i => ins (i + 1)) xs).length := by
          simp only [weave, length_cons, length_append] at hp
          omega
        obtain ⟨i, hi, h⟩ := ih hrest
        refine ⟨i + 1, by simpa using hi, ?_⟩
        rcases h with h | ⟨j, hj, h⟩
        · left
          simp only [place]
          omega
        · refine Or.inr ⟨j, hj, ?_⟩
          simp only [place]
          omega

theorem weave_concat (ins : Nat → List α) (xs : List α) (x : α) :
    weave ins (xs ++ [x]) = weave ins xs ++ x :: ins xs.length := by
  induction xs generalizing ins with
  | nil => simp [weave]
  | cons y xs ih => simp [weave, ih]

theorem weave_map (g : α → β) (ins : Nat → List α) (xs : List α) :
    (weave ins xs).map g = weave (fun i => (ins i).map g) (xs.map g) := by
  induction xs generalizing ins with
  | nil => rfl
  | cons x xs ih => simp [weave, ih]

theorem place_map (g : α → β) (ins : Nat → List α) (i : Nat) :
    place (fun i => (ins i).map g) i = place ins i := by
  induction i with
  | zero => rfl
  | succ i ih => simp [place_succ, ih]

theorem weave_take (ins : Nat → List α) (xs : List α) (i : Nat) :
    (weave ins xs).take (place ins i) = weave ins (xs.take i) := by
  induction xs generalizing ins i with
  | nil => simp [weave]
  | cons x xs ih =>
    cases i with
    | zero => rfl
    | succ i =>
      have hp : place ins (i + 1) = ((ins 0).length + place (fun i => ins (i + 1)) i) + 1 := by
        simp only [place]
        omega
      rw [hp, weave, take_succ_cons, take_append,
        take_of_length_le (Nat.le_add_right _ _), Nat.add_sub_cancel_left, ih,
        take_succ_cons, weave]

section

variable {q : α → Bool} {ins : Nat → List α} (hins : ∀ i, ∀ x ∈ ins i, q x = false)

include hins

theorem weave_filter (xs : List α) : (weave ins xs).filter q = xs.filter q := by
  induction xs generalizing ins with
  | nil => rfl
  | cons x xs ih =>
    have hnone : (ins 0).filter q = [] := by
      rw [filter_eq_nil_iff]
      intro y hy
      simp [hins 0 y hy]
    have hrest := ih fun i => hins (i + 1)
    simp only [weave, filter_cons, filter_append, hnone, hrest, nil_append]

theorem weave_findIdx? (xs : List α) :
    (weave ins xs).findIdx? q = (xs.findIdx? q).map (place ins) := by
  induction xs generalizing ins with
  | nil => rfl
  | cons x xs ih =>
    have hrest := ih fun i => hins (i + 1)
    have hnone : (ins 0).findIdx? q = none := by
      rw [findIdx?_eq_none_iff]
      exact hins 0
    by_cases hx : q x = true
    · simp [weave, findIdx?_cons, hx, place]
    · simp only [weave, findIdx?_cons, hx, findIdx?_append, hnone, hrest,
        Option.map_map, Bool.false_eq_true, if_false, Option.none_or]
      congr 1
      funext i
      simp only [Function.comp, place]
      omega

end

end Voila.Lib
