import Mathlib

/-!
# Voila.Lib.Tally

What the members of a list contribute to a number, when one of them changes.
-/

open List

namespace Voila.Lib

variable {α : Type*} {g : α → Nat} {l : List α} {i j : Nat} {a b : α}

/-- What the members contribute, together. -/
def tally (g : α → Nat) (l : List α) : Nat := (l.map g).sum

@[simp] theorem tally_cons : tally g (a :: l) = g a + tally g l := sum_cons

/-- Without the member at a place. -/
def tallyOthers (g : α → Nat) (l : List α) (i : Nat) : Nat := tally g (l.eraseIdx i)

theorem tally_eq (h : l[i]? = some a) : tally g l = tallyOthers g l i + g a := by
  induction l generalizing i with
  | nil => cases h
  | cons x l ih =>
    cases i with
    | zero =>
      obtain rfl : x = a := by simpa using h
      exact Nat.add_comm ..
    | succ i =>
      have hrest := ih (i := i) (by simpa using h)
      show g x + tally g l = g x + tally g (l.eraseIdx i) + g a
      rw [hrest, tallyOthers]
      omega

theorem tallyOthers_set : tallyOthers g (l.set i b) i = tallyOthers g l i := by
  rw [tallyOthers, eraseIdx_set_eq]
  rfl

/-- One member has changed. -/
theorem tally_set (h : l[i]? = some a) (b : α) : tally g (l.set i b) = tallyOthers g l i + g b := by
  obtain ⟨hi, -⟩ := List.getElem?_eq_some_iff.mp h
  rw [tally_eq (List.getElem?_set_self hi), tallyOthers_set]

theorem le_tally (h : a ∈ l) : g a ≤ tally g l := by
  obtain ⟨i, hi⟩ := mem_iff_getElem?.mp h
  rw [tally_eq hi]
  exact Nat.le_add_left ..

theorem tally_pos : 0 < tally g l ↔ ∃ a ∈ l, 0 < g a := by
  unfold tally
  rw [List.sum_pos_iff_exists_pos_nat]
  simp

theorem tallyOthers_le {g' : α → Nat} (h : ∀ a, g a ≤ g' a) (l : List α) (i : Nat) :
    tallyOthers g l i ≤ tallyOthers g' l i := by
  unfold tallyOthers
  induction l.eraseIdx i with
  | nil => exact Nat.le_refl 0
  | cons a l ih => exact Nat.add_le_add (h a) ih

theorem le_tallyOthers (hij : j ≠ i) (h : l[j]? = some b) : g b ≤ tallyOthers g l i :=
  le_tally (mem_eraseIdx_iff_getElem?.mpr ⟨j, hij, h⟩)

theorem tallyOthers_pos : 0 < tallyOthers g l i ↔ ∃ j, j ≠ i ∧ ∃ b, l[j]? = some b ∧ 0 < g b := by
  rw [tallyOthers, tally_pos]
  constructor
  · intro ⟨b, hb, hpos⟩
    obtain ⟨j, hj, hget⟩ := mem_eraseIdx_iff_getElem?.mp hb
    exact ⟨j, hj, b, hget, hpos⟩
  · intro ⟨j, hj, b, hget, hpos⟩
    exact ⟨b, mem_eraseIdx_iff_getElem?.mpr ⟨j, hj, hget⟩, hpos⟩

end Voila.Lib
