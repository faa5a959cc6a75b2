import Mathlib

/-!
# Voila.Lib.Fixpoint

Sweeping until nothing changes. A sweep returns the new state and whether it changed
anything; `untilSame` repeats it, giving up when the fuel runs out.

Two facts are all a client needs: what every sweep keeps holds of the result, which one
more sweep leaves as it is (`untilSame_spec`), and a rank that a changing sweep raises
bounds the fuel (`untilSame_some`).
-/

namespace Voila.Lib

variable {α : Type*}

/-- Repeat `sweep` until it reports no change. -/
def untilSame (sweep : α → α × Bool) : Nat → α → Option α
  | 0, _ => none
  | n + 1, a =>
    match sweep a with
    | (a', true) => untilSame sweep n a'
    | (a', false) => some a'

variable {sweep : α → α × Bool} {keep : α → Prop}

variable {n : Nat}

/-- The result comes out of a last sweep that changed nothing. -/
theorem untilSame_spec (hkeep : ∀ a, keep a → keep (sweep a).1) {a r : α} (ha : keep a)
    (h : untilSame sweep n a = some r) : keep r ∧ ∃ b, keep b ∧ sweep b = (r, false) := by
  induction n generalizing a with
  | zero => exact absurd h (by simp [untilSame])
  | succ n ih =>
    have hnext := hkeep a ha
    unfold untilSame at h
    split at h
    · rename_i a' hs
      exact ih (by simpa [hs] using hnext) h
    · rename_i a' hs
      cases h
      exact ⟨by simpa [hs] using hnext, a, ha, hs⟩

/-- A bounded rank that every changing sweep raises: enough fuel gives a result. -/
theorem untilSame_some (hkeep : ∀ a, keep a → keep (sweep a).1) {rank : α → Nat} {bound : Nat}
    (hrank : ∀ a, keep a → (sweep a).2 = true → rank a < rank (sweep a).1)
    (hbound : ∀ a, keep a → rank a ≤ bound) {a : α} (ha : keep a)
    (hn : bound < n + rank a) : ∃ r, untilSame sweep n a = some r := by
  induction n generalizing a with
  | zero => exact absurd (hbound a ha) (by omega)
  | succ n ih =>
    have hnext := hkeep a ha
    unfold untilSame
    split
    · rename_i a' hs
      have hup := hrank a ha (by rw [hs])
      rw [hs] at hnext hup
      exact ih hnext (by dsimp only at hup; omega)
    · rename_i a' hs
      exact ⟨a', rfl⟩

end Voila.Lib
