import Mathlib

/-!
# Voila.Lib.RingBuf

A queue kept in a ring: `count` elements of a vector, the first at `head`, the others after it
and round the end.
-/

namespace Voila.Lib

variable {α : Type*} {cap : Nat}

/-- The element `i` after `head`. -/
def ringAt (pos : 0 < cap) (buf : Vector α cap) (i : Nat) : α := getElem buf (i % cap) (Nat.mod_lt i pos)

/-- The elements of the ring, first in first. -/
def ringItems (pos : 0 < cap) (buf : Vector α cap) (head count : Nat) : List α :=
  (List.range count).map fun i => ringAt pos buf (head + i)

variable (pos : 0 < cap) (buf : Vector α cap) (head count : Nat)

@[simp] theorem length_ringItems : (ringItems pos buf head count).length = count := by
  simp [ringItems]

@[simp] theorem ringItems_zero : ringItems pos buf head 0 = [] := rfl

theorem ringAt_mod (i j : Nat) : ringAt pos buf (i % cap + j) = ringAt pos buf (i + j) := by
  simp [ringAt]

/-- Two places of the ring that are less than its size apart are two places. -/
theorem ring_place_ne {i count : Nat} (hi : i < count) (hc : count < cap) :
    (head + i) % cap ≠ (head + count) % cap := by
  intro h
  have hd := Nat.sub_mod_eq_zero_of_mod_eq h.symm
  rw [show head + count - (head + i) = count - i by omega, Nat.mod_eq_of_lt (by omega)] at hd
  omega

/-- What is put after the last is the new last. -/
theorem ringItems_set (h : count < cap) (v : α) :
    ringItems pos (buf.set ((head + count) % cap) v (Nat.mod_lt _ pos)) head (count + 1) =
      ringItems pos buf head count ++ [v] := by
  rw [ringItems, List.range_succ, List.map_append]
  congr 1
  · refine List.map_congr_left fun i hi => ?_
    simp [ringAt, (ring_place_ne head (List.mem_range.mp hi) h).symm]
  · simp [ringAt]

/-- The first is at `head`, the rest start after it. -/
theorem ringItems_succ : ringItems pos buf head (count + 1) =
    ringAt pos buf head :: ringItems pos buf ((head + 1) % cap) count := by
  rw [ringItems, List.range_succ_eq_map, List.map_cons, List.map_map]
  congr 1
  refine List.map_congr_left fun i _ => ?_
  show ringAt pos buf (head + (i + 1)) = ringAt pos buf ((head + 1) % cap + i)
  rw [ringAt_mod, Nat.add_right_comm, Nat.add_assoc]

end Voila.Lib
