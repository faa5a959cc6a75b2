import Mathlib

/-!
# Voila.Lib.HeapOrder

The order of a binary heap, whose nodes are numbered from the root in rows.

`FromOrdered n s f` orders the values of every node from `s` on with those of its children. Sifting
moves one node that is out of order: `UpHole` and `DownHole` say what is in order around it, a swap
with the parent or the smaller child moves the hole (`UpHole.move`, `DownHole.move`), and the order
is whole again where the hole's own neighbours are in order (`UpHole.close`, `DownHole.close`).
-/

namespace Voila.Lib

/-! ### Nodes -/

/-- The parent of a node other than the root. -/
def parent (i : ℕ) : ℕ := (i - 1) / 2

theorem parent_lt {i : ℕ} (h : 0 < i) : parent i < i := by
  unfold parent
  omega

theorem parent_eq_iff {i j : ℕ} (h : 0 < j) : parent j = i ↔ j = 2 * i + 1 ∨ j = 2 * i + 2 := by
  unfold parent
  omega

/-- The values with those of two nodes exchanged. -/
def exchange {α : Type*} (f : ℕ → α) (i j : ℕ) : ℕ → α := fun k =>
  if k = i then f j else if k = j then f i else f k

section

variable {α : Type*} {f : ℕ → α} {i j k : ℕ}

@[simp] theorem exchange_left : exchange f i j i = f j := if_pos rfl

@[simp] theorem exchange_right : exchange f i j j = f i := by
  by_cases h : j = i
  · rw [h, exchange_left]
  · rw [exchange, if_neg h, if_pos rfl]

theorem exchange_ne (hi : k ≠ i) (hj : k ≠ j) : exchange f i j k = f k := by
  rw [exchange, if_neg hi, if_neg hj]

end

/-! ### Order -/

section

variable {α : Type*} (le : α → α → Prop) (n : ℕ)

/-- From the node `s` on, every node is in order with its children. -/
def FromOrdered (s : ℕ) (f : ℕ → α) : Prop :=
  ∀ j, 0 < j → j < n → s ≤ parent j → le (f (parent j)) (f j)

/-- A heap: every node is in order with its children. -/
abbrev HeapOrdered (f : ℕ → α) : Prop := FromOrdered le n 0 f

/-- All nodes are in order with their parents but `i`, whose parent is in order with its children. -/
structure UpHole (i : ℕ) (f : ℕ → α) : Prop where
  others : ∀ j, 0 < j → j < n → j ≠ i → le (f (parent j)) (f j)
  across : 0 < i → ∀ j, 0 < j → j < n → parent j = i → le (f (parent i)) (f j)

/-- From the node `s` on all nodes are in order with their children but `i`, whose parent is. -/
structure DownHole (s i : ℕ) (f : ℕ → α) : Prop where
  others : ∀ j, 0 < j → j < n → s ≤ parent j → parent j ≠ i → le (f (parent j)) (f j)
  across : 0 < i → s ≤ parent i → ∀ j, 0 < j → j < n → parent j = i → le (f (parent i)) (f j)

end

section

variable {α : Type*} {le : α → α → Prop} {n s i m : ℕ} {f : ℕ → α}

/-- The root of a heap comes before all. -/
theorem HeapOrdered.root [IsPreorder α le] (h : HeapOrdered le n f) (hi : i < n) : le (f 0) (f i) := by
  induction i using Nat.strong_induction_on with
  | _ i ih =>
    rcases Nat.eq_zero_or_pos i with rfl | pos
    · exact refl_of le _
    · have up := parent_lt pos
      exact trans_of le (ih (parent i) up (by omega)) (h i pos hi (Nat.zero_le _))

/-- Nodes without children are in order. -/
theorem fromOrdered_leaves (h : n ≤ 2 * s + 1) (f : ℕ → α) : FromOrdered le n s f := by
  intro j pos below above
  unfold parent at above
  omega

theorem FromOrdered.shrink {m : ℕ} (h : FromOrdered le n s f) (hm : m ≤ n) : FromOrdered le m s f :=
  fun j pos below above => h j pos (by omega) above

theorem FromOrdered.mono {t : ℕ} (h : FromOrdered le n s f) (ht : s ≤ t) : FromOrdered le n t f :=
  fun j pos below above => h j pos below (Nat.le_trans ht above)

variable {g : ℕ → α}

theorem FromOrdered.congr (h : FromOrdered le n s f) (same : ∀ j < n, g j = f j) :
    FromOrdered le n s g := by
  intro j pos below above
  have up := parent_lt pos
  rw [same j below, same (parent j) (by omega)]
  exact h j pos below above

/-! ### Upwards -/

/-- A heap with a new leaf has a hole there. -/
theorem HeapOrdered.push (h : HeapOrdered le n f) : UpHole le (n + 1) n f where
  others j pos below other := h j pos (by omega) (Nat.zero_le _)
  across _ j pos below child := by
    have up := parent_lt pos
    omega

theorem UpHole.close (h : UpHole le n i f) (last : 0 < i → le (f (parent i)) (f i)) :
    HeapOrdered le n f := by
  intro j pos below _
  by_cases hole : j = i
  · subst hole
    exact last pos
  · exact h.others j pos below hole

/-- An element before its parent takes its place. -/
theorem UpHole.move [IsPreorder α le] (h : UpHole le n i f) (pos : 0 < i) (below : i < n)
    (before : le (f i) (f (parent i))) : UpHole le n (parent i) (exchange f i (parent i)) := by
  have up := parent_lt pos
  constructor
  · intro j hj hjn other
    have upj := parent_lt hj
    by_cases hole : j = i
    · subst hole
      rwa [exchange_left, exchange_right]
    · have order := h.others j hj hjn hole
      rw [exchange_ne hole other]
      by_cases child : parent j = i
      · rw [child, exchange_left]
        exact h.across pos j hj hjn child
      by_cases sibling : parent j = parent i
      · rw [sibling] at order ⊢
        rw [exchange_right]
        exact trans_of le before order
      · rwa [exchange_ne child sibling]
  · intro posp j hj hjn child
    have upp := parent_lt posp
    have above := h.others (parent i) posp (by omega) (by omega)
    rw [exchange_ne (k := parent (parent i)) (by omega) (by omega)]
    by_cases hole : j = i
    · rwa [hole, exchange_left]
    · have order := h.others j hj hjn hole
      have upj := parent_lt hj
      rw [child] at order
      rw [exchange_ne hole (by omega)]
      exact trans_of le above order

/-! ### Downwards -/

/-- Putting another element at the first node in order leaves a hole there. -/
theorem FromOrdered.hole (h : FromOrdered le n (s + 1) f)
    (same : ∀ j, s < j → j < n → g j = f j) : DownHole le n s s g where
  others j pos below above other := by
    have up := parent_lt pos
    rw [same j (by omega) below, same (parent j) (by omega) (by omega)]
    exact h j pos below (by omega)
  across pos above := by
    have up := parent_lt pos
    omega

theorem DownHole.close (h : DownHole le n s i f)
    (last : ∀ j, 0 < j → j < n → parent j = i → le (f i) (f j)) : FromOrdered le n s f := by
  intro j pos below above
  by_cases hole : parent j = i
  · rw [hole]
    exact last j pos below hole
  · exact h.others j pos below above hole

/-- A child that comes first of the three takes the place of its parent. -/
theorem DownHole.move (h : DownHole le n s i f) (above : s ≤ i) (pos : 0 < m) (below : m < n)
    (child : parent m = i) (before : le (f m) (f i))
    (first : ∀ j, 0 < j → j < n → parent j = i → le (f m) (f j)) :
    DownHole le n s m (exchange f i m) := by
  have up := parent_lt pos
  constructor
  · intro j hj hjn habove other
    have upj := parent_lt hj
    by_cases hm : j = m
    · rwa [hm, exchange_right, child, exchange_left]
    by_cases hi : j = i
    · subst hi
      rw [exchange_left, exchange_ne (by omega) other]
      exact h.across hj habove m pos below child
    rw [exchange_ne hi hm]
    by_cases sibling : parent j = i
    · rw [sibling, exchange_left]
      exact first j hj hjn sibling
    · rw [exchange_ne sibling other]
      exact h.others j hj hjn habove sibling
  · intro _ _ j hj hjn hchild
    have upj := parent_lt hj
    rw [child, exchange_left, exchange_ne (by omega) (by omega), ← hchild]
    exact h.others j hj hjn (by omega) (by omega)

end

end Voila.Lib
