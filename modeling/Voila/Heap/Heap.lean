import Voila.Lib.HeapOrder

/-!
# Voila.Heap.Heap

The package `std/heap`: a binary heap in an array, ordered by a function `less`.

An operation that changes an element sifts it to its place (`up`, `down`), so that the order of the
heap holds again; with a strict weak order the first element is then one that no other is less than.
Every run of operations does what a bag does that gives out its least elements (`heap_run`).
-/

open List

namespace Voila

open Lib

/-- `Heap`. -/
structure Heap (α : Type*) where
  items : Array α
  less : α → α → Bool

namespace Heap

variable {α : Type*}

/-! ### The package -/

section

variable (less : α → α → Bool)

/-- `up`: the element of a node changes place with its parent while it is less. -/
def up (items : Array α) (i : Nat) (hi : i < items.size) : Array α :=
  if h : i > 0 then
    if !less items[i] items[(i - 1) / 2] then items
    else up (items.swap i ((i - 1) / 2)) ((i - 1) / 2) (by
      rw [Array.size_swap]
      omega)
  else items
termination_by i
decreasing_by omega

/-- One of the two choices of `down`: `c`, if it is a node with an element less than that of `m`. -/
def pick (items : Array α) (m : Fin items.size) (c : Nat) : Fin items.size :=
  if h : c < items.size then if less items[c] items[m] then ⟨c, h⟩ else m else m

/-- The `m` of `down`: the least of a node and its children. -/
def smallest (items : Array α) (i : Fin items.size) : Fin items.size :=
  let l := 2 * i.val + 1
  let r := l + 1
  pick less items (pick less items i l) r

theorem pick_cases (items : Array α) (m : Fin items.size) (c : Nat) :
    pick less items m c = m ∨ (pick less items m c).val = c := by
  unfold pick
  split_ifs
  · exact .inr rfl
  · exact .inl rfl
  · exact .inl rfl

theorem smallest_cases (items : Array α) (i : Fin items.size) :
    smallest less items i = i ∨ parent (smallest less items i) = i ∧ i < smallest less items i := by
  have child {j : Fin items.size} (h : j.val = 2 * i.val + 1 ∨ j.val = 2 * i.val + 2) :
      parent j = i ∧ i < j :=
    ⟨(parent_eq_iff (by omega)).mpr h, Fin.lt_def.mpr (by omega)⟩
  rcases pick_cases less items (pick less items i (2 * i.val + 1)) (2 * i.val + 1 + 1) with first | right
  · rcases pick_cases less items i (2 * i.val + 1) with own | left
    · exact .inl (first.trans own)
    · exact .inr (child (.inl ((congrArg Fin.val first).trans left)))
  · exact .inr (child (.inr right))

/-- `down`: the element of a node changes place with its smaller child while that is less. -/
def down (items : Array α) (i : Nat) (hi : i < items.size) : Array α :=
  if h : (smallest less items ⟨i, hi⟩).val = i then items
  else down (items.swap i (smallest less items ⟨i, hi⟩)) (smallest less items ⟨i, hi⟩) (by
    rw [Array.size_swap]
    exact (smallest less items ⟨i, hi⟩).isLt)
termination_by items.size - i
decreasing_by
  rw [Array.size_swap]
  rcases smallest_cases less items ⟨i, hi⟩ with stay | ⟨-, deeper⟩
  · exact absurd (congrArg Fin.val stay) h
  · have : i < (smallest less items ⟨i, hi⟩).val := deeper
    omega

theorem down_perm (items : Array α) (i : Nat) (hi : i < items.size) :
    (down less items i hi).Perm items := by
  fun_induction down less items i hi with
  | case1 items i hi h => exact .refl _
  | case2 items i hi h ih => exact ih.trans (Array.swap_perm _ _)

theorem size_down (items : Array α) (i : Nat) (hi : i < items.size) :
    (down less items i hi).size = items.size := (down_perm less items i hi).size_eq

/-- The loop of `heapify`, over the nodes before `k`, the last first. -/
def heapifyLoop (items : Array α) : (k : Nat) → k ≤ items.size → Array α
  | 0, _ => items
  | k + 1, hk => heapifyLoop (down less items k hk) k (by
      rw [size_down]
      omega)

/-- `heapify`. -/
def heapify (items : Array α) : Array α := heapifyLoop less items (items.size / 2) (by omega)

end

/-- `new` and `new_by`, of which the first takes `natural_less` as its order. -/
def newBy (less : α → α → Bool) : Heap α := { items := #[], less := less }

/-- `from`, with the `<` of the element type. -/
def fromList (naturalLess : α → α → Bool) (xs : List α) : Heap α :=
  { items := heapify naturalLess (xs.foldl Array.push #[]), less := naturalLess }

/-- `peek`. -/
def peek (h : Heap α) : Option α := h.items[0]?

/-- `push`. -/
def push (h : Heap α) (v : α) : Heap α :=
  { h with items := up h.less (h.items.push v) ((h.items.push v).size - 1) (by simp) }

/-- `pop`: the last leaf goes to the root, and down from there. -/
def pop (h : Heap α) : Option α × Heap α :=
  if h0 : h.items.size = 0 then (none, h)
  else
    let top := h.items[0]
    let last := h.items[h.items.size - 1]
    let rest := h.items.pop
    if h1 : h.items.size > 1 then
      have room : 0 < rest.size := by
        rw [Array.size_pop]
        omega
      (some top, { h with items := down h.less (rest.set 0 last room) 0 (by rwa [Array.size_set]) })
    else (some top, { h with items := rest })

theorem size_pop (h : Heap α) : h.pop.2.items.size = h.items.size - 1 := by
  rw [pop]
  by_cases h0 : h.items.size = 0
  · rw [dif_pos h0, h0]
  · rw [dif_neg h0]
    dsimp only
    split_ifs
    · rw [size_down, Array.size_set, Array.size_pop]
    · exact Array.size_pop

/-- The loop of `items_sorted`. -/
def drain (h : Heap α) : List α :=
  if h0 : 0 < h.items.size then h.items[0] :: h.pop.2.drain else []
termination_by h.items.size
decreasing_by
  rw [size_pop]
  omega

/-- `items_sorted`, of a copy. -/
def itemsSorted (h : Heap α) : List α := drain { items := h.items.foldl Array.push #[], less := h.less }

end Heap

end Voila

/-!
The heap keeps its order and its elements.

`up` and `down` are proved with the holes of `Lib.HeapOrder`, over the array seen as a function
(`view`); both only exchange elements. From there each operation does a step of a bag (`BagStep`),
and a run of operations does a run of the bag.
-/

namespace Voila

open Lib

namespace Heap

variable {α : Type*}

/-! ### The order of elements -/

/-- `b` is not less than `a`. -/
def NotAfter (less : α → α → Bool) (a b : α) : Prop := less b a = false

/-- A strict weak order is a preorder of what is not less. -/
instance (less : α → α → Bool) [IsStrictWeakOrder α (fun a b => less a b = true)] :
    IsPreorder α (NotAfter less) where
  refl a := by
    have irrefl := irrefl_of (fun a b => less a b = true) a
    simpa [NotAfter] using irrefl
  trans a b c hab hbc := by
    unfold NotAfter at *
    by_contra hca
    have less_ca : less c a = true := by simpa using hca
    -- neither pair can be strict, so that both are ties, and ties are transitive
    by_cases less_ab : less a b = true
    · have less_cb := trans_of (fun a b => less a b = true) less_ca less_ab
      rw [hbc] at less_cb
      cases less_cb
    by_cases less_bc : less b c = true
    · have less_ba := trans_of (fun a b => less a b = true) less_bc less_ca
      rw [hab] at less_ba
      cases less_ba
    have tie := @IsStrictWeakOrder.incomp_trans α (fun a b => less a b = true) _ a b c
      ⟨less_ab, by simp [hab]⟩ ⟨less_bc, by simp [hbc]⟩
    exact tie.2 less_ca

theorem notAfter_of_less {less : α → α → Bool} [IsStrictWeakOrder α (fun a b => less a b = true)] {a b : α}
    (h : less a b = true) : NotAfter less a b := by
  have asymm := asymm_of (fun a b => less a b = true) h
  simpa [NotAfter] using asymm

/-- The order of a heap: no element is less than that of its parent. -/
def Ordered (less : α → α → Bool) (items : Array α) : Prop :=
  ∀ (j : Nat) (_ : j < items.size), 0 < j → less items[j] items[(j - 1) / 2] = false

/-- An array as a function of its indices. -/
def view (d : α) (items : Array α) : ℕ → α := fun k => items.getD k d

section

variable {less : α → α → Bool} {d : α} {items : Array α} {i j k s : Nat}

theorem view_eq (h : k < items.size) : view d items k = items[k] := by
  simp [view, h]

theorem ordered_iff (d : α) : Ordered less items ↔ HeapOrdered (NotAfter less) items.size (view d items) := by
  constructor
  · intro h j pos below _
    have up := parent_lt pos
    rw [view_eq below, view_eq (by omega)]
    exact h j below pos
  · intro h j below pos
    have order := h j pos below (Nat.zero_le _)
    have up := parent_lt pos
    rwa [view_eq below, view_eq (by omega)] at order

variable {n : Nat}

theorem ordered_of_view (hn : items.size = n)
    (h : HeapOrdered (NotAfter less) n (view d items)) : Ordered less items :=
  (ordered_iff d).mpr (hn ▸ h)

theorem view_swap (hi : i < items.size) (hj : j < items.size) :
    view d (items.swap i j) = exchange (view d items) i j := by
  funext k
  by_cases below : k < items.size
  · rw [view_eq (by rwa [Array.size_swap]), Array.getElem_swap, exchange, view_eq hi, view_eq hj,
      view_eq below]
  · have other : k ≠ i ∧ k ≠ j := ⟨by omega, by omega⟩
    rw [exchange_ne other.1 other.2]
    simp [view, below]

/-! ### Sifting -/

theorem up_perm (hi : i < items.size) : (up less items i hi).Perm items := by
  fun_induction up less items i hi with
  | case1 | case3 => exact .refl _
  | case2 items i hi _ _ ih => exact ih.trans (Array.swap_perm _ _)

variable [IsStrictWeakOrder α (fun a b => less a b = true)]

/-- `up` closes the hole that it starts from. -/
theorem up_ordered (hi : i < items.size)
    (hole : UpHole (NotAfter less) items.size i (view d items)) :
    HeapOrdered (NotAfter less) items.size (view d (up less items i hi)) := by
  fun_induction up less items i hi with
  | case1 items i hi pos stop =>
    refine hole.close fun _ => ?_
    have order : less items[i] items[(i - 1) / 2] = false := by simpa using stop
    rw [view_eq hi, view_eq (show parent i < items.size by unfold parent; omega)]
    exact order
  | case2 items i hi pos go ih =>
    have below : parent i < items.size := by
      unfold parent
      omega
    rw [Bool.not_eq_true', Bool.not_eq_false] at go
    have before : NotAfter less (view d items i) (view d items (parent i)) := by
      rw [view_eq hi, view_eq below]
      exact notAfter_of_less go
    have moved := hole.move pos hi before
    rw [← view_swap hi below] at moved
    rw [Array.size_swap] at ih
    exact ih moved
  | case3 items i hi root =>
    exact hole.close fun pos => absurd pos root

variable (less) in
/-- The choice is not after either. -/
theorem pick_first (items : Array α) (m : Fin items.size) (c : Nat) :
    NotAfter less items[pick less items m c] items[m] ∧
      ∀ h : c < items.size, NotAfter less items[pick less items m c] items[c] := by
  unfold pick
  split_ifs with below lesser
  · exact ⟨notAfter_of_less lesser, fun _ => refl_of (NotAfter less) _⟩
  · exact ⟨refl_of (NotAfter less) _, fun _ => by simpa [NotAfter] using lesser⟩
  · exact ⟨refl_of (NotAfter less) _, fun h => absurd h below⟩

variable (less d) in
/-- The least of a node and its children is not after any of them. -/
theorem smallest_first (items : Array α) (i : Fin items.size) :
    NotAfter less (view d items (smallest less items i)) (view d items i) ∧
      ∀ j, 0 < j → j < items.size → parent j = i →
        NotAfter less (view d items (smallest less items i)) (view d items j) := by
  obtain ⟨own, left⟩ := pick_first less items i (2 * i.val + 1)
  obtain ⟨first, right⟩ := pick_first less items (pick less items i (2 * i.val + 1))
    (2 * i.val + 1 + 1)
  rw [view_eq (smallest less items i).isLt, view_eq i.isLt]
  refine ⟨trans_of (NotAfter less) first own, fun j pos hj child => ?_⟩
  rw [view_eq hj]
  rcases (parent_eq_iff pos).mp child with rfl | rfl
  · exact trans_of (NotAfter less) first (left hj)
  · exact right hj

/-- `down` closes the hole that it starts from. -/
theorem down_ordered (hi : i < items.size) (above : s ≤ i)
    (hole : DownHole (NotAfter less) items.size s i (view d items)) :
    FromOrdered (NotAfter less) items.size s (view d (down less items i hi)) := by
  fun_induction down less items i hi with
  | case1 items i hi stay =>
    obtain ⟨-, first⟩ := smallest_first less d items ⟨i, hi⟩
    rw [stay] at first
    exact hole.close first
  | case2 items i hi moves ih =>
    obtain ⟨before, first⟩ := smallest_first less d items ⟨i, hi⟩
    have child := (smallest_cases less items ⟨i, hi⟩).resolve_left fun h => moves (congrArg Fin.val h)
    have deeper : i < (smallest less items ⟨i, hi⟩).val := child.2
    have below := (smallest less items ⟨i, hi⟩).isLt
    have moved := hole.move above (by omega) below child.1 before first
    rw [← view_swap hi below] at moved
    rw [Array.size_swap] at ih
    exact ih (by omega) moved

theorem heapifyLoop_ordered (k : Nat) (hn : items.size = n) (hk : k ≤ items.size)
    (below : FromOrdered (NotAfter less) n k (view d items)) :
    HeapOrdered (NotAfter less) n (view d (heapifyLoop less items k hk)) ∧
      (heapifyLoop less items k hk).Perm items := by
  induction k generalizing items with
  | zero => exact ⟨below, .refl _⟩
  | succ k ih =>
    subst hn
    have hole : DownHole (NotAfter less) items.size k k (view d items) := below.hole fun _ _ _ => rfl
    have sifted := down_ordered hk (le_refl k) hole
    have size := size_down less items k hk
    obtain ⟨ordered, perm⟩ := ih size (by omega) sifted
    exact ⟨ordered, perm.trans (down_perm less items k hk)⟩

variable (less) in
/-- `heapify` makes a heap of any array. -/
theorem heapify_spec (items : Array α) :
    Ordered less (heapify less items) ∧ (heapify less items).Perm items := by
  have leaves (d : α) : FromOrdered (NotAfter less) items.size (items.size / 2) (view d items) :=
    fromOrdered_leaves (by omega) _
  have spec (d : α) := heapifyLoop_ordered (items.size / 2) rfl (by omega) (leaves d)
  by_cases empty : items.size = 0
  · obtain rfl := Array.eq_empty_of_size_eq_zero empty
    have none : heapify less (#[] : Array α) = #[] := by simp [heapify, heapifyLoop]
    rw [none]
    exact ⟨fun j hj => absurd hj (by simp), .refl _⟩
  · obtain ⟨ordered, perm⟩ := spec items[0]
    exact ⟨ordered_of_view perm.size_eq ordered, perm⟩

end

/-! ### Operations -/

/-- The elements of a heap. -/
def contents (h : Heap α) : Multiset α := h.items.toList

section

variable {less : α → α → Bool} {h : Heap α}

/-- What is kept by all operations: the order, by the function that it was made with. -/
structure Valid (less : α → α → Bool) (h : Heap α) : Prop where
  less_eq : h.less = less
  ordered : Ordered less h.items

theorem newBy_valid (less : α → α → Bool) : Valid less (newBy less) := ⟨rfl, fun j hj => absurd hj (by simp [newBy])⟩

theorem push_fold (xs : List α) (items : Array α) : (xs.foldl Array.push items).toList = items.toList ++ xs := by
  induction xs generalizing items with
  | nil => simp
  | cons x xs ih => rw [foldl_cons, ih, Array.toList_push, append_assoc, singleton_append]

variable [IsStrictWeakOrder α (fun a b => less a b = true)]

variable (less) in
theorem fromList_valid (xs : List α) :
    Valid less (fromList less xs) ∧ (fromList less xs).contents = xs := by
  obtain ⟨ordered, perm⟩ := heapify_spec less (xs.foldl Array.push #[])
  refine ⟨⟨rfl, ordered⟩, ?_⟩
  have same := perm.toList
  rw [push_fold, nil_append] at same
  exact Multiset.coe_eq_coe.mpr same

/-- No element of a heap is less than its first. -/
theorem Valid.first (hv : Valid less h) (some : 0 < h.items.size) {y : α} (hy : y ∈ h.contents) :
    less y h.items[0] = false := by
  obtain ⟨k, hk, rfl⟩ := mem_iff_getElem.mp (Multiset.mem_coe.mp hy)
  rw [Array.length_toList] at hk
  have root := ((ordered_iff h.items[0]).mp hv.ordered).root hk
  rwa [view_eq some, view_eq hk] at root

theorem push_valid (hv : Valid less h) (v : α) :
    Valid less (h.push v) ∧ (h.push v).contents = v ::ₘ h.contents := by
  have last : (h.items.push v).size - 1 < (h.items.push v).size := by simp
  have size : (h.items.push v).size = h.items.size + 1 := Array.size_push ..
  have hole : UpHole (NotAfter less) (h.items.push v).size ((h.items.push v).size - 1)
      (view v (h.items.push v)) := by
    have start := (ordered_iff v).mp hv.ordered
    have same : FromOrdered (NotAfter less) h.items.size 0 (view v (h.items.push v)) := by
      refine start.congr fun j below => ?_
      rw [view_eq below, view_eq (by omega), Array.getElem_push_lt below]
    rw [size]
    exact HeapOrdered.push same
  have perm : (up less (h.items.push v) _ last).Perm (h.items.push v) := up_perm last
  have sifted := up_ordered last hole
  have elements : (up less (h.items.push v) _ last).toList.Perm (v :: h.items.toList) := by
    refine perm.toList.trans ?_
    rw [Array.toList_push]
    exact perm_append_singleton v _
  obtain rfl := hv.less_eq
  exact ⟨⟨rfl, ordered_of_view perm.size_eq sifted⟩, Multiset.coe_eq_coe.mpr elements⟩

/-- The last element in the place of the first leaves all others. -/
theorem moved_perm {items : Array α} (two : 1 < items.size) (room : 0 < items.pop.size) :
    items.toList.Perm (items[0] :: (items.pop.set 0 items[items.size - 1] room).toList) := by
  obtain ⟨l⟩ := items
  rcases l with - | ⟨x, - | ⟨y, ys⟩⟩
  · simp at two
  · simp at two
  · have back := dropLast_append_getLast (cons_ne_nil y ys)
    have last : (x :: y :: ys).toArray[(x :: y :: ys).toArray.size - 1] = (y :: ys).getLast (by simp) := by
      simp [getLast_eq_getElem]
    rw [last]
    simp only [Array.toList_set, Array.toList_pop, dropLast_cons_cons, set_cons_zero,
      getElem_toArray, getElem_cons_zero]
    refine List.Perm.cons x ?_
    nth_rewrite 1 [← back]
    exact perm_append_singleton _ _

/-- `pop` of a heap that is not empty gives its first element, and takes it out. -/
theorem pop_valid (hv : Valid less h) (full : 0 < h.items.size) :
    h.pop.1 = some h.items[0] ∧ Valid less h.pop.2 ∧ h.contents = h.items[0] ::ₘ h.pop.2.contents := by
  have room : 1 < h.items.size → 0 < h.items.pop.size := by
    rw [Array.size_pop]
    omega
  rw [pop, dif_neg (by omega)]
  dsimp only
  obtain rfl := hv.less_eq
  split_ifs with two
  · have hole : DownHole (NotAfter h.less) (h.items.pop.set 0 h.items[h.items.size - 1] (room two)).size 0 0
        (view h.items[0] (h.items.pop.set 0 h.items[h.items.size - 1] (room two))) := by
      have whole := ((ordered_iff h.items[0]).mp hv.ordered).mono (Nat.zero_le 1)
      have size : (h.items.pop.set 0 h.items[h.items.size - 1] (room two)).size = h.items.size - 1 := by
        rw [Array.size_set, Array.size_pop]
      rw [size]
      refine (whole.shrink (Nat.sub_le _ 1)).hole fun j pos below => ?_
      have behind : j < h.items.pop.size := by rwa [Array.size_pop]
      rw [view_eq (by rwa [size]), view_eq (by omega), Array.getElem_set_ne _ behind (by omega),
        Array.getElem_pop]
    have sifted := down_ordered (by rw [Array.size_set]; exact room two) (le_refl 0) hole
    have perm := down_perm h.less (h.items.pop.set 0 h.items[h.items.size - 1] (room two)) 0
      (by rw [Array.size_set]; exact room two)
    refine ⟨rfl, ⟨rfl, ordered_of_view perm.size_eq sifted⟩, ?_⟩
    exact Multiset.coe_eq_coe.mpr ((moved_perm two (room two)).trans (perm.toList.symm.cons _))
  · have one : h.items.size = 1 := by omega
    have size : h.items.pop.size = 0 := by
      rw [Array.size_pop, one]
    refine ⟨rfl, ⟨rfl, fun j (hj : j < h.items.pop.size) => absurd hj (by omega)⟩, ?_⟩
    obtain ⟨⟨l⟩, f⟩ := h
    obtain ⟨x, rfl⟩ := length_eq_one_iff.mp one
    rfl

/-- Draining gives out all elements, the least first. -/
theorem drain_spec (hv : Valid less h) :
    (h.drain : Multiset α) = h.contents ∧ h.drain.Pairwise (NotAfter less) := by
  fun_induction drain h with
  | case1 h full ih =>
    obtain ⟨-, rest, split⟩ := pop_valid hv full
    obtain ⟨same, sorted⟩ := ih rest
    constructor
    · rw [← Multiset.cons_coe, same, ← split]
    · refine pairwise_cons.mpr ⟨fun y hy => ?_, sorted⟩
      refine hv.first full ?_
      rw [split, ← same]
      exact Multiset.mem_cons_of_mem (Multiset.mem_coe.mpr hy)
  | case2 h empty =>
    have none : h.items = #[] := Array.eq_empty_of_size_eq_zero (by omega)
    rw [contents, none]
    exact ⟨rfl, .nil⟩

omit [IsStrictWeakOrder α (fun a b => less a b = true)] in
/-- The copy that `items_sorted` drains is the heap. -/
theorem copy_eq (h : Heap α) : ({ items := h.items.foldl Array.push #[], less := h.less } : Heap α) = h := by
  have same : h.items.foldl Array.push #[] = h.items := by
    rw [← Array.foldl_toList, ← Array.toList_inj, push_fold, nil_append]
  rw [same]

end

/-! ### Runs -/

/-- An operation on a heap. -/
inductive Op (α : Type*)
  | push (v : α)
  | pop
  | peek
  | itemsSorted

/-- What an operation returns. -/
inductive Out (α : Type*)
  | unit
  | elem (x : Option α)
  | list (xs : List α)

/-- The heap after an operation, and what it returned. -/
def step (h : Heap α) : Op α → Heap α × Out α
  | .push v => (h.push v, .unit)
  | .pop => (h.pop.2, .elem h.pop.1)
  | .peek => (h, .elem h.peek)
  | .itemsSorted => (h, .list h.itemsSorted)

/-- What a bag does that gives out an element that no other is less than. -/
inductive BagStep (less : α → α → Bool) : Multiset α → Op α → Out α → Multiset α → Prop
  | push (m : Multiset α) (v : α) : BagStep less m (.push v) .unit (v ::ₘ m)
  | popEmpty : BagStep less 0 .pop (.elem none) 0
  | pop (m : Multiset α) (x : α) (first : ∀ y ∈ m, less y x = false) :
      BagStep less (x ::ₘ m) .pop (.elem (some x)) m
  | peekEmpty : BagStep less 0 .peek (.elem none) 0
  | peek (m : Multiset α) (x : α) (first : ∀ y ∈ m, less y x = false) :
      BagStep less (x ::ₘ m) .peek (.elem (some x)) (x ::ₘ m)
  | itemsSorted (xs : List α) (sorted : xs.Pairwise (NotAfter less)) :
      BagStep less xs .itemsSorted (.list xs) xs

/-- Along a run the heap is in order, its elements do the steps of a bag, and the operations that
only read leave it as it was. -/
def Conforms (less : α → α → Bool) : Heap α → List (Op α) → Prop
  | h, [] => Ordered less h.items
  | h, op :: ops =>
    Ordered less h.items ∧ BagStep less h.contents op (h.step op).2 (h.step op).1.contents ∧
      (op = .peek ∨ op = .itemsSorted → (h.step op).1 = h) ∧ Conforms less (h.step op).1 ops

section

variable {less : α → α → Bool} [IsStrictWeakOrder α (fun a b => less a b = true)] {h : Heap α}

/-- An empty heap, or one that shows its first element. -/
theorem Valid.cases (hv : Valid less h) :
    (h.items.size = 0 ∧ h.contents = 0) ∨ ∃ x m, 0 < h.items.size ∧ h.items[0]? = some x ∧
      h.pop = (some x, h.pop.2) ∧ h.contents = x ::ₘ m ∧ h.pop.2.contents = m ∧
      ∀ y ∈ m, less y x = false := by
  by_cases empty : h.items.size = 0
  · refine .inl ⟨empty, ?_⟩
    rw [contents, Array.eq_empty_of_size_eq_zero empty]
    rfl
  · have full : 0 < h.items.size := by omega
    obtain ⟨top, -, split⟩ := pop_valid hv full
    refine .inr ⟨h.items[0], h.pop.2.contents, full, Array.getElem?_eq_getElem full, ?_, split, rfl,
      fun y hy => hv.first full ?_⟩
    · rw [← top]
    · rw [split]
      exact Multiset.mem_cons_of_mem hy

/-- Each operation does a step of the bag. -/
theorem step_valid (hv : Valid less h) (op : Op α) :
    Valid less (h.step op).1 ∧ BagStep less h.contents op (h.step op).2 (h.step op).1.contents := by
  cases op with
  | push v =>
    obtain ⟨valid, more⟩ := push_valid hv v
    refine ⟨valid, ?_⟩
    show BagStep less h.contents (.push v) .unit (h.push v).contents
    rw [more]
    exact .push _ v
  | pop =>
    rcases hv.cases with ⟨empty, none⟩ | ⟨x, m, full, -, top, split, rest, first⟩
    · have stay : h.pop = (Option.none, h) := by rw [pop, dif_pos empty]
      refine ⟨by rw [step, stay]; exact hv, ?_⟩
      rw [step, stay, none]
      exact .popEmpty
    · refine ⟨(pop_valid hv full).2.1, ?_⟩
      rw [step, top, split, rest]
      exact .pop m x first
  | peek =>
    refine ⟨hv, ?_⟩
    rcases hv.cases with ⟨empty, none⟩ | ⟨x, m, -, head, -, split, -, first⟩
    · rw [step, peek, Array.getElem?_eq_none (by omega), none]
      exact .peekEmpty
    · rw [step, peek, head, split]
      exact .peek m x first
  | itemsSorted =>
    obtain ⟨same, sorted⟩ := drain_spec hv
    refine ⟨hv, ?_⟩
    rw [step, itemsSorted, copy_eq, ← same]
    exact .itemsSorted _ sorted

theorem conforms_of_valid (ops : List (Op α)) (hv : Valid less h) : Conforms less h ops := by
  induction ops generalizing h with
  | nil => exact hv.ordered
  | cons op ops ih =>
    obtain ⟨valid, bag⟩ := step_valid hv op
    refine ⟨hv.ordered, bag, ?_, ih valid⟩
    rintro (rfl | rfl)
    · rfl
    · rfl

end

/-- A heap that is made empty or from elements does what a bag of them does. -/
theorem heap_run (less : α → α → Bool) [IsStrictWeakOrder α (fun a b => less a b = true)]
    (xs : List α) (ops : List (Op α)) :
    (newBy less).contents = 0 ∧ Conforms less (newBy less) ops ∧
      (fromList less xs).contents = xs ∧ Conforms less (fromList less xs) ops := by
  obtain ⟨valid, elements⟩ := fromList_valid less xs
  exact ⟨rfl, conforms_of_valid ops (newBy_valid less), elements, conforms_of_valid ops valid⟩

/-- Numbers by size. -/
theorem heap_run_numbers :
    (newBy fun a b : Nat => decide (a < b)).contents = 0 ∧
      Conforms (fun a b : Nat => decide (a < b)) (newBy fun a b : Nat => decide (a < b))
        [.push 3, .push 1, .peek, .pop] ∧
      (fromList (fun a b : Nat => decide (a < b)) [3, 1, 2]).contents = ([3, 1, 2] : List Nat) ∧
      Conforms (fun a b : Nat => decide (a < b)) (fromList (fun a b : Nat => decide (a < b)) [3, 1, 2])
        [.push 3, .push 1, .peek, .pop] := by
  have weak : IsStrictWeakOrder Nat (fun a b => decide (a < b) = true) :=
    { irrefl := fun a => by simp
      trans := fun a b c => by
        simp only [decide_eq_true_eq]
        exact Nat.lt_trans
      incomp_trans := fun a b c => by
        simp only [decide_eq_true_eq]
        omega }
  exact heap_run _ [3, 1, 2] [.push 3, .push 1, .peek, .pop]

end Heap

end Voila
