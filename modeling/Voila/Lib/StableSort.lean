import Mathlib

/-!
# Voila.Lib.StableSort

Stable sorting by a strict weak order, which need be one on the elements of the list only.

Two elements of which neither is less are alike. A stable sort keeps the elements of each class of alike ones in
the order in which they come, and so there is one only (`StableSort.unique`). Two sorted halves merge to the
sorted whole if the first one goes first where they are alike (`StableSort.merge`).
-/

open List

namespace Voila.Lib

variable {α : Type}

/-- Neither is less. -/
def alike (lt : α → α → Bool) (a b : α) : Bool := !lt a b && !lt b a

theorem alike_iff {lt : α → α → Bool} {a b : α} : alike lt a b = true ↔ lt a b = false ∧ lt b a = false := by
  simp [alike]

/-- `lt` is a strict weak order of the elements of `l`. -/
structure StrictWeakOn (lt : α → α → Bool) (l : List α) : Prop where
  irrefl : ∀ a ∈ l, lt a a = false
  trans : ∀ a ∈ l, ∀ b ∈ l, ∀ c ∈ l, lt a b = true → lt b c = true → lt a c = true
  alike : ∀ a ∈ l, ∀ b ∈ l, ∀ c ∈ l, alike lt a b = true → alike lt b c = true → alike lt a c = true

/-- `l'` has the elements of `l`, in order, and the alike ones as they come in `l`. -/
structure StableSort (lt : α → α → Bool) (l l' : List α) : Prop where
  perm : l'.Perm l
  sorted : l'.Pairwise fun a b => lt b a = false
  stable : ∀ a ∈ l, l'.filter (alike lt a) = l.filter (alike lt a)

namespace StrictWeakOn

variable {lt : α → α → Bool} {l : List α}

theorem mono {l' : List α} (order : StrictWeakOn lt l) (h : ∀ a ∈ l', a ∈ l) : StrictWeakOn lt l' where
  irrefl a ha := order.irrefl a (h a ha)
  trans a ha b hb c hc := order.trans a (h a ha) b (h b hb) c (h c hc)
  alike a ha b hb c hc := order.alike a (h a ha) b (h b hb) c (h c hc)

theorem asymm (order : StrictWeakOn lt l) {a b : α} (ha : a ∈ l) (hb : b ∈ l) (h : lt a b = true) :
    lt b a = false := by
  by_contra back
  rw [Bool.not_eq_false] at back
  have self := order.trans a ha b hb a ha h back
  rw [order.irrefl a ha] at self
  cases self

/-- What is less than one is less than what is not less than that. -/
theorem less_of_less (order : StrictWeakOn lt l) {a b c : α} (ha : a ∈ l) (hb : b ∈ l) (hc : c ∈ l)
    (h : lt a b = true) (h' : lt c b = false) : lt a c = true := by
  by_contra not_less
  rw [Bool.not_eq_true] at not_less
  cases back : lt c a with
  | true =>
    have there := order.trans c hc a ha b hb back h
    rw [h'] at there
    cases there
  | false =>
    cases up : lt b c with
    | true =>
      have there := order.trans a ha b hb c hc h up
      rw [not_less] at there
      cases there
    | false =>
      have first : Lib.alike lt a c = true := alike_iff.mpr ⟨not_less, back⟩
      have second : Lib.alike lt c b = true := alike_iff.mpr ⟨h', up⟩
      have both := (alike_iff.mp (order.alike a ha c hc b hb first second)).1
      rw [h] at both
      cases both

theorem not_less_trans (order : StrictWeakOn lt l) {a b c : α} (ha : a ∈ l) (hb : b ∈ l) (hc : c ∈ l)
    (h : lt a b = false) (h' : lt b c = false) : lt a c = false := by
  by_contra less
  rw [Bool.not_eq_false] at less
  rw [order.less_of_less ha hc hb less h'] at h
  cases h

theorem alike_comm {a b : α} : Lib.alike lt a b = Lib.alike lt b a := by
  unfold Lib.alike
  exact Bool.and_comm ..

end StrictWeakOn

/-! ### Merging -/

section Merge

variable {lt : α → α → Bool} {l xs ys : List α}

theorem merge_second {x y : α} (less : lt y x = true) : ((x :: xs).merge (y :: ys) fun a b => !lt b a) =
    y :: (x :: xs).merge ys fun a b => !lt b a := by
  rw [List.merge, less]
  rfl

theorem merge_first {x y : α} (less : lt y x = false) : ((x :: xs).merge (y :: ys) fun a b => !lt b a) =
    x :: xs.merge (y :: ys) fun a b => !lt b a := by
  rw [List.merge, less]
  rfl

theorem merge_sorted (order : StrictWeakOn lt l) (hxs : ∀ a ∈ xs, a ∈ l) (hys : ∀ a ∈ ys, a ∈ l)
    (sx : xs.Pairwise fun a b => lt b a = false) (sy : ys.Pairwise fun a b => lt b a = false) :
    (xs.merge ys fun a b => !lt b a).Pairwise fun a b => lt b a = false := by
  induction xs generalizing ys with
  | nil => rwa [nil_merge]
  | cons x xs ih =>
    induction ys with
    | nil => rwa [merge_right]
    | cons y ys ihy =>
      obtain ⟨hx, hxs'⟩ := forall_mem_cons.mp hxs
      obtain ⟨hy, hys'⟩ := forall_mem_cons.mp hys
      obtain ⟨least, sx'⟩ := pairwise_cons.mp sx
      obtain ⟨least', sy'⟩ := pairwise_cons.mp sy
      cases less : lt y x with
      | true =>
        rw [merge_second less]
        refine pairwise_cons.mpr ⟨?_, ihy hys' sy'⟩
        intro z hz
        rcases mem_append.mp ((merge_perm_append _).mem_iff.mp hz) with hz | hz
        · rcases mem_cons.mp hz with rfl | hz
          · exact order.asymm hy hx less
          · have above := order.less_of_less hy hx (hxs' z hz) less (least z hz)
            exact order.asymm hy (hxs' z hz) above
        · exact least' z hz
      | false =>
        rw [merge_first less]
        refine pairwise_cons.mpr ⟨?_, ih hxs' hys sx' sy⟩
        intro z hz
        rcases mem_append.mp ((merge_perm_append _).mem_iff.mp hz) with hz | hz
        · exact least z hz
        · rcases mem_cons.mp hz with rfl | hz
          · exact less
          · exact order.not_less_trans (hys' z hz) hy hx (least' z hz) less

variable {a : α}

/-- Of the alike ones those of the first list come first. -/
theorem merge_filter (order : StrictWeakOn lt l) (hxs : ∀ a ∈ xs, a ∈ l) (hys : ∀ a ∈ ys, a ∈ l)
    (sx : xs.Pairwise fun a b => lt b a = false) (ha : a ∈ l) :
    (xs.merge ys fun a b => !lt b a).filter (alike lt a) =
      xs.filter (alike lt a) ++ ys.filter (alike lt a) := by
  induction xs generalizing ys with
  | nil => rw [nil_merge, filter_nil, nil_append]
  | cons x xs ih =>
    induction ys with
    | nil => rw [merge_right, filter_nil, List.append_nil]
    | cons y ys ihy =>
      obtain ⟨hx, hxs'⟩ := forall_mem_cons.mp hxs
      obtain ⟨hy, hys'⟩ := forall_mem_cons.mp hys
      obtain ⟨least, sx'⟩ := pairwise_cons.mp sx
      cases less : lt y x with
      | true =>
        rw [merge_second less, filter_cons, ihy hys', filter_cons (x := y)]
        split_ifs with same
        · -- what is less than the first of `xs` is alike with none of them
          have none : (x :: xs).filter (alike lt a) = [] := by
            rw [filter_eq_nil_iff]
            intro z hz same'
            have above : lt y z = true := by
              rcases mem_cons.mp hz with rfl | hz
              · exact less
              · exact order.less_of_less hy hx (hxs' z hz) less (least z hz)
            rw [StrictWeakOn.alike_comm] at same
            have both := order.alike y hy a ha z (hxs z hz) same same'
            rw [(alike_iff.mp both).1] at above
            cases above
          rw [none, nil_append, nil_append]
        · rfl
      | false =>
        rw [merge_first less, filter_cons, ih hxs' hys sx', filter_cons (x := x)]
        split_ifs
        · rw [cons_append]
        · rfl

theorem StableSort.short (h : l.length < 2) : StableSort lt l l := by
  refine ⟨List.Perm.refl l, ?_, fun _ _ => rfl⟩
  cases l with
  | nil => exact List.Pairwise.nil
  | cons a l =>
    have none : l = [] := by
      rw [length_cons] at h
      exact length_eq_zero_iff.mp (by omega)
    rw [none]
    exact pairwise_singleton _ a

/-- On a part of the list, the classes of the whole are kept as well. -/
theorem StableSort.stable_at {part : List α} (order : StrictWeakOn lt l) (sub : ∀ b ∈ part, b ∈ l)
    (sort : StableSort lt part xs) (ha : a ∈ l) : xs.filter (alike lt a) = part.filter (alike lt a) := by
  by_cases some : ∃ z ∈ part, alike lt a z = true
  · obtain ⟨z, hz, same⟩ := some
    have class_ : ∀ w ∈ l, alike lt a w = alike lt z w := by
      intro w hw
      have back : alike lt z a = true := StrictWeakOn.alike_comm ▸ same
      rw [Bool.eq_iff_iff]
      exact ⟨order.alike z (sub z hz) a ha w hw back, order.alike a ha z (sub z hz) w hw same⟩
    rw [filter_congr fun w hw => class_ w (sub w (sort.perm.mem_iff.mp hw)),
      filter_congr fun w hw => class_ w (sub w hw)]
    exact sort.stable z hz
  · have none : ∀ z ∈ part, ¬ alike lt a z = true := fun z hz same => some ⟨z, hz, same⟩
    rw [filter_eq_nil_iff.mpr none, filter_eq_nil_iff]
    exact fun z hz => none z (sort.perm.mem_iff.mp hz)

/-- Two sorted parts merge to the sorted whole. -/
theorem StableSort.merge {k : Nat} (order : StrictWeakOn lt l) (hxs : StableSort lt (l.take k) xs)
    (hys : StableSort lt (l.drop k) ys) : StableSort lt l (xs.merge ys fun a b => !lt b a) := by
  have front : ∀ a ∈ xs, a ∈ l := fun a ha => mem_of_mem_take (hxs.perm.mem_iff.mp ha)
  have back : ∀ a ∈ ys, a ∈ l := fun a ha => mem_of_mem_drop (hys.perm.mem_iff.mp ha)
  have whole : (xs ++ ys).Perm l := by
    have both := hxs.perm.append hys.perm
    rwa [take_append_drop] at both
  refine ⟨(merge_perm_append _).trans whole, merge_sorted order front back hxs.sorted hys.sorted, ?_⟩
  intro a ha
  rw [merge_filter order front back hxs.sorted ha,
    hxs.stable_at order (fun b => mem_of_mem_take) ha,
    hys.stable_at order (fun b => mem_of_mem_drop) ha, ← filter_append, take_append_drop]

end Merge

/-! ### Uniqueness -/

theorem eq_of_sorted {lt : α → α → Bool} {l xs ys : List α} (order : StrictWeakOn lt l) (perm : xs.Perm ys)
    (hxs : ∀ a ∈ xs, a ∈ l) (sx : xs.Pairwise fun a b => lt b a = false)
    (sy : ys.Pairwise fun a b => lt b a = false)
    (stable : ∀ a ∈ l, xs.filter (alike lt a) = ys.filter (alike lt a)) : xs = ys := by
  induction xs generalizing ys with
  | nil => exact perm.nil_eq
  | cons x xs ih =>
    cases ys with
    | nil => exact perm.eq_nil
    | cons y ys =>
      obtain ⟨least, sx'⟩ := pairwise_cons.mp sx
      obtain ⟨least', sy'⟩ := pairwise_cons.mp sy
      obtain ⟨hx, hxs'⟩ := forall_mem_cons.mp hxs
      have hy : y ∈ l := hxs y (perm.mem_iff.mpr mem_cons_self)
      -- each head is least in a list that has the other, so they are alike, and each comes first of them
      have under : lt y x = false := by
        rcases mem_cons.mp (perm.mem_iff.mpr mem_cons_self : y ∈ x :: xs) with rfl | hy'
        · exact order.irrefl y hy
        · exact least y hy'
      have above : lt x y = false := by
        rcases mem_cons.mp (perm.mem_iff.mp mem_cons_self : x ∈ y :: ys) with rfl | hx'
        · exact order.irrefl x hx
        · exact least' x hx'
      have here : alike lt x y = true := alike_iff.mpr ⟨above, under⟩
      have self : alike lt x x = true := alike_iff.mpr ⟨order.irrefl x hx, order.irrefl x hx⟩
      have heads := stable x hx
      rw [filter_cons_of_pos self, filter_cons_of_pos here] at heads
      obtain ⟨rfl, -⟩ := List.cons.inj heads
      refine congrArg (x :: ·) (ih perm.cons_inv hxs' sx' sy' ?_)
      intro a ha
      have both := stable a ha
      rw [filter_cons, filter_cons] at both
      split_ifs at both
      · exact (List.cons.inj both).2
      · exact both

/-- There is one stable sort only. -/
theorem StableSort.unique {lt : α → α → Bool} {l xs ys : List α} (order : StrictWeakOn lt l)
    (hxs : StableSort lt l xs) (hys : StableSort lt l ys) : xs = ys := by
  refine eq_of_sorted order (hxs.perm.trans hys.perm.symm) ?_ hxs.sorted hys.sorted ?_
  · exact fun a ha => hxs.perm.mem_iff.mp ha
  · exact fun a ha => (hxs.stable a ha).trans (hys.stable a ha).symm

end Voila.Lib
