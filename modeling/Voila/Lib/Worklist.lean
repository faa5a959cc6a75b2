import Mathlib

/-!
# Voila.Lib.Worklist

The walk of a worklist: what is marked is queued, what is queued has its neighbours
marked, and some neighbours stop the walk.

When the queue runs dry the marked elements are closed under the neighbours that do not
stop it (`drain_closed`); each element is queued once, so a step for every element is
enough (`drain_some`).
-/

open List

namespace Voila.Lib

variable {α : Type*} [DecidableEq α]

/-- One neighbour: marked and queued, unless it is marked or stops the walk. -/
def push (stop : α → Bool) (s : List α × List α) (p : α) : List α × List α :=
  if p ∈ s.1 ∨ stop p = true then s else (p :: s.1, p :: s.2)

/-- Take the last queued element and push its neighbours, until the queue is empty. -/
def drain (next : α → List α) (stop : α → Bool) : Nat → List α → List α → Option (List α)
  | _, marked, [] => some marked
  | 0, _, _ :: _ => none
  | n + 1, marked, x :: work =>
    let s := (next x).foldl (push stop) (marked, work)
    drain next stop n s.1 s.2

variable {next : α → List α} {stop : α → Bool}

/-- Pushing some neighbours: the new marks, and where every neighbour ended up. -/
theorem foldl_push (stop : α → Bool) (ps marked work : List α) :
    ∃ new, ps.foldl (push stop) (marked, work) = (new ++ marked, new ++ work) ∧ new ⊆ ps ∧
      (marked.Nodup → (new ++ marked).Nodup) ∧ ∀ p ∈ ps, p ∈ new ++ marked ∨ stop p = true := by
  induction ps generalizing marked work with
  | nil => exact ⟨[], rfl, List.Subset.refl _, id, by simp⟩
  | cons p ps ih =>
    by_cases hp : p ∈ marked ∨ stop p = true
    · obtain ⟨new, hnew, hsub, hnodup, hall⟩ := ih marked work
      refine ⟨new, ?_, fun q hq => mem_cons_of_mem _ (hsub hq), hnodup, ?_⟩
      · rw [foldl_cons, push, if_pos hp, hnew]
      · intro q hq
        rcases mem_cons.mp hq with rfl | hq
        · exact hp.imp_left (mem_append_right _)
        · exact hall q hq
    · obtain ⟨new, hnew, hsub, hnodup, hall⟩ := ih (p :: marked) (p :: work)
      refine ⟨new ++ [p], ?_, ?_, ?_, ?_⟩
      · rw [foldl_cons, push, if_neg hp, hnew]
        simp
      · intro q hq
        rcases mem_append.mp hq with hq | hq
        · exact mem_cons_of_mem _ (hsub hq)
        · exact mem_singleton.mp hq ▸ mem_cons_self
      · intro h
        rw [append_assoc]
        exact hnodup (nodup_cons.mpr ⟨fun hmem => hp (Or.inl hmem), h⟩)
      · intro q hq
        rw [append_assoc]
        rcases mem_cons.mp hq with rfl | hq
        · exact Or.inl (mem_append_right _ mem_cons_self)
        · exact hall q hq

variable {n : Nat}

/-- The result keeps the marks and holds every neighbour that does not stop the walk. -/
theorem drain_closed {marked work r : List α}
    (hdone : ∀ x ∈ marked, x ∈ work ∨ ∀ p ∈ next x, p ∈ marked ∨ stop p = true)
    (h : drain next stop n marked work = some r) :
    marked ⊆ r ∧ ∀ x ∈ r, ∀ p ∈ next x, p ∈ r ∨ stop p = true := by
  induction n generalizing marked work with
  | zero =>
    cases work with
    | nil =>
      cases h
      exact ⟨List.Subset.refl _, fun x hx => (hdone x hx).resolve_left (by simp)⟩
    | cons x work => exact absurd h (by simp [drain])
  | succ n ih =>
    cases work with
    | nil =>
      cases h
      exact ⟨List.Subset.refl _, fun x hx => (hdone x hx).resolve_left (by simp)⟩
    | cons x work =>
      obtain ⟨new, hnew, -, -, hall⟩ := foldl_push stop (next x) marked work
      simp only [drain, hnew] at h
      have hnext := ih (fun y hy => ?_) h
      · exact ⟨fun y hy => hnext.1 (mem_append_right _ hy), hnext.2⟩
      · rcases mem_append.mp hy with hy | hy
        · exact Or.inl (mem_append_left _ hy)
        · rcases hdone y hy with hw | hd
          · rcases mem_cons.mp hw with rfl | hw
            · exact Or.inr hall
            · exact Or.inl (mem_append_right _ hw)
          · exact Or.inr fun p hp => (hd p hp).imp_left (mem_append_right _)

/-- What holds of the marks and of all neighbours holds of the result. -/
theorem drain_within {keep : α → Prop} (hnext : ∀ x, ∀ p ∈ next x, keep p)
    {marked work r : List α} (hmarked : ∀ x ∈ marked, keep x)
    (h : drain next stop n marked work = some r) : ∀ x ∈ r, keep x := by
  induction n generalizing marked work with
  | zero =>
    cases work with
    | nil => exact Option.some.inj h ▸ hmarked
    | cons x work => exact absurd h (by simp [drain])
  | succ n ih =>
    cases work with
    | nil => exact Option.some.inj h ▸ hmarked
    | cons x work =>
      obtain ⟨new, hnew, hsub, -, -⟩ := foldl_push stop (next x) marked work
      simp only [drain, hnew] at h
      refine ih (fun y hy => ?_) h
      rcases mem_append.mp hy with hy | hy
      · exact hnext x y (hsub hy)
      · exact hmarked y hy

/-- A step for every element of a list that holds them all is enough. -/
theorem drain_some {all : List α} (hnext : ∀ x, ∀ p ∈ next x, p ∈ all) {n : Nat}
    {marked work : List α} (hnodup : marked.Nodup) (hmarked : marked ⊆ all)
    (hn : work.length + all.length ≤ n + marked.length) :
    ∃ r, drain next stop n marked work = some r := by
  induction n generalizing marked work with
  | zero =>
    have hle := (subperm_of_subset hnodup hmarked).length_le
    obtain rfl : work = [] := length_eq_zero_iff.mp (by omega)
    exact ⟨marked, rfl⟩
  | succ n ih =>
    cases work with
    | nil => exact ⟨marked, rfl⟩
    | cons x work =>
      obtain ⟨new, hnew, hsub, hnd, -⟩ := foldl_push stop (next x) marked work
      simp only [drain, hnew]
      refine ih (hnd hnodup) (fun y hy => ?_) ?_
      · rcases mem_append.mp hy with hy | hy
        · exact hnext x y (hsub hy)
        · exact hmarked hy
      · simp only [length_append, length_cons] at hn ⊢
        omega

end Voila.Lib
