import Mathlib

/-!
# Voila.Lib.Owners

A list of events of several owners, and what each of them has in it.
-/

open List

namespace Voila.Lib

variable {T E V ι κ : Type*} [Fintype ι]

/-- What is selected from the events is what is selected from those of each owner, together. -/
theorem filterMap_owners [DecidableEq T] [DecidableEq ι] {owner : ι → T} (inj : Function.Injective owner)
    (g : T × E → Option V) {tr : List (T × E)} (owned : ∀ e ∈ tr, g e ≠ none → ∃ i, e.1 = owner i) :
    (tr.filterMap g : Multiset V) = ∑ i, ((tr.filter fun e => e.1 = owner i).filterMap g : Multiset V) := by
  induction tr with
  | nil => simp
  | cons e tr ih =>
    have rest := ih fun e' he' => owned e' (mem_cons_of_mem e he')
    cases hg : g e with
    | none =>
      rw [filterMap_cons_none hg, rest]
      refine Finset.sum_congr rfl fun i _ => ?_
      by_cases hi : e.1 = owner i
      · rw [filter_cons_of_pos (by simpa using hi), filterMap_cons_none hg]
      · rw [filter_cons_of_neg (by simpa using hi)]
    | some v =>
      obtain ⟨j, hj⟩ := owned e mem_cons_self (by rw [hg]; nofun)
      -- the event is counted for its owner only
      have split : ∀ i, (((e :: tr).filter fun e => e.1 = owner i).filterMap g : Multiset V) =
          (if i = j then {v} else 0) +
            ((tr.filter fun e => e.1 = owner i).filterMap g : Multiset V) := by
        intro i
        by_cases hi : i = j
        · subst hi
          rw [filter_cons_of_pos (by simpa using hj), filterMap_cons_some hg, if_pos rfl]
          rfl
        · have other : e.1 ≠ owner i := fun he => hi (inj (he.symm.trans hj))
          rw [filter_cons_of_neg (by simpa using other), if_neg hi, zero_add]
      rw [filterMap_cons_some hg, Finset.sum_congr rfl fun i _ => split i,
        Finset.sum_add_distrib, Finset.sum_ite_eq' Finset.univ j, if_pos (Finset.mem_univ j), ← rest]
      rfl

/-- Members that take from places of their own choice, as the places see it. -/
theorem sum_image_places [DecidableEq κ] {M : Type*} [AddCommMonoid M] (place : ι → κ)
    (f : κ → ι → M) (none : ∀ k i, place i ≠ k → f k i = 0) :
    ∑ k ∈ Finset.univ.image place, ∑ i, f k i = ∑ i, f (place i) i := by
  rw [Finset.sum_comm]
  refine Finset.sum_congr rfl fun i _ => ?_
  refine Finset.sum_eq_single_of_mem _ (Finset.mem_image_of_mem place (Finset.mem_univ i)) ?_
  intro k _ hk
  exact none k i (Ne.symm hk)

end Voila.Lib
