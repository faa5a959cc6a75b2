import Mathlib

/-!
# Voila.Lib.Holding

Cells that hold references to cells, in the middle of a collection.

The references there are (`held`) are those of the live cells, those given up and not yet
counted down, and those from outside. Collecting a cell turns its references into ones
given up, so it changes no count (`held_erase`). When none is given up, every live cell is
referred to and the cells form no cycle, what is left is what the outside reaches
(`mem_iff_reaches`), in whatever order the cells went.
-/

namespace Voila.Lib

variable {ι ρ : Type*} (kids : ι → List ρ) (target : ρ → ι)

/-- The references there are: of the cells of `live`, given up, and from outside. -/
def held (live : Finset ι) (given out : Multiset ρ) : Multiset ρ :=
  (live.val.bind fun i => (kids i : Multiset ρ)) + given + out

/-- No reference dangles. -/
def Closed (live : Finset ι) (refs : Multiset ρ) : Prop := ∀ r ∈ refs, target r ∈ live

instance [DecidableEq ι] (live : Finset ι) (refs : Multiset ρ) : Decidable (Closed target live refs) :=
  inferInstanceAs (Decidable (∀ r ∈ refs, target r ∈ live))

/-- The cells that the references of `out` lead to. -/
inductive Reaches (out : Multiset ρ) : ι → Prop
  | root {r : ρ} : r ∈ out → Reaches out (target r)
  | kid {i : ι} {r : ρ} : Reaches out i → r ∈ kids i → Reaches out (target r)

/-- `i` refers to `j`. -/
def Refers (i j : ι) : Prop := ∃ r ∈ kids i, target r = j

def Acyclic : Prop := ∀ i, ¬ Relation.TransGen (Refers kids target) i i

variable {kids target} {live : Finset ι} {given out : Multiset ρ}

@[simp] theorem held_cons (r : ρ) : held kids live (r ::ₘ given) out = r ::ₘ held kids live given out := by
  simp [held, Multiset.add_cons, Multiset.cons_add]

@[simp] theorem held_cons_out (r : ρ) :
    held kids live given (r ::ₘ out) = r ::ₘ held kids live given out := by
  simp [held, Multiset.add_cons]

theorem mem_held {r : ρ} :
    r ∈ held kids live given out ↔ (∃ i ∈ live, r ∈ kids i) ∨ r ∈ given ∨ r ∈ out := by
  simp [held, or_assoc]

/-- Collecting a cell gives up its references. -/
theorem held_erase [DecidableEq ι] {i : ι} (h : i ∈ live) :
    held kids (live.erase i) (kids i + given) out = held kids live given out := by
  have hcons : live.val = i ::ₘ (live.erase i).val := by
    rw [Finset.erase_val, Multiset.cons_erase h]
  simp only [held]
  rw [hcons, Multiset.cons_bind]
  ac_rfl

/-- A cell that no reference is to goes without leaving a reference dangling. -/
theorem Closed.erase [DecidableEq ι] {refs : Multiset ρ} {i : ι} (h : Closed target live refs)
    (hi : ∀ r ∈ refs, target r ≠ i) : Closed target (live.erase i) refs := by
  intro r hr
  exact Finset.mem_erase.mpr ⟨hi r hr, h r hr⟩

variable {i : ι}

theorem Closed.of_reaches (h : Closed target live (held kids live given out))
    (hr : Reaches kids target out i) : i ∈ live := by
  induction hr with
  | root hr => exact h _ (mem_held.mpr (.inr (.inr hr)))
  | kid _ hr ih => exact h _ (mem_held.mpr (.inl ⟨_, ih, hr⟩))

/-- Going up from a live cell ends outside. -/
theorem reaches_of_mem (hac : Acyclic kids target)
    (href : ∀ i ∈ live, ∃ r ∈ held kids live 0 out, target r = i) (hi : i ∈ live) :
    Reaches kids target out i := by
  -- induction over the live cells, those that lead to `i` first
  let above : live → live → Prop := fun a b => Relation.TransGen (Refers kids target) a.1 b.1
  have htrans : IsTrans live above := ⟨fun _ _ _ h h' => h.trans h'⟩
  have hirrefl : Std.Irrefl above := ⟨fun a => hac a.1⟩
  have hwf : WellFounded above := Finite.wellFounded_of_trans_of_irrefl above
  suffices h : ∀ a : live, Reaches kids target out a.1 from h ⟨i, hi⟩
  intro a
  induction a using hwf.induction with
  | _ a ih =>
    obtain ⟨r, hr, htarget⟩ := href a.1 a.2
    rw [← htarget]
    rcases mem_held.mp hr with ⟨j, hj, hrj⟩ | hr | hr
    · exact .kid (ih ⟨j, hj⟩ (.single ⟨r, hrj, htarget⟩)) hrj
    · simp at hr
    · exact .root hr

/-- What is live in the end is what the outside reaches. -/
theorem mem_iff_reaches (hac : Acyclic kids target)
    (hclosed : Closed target live (held kids live 0 out))
    (href : ∀ i ∈ live, ∃ r ∈ held kids live 0 out, target r = i) (i : ι) :
    i ∈ live ↔ Reaches kids target out i :=
  ⟨reaches_of_mem hac href, hclosed.of_reaches⟩

/-- References that go down in rank form no cycle. -/
theorem acyclic_of_rank (rank : ι → Nat) (h : ∀ i, ∀ r ∈ kids i, rank (target r) < rank i) :
    Acyclic kids target := by
  have hlt : ∀ {i j}, Relation.TransGen (Refers kids target) i j → rank j < rank i := by
    intro i j hij
    induction hij with
    | single hr =>
      obtain ⟨r, hr, rfl⟩ := hr
      exact h _ r hr
    | tail _ hr ih =>
      obtain ⟨r, hr, rfl⟩ := hr
      exact (h _ r hr).trans ih
  exact fun i hi => (hlt hi).false

/-- Nothing is reached from nothing. -/
theorem not_reaches_zero (i : ι) : ¬ Reaches kids target 0 i := by
  intro h
  induction h with
  | root hr => simp at hr
  | kid _ _ ih => exact ih

end Voila.Lib
