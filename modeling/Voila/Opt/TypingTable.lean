import Voila.Opt.Typing

/-!
# Voila.Opt.TypingTable

The table of the typing pass: the sweeps stop, and what they stop at is a fixpoint of
the transfer function in which every hidden writer is boxed and no register is unseen
(`Typed`).

The transfer function is not monotone on unseen operands (an `ADD` of an unseen
register types as a box), so the result is no least fixpoint. Neither fact needs one:
a slot only ever moves up the lattice, which has three levels.
-/

namespace Voila.Opt

open Ir Lib List

/-! ### The lattice -/

/-- The level of a type. -/
def rank : RegType → Nat
  | .unseen => 0
  | .int | .float | .bool => 1
  | .box => 2

theorem rank_le_two (a : RegType) : rank a ≤ 2 := by cases a <;> decide

variable {a b j nt : RegType} {d fuel : Nat} {t : List RegType} {m : Module}
  {s : List RegType × Bool} {f : Func}

theorem rank_lt_join (h : join a b ≠ a) : rank a < rank (join a b) := by
  cases a <;> cases b <;> first | exact absurd rfl h | decide

@[simp] theorem join_box_left (b : RegType) : join .box b = .box := by cases b <;> rfl

@[simp] theorem join_box_right (a : RegType) : join a .box = .box := by cases a <;> rfl

theorem join_ne_unseen (h : a ≠ .unseen) : join a b ≠ .unseen := by
  cases a <;> cases b <;> first | exact absurd rfl h | decide

/-- What a native slot absorbs is its own type. -/
theorem eq_of_join_eq (h : join a b = a) (ha : a ≠ .box) (hb : b ≠ .unseen) : b = a := by
  cases a <;> cases b <;> simp_all [join]

/-- The levels of a table, summed. -/
def weight (t : List RegType) : Nat := (t.map rank).sum

theorem weight_le (t : List RegType) : weight t ≤ 2 * t.length := by
  induction t with
  | nil => exact le_refl _
  | cons a t ih =>
    have ha := rank_le_two a
    simp only [weight, map_cons, sum_cons, length_cons] at ih ⊢
    omega

theorem weight_set (hd : d < t.length)
    (hj : rank (rt t d) < rank j) : weight t < weight (t.set d j) := by
  induction t generalizing d with
  | nil => exact absurd hd (by simp)
  | cons a t ih =>
    cases d with
    | zero =>
      have hj : rank a < rank j := hj
      simp only [weight, set_cons_zero, map_cons, sum_cons]
      omega
    | succ d =>
      have := ih (by simpa using hd) hj
      simp only [weight, set_cons_succ, map_cons, sum_cons] at this ⊢
      omega

theorem rt_set (hd : d < t.length) (r : Nat) : rt (t.set d j) r = if r = d then j else rt t r := by
  simp only [rt, getD_eq_getElem?_getD, List.getElem?_set]
  by_cases h : r = d
  · simp [h, hd]
  · simp [h, Ne.symm h]

/-! ### One instruction -/

/-- The table absorbs what the instruction writes. -/
def ClosedAt (m : Module) (t : List RegType) (b : Body) : Prop :=
  ∀ nt d, defType m b t = some nt → regSlot (b.arg 0) = some d → d < t.length →
    join (rt t d) nt = rt t d

/-- Visiting an instruction changes nothing, or moves one slot up. -/
theorem visit_inv (m : Module) (s : List RegType × Bool) (b : Body) :
    (visit m s b = s ∧ ClosedAt m s.1 b) ∨
      ∃ d nt, d < s.1.length ∧ rank (rt s.1 d) < rank (join (rt s.1 d) nt) ∧
        visit m s b = (s.1.set d (join (rt s.1 d) nt), true) := by
  unfold visit
  cases hnt : defType m b s.1 with
  | none => exact Or.inl ⟨rfl, by simp [ClosedAt, hnt]⟩
  | some nt =>
    cases hd : regSlot (b.arg 0) with
    | none => exact Or.inl ⟨rfl, by simp [ClosedAt, hd]⟩
    | some d =>
      dsimp only
      split
      · rename_i h
        exact Or.inr ⟨d, nt, h.1, rank_lt_join h.2, rfl⟩
      · rename_i h
        refine Or.inl ⟨rfl, fun nt' d' hnt' hd' hlt => ?_⟩
        obtain rfl := Option.some.inj (hnt.symm.trans hnt')
        obtain rfl := Option.some.inj (hd.symm.trans hd')
        by_contra hne
        exact h ⟨hlt, hne⟩

/-- What each move up keeps, the visits keep. -/
theorem visit_keep {keep : List RegType → Prop}
    (hkeep : ∀ t d nt, d < t.length → keep t → keep (t.set d (join (rt t d) nt)))
    {b : Body} (hs : keep s.1) : keep (visit m s b).1 := by
  rcases visit_inv m s b with ⟨h, -⟩ | ⟨d, nt, hd, -, h⟩
  · rwa [h]
  · rw [h]
    exact hkeep s.1 d nt hd hs

/-! ### A sweep -/

theorem foldl_visit_keep (keep : List RegType → Prop)
    (hkeep : ∀ t d nt, d < t.length → keep t → keep (t.set d (join (rt t d) nt)))
    (bs : List Body) (hs : keep s.1) : keep (bs.foldl (visit m) s).1 := by
  induction bs generalizing s with
  | nil => exact hs
  | cons b bs ih => exact ih (visit_keep hkeep hs)

/-- A sweep that ends unchanged started unchanged, at a closed table; one that ends
changed raised the weight or was changed before. -/
theorem foldl_visit_spec (m : Module) (bs : List Body) (s : List RegType × Bool) :
    weight s.1 ≤ weight (bs.foldl (visit m) s).1 ∧
      ((bs.foldl (visit m) s).2 = false → s.2 = false ∧ (bs.foldl (visit m) s).1 = s.1 ∧
        ∀ b ∈ bs, ClosedAt m s.1 b) ∧
      ((bs.foldl (visit m) s).2 = true → s.2 = true ∨
        weight s.1 < weight (bs.foldl (visit m) s).1) := by
  induction bs generalizing s with
  | nil => exact ⟨le_refl _, fun h => ⟨h, rfl, by simp⟩, fun h => Or.inl h⟩
  | cons b bs ih =>
    obtain ⟨hle, hsame, hup⟩ := ih (visit m s b)
    rw [foldl_cons]
    rcases visit_inv m s b with ⟨h, hc⟩ | ⟨d, nt, hd, hr, h⟩
    · rw [h] at hle hsame hup ⊢
      refine ⟨hle, fun hf => ?_, hup⟩
      obtain ⟨h₁, h₂, h₃⟩ := hsame hf
      exact ⟨h₁, h₂, forall_mem_cons.mpr ⟨hc, h₃⟩⟩
    · have hw := weight_set hd hr
      rw [h] at hle hsame ⊢
      dsimp only at hle
      refine ⟨by omega, fun hf => ?_, fun _ => Or.inr (by omega)⟩
      exact absurd (hsame hf).1 (by simp)

theorem sweep_same {a t : List RegType} (h : sweep m f a = (t, false)) :
    t = a ∧ ∀ b ∈ f.bodies, ClosedAt m t b := by
  obtain ⟨-, hsame, -⟩ := foldl_visit_spec m f.bodies (a, false)
  unfold sweep at h
  rw [h] at hsame
  obtain ⟨-, rfl, hc⟩ := hsame rfl
  exact ⟨rfl, hc⟩

theorem sweep_rank (h : (sweep m f t).2 = true) : weight t < weight (sweep m f t).1 := by
  obtain ⟨-, -, hup⟩ := foldl_visit_spec m f.bodies (t, false)
  rcases hup h with h | h
  · exact absurd h (by simp)
  · exact h

/-! ### The table -/

/-- What the pass promises about its table. -/
structure Typed (m : Module) (f : Func) (t : List RegType) : Prop where
  closed : ∀ b ∈ f.bodies, ClosedAt m t b
  hidden : ∀ r ∈ pinned m f, rt t r = .box
  seen : ∀ r, rt t r ≠ .unseen

/-- The tables the first fixpoint goes through. -/
def Pinned (m : Module) (f : Func) (t : List RegType) : Prop :=
  t.length = f.nregs ∧ ∀ r ∈ pinned m f, rt t r = .box

theorem Pinned.set
    (hd : d < t.length) (h : Pinned m f t) : Pinned m f (t.set d (join (rt t d) nt)) := by
  refine ⟨by simpa using h.1, fun r hr => ?_⟩
  rw [rt_set hd]
  split
  · rename_i hrd
    rw [← hrd, h.2 r hr, join_box_left]
  · exact h.2 r hr

theorem rt_pinBoxed (m : Module) (f : Func) (r : Nat) :
    rt (pinBoxed m f) r = if r < f.nregs ∧ r ∉ pinned m f then .unseen else .box := by
  simp only [rt, pinBoxed, getD_eq_getElem?_getD, List.getElem?_map]
  by_cases hr : r < f.nregs
  · by_cases hp : r ∈ pinned m f <;> simp [hr, hp]
  · simp [hr]

theorem pinned_pinBoxed (m : Module) (f : Func) : Pinned m f (pinBoxed m f) := by
  refine ⟨by simp [pinBoxed], fun r hr => ?_⟩
  rw [rt_pinBoxed, if_neg (fun h => h.2 hr)]

/-- The tables the second fixpoint goes through. -/
def Seen (m : Module) (f : Func) (t : List RegType) : Prop :=
  Pinned m f t ∧ ∀ r, rt t r ≠ .unseen

theorem Seen.set (hd : d < t.length) (h : Seen m f t) : Seen m f (t.set d (join (rt t d) nt)) := by
  refine ⟨h.1.set hd, fun r => ?_⟩
  rw [rt_set hd]
  split
  · exact join_ne_unseen (h.2 d)
  · exact h.2 r

theorem rt_boxUnseen (t : List RegType) (r : Nat) :
    rt (boxUnseen t) r = if rt t r = .unseen then .box else rt t r := by
  simp only [rt, boxUnseen, getD_eq_getElem?_getD, List.getElem?_map]
  cases t[r]? with
  | none => simp
  | some x => simp

theorem seen_boxUnseen (h : Pinned m f t) : Seen m f (boxUnseen t) := by
  refine ⟨⟨by simpa [boxUnseen] using h.1, fun r hr => ?_⟩, fun r => ?_⟩
  · simp [rt_boxUnseen, h.2 r hr]
  · rw [rt_boxUnseen]
    split
    · simp
    · assumption

theorem sweep_pinned (t : List RegType) (h : Pinned m f t) : Pinned m f (sweep m f t).1 :=
  foldl_visit_keep (Pinned m f) (fun _ _ _ hd h => h.set hd) f.bodies h

theorem sweep_seen (t : List RegType) (h : Seen m f t) : Seen m f (sweep m f t).1 :=
  foldl_visit_keep (Seen m f) (fun _ _ _ hd h => h.set hd) f.bodies h

/-- The table is a fixpoint of the transfer function. -/
theorem typeTable_typed (h : typeTable fuel m f = some t) : Typed m f t := by
  unfold typeTable at h
  split at h
  · rename_i t₁ h₁
    obtain ⟨hp, -⟩ := untilSame_spec sweep_pinned (pinned_pinBoxed m f) h₁
    obtain ⟨hs, a, -, ha⟩ := untilSame_spec sweep_seen (seen_boxUnseen hp) h
    exact ⟨(sweep_same ha).2, hs.1.2, hs.2⟩
  · exact absurd h (by simp)

/-- Two sweeps for every register, and one more, are enough. -/
theorem typeTable_some (m : Module) (f : Func) (hfuel : 2 * f.nregs < fuel) :
    ∃ t, typeTable fuel m f = some t := by
  have hbound (t : List RegType) (h : Pinned m f t) : weight t ≤ 2 * f.nregs := by
    rw [← h.1]
    exact weight_le t
  obtain ⟨t, ht⟩ := untilSame_some sweep_pinned (fun t _ => sweep_rank) hbound
    (pinned_pinBoxed m f) (n := fuel) (by omega)
  obtain ⟨hp, -⟩ := untilSame_spec sweep_pinned (pinned_pinBoxed m f) ht
  obtain ⟨r, hr⟩ := untilSame_some sweep_seen (fun t _ => sweep_rank) (fun t h => hbound t h.1)
    (seen_boxUnseen hp) (n := fuel) (by omega)
  exact ⟨r, by simp [typeTable, ht, hr]⟩

end Voila.Opt
