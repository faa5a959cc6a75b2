import Voila.Lib.Effects
import Voila.Lib.StableSort

/-!
# Voila.Lib.MergeSort

Merge sort where comparing two elements is a program: it may throw, and may answer as it likes.

Whatever it does, only its calls change the state, and a list that comes back is a permutation
(`sortM_within`). Where it answers by a strict weak order, the list is the stable sort (`sortM_yields`).
-/

open List

namespace Voila.Lib

variable {ε σ α : Type}

/-- `ys` first where `less` says so. -/
def mergeM (less : α → α → EStateM ε σ Bool) : List α → List α → EStateM ε σ (List α)
  | [], ys => pure ys
  | x :: xs, [] => pure (x :: xs)
  | x :: xs, y :: ys => do
    if ← less y x then
      return y :: (← mergeM less (x :: xs) ys)
    else
      return x :: (← mergeM less xs (y :: ys))
termination_by xs ys => xs.length + ys.length

def sortM (less : α → α → EStateM ε σ Bool) (l : List α) : EStateM ε σ (List α) :=
  if _h : l.length < 2 then
    pure l
  else do
    let xs ← sortM less (l.take (l.length / 2))
    let ys ← sortM less (l.drop (l.length / 2))
    mergeM less xs ys
termination_by l.length
decreasing_by
  · rw [length_take]; omega
  · rw [length_drop]; omega

/-- A call of `less` on elements of `l` that returns. -/
def Returns (less : α → α → EStateM ε σ Bool) (l : List α) (s s' : σ) : Prop :=
  ∃ a ∈ l, ∃ b ∈ l, ∃ answer, less a b s = .ok answer s'

/-- A call of `less` on elements of `l` that throws. -/
def Throws (less : α → α → EStateM ε σ Bool) (l : List α) (s : σ) (e : ε) (s' : σ) : Prop :=
  ∃ a ∈ l, ∃ b ∈ l, less a b s = .error e s'

@[simp] theorem mergeM_nil (less : α → α → EStateM ε σ Bool) (ys : List α) : mergeM less [] ys = pure ys := by
  rw [mergeM]

@[simp] theorem mergeM_right (less : α → α → EStateM ε σ Bool) (xs : List α) : mergeM less xs [] = pure xs := by
  cases xs <;> rw [mergeM]

theorem less_within (less : α → α → EStateM ε σ Bool) {l : List α} {a b : α} (ha : a ∈ l) (hb : b ∈ l) :
    Within (Returns less l) (Throws less l) (fun _ => True) (less a b) where
  ok s answer s' eq := ⟨.single ⟨a, ha, b, hb, answer, eq⟩, trivial⟩
  error s e s' eq := ⟨s, .refl, a, ha, b, hb, eq⟩

theorem mergeM_within (less : α → α → EStateM ε σ Bool) {l xs ys : List α} (hxs : ∀ a ∈ xs, a ∈ l)
    (hys : ∀ a ∈ ys, a ∈ l) :
    Within (Returns less l) (Throws less l) (fun zs => zs.Perm (xs ++ ys)) (mergeM less xs ys) := by
  fun_induction mergeM less xs ys with
  | case1 ys => exact Within.pure (List.Perm.refl ys)
  | case2 x xs =>
    refine Within.pure ?_
    rw [List.append_nil]
  | case3 x xs y ys ih₁ ih₂ =>
    obtain ⟨hx, hxs'⟩ := forall_mem_cons.mp hxs
    obtain ⟨hy, hys'⟩ := forall_mem_cons.mp hys
    refine (less_within less hy hx).bind fun second _ => ?_
    cases second with
    | true =>
      refine (ih₁ hxs hys').bind fun zs hzs => Within.pure ?_
      exact (hzs.cons y).trans perm_middle.symm
    | false => exact (ih₂ hxs' hys).bind fun zs hzs => Within.pure (hzs.cons x)

theorem sortM_within (less : α → α → EStateM ε σ Bool) {l part : List α} (h : ∀ a ∈ part, a ∈ l) :
    Within (Returns less l) (Throws less l) (fun l' => l'.Perm part) (sortM less part) := by
  fun_induction sortM less part with
  | case1 part short => exact Within.pure (List.Perm.refl part)
  | case2 part long ih₁ ih₂ =>
    have front : ∀ a ∈ part.take (part.length / 2), a ∈ l := fun a ha => h a (mem_of_mem_take ha)
    have back : ∀ a ∈ part.drop (part.length / 2), a ∈ l := fun a ha => h a (mem_of_mem_drop ha)
    refine (ih₁ front).bind fun xs hxs => (ih₂ back).bind fun ys hys => ?_
    have merged := mergeM_within less (fun a ha => front a (hxs.mem_iff.mp ha)) fun a ha =>
      back a (hys.mem_iff.mp ha)
    refine merged.mono fun zs hzs => hzs.trans ?_
    have halves := hxs.append hys
    rwa [take_append_drop] at halves

section Order

variable {less : α → α → EStateM ε σ Bool} {lt : α → α → Bool} {Inv : σ → Prop}

theorem mergeM_yields {xs ys : List α} (answers : ∀ y ∈ ys, ∀ x ∈ xs, Yields Inv (less y x) (lt y x)) :
    Yields Inv (mergeM less xs ys) (xs.merge ys fun a b => !lt b a) := by
  fun_induction mergeM less xs ys with
  | case1 ys =>
    rw [nil_merge]
    exact Yields.pure ys
  | case2 x xs =>
    rw [merge_right]
    exact Yields.pure (x :: xs)
  | case3 x xs y ys ih₁ ih₂ =>
    refine (answers y mem_cons_self x mem_cons_self).bind ?_
    cases second : lt y x with
    | true =>
      rw [merge_second second]
      exact (ih₁ fun y' hy => answers y' (mem_cons_of_mem y hy)).bind (Yields.pure _)
    | false =>
      rw [merge_first second]
      exact (ih₂ fun y' hy x' hx => answers y' hy x' (mem_cons_of_mem x hx)).bind (Yields.pure _)

theorem sortM_yields {l : List α} (order : StrictWeakOn lt l)
    (answers : ∀ a ∈ l, ∀ b ∈ l, Yields Inv (less a b) (lt a b)) :
    ∃ l', StableSort lt l l' ∧ Yields Inv (sortM less l) l' := by
  fun_induction sortM less l with
  | case1 l short => exact ⟨l, StableSort.short short, Yields.pure l⟩
  | case2 l long ih₁ ih₂ =>
    have front : ∀ a ∈ l.take (l.length / 2), a ∈ l := fun a => mem_of_mem_take
    have back : ∀ a ∈ l.drop (l.length / 2), a ∈ l := fun a => mem_of_mem_drop
    obtain ⟨xs, hxs, gives₁⟩ := ih₁ (order.mono front) fun a ha b hb => answers a (front a ha) b (front b hb)
    obtain ⟨ys, hys, gives₂⟩ := ih₂ (order.mono back) fun a ha b hb => answers a (back a ha) b (back b hb)
    refine ⟨_, hxs.merge order hys, gives₁.bind (gives₂.bind (mergeM_yields ?_))⟩
    intro y hy x hx
    exact answers y (back y (hys.perm.mem_iff.mp hy)) x (front x (hxs.perm.mem_iff.mp hx))

end Order

end Voila.Lib
