import Mathlib

/-!
# Voila.Lib.Machine

Deterministic machines that perform observable events, and when two of them cannot
be told apart.

A machine's step either ends the run or moves on, performing some events. `Sees M s
tr o` is one observation of the run from `s`: it performs `tr` in some number of
steps, and then, when `o` is a result, ends with it. Runs that never end are covered
by their finite beginnings. Two states with the same observations are `ObsEq`.

`Skip` is the simulation for a pass that only removes silent steps: related states
step alike, or the first machine takes one silent step to a state that steps alike.
`Stutter` allows any number of them in a row, counted down by a rank.
-/

namespace Voila.Lib

/-- The outcome of one step: the events performed, then a next state or a result. -/
inductive Out (S E R : Type*)
  | next (ev : List E) (s : S)
  | done (ev : List E) (r : R)

/-- A deterministic machine with states `S`, events `E` and results `R`. -/
abbrev Machine (S E R : Type*) := S → Out S E R

variable {S T U E R : Type*}

/-- The run from a state performs the events, and ends with the result if there is one. -/
inductive Sees (M : Machine S E R) : S → List E → Option R → Prop
  | stop (s : S) : Sees M s [] none
  | next {s s' : S} {ev tr : List E} {o : Option R} : M s = .next ev s' → Sees M s' tr o →
      Sees M s (ev ++ tr) o
  | done {s : S} {ev : List E} {r : R} : M s = .done ev r → Sees M s ev (some r)

/-- A run ends one way. -/
theorem Sees.result_unique {M : Machine S E R} {s : S} {tr tr' : List E} {r r' : R}
    (h : Sees M s tr (some r)) (h' : Sees M s tr' (some r')) : r = r' := by
  generalize ho : some r = o at h
  induction h generalizing tr' with
  | stop s => exact absurd ho (by simp)
  | next hs _ ih =>
    cases h' with
    | next hs' hr =>
      obtain ⟨-, rfl⟩ := Out.next.inj (hs.symm.trans hs')
      exact ih hr ho
    | done hs' => exact absurd (hs.symm.trans hs') (by simp)
  | done hs =>
    cases ho
    cases h' with
    | next hs' _ => exact absurd (hs.symm.trans hs') (by simp)
    | done hs' => exact (Out.done.inj (hs.symm.trans hs')).2

/-- The same observations from `s` in `M` and from `t` in `N`. -/
def ObsEq (M : Machine S E R) (N : Machine T E R) (s : S) (t : T) : Prop :=
  ∀ tr o, Sees M s tr o ↔ Sees N t tr o

theorem ObsEq.refl (M : Machine S E R) (s : S) : ObsEq M M s s := fun _ _ => Iff.rfl

theorem ObsEq.symm {M : Machine S E R} {N : Machine T E R} {s : S} {t : T} (h : ObsEq M N s t) :
    ObsEq N M t s := fun tr o => (h tr o).symm

theorem ObsEq.trans {M : Machine S E R} {N : Machine T E R} {P : Machine U E R} {s : S} {t : T}
    {u : U} (h₁ : ObsEq M N s t) (h₂ : ObsEq N P t u) : ObsEq M P s u :=
  fun tr o => (h₁ tr o).trans (h₂ tr o)

/-- The two outcomes perform the same and continue in related states, or end alike. -/
inductive SameOut (Rel : S → T → Prop) : Out S E R → Out T E R → Prop
  | next {ev : List E} {s : S} {t : T} : Rel s t → SameOut Rel (.next ev s) (.next ev t)
  | done {ev : List E} {r : R} : SameOut Rel (.done ev r) (.done ev r)

/-- Related states step alike, after at most one silent step of the first machine. -/
def Skip (M : Machine S E R) (N : Machine T E R) (Rel : S → T → Prop) : Prop :=
  ∀ s t, Rel s t → SameOut Rel (M s) (N t) ∨ ∃ s', M s = .next [] s' ∧ SameOut Rel (M s') (N t)

section

variable {M : Machine S E R} {N : Machine T E R} {Rel : S → T → Prop}

variable {o : Option R} {s : S} {tr : List E} {t : T}

/-- Related states step alike, or the first machine takes a silent step to a state that is still related, of a
smaller rank: it cannot do so for ever. -/
def Stutter (M : Machine S E R) (N : Machine T E R) (Rel : S → T → Prop) (rank : S → T → Nat) : Prop :=
  ∀ s t, Rel s t → SameOut Rel (M s) (N t) ∨ ∃ s', M s = .next [] s' ∧ Rel s' t ∧ rank s' t < rank s t

section

variable {rank : S → T → Nat}

private theorem Stutter.sees_right (h : Stutter M N Rel rank) (hs : Sees M s tr o) :
    ∀ {t : T}, Rel s t → Sees N t tr o := by
  induction hs with
  | stop s => exact fun _ => .stop _
  | @next s s' ev tr o hs _ ih =>
    intro t hst
    rcases h s t hst with hl | ⟨s₁, hs₁, hrel, -⟩
    · rw [hs] at hl
      generalize hn : N t = n at hl
      cases hl with
      | next hr => exact .next hn (ih hr)
    · obtain ⟨rfl, rfl⟩ := Out.next.inj (hs.symm.trans hs₁)
      exact ih hrel
  | @done s ev r hs =>
    intro t hst
    rcases h s t hst with hl | ⟨s₁, hs₁, -⟩
    · rw [hs] at hl
      generalize hn : N t = n at hl
      cases hl with
      | done => exact .done hn
    · exact absurd (hs.symm.trans hs₁) (by simp)

/-- The rank runs out: after finitely many silent steps the first machine steps like the second. -/
private theorem Stutter.reaches (h : Stutter M N Rel rank) (hst : Rel s t) :
    ∃ s', SameOut Rel (M s') (N t) ∧ ∀ tr o, Sees M s' tr o → Sees M s tr o := by
  induction hn : rank s t using Nat.strongRecOn generalizing s with
  | ind n ih =>
    rcases h s t hst with hl | ⟨s₁, hs₁, hrel, hlt⟩
    · exact ⟨s, hl, fun _ _ hs => hs⟩
    · obtain ⟨s', hl, hsees⟩ := ih _ (hn ▸ hlt) hrel rfl
      exact ⟨s', hl, fun tr o hs => by simpa using Sees.next hs₁ (hsees tr o hs)⟩

private theorem Stutter.sees_left (h : Stutter M N Rel rank) (ht : Sees N t tr o) :
    ∀ {s : S}, Rel s t → Sees M s tr o := by
  induction ht with
  | stop t => exact fun _ => .stop _
  | @next t t' ev tr o ht _ ih =>
    intro s hst
    obtain ⟨s', hl, hsees⟩ := h.reaches hst
    rw [ht] at hl
    generalize hm : M s' = n at hl
    cases hl with
    | next hr => exact hsees _ _ (.next hm (ih hr))
  | @done t ev r ht =>
    intro s hst
    obtain ⟨s', hl, hsees⟩ := h.reaches hst
    rw [ht] at hl
    generalize hm : M s' = n at hl
    cases hl with
    | done => exact hsees _ _ (.done hm)

/-- Removing silent steps, however many stand in a row, is not observed. -/
theorem Stutter.obsEq (h : Stutter M N Rel rank) (hst : Rel s t) : ObsEq M N s t :=
  fun _ _ => ⟨fun hs => h.sees_right hs hst, fun ht => h.sees_left ht hst⟩

end

theorem SameOut.mono {Rel' : S → T → Prop} {a : Out S E R} {b : Out T E R} (h : SameOut Rel a b)
    (hle : ∀ s t, Rel s t → Rel' s t) : SameOut Rel' a b := by
  cases h with
  | next hr => exact .next (hle _ _ hr)
  | done => exact .done

open Classical in
/-- Removing silent steps one at a time is not observed: the first machine is about to step like the second, or one
step away from that. -/
theorem Skip.obsEq (h : Skip M N Rel) (hst : Rel s t) : ObsEq M N s t := by
  have stutter : Stutter M N (fun s t => Rel s t ∨ SameOut Rel (M s) (N t))
      fun s t => if SameOut Rel (M s) (N t) then 0 else 1 := by
    intro s t hst
    by_cases hl : SameOut Rel (M s) (N t)
    · exact Or.inl (hl.mono fun _ _ => Or.inl)
    · obtain hl' | ⟨s', hs', hl'⟩ := h s t (hst.resolve_right hl)
      · exact absurd hl' hl
      · refine Or.inr ⟨s', hs', Or.inr hl', ?_⟩
        simp [hl', hl]
  exact stutter.obsEq (Or.inl hst)

/-- Machines that step alike in related states are not told apart. -/
theorem obsEq_of_lockstep (h : ∀ s t, Rel s t → SameOut Rel (M s) (N t))
    (hst : Rel s t) : ObsEq M N s t :=
  Skip.obsEq (fun s t hst => Or.inl (h s t hst)) hst

end

end Voila.Lib
