import Mathlib

/-!
# Voila.Lib.Guarded

Mutual exclusion: of any number of parties, those inside are the one that holds the lock, or
none when it is free.

What each party may do to it is one of three: stay where it is (`Guarded.stay`), enter when
the lock is free (`Guarded.enter`), or leave (`Guarded.leave`).
-/

namespace Voila.Lib

variable {T P : Type*}

/-- `owner` is inside, and nobody else is. -/
def Guarded (inside : P → Prop) (owner : Option T) (place : T → P) : Prop :=
  ∀ t, inside (place t) ↔ owner = some t

namespace Guarded

variable {inside : P → Prop} {owner : Option T} {place : T → P} {t u : T} {p : P}

theorem owner_eq (h : Guarded inside owner place) (ht : inside (place t)) : owner = some t :=
  (h t).mp ht

theorem unique (h : Guarded inside owner place) (ht : inside (place t)) (hu : inside (place u)) :
    t = u :=
  Option.some.inj ((h.owner_eq ht).symm.trans (h.owner_eq hu))

theorem of_outside (h : ∀ t, ¬ inside (place t)) : Guarded inside none place := by
  intro t
  exact iff_of_false (h t) nofun

variable [DecidableEq T]

/-- A party moves and is inside after it if it was before. -/
theorem stay (h : Guarded inside owner place) (hp : inside p ↔ inside (place t)) :
    Guarded inside owner (Function.update place t p) := by
  intro u
  by_cases hu : u = t
  · subst hu
    rw [Function.update_self, hp]
    exact h u
  · rw [Function.update_of_ne hu]
    exact h u

theorem enter (h : Guarded inside none place) (hp : inside p) :
    Guarded inside (some t) (Function.update place t p) := by
  intro u
  by_cases hu : u = t
  · subst hu
    rw [Function.update_self]
    exact iff_of_true hp rfl
  · rw [Function.update_of_ne hu, h u]
    exact iff_of_false nofun fun he => hu (Option.some.inj he).symm

theorem leave (h : Guarded inside (some t) place) (hp : ¬ inside p) :
    Guarded inside none (Function.update place t p) := by
  intro u
  by_cases hu : u = t
  · subst hu
    rw [Function.update_self]
    exact iff_of_false hp nofun
  · rw [Function.update_of_ne hu, h u]
    exact iff_of_false (fun he => hu (Option.some.inj he).symm) nofun

end Guarded

end Voila.Lib
