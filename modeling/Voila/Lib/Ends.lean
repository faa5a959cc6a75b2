import Mathlib

/-!
# Voila.Lib.Ends

Total and partial correctness of computations with a state that may fail.

`Ends m s Q` says that `m`, run from `s`, does not fail and ends in a result and a
state satisfying `Q`; `Gives m s Q` says that it ends so if it does not fail. The rules
follow the ways computations are put together. A loop is `turns`, which fails when its
count of turns runs out: `Ends.turns` shows that a count above the loop's measure is
enough.
-/

namespace Voila.Lib

variable {σ ε α β γ : Type}

/-- What one turn of a loop decides. -/
inductive Turn (β α : Type)
  /-- Go round again with a new loop state. -/
  | again (x : β)
  /-- Leave the loop with a result. -/
  | stop (y : α)

/-- The run of `m` from `s` ends, in a result and a state satisfying `Q`. -/
def Ends (m : StateT σ (Except ε) α) (s : σ) (Q : α → σ → Prop) : Prop :=
  ∃ a s', m s = .ok (a, s') ∧ Q a s'

theorem Ends.mono {m : StateT σ (Except ε) α} {s : σ} {Q Q' : α → σ → Prop} (h : Ends m s Q)
    (hQ : ∀ a s', Q a s' → Q' a s') : Ends m s Q' := by
  obtain ⟨a, s', hm, hq⟩ := h
  exact ⟨a, s', hm, hQ a s' hq⟩

theorem Ends.pure {a : α} {s : σ} {Q : α → σ → Prop} (h : Q a s) :
    Ends (pure a : StateT σ (Except ε) α) s Q :=
  ⟨a, s, rfl, h⟩

theorem Ends.bind {m : StateT σ (Except ε) α} {g : α → StateT σ (Except ε) β} {s : σ}
    {R : α → σ → Prop} {Q : β → σ → Prop} (hm : Ends m s R)
    (hg : ∀ a s', R a s' → Ends (g a) s' Q) : Ends (m >>= g) s Q := by
  obtain ⟨a, s', hrun, hr⟩ := hm
  obtain ⟨b, s'', hrun', hq⟩ := hg a s' hr
  refine ⟨b, s'', ?_, hq⟩
  show Except.bind (m s) (fun p => g p.1 p.2) = _
  rw [hrun]
  exact hrun'

theorem Ends.ite {c : Prop} [Decidable c] {m m' : StateT σ (Except ε) α} {s : σ}
    {Q : α → σ → Prop} (ht : c → Ends m s Q) (hf : ¬c → Ends m' s Q) :
    Ends (if c then m else m') s Q := by
  split
  · next h => exact ht h
  · next h => exact hf h

/-- At most `n` turns of a loop, failing with `stuck` when they are not enough. -/
def turns (stuck : ε) (body : β → StateT σ (Except ε) (Turn β α)) :
    Nat → β → StateT σ (Except ε) α
  | 0, _ => throw stuck
  | n + 1, x => do
    match ← body x with
    | .again y => turns stuck body n y
    | .stop z => pure z

/-- A loop ends within `n` turns when every turn that goes round again keeps the
invariant and makes the measure smaller, which starts below `n`. -/
theorem Ends.turns {stuck : ε} {body : β → StateT σ (Except ε) (Turn β α)} {Q : α → σ → Prop}
    (I : β → σ → Prop) (size : σ → Nat)
    (hbody : ∀ x s, I x s → Ends (body x) s (fun r s' =>
      (∀ y, r = .again y → I y s' ∧ size s' < size s) ∧ (∀ z, r = .stop z → Q z s'))) :
    ∀ {n : Nat} {x : β} {s : σ}, I x s → size s < n → Ends (turns stuck body n x) s Q
  | 0, _, _, _, hn => absurd hn (Nat.not_lt_zero _)
  | n + 1, x, s, hI, hn => by
    unfold Lib.turns
    refine (hbody x s hI).bind fun r s' hr => ?_
    cases r with
    | again y =>
      obtain ⟨hI', hsize⟩ := hr.1 y rfl
      exact Ends.turns I size hbody hI' (by omega)
    | stop z => exact Ends.pure (hr.2 z rfl)

/-! ### Partial correctness -/

/-- If the run of `m` from `s` ends, its result and state satisfy `Q`. -/
def Gives (m : StateT σ (Except ε) α) (s : σ) (Q : α → σ → Prop) : Prop :=
  ∀ a s', m s = .ok (a, s') → Q a s'

section

variable {m : StateT σ (Except ε) α} {g : α → StateT σ (Except ε) β} {s s' : σ} {a : α}
  {Q R : α → σ → Prop} {P : β → σ → Prop}

theorem Ends.and_gives (h : Ends m s Q) (h' : Gives m s R) :
    Ends m s fun a s' => Q a s' ∧ R a s' := by
  obtain ⟨a, s', hm, hq⟩ := h
  exact ⟨a, s', hm, hq, h' a s' hm⟩

theorem Gives.mono (h : Gives m s Q) (hQ : ∀ a s', Q a s' → R a s') : Gives m s R :=
  fun a s' hm => hQ a s' (h a s' hm)

theorem Gives.pure (h : Q a s) : Gives (Pure.pure a : StateT σ (Except ε) α) s Q := by
  intro _ _ hm
  cases hm
  exact h

theorem Gives.throw {e : ε} : Gives (throw e : StateT σ (Except ε) α) s Q := by
  intro _ _ hm
  cases hm

/-- A run that is known to end so. -/
theorem Gives.of_run (hm : m s = .ok (a, s')) (h : Q a s') : Gives m s Q := by
  intro _ _ hm'
  cases hm.symm.trans hm'
  exact h

theorem Gives.bind (hm : Gives m s R) (hg : ∀ a s', R a s' → Gives (g a) s' P) :
    Gives (m >>= g) s P := by
  intro b s'' hrun
  have hbind : Except.bind (m s) (fun p => g p.1 p.2) = .ok (b, s'') := hrun
  cases hrun' : m s with
  | error e =>
    rw [hrun'] at hbind
    cases hbind
  | ok p =>
    rw [hrun'] at hbind
    exact hg p.1 p.2 (hm p.1 p.2 hrun') b s'' hbind

/-- A first computation whose run is known. -/
theorem Gives.step (hm : m s = .ok (a, s')) (hg : Gives (g a) s' P) : Gives (m >>= g) s P :=
  Gives.bind (Gives.of_run (Q := fun x s'' => a = x ∧ s' = s'') hm ⟨rfl, rfl⟩) fun _ _ hr => by
    obtain ⟨rfl, rfl⟩ := hr
    exact hg

theorem Gives.ite {c : Prop} [Decidable c] {m' : StateT σ (Except ε) α}
    (ht : c → Gives m s Q) (hf : ¬c → Gives m' s Q) : Gives (if c then m else m') s Q := by
  split
  · next h => exact ht h
  · next h => exact hf h

/-- One turn of a loop, and what comes after it. -/
theorem Gives.turns_step {stuck : ε} {body : β → StateT σ (Except ε) (Turn β α)} {x : β}
    (h : Gives (body x) s fun r s' =>
      (∀ y, r = .again y → ∀ k, Gives (Lib.turns stuck body k y) s' Q) ∧
        (∀ z, r = .stop z → Q z s')) :
    ∀ k, Gives (Lib.turns stuck body k x) s Q
  | 0 => Gives.throw
  | k + 1 => by
    unfold Lib.turns
    refine h.bind fun r s' hr => ?_
    cases r with
    | again y => exact hr.1 y rfl k
    | stop z => exact Gives.pure (hr.2 z rfl)

/-- What every turn of a loop keeps holds where the loop ends. -/
theorem Gives.turns {stuck : ε} {body : β → StateT σ (Except ε) (Turn β α)}
    (I : β → σ → Prop) (hbody : ∀ x s, I x s → Gives (body x) s (fun r s' =>
      (∀ y, r = .again y → I y s') ∧ (∀ z, r = .stop z → Q z s'))) :
    ∀ {n : Nat} {x : β} {s : σ}, I x s → Gives (turns stuck body n x) s Q
  | 0, _, _, _ => Gives.throw
  | n + 1, x, s, hI => by
    unfold Lib.turns
    refine (hbody x s hI).bind fun r s' hr => ?_
    cases r with
    | again y => exact Gives.turns I hbody (hr.1 y rfl)
    | stop z => exact Gives.pure (hr.2 z rfl)

end

end Voila.Lib
