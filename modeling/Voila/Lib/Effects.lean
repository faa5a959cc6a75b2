import Mathlib

/-!
# Voila.Lib.Effects

Programs that change a state and may throw, where what threw leaves its state behind.

Three things are said of one. `Agrees`: two programs go the same way. `Within`: the state changes by given
steps only, however the program ends. `Yields`: from a state of some kind it ends well, in such a state. Each has
a rule for what gives a value at once and one for what goes on with a value.
-/

namespace Voila.Lib

variable {ε σ α β γ δ : Type}

theorem bind_at (m : EStateM ε σ α) (f : α → EStateM ε σ β) (s : σ) :
    (m >>= f) s = match m s with
      | .ok a s' => f a s'
      | .error e s' => .error e s' := rfl

/-! ### Agreement -/

/-- Both return, related values, or both throw the same, and the state is the same. -/
inductive Alike (R : α → β → Prop) : EStateM.Result ε σ α → EStateM.Result ε σ β → Prop
  | ok {a : α} {b : β} {s : σ} (h : R a b) : Alike R (.ok a s) (.ok b s)
  | error {e : ε} {s : σ} : Alike R (.error e s) (.error e s)

/-- `m` and `m'` go the same way, to values that `R` relates. -/
def Agrees (R : α → β → Prop) (m : EStateM ε σ α) (m' : EStateM ε σ β) : Prop := ∀ s, Alike R (m s) (m' s)

namespace Agrees

variable {R : α → β → Prop} {m : EStateM ε σ α} {m' : EStateM ε σ β}

theorem pure {a : α} {b : β} (h : R a b) :
    Agrees R (Pure.pure a : EStateM ε σ α) (Pure.pure b) := fun _ => .ok h

theorem bind {S : γ → δ → Prop}
    {f : α → EStateM ε σ γ} {g : β → EStateM ε σ δ} (h : Agrees R m m') (on : ∀ a b, R a b → Agrees S (f a) (g b)) :
    Agrees S (m >>= f) (m' >>= g) := by
  intro s
  rw [bind_at, bind_at]
  have here := h s
  generalize m s = r, m' s = r' at here
  cases here with
  | ok related => exact on _ _ related _
  | error => exact .error

/-- The first program goes on without calling anything. -/
theorem pure_then {S : γ → β → Prop} {f : α → γ}
    (h : Agrees R m m') (on : ∀ a b, R a b → S (f a) b) : Agrees S (m >>= fun a => Pure.pure (f a)) m' := by
  rw [← bind_pure m']
  exact h.bind fun a b related => Agrees.pure (on a b related)

/-- The second program does. -/
theorem then_pure {S : α → γ → Prop} {f : β → γ}
    (h : Agrees R m m') (on : ∀ a b, R a b → S a (f b)) : Agrees S m (m' >>= fun b => Pure.pure (f b)) := by
  rw [← bind_pure m]
  exact h.bind fun a b related => Agrees.pure (on a b related)

theorem same (m : EStateM ε σ α) : Agrees Eq m m := by
  intro s
  cases m s with
  | ok => exact .ok rfl
  | error => exact .error

end Agrees

/-! ### The steps of a program -/

/-- The state changes by steps of `step` until `m` returns, and what it returns is in `Q`, or until one of `throws`
ends it. -/
structure Within (step : σ → σ → Prop) (throws : σ → ε → σ → Prop) (Q : α → Prop) (m : EStateM ε σ α) : Prop where
  ok : ∀ s a s', m s = .ok a s' → Relation.ReflTransGen step s s' ∧ Q a
  error : ∀ s e s', m s = .error e s' → ∃ t, Relation.ReflTransGen step s t ∧ throws t e s'

namespace Within

variable {step : σ → σ → Prop} {throws : σ → ε → σ → Prop}

variable {Q : α → Prop} {m : EStateM ε σ α}

theorem pure {a : α} (h : Q a) : Within step throws Q (Pure.pure a : EStateM ε σ α) where
  ok s b s' eq := by
    cases eq
    exact ⟨.refl, h⟩
  error s e s' eq := by cases eq

theorem bind {P : β → Prop} {f : α → EStateM ε σ β} (h : Within step throws Q m)
    (on : ∀ a, Q a → Within step throws P (f a)) : Within step throws P (m >>= f) where
  ok s b s' eq := by
    rw [bind_at] at eq
    cases first : m s with
    | ok a t =>
      rw [first] at eq
      obtain ⟨steps, result⟩ := h.ok s a t first
      obtain ⟨more, result'⟩ := (on a result).ok t b s' eq
      exact ⟨steps.trans more, result'⟩
    | error e t =>
      rw [first] at eq
      cases eq
  error s e s' eq := by
    rw [bind_at] at eq
    cases first : m s with
    | ok a t =>
      rw [first] at eq
      obtain ⟨steps, result⟩ := h.ok s a t first
      obtain ⟨u, more, thrown⟩ := (on a result).error t e s' eq
      exact ⟨u, steps.trans more, thrown⟩
    | error e' t =>
      rw [first] at eq
      cases eq
      exact h.error s _ _ first

theorem mono {Q P : α → Prop} (h : Within step throws Q m) (weaker : ∀ a, Q a → P a) :
    Within step throws P m where
  ok s a s' eq := (h.ok s a s' eq).imp_right (weaker a)
  error := h.error

end Within

/-! ### What a program yields -/

/-- From a state in `Inv`, `v`, and a state in `Inv`. -/
def Yields (Inv : σ → Prop) (m : EStateM ε σ α) (v : α) : Prop := ∀ s, Inv s → ∃ s', m s = .ok v s' ∧ Inv s'

namespace Yields

variable {Inv : σ → Prop}

theorem pure (v : α) : Yields Inv (Pure.pure v : EStateM ε σ α) v := fun s h => ⟨s, rfl, h⟩

theorem bind {m : EStateM ε σ α} {f : α → EStateM ε σ β} {v : α} {w : β} (h : Yields Inv m v)
    (on : Yields Inv (f v) w) : Yields Inv (m >>= f) w := by
  intro s hs
  obtain ⟨s', eq, hs'⟩ := h s hs
  rw [bind_at, eq]
  exact on s' hs'

end Yields

end Voila.Lib
