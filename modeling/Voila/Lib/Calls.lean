import Mathlib

/-!
# Voila.Lib.Calls

Programs over an interface. A program is a tree: the calls that it makes, and how it goes on with
what each of them gives. It runs on every implementation of the interface.

Two implementations that answer alike the calls that are made give the same run (`run_agrees`), and
what one of them comes to the other one comes to as well if it answers alike on the way
(`calls_reached`).
-/

open List

namespace Voila.Lib

/-- A program that calls `Op`, where `o` gives an `Ans o`, and may fail. -/
inductive Prog (Op : Type) (Ans : Op → Type) (ε α : Type)
  | done (a : α)
  | fail (e : ε)
  | call (o : Op) (k : Ans o → Prog Op Ans ε α)

/-- An implementation of an interface, over its own states. -/
abbrev Impl (Op : Type) (Ans : Op → Type) (ε σ : Type) := (o : Op) → σ → Except ε (Ans o × σ)

namespace Prog

variable {Op : Type} {Ans : Op → Type} {ε σ τ α β : Type}

def bind : Prog Op Ans ε α → (α → Prog Op Ans ε β) → Prog Op Ans ε β
  | done a, f => f a
  | fail e, _ => fail e
  | call o k, f => call o fun x => (k x).bind f

instance : Monad (Prog Op Ans ε) where
  pure := done
  bind := bind

/-- One call. -/
def ask (o : Op) : Prog Op Ans ε (Ans o) := call o done

/-- A computation that calls nothing. -/
def lift : Except ε α → Prog Op Ans ε α
  | .ok a => done a
  | .error e => fail e

def run (h : Impl Op Ans ε σ) : Prog Op Ans ε α → σ → Except ε (α × σ)
  | done a, s => .ok (a, s)
  | fail e, _ => .error e
  | call o k, s => (h o s).bind fun (x, s) => (k x).run h s

/-- The calls of a run, each with the state that it is made in. -/
def calls (h : Impl Op Ans ε σ) : Prog Op Ans ε α → σ → List (Op × σ)
  | done _, _ => []
  | fail _, _ => []
  | call o k, s =>
    (o, s) ::
      match h o s with
      | .ok (x, s) => (k x).calls h s
      | .error _ => []

/-! ### Runs -/

section

variable {h : Impl Op Ans ε σ}

@[simp] theorem run_bind (p : Prog Op Ans ε α) (f : α → Prog Op Ans ε β) (s : σ) :
    (p >>= f).run h s = (p.run h s).bind fun (a, s) => (f a).run h s := by
  show (p.bind f).run h s = _
  induction p generalizing s with
  | done a => rfl
  | fail e => rfl
  | call o k ih =>
    rw [bind, run, run]
    cases h o s with
    | error e => rfl
    | ok p => exact ih p.1 p.2

@[simp] theorem run_ask (o : Op) (s : σ) : (ask o : Prog Op Ans ε (Ans o)).run h s = h o s := by
  rw [ask, run]
  cases h o s <;> rfl

@[simp] theorem run_lift (x : Except ε α) (s : σ) :
    (lift x : Prog Op Ans ε α).run h s = x.map fun a => (a, s) := by
  cases x <;> rfl

/-- What every call keeps holds where calls are made. -/
theorem calls_inv {I : σ → Prop} (keeps : ∀ o s x s', I s → h o s = .ok (x, s') → I s')
    {p : Prog Op Ans ε α} {s : σ} (start : I s) {o : Op} {s' : σ} (mem : (o, s') ∈ p.calls h s) :
    I s' := by
  induction p generalizing s with
  | done a => exact absurd mem not_mem_nil
  | fail e => exact absurd mem not_mem_nil
  | call o₁ k ih =>
    rw [calls] at mem
    cases hc : h o₁ s with
    | error e =>
      rw [hc, mem_singleton] at mem
      obtain ⟨-, rfl⟩ := Prod.mk.inj mem
      exact start
    | ok r =>
      obtain ⟨x, s₁⟩ := r
      rw [hc] at mem
      cases mem with
      | head => exact start
      | tail _ mem => exact ih x (keeps o₁ s x s₁ start hc) mem

end

/-! ### Two implementations -/

/-- The outcomes of a call on two implementations: one failure, or one answer and states that are
related. -/
inductive Agree (R : σ → τ → Prop) : Except ε (α × σ) → Except ε (α × τ) → Prop
  | failed (e : ε) : Agree R (.error e) (.error e)
  | answered (a : α) {s : σ} {t : τ} : R s t → Agree R (.ok (a, s)) (.ok (a, t))

/-- Outcomes that agree have one value. -/
theorem Agree.value {R : σ → τ → Prop} {x : Except ε (α × σ)} {y : Except ε (α × τ)}
    (agree : Agree R x y) : x.map Prod.fst = y.map Prod.fst := by
  cases agree with
  | failed e => rfl
  | answered a _ => rfl

section

variable {R : σ → τ → Prop} {h : Impl Op Ans ε σ} {h' : Impl Op Ans ε τ} {p : Prog Op Ans ε α}
  {s : σ} {t : τ}

/-- Implementations that agree on the calls that the second one comes to have the same run. -/
theorem run_agrees (related : R s t)
    (agree : ∀ o t', (o, t') ∈ p.calls h' t → ∀ s', R s' t' → Agree R (h o s') (h' o t')) :
    Agree R (p.run h s) (p.run h' t) ∧
      ∀ o s', (o, s') ∈ p.calls h s → ∃ t', (o, t') ∈ p.calls h' t ∧ R s' t' := by
  induction p generalizing s t with
  | done a => exact ⟨.answered a related, fun _ _ mem => absurd mem not_mem_nil⟩
  | fail e => exact ⟨.failed e, fun _ _ mem => absurd mem not_mem_nil⟩
  | call o k ih =>
    rw [calls] at agree
    have here := agree o t mem_cons_self s related
    rw [run, run, calls, calls]
    cases hx : h o s with
    | error e =>
      rw [hx] at here
      cases hy : h' o t with
      | ok r => rw [hy] at here; exact absurd here nofun
      | error e' =>
        rw [hy] at here
        cases here
        refine ⟨.failed e, fun o' s' mem => ?_⟩
        obtain ⟨rfl, rfl⟩ := Prod.mk.inj (mem_singleton.mp mem)
        exact ⟨t, mem_cons_self, related⟩
    | ok r =>
      rw [hx] at here
      cases hy : h' o t with
      | error e => rw [hy] at here; cases here
      | ok r' =>
        rw [hy] at here agree
        cases here with
        | answered x next =>
          obtain ⟨same, met⟩ := ih x next fun o' t' mem =>
            agree o' t' (mem_cons_of_mem _ mem)
          refine ⟨same, fun o' s' mem => ?_⟩
          cases mem with
          | head => exact ⟨t, mem_cons_self, related⟩
          | tail _ mem =>
            obtain ⟨t', mem', related'⟩ := met o' s' mem
            exact ⟨t', mem_cons_of_mem _ mem', related'⟩

/-- A call that the second implementation comes to is one that the first one comes to, if it gives
the same answers up to there. -/
theorem calls_reached {o' : Op} {t' : τ} (related : R s t)
    (step : ∀ o t₁ x t₂, h' o t₁ = .ok (x, t₂) → (∃ k : Ans o → Prog Op Ans ε α,
      (o', t') ∈ (k x).calls h' t₂) → ∀ s₁, R s₁ t₁ → ∃ s₂, h o s₁ = .ok (x, s₂) ∧ R s₂ t₂)
    (mem : (o', t') ∈ p.calls h' t) : ∃ s', (o', s') ∈ p.calls h s ∧ R s' t' := by
  induction p generalizing s t with
  | done a => exact absurd mem not_mem_nil
  | fail e => exact absurd mem not_mem_nil
  | call o k ih =>
    rw [calls] at mem ⊢
    cases hy : h' o t with
    | error e =>
      rw [hy, mem_singleton] at mem
      cases mem
      exact ⟨s, mem_cons_self, related⟩
    | ok r =>
      obtain ⟨x, t₂⟩ := r
      rw [hy] at mem
      cases mem with
      | head => exact ⟨s, mem_cons_self, related⟩
      | tail _ mem =>
        obtain ⟨s₂, hx, related₂⟩ := step o t x t₂ hy ⟨k, mem⟩ s related
        obtain ⟨s', mem', related'⟩ := ih x related₂ mem
        rw [hx]
        exact ⟨s', mem_cons_of_mem _ mem', related'⟩

end

end Prog

end Voila.Lib
