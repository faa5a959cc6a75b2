import Mathlib

/-!
# Voila.Lib.Steps

Runs of a system of several parties, under any schedule.

`step m s` is the move `m` of the system in the state `s`: which party moves, and what the
world outside decides for it. A move that is not open in `s` is `none`. A run performs the
events of its moves, one after the other, and its moves are any at all, so what holds of every
run (`Run.holds`) holds under every schedule.
-/

namespace Voila.Lib

variable {S M E : Type*}

/-- A run from `s₀` performs the events and is in the state. -/
inductive Run (step : M → S → Option (List E × S)) (s₀ : S) : List E → S → Prop
  | start : Run step s₀ [] s₀
  | move {tr ev : List E} {s s' : S} (m : M) :
      Run step s₀ tr s → step m s = some (ev, s') → Run step s₀ (tr ++ ev) s'

/-- The run of a given schedule. -/
def runSchedule (step : M → S → Option (List E × S)) : List M → S → Option (List E × S)
  | [], s => some ([], s)
  | m :: ms, s => do
    let (ev, s') ← step m s
    let (tr, s'') ← runSchedule step ms s'
    return (ev ++ tr, s'')

variable {step : M → S → Option (List E × S)} {s₀ s₁ s s' : S} {tr tr' ev : List E}

/-- What the start has and every move keeps, every state reached has. -/
theorem Run.holds (Inv : List E → S → Prop) (h : Run step s₀ tr s) (start : Inv [] s₀)
    (move : ∀ tr s m ev s', Inv tr s → step m s = some (ev, s') → Inv (tr ++ ev) s') : Inv tr s := by
  induction h with
  | start => exact start
  | move m _ hm ih => exact move _ _ m _ _ ih hm

theorem Run.append (h : Run step s₀ tr s₁) (h' : Run step s₁ tr' s) : Run step s₀ (tr ++ tr') s := by
  induction h' with
  | start => simpa using h
  | move m _ hm ih => rw [← List.append_assoc]; exact ih.move m hm

theorem runSchedule_run (ms : List M) (h : runSchedule step ms s₀ = some (tr, s)) : Run step s₀ tr s := by
  induction ms generalizing s₀ tr with
  | nil =>
    obtain ⟨rfl, rfl⟩ : [] = tr ∧ s₀ = s := by simpa [runSchedule] using h
    exact .start
  | cons m ms ih =>
    simp only [runSchedule, Option.bind_eq_bind, Option.bind_eq_some_iff, Option.pure_def] at h
    obtain ⟨⟨ev, s₁⟩, hm, ⟨tr₁, s₂⟩, hr, he⟩ := h
    obtain ⟨rfl, rfl⟩ : ev ++ tr₁ = tr ∧ s₂ = s := by simpa using he
    exact (Run.start.move m hm).append (ih hr)

/-- A schedule that goes through is a run. -/
theorem run_of_schedule (ms : List M) (h : (runSchedule step ms s₀).map Prod.fst = some tr) :
    ∃ s, Run step s₀ tr s := by
  obtain ⟨⟨tr', s⟩, he, rfl⟩ := Option.map_eq_some_iff.mp h
  exact ⟨s, runSchedule_run ms he⟩

/-- A run in which every state is as `P` says. -/
inductive RunIn (P : S → Prop) (step : M → S → Option (List E × S)) (s₀ : S) : List E → S → Prop
  | start : P s₀ → RunIn P step s₀ [] s₀
  | move {tr ev : List E} {s s' : S} (m : M) :
      RunIn P step s₀ tr s → step m s = some (ev, s') → P s' → RunIn P step s₀ (tr ++ ev) s'

variable {P : S → Prop} {C : M → S → Prop}

theorem RunIn.last (h : RunIn P step s₀ tr s) : P s := by
  cases h <;> assumption

theorem RunIn.run (h : RunIn P step s₀ tr s) : Run step s₀ tr s := by
  induction h with
  | start => exact .start
  | move m _ hm _ ih => exact ih.move m hm

theorem RunIn.holds (Inv : List E → S → Prop) (h : RunIn P step s₀ tr s) (start : Inv [] s₀)
    (move : ∀ tr s m ev s', Inv tr s → P s → step m s = some (ev, s') → P s' → Inv (tr ++ ev) s') :
    Inv tr s := by
  induction h with
  | start => exact start
  | move m hr hm hp ih => exact move _ _ m _ _ ih hr.last hm hp

theorem RunIn.append (h : RunIn P step s₀ tr s₁) (h' : RunIn P step s₁ tr' s) :
    RunIn P step s₀ (tr ++ tr') s := by
  induction h' with
  | start => simpa using h
  | move m _ hm hp ih => rw [← List.append_assoc]; exact ih.move m hm hp

/-- The run of a given schedule, as long as every state is as `P` says. -/
def runScheduleIn (P : S → Prop) [DecidablePred P] (step : M → S → Option (List E × S)) :
    List M → S → Option (List E × S)
  | [], s => if P s then some ([], s) else none
  | m :: ms, s =>
    if P s then do
      let (ev, s') ← step m s
      let (tr, s'') ← runScheduleIn P step ms s'
      return (ev ++ tr, s'')
    else none

theorem runScheduleIn_runIn [DecidablePred P] (ms : List M)
    (h : runScheduleIn P step ms s₀ = some (tr, s)) : RunIn P step s₀ tr s := by
  induction ms generalizing s₀ tr with
  | nil =>
    simp only [runScheduleIn] at h
    split at h
    next hp =>
      obtain ⟨rfl, rfl⟩ : [] = tr ∧ s₀ = s := by simpa using h
      exact .start hp
    · cases h
  | cons m ms ih =>
    simp only [runScheduleIn, Option.bind_eq_bind, Option.pure_def] at h
    split at h
    next hp =>
      simp only [Option.bind_eq_some_iff] at h
      obtain ⟨⟨ev, s₁⟩, hm, ⟨tr₁, s₂⟩, hr, he⟩ := h
      obtain ⟨rfl, rfl⟩ : ev ++ tr₁ = tr ∧ s₂ = s := by simpa using he
      have hrest := ih hr
      have hp₁ : P s₁ := by
        cases ms <;> simp only [runScheduleIn] at hr <;> split at hr <;> first | assumption | cases hr
      exact ((RunIn.start hp).move m hm hp₁).append hrest
    · cases h

/-- A run whose moves are as `C` says, each in the state that it is made in. -/
inductive RunBy (C : M → S → Prop) (step : M → S → Option (List E × S)) (s₀ : S) : List E → S → Prop
  | start : RunBy C step s₀ [] s₀
  | move {tr ev : List E} {s s' : S} (m : M) :
      RunBy C step s₀ tr s → C m s → step m s = some (ev, s') → RunBy C step s₀ (tr ++ ev) s'

theorem RunBy.run (h : RunBy C step s₀ tr s) : Run step s₀ tr s := by
  induction h with
  | start => exact .start
  | move m _ _ hm ih => exact ih.move m hm

theorem RunBy.holds (Inv : S → Prop) (h : RunBy C step s₀ tr s) (start : Inv s₀)
    (move : ∀ s m ev s', Inv s → C m s → step m s = some (ev, s') → Inv s') : Inv s := by
  induction h with
  | start => exact start
  | move m _ hc hm ih => exact move _ m _ _ ih hc hm

theorem RunBy.mono {C C' : M → S → Prop} (hC : ∀ m s, C m s → C' m s) (h : RunBy C step s₀ tr s) :
    RunBy C' step s₀ tr s := by
  induction h with
  | start => exact .start
  | move m _ hc hm ih => exact ih.move m (hC m _ hc) hm

theorem RunBy.append (h : RunBy C step s₀ tr s₁) (h' : RunBy C step s₁ tr' s) :
    RunBy C step s₀ (tr ++ tr') s := by
  induction h' with
  | start => simpa using h
  | move m _ hc hm ih => rw [← List.append_assoc]; exact ih.move m hc hm

/-- Every move of a schedule is as `C` says, in the state that it is made in. -/
def Along (C : M → S → Prop) (step : M → S → Option (List E × S)) : List M → S → Prop
  | [], _ => True
  | m :: ms, s => C m s ∧ ∀ ev s', step m s = some (ev, s') → Along C step ms s'

/-- A schedule goes the same way in two systems that agree on the moves it makes. -/
theorem runSchedule_congr {step' : M → S → Option (List E × S)} (Inv : S → Prop)
    (keep : ∀ m s ev s', Inv s → step m s = some (ev, s') → Inv s')
    (agree : ∀ m s, Inv s → C m s → step m s = step' m s) (ms : List M) (hs : Inv s)
    (h : Along C step ms s) : runSchedule step ms s = runSchedule step' ms s := by
  induction ms generalizing s with
  | nil => rfl
  | cons m ms ih =>
    rw [runSchedule, runSchedule, ← agree m s hs h.1]
    cases hm : step m s with
    | none => rfl
    | some r =>
      show (do let (tr, s'') ← runSchedule step ms r.2; return (r.1 ++ tr, s'')) = _
      rw [ih (keep m s _ _ hs hm) (h.2 _ _ hm)]
      rfl

/-- An event of a run was performed by one of its moves. -/
theorem Run.performed {pre post : List E} {e : E} (h : Run step s₀ (pre ++ e :: post) s) :
    ∃ tr s₁ m ev₁ ev₂ s₂ tr', Run step s₀ tr s₁ ∧ step m s₁ = some (ev₁ ++ e :: ev₂, s₂) ∧
      Run step s₂ tr' s ∧ pre = tr ++ ev₁ ∧ post = ev₂ ++ tr' := by
  generalize htr : pre ++ e :: post = tr₀ at h
  induction h generalizing post with
  | start => simp at htr
  | @move tr ev s s' m hr hm ih =>
    rcases List.append_eq_append_iff.mp htr with ⟨a, ha, hb⟩ | ⟨a, ha, hb⟩
    · cases a with
      | nil =>
        -- the first of the last move's
        have hpre : pre = tr := by simpa using ha.symm
        exact ⟨tr, s, m, [], post, s', [], hr, by rw [hm, hb]; rfl, .start, by simp [hpre],
          by simp⟩
      | cons b a =>
        obtain ⟨rfl, rfl⟩ : e = b ∧ post = a ++ ev := by simpa using hb
        obtain ⟨t, s₁, m₁, ev₁, ev₂, s₂, tr', h₁, h₂, h₃, h₄, h₅⟩ := ih ha.symm
        exact ⟨t, s₁, m₁, ev₁, ev₂, s₂, tr' ++ ev, h₁, h₂, h₃.move m hm, h₄, by simp [h₅]⟩
    · exact ⟨tr, s, m, a, post, s', [], hr, by rw [hm, hb], .start, ha, by simp⟩

end Voila.Lib
