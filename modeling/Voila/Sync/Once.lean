import Voila.Lib.Guarded
import Voila.Lib.Steps
import Voila.Sync.Native

/-!
# Voila.Sync.Once

`Once.do` of `std/sync`, called by any number of tasks.

A move is one atomic step of one task: a load or a store of `done`, a lock or an unlock of `mu`, or
the end of `f`, which returns or throws as the world outside decides. `f` may call `do` again, so a
task has a stack of calls.
-/

open List

namespace Voila.Sync.OnceDo

open Lib

/-- How a call leaves: the deferred unlock runs on both ways. -/
inductive Leaving
  | returns
  | throws (e : Exn)
  deriving DecidableEq

/-- Where a call of `do` is, about to take its next atomic step. -/
inductive Pc
  /-- `self.done.load() == 1`, before the lock. -/
  | loading
  /-- `self.mu.lock()`. -/
  | locking
  /-- `self.done.load() == 1`, with the lock. -/
  | checking
  /-- In `f()`. -/
  | running
  /-- `self.done.store(1)`. -/
  | storing
  /-- The deferred `self.mu.unlock()`. -/
  | unlocking (how : Leaving)
  deriving DecidableEq

/-- `Once`. -/
structure Once (T : Type*) where
  mu : Mutex T
  done : Int64

/-- `once`. -/
def once {T : Type*} : Once T := ⟨⟨none⟩, 0⟩

/-- What is seen of the calls: the ends of `f`, and the ends of `do`. -/
inductive Event
  | completed
  | failed (e : Exn)
  | returned
  | thrown (e : Exn)
  deriving DecidableEq

/-- What an atomic step leaves: the words, where the call is then unless it is over, and what is
seen. -/
structure Turn (T : Type*) where
  once : Once T
  pc : Option Pc
  events : List Event

variable {T : Type*} [DecidableEq T]

/-- The next atomic step of a call by `t`, with how `f` ends if it is in `f`. -/
def turn (t : T) (o : Once T) (f : Leaving) : Pc → Option (Turn T)
  | .loading =>
    if o.done = 1 then some ⟨o, none, [.returned]⟩ else some ⟨o, some .locking, []⟩
  | .locking =>
    (syncLock t o.mu).map fun
      | .ok mu => ⟨{ o with mu }, some .checking, []⟩
      | .error e => ⟨o, none, [.thrown e]⟩
  | .checking =>
    if o.done = 1 then some ⟨o, some (.unlocking .returns), []⟩ else some ⟨o, some .running, []⟩
  | .running =>
    match f with
    | .returns => some ⟨o, some .storing, [.completed]⟩
    | .throws e => some ⟨o, some (.unlocking (.throws e)), [.failed e]⟩
  | .storing => some ⟨{ o with done := 1 }, some (.unlocking .returns), []⟩
  | .unlocking how =>
    match syncUnlock t o.mu, how with
    | .ok mu, .returns => some ⟨{ o with mu }, none, [.returned]⟩
    | .ok mu, .throws e => some ⟨{ o with mu }, none, [.thrown e]⟩
    | .error e, _ => some ⟨o, none, [.thrown e]⟩

/-- The Once, and the calls that each task is in, the innermost first. -/
structure Sys (T : Type*) where
  once : Once T
  calls : T → List Pc

/-- A task calls `do`, or the innermost of its calls takes its next atomic step. -/
inductive Move (T : Type*)
  | call (t : T)
  | run (t : T) (f : Leaving)

def start : Sys T := ⟨once, fun _ => []⟩

/-- One move. A task that is in a call may begin another from `f` only. -/
def step : Move T → Sys T → Option (List (T × Event) × Sys T)
  | .call t, s =>
    match s.calls t with
    | [] | .running :: _ =>
      some ([], { s with calls := Function.update s.calls t (.loading :: s.calls t) })
    | _ => none
  | .run t f, s =>
    match s.calls t with
    | [] => none
    | pc :: rest =>
      (turn t s.once f pc).map fun r =>
        (r.events.map (t, ·), ⟨r.once, Function.update s.calls t (r.pc.toList ++ rest)⟩)

end Voila.Sync.OnceDo

/-!
What `Once.do` promises to any number of tasks, under any schedule.

A Once is unrun, then `f` has completed and its task is to store, then it has run (`Phase`). Only
the task that holds the mutex is past the lock (`Guarded`), so only it moves the phase on.
-/

namespace Voila.Sync.OnceDo

open Lib

variable {T : Type*}

/-! ### The calls of a task -/

/-- Past the lock, and before the end of the unlock. -/
def Pc.holds : Pc → Bool
  | .loading | .locking => false
  | .checking | .running | .storing | .unlocking _ => true

/-- A task is in one call, or in one from the `f` of another. -/
inductive Stack : List Pc → Prop
  | out : Stack []
  | one (p : Pc) : Stack [p]
  | nested {p : Pc} (h : p.holds = false) : Stack [p, .running]

/-- One of the calls is past the lock. -/
def Inside (calls : List Pc) : Prop := ∃ p ∈ calls, p.holds = true

variable {p : Pc} {rest : List Pc} {e : Exn}

theorem inside_cons : Inside (p :: rest) ↔ p.holds = true ∨ Inside rest := by simp [Inside]

theorem not_inside_nil : ¬ Inside [] := by simp [Inside]

theorem inside_singleton (hp : p.holds = true) : Inside [p] :=
  ⟨p, mem_singleton_self p, hp⟩

/-- Under a call that is past the lock there is no other. -/
theorem Stack.rest_nil (h : Stack (p :: rest)) (hp : p.holds = true) : rest = [] := by
  cases h with
  | one => rfl
  | nested h => rw [h] at hp; cases hp

/-- The next place of the innermost call. -/
theorem Stack.next {p p' : Pc} {rest : List Pc} (h : Stack (p :: rest))
    (hp : p'.holds = true → p.holds = true ∨ rest = []) : Stack (p' :: rest) := by
  cases h with
  | one => exact .one p'
  | nested hp' =>
    cases hholds : p'.holds
    · exact .nested hholds
    · rcases hp hholds with hp | hp
      · rw [hp'] at hp; cases hp
      · cases hp

theorem Stack.tail (h : Stack (p :: rest)) : Stack rest := by
  cases h with
  | one => exact .out
  | nested => exact .one _

theorem Stack.count_running {calls : List Pc} (h : Stack calls) : calls.count .running ≤ 1 := by
  cases h with
  | out => exact Nat.zero_le _
  | one p => exact count_le_length
  | @nested p hp => cases p <;> first | decide | cases hp

/-! ### The life of a Once -/

inductive Phase
  | unrun
  | storing
  | ran

namespace Phase

/-- The value of `done`. -/
def done : Phase → Int64
  | .unrun | .storing => 0
  | .ran => 1

/-- How many times `f` has completed. -/
def completions : Phase → Nat
  | .unrun => 0
  | .storing | .ran => 1

/-- Where calls may be. -/
def allows : Phase → Pc → Bool
  | _, .loading | _, .locking => true
  | .unrun, .checking | .unrun, .running | .unrun, .unlocking (.throws _) => true
  | .storing, .storing => true
  | .ran, .checking | .ran, .unlocking .returns => true
  | _, _ => false

theorem allows_of_outside (ph : Phase) {p : Pc} (h : p.holds = false) : ph.allows p = true := by
  cases p with
  | loading | locking => cases ph <;> rfl
  | checking | running | storing | unlocking => cases h

end Phase

/-- How many times `f` has completed. -/
def completions (tr : List (T × Event)) : Nat := tr.countP fun e => e.2 = .completed

/-- What every state reached is like. -/
structure Sane (ph : Phase) (tr : List (T × Event)) (s : Sys T) : Prop where
  stack : ∀ t, Stack (s.calls t)
  guard : Guarded Inside s.once.mu.owner s.calls
  done : s.once.done = ph.done
  completed : completions tr = ph.completions
  allows : ∀ t, ∀ p ∈ s.calls t, ph.allows p = true
  held : ph = .storing → s.once.mu.owner ≠ none

theorem sane_start : Sane .unrun [] (start : Sys T) where
  stack := fun _ => .out
  guard := .of_outside fun _ => not_inside_nil
  done := rfl
  completed := rfl
  allows := by simp [start]
  held := nofun

variable {s s' : Sys T} {tr ev : List (T × Event)} {m : Move T} {t : T} {ph ph' : Phase} {o : Once T}
  {calls : List Pc}

/-- The mutex is held by the task whose call is past the lock, and that call is its only one. -/
theorem Sane.holder {pc : Pc} (h : Sane ph tr s) (hcalls : s.calls t = pc :: rest)
    (hholds : pc.holds = true) : s.once.mu.owner = some t ∧ rest = [] := by
  refine ⟨h.guard.owner_eq ?_, ?_⟩
  · rw [hcalls]
    exact inside_cons.mpr (.inl hholds)
  · exact (hcalls ▸ h.stack t).rest_nil hholds

variable [DecidableEq T]

/-- The calls of one task have changed, and the Once. -/
theorem Sane.put {ev : List Event} (h : Sane ph tr s) (hstack : Stack calls)
    (hguard : Guarded Inside o.mu.owner (Function.update s.calls t calls)) (hdone : o.done = ph'.done)
    (hcompleted : ph'.completions = ph.completions + ev.count .completed)
    (hallows : ∀ p ∈ calls, ph'.allows p = true)
    (hothers : ph' = ph ∨ s.once.mu.owner = some t) (hheld : ph' = .storing → o.mu.owner ≠ none) :
    Sane ph' (tr ++ ev.map (t, ·)) ⟨o, Function.update s.calls t calls⟩ where
  stack := by
    intro u
    by_cases hu : u = t
    · subst hu; simpa using hstack
    · simpa [hu] using h.stack u
  guard := hguard
  done := hdone
  completed := by
    have hmap : completions (ev.map (t, ·)) = ev.count .completed := by
      simp only [completions, countP_map, List.count]
      exact countP_congr fun e _ => by simp
    rw [hcompleted, ← hmap, ← h.completed]
    exact countP_append
  allows := by
    intro u p hp
    by_cases hu : u = t
    · subst hu
      exact hallows p (by simpa using hp)
    · replace hp : p ∈ s.calls u := by simpa [hu] using hp
      rcases hothers with rfl | howner
      · exact h.allows u p hp
      · -- the phase has moved on, and this task does not hold the mutex
        refine ph'.allows_of_outside (Bool.eq_false_iff.mpr fun hholds => hu ?_)
        have hu' := h.guard.owner_eq (t := u) ⟨p, hp, hholds⟩
        exact Option.some.inj (hu'.symm.trans howner)
  held := hheld

/-- The phase stays, and so does whether the task is past the lock. -/
theorem Sane.stay {ev : List Event} (h : Sane ph tr s) (hstack : Stack calls)
    (hinside : Inside calls ↔ Inside (s.calls t)) (hallows : ∀ p ∈ calls, ph.allows p = true)
    (hev : .completed ∉ ev) :
    Sane ph (tr ++ ev.map (t, ·)) ⟨s.once, Function.update s.calls t calls⟩ := by
  refine h.put hstack (h.guard.stay hinside) h.done ?_ hallows (.inl rfl) h.held
  rw [count_eq_zero_of_not_mem hev]
  rfl

theorem step_call (hm : step (.call t) s = some (ev, s')) :
    (s.calls t = [] ∨ ∃ rest, s.calls t = .running :: rest) ∧ ev = [] ∧
      s' = { s with calls := Function.update s.calls t (.loading :: s.calls t) } := by
  simp only [step] at hm
  split at hm
  next hnil => cases hm; exact ⟨.inl hnil, rfl, rfl⟩
  next rest hrun => cases hm; exact ⟨.inr ⟨rest, hrun⟩, rfl, rfl⟩
  · cases hm

theorem step_run {f : Leaving} (hm : step (.run t f) s = some (ev, s')) :
    ∃ pc rest r, s.calls t = pc :: rest ∧ turn t s.once f pc = some r ∧ ev = r.events.map (t, ·) ∧
      s' = ⟨r.once, Function.update s.calls t (r.pc.toList ++ rest)⟩ := by
  simp only [step] at hm
  split at hm
  · cases hm
  next pc rest hcalls =>
    obtain ⟨r, hr, he⟩ := Option.map_eq_some_iff.mp hm
    cases he
    exact ⟨pc, rest, r, hcalls, hr, rfl, rfl⟩

/-- One atomic step keeps to the phases. -/
theorem Sane.turn {f : Leaving} {pc : Pc} {rest : List Pc} {r : Turn T} (h : Sane ph tr s)
    (hcalls : s.calls t = pc :: rest) (hr : turn t s.once f pc = some r) :
    ∃ ph', Sane ph' (tr ++ r.events.map (t, ·))
      ⟨r.once, Function.update s.calls t (r.pc.toList ++ rest)⟩ := by
  have hstack : Stack (pc :: rest) := hcalls ▸ h.stack t
  have hallowed : ph.allows pc = true := h.allows t pc (by simp [hcalls])
  have hrest : ∀ p ∈ rest, ph.allows p = true := fun p hp => h.allows t p (by simp [hcalls, hp])
  cases pc with
  | loading =>
    have hinside : Inside rest ↔ Inside (s.calls t) := by simp [hcalls, inside_cons, Pc.holds]
    simp only [OnceDo.turn] at hr
    split at hr
    · cases hr
      exact ⟨ph, h.stay hstack.tail hinside hrest (by simp)⟩
    · cases hr
      refine ⟨ph, h.stay (hstack.next nofun) (inside_cons.trans ?_) ?_ (by simp)⟩
      · simpa [Pc.holds] using hinside
      · exact forall_mem_cons.mpr ⟨ph.allows_of_outside rfl, hrest⟩
  | locking =>
    have hinside : Inside rest ↔ Inside (s.calls t) := by simp [hcalls, inside_cons, Pc.holds]
    obtain ⟨res, hres, rfl⟩ := Option.map_eq_some_iff.mp hr
    simp only [syncLock] at hres
    split at hres
    next hfree =>
      cases hres
      have hguard : Guarded Inside none s.calls := hfree ▸ h.guard
      -- with the mutex free, no call of this task is past the lock, so there is only one
      have hnil : rest = [] := by
        have hout : ¬ Inside rest := fun hin => Option.some_ne_none t ((hguard t).mp (hinside.mp hin)).symm
        cases hstack with
        | one => rfl
        | nested => exact absurd (inside_singleton rfl) hout
      subst hnil
      refine ⟨ph, h.put (.one _) (hguard.enter (inside_singleton rfl)) h.done rfl ?_
        (.inl rfl) nofun⟩
      have hph : ph.allows .checking = true := by
        cases ph with
        | unrun | ran => rfl
        | storing => exact absurd hfree (h.held rfl)
      simpa using hph
    · split at hres
      · cases hres
        exact ⟨ph, h.stay hstack.tail hinside hrest (by simp)⟩
      · cases hres
  | checking =>
    obtain ⟨howner, rfl⟩ := h.holder hcalls rfl
    have hinside : ∀ {p : Pc}, p.holds = true → (Inside [p] ↔ Inside (s.calls t)) := by
      intro p hp
      rw [hcalls]
      exact iff_of_true (inside_singleton hp) (inside_singleton rfl)
    simp only [OnceDo.turn] at hr
    have hdone := h.done
    split at hr
    next hset =>
      cases hr
      refine ⟨ph, h.stay (.one _) (hinside rfl) ?_ (by simp)⟩
      have hph : ph.allows (.unlocking .returns) = true := by
        cases ph with
        | ran => rfl
        | unrun | storing => rw [hdone] at hset; exact absurd hset (by decide)
      simpa using hph
    next hunset =>
      cases hr
      refine ⟨ph, h.stay (.one _) (hinside rfl) ?_ (by simp)⟩
      have hph : ph.allows .running = true := by
        cases ph with
        | unrun => rfl
        | storing => cases hallowed
        | ran => exact absurd hdone hunset
      simpa using hph
  | running =>
    obtain ⟨howner, rfl⟩ := h.holder hcalls rfl
    obtain rfl : ph = .unrun := by
      cases ph with
      | unrun => rfl
      | storing | ran => cases hallowed
    have hinside : ∀ {p : Pc}, p.holds = true → (Inside [p] ↔ Inside (s.calls t)) := by
      intro p hp
      rw [hcalls]
      exact iff_of_true (inside_singleton hp) (inside_singleton rfl)
    cases f with
    | returns =>
      cases hr
      exact ⟨.storing, h.put (.one _) (h.guard.stay (hinside rfl)) h.done rfl
        (by simp [Phase.allows]) (.inr howner) fun _ => by rw [howner]; nofun⟩
    | throws e =>
      cases hr
      exact ⟨.unrun, h.stay (.one _) (hinside rfl) (by simp [Phase.allows]) (by simp)⟩
  | storing =>
    obtain ⟨howner, rfl⟩ := h.holder hcalls rfl
    obtain rfl : ph = .storing := by
      cases ph with
      | storing => rfl
      | unrun | ran => cases hallowed
    have hinside : Inside [.unlocking .returns] ↔ Inside (s.calls t) := by
      rw [hcalls]
      exact iff_of_true (inside_singleton rfl) (inside_singleton rfl)
    cases hr
    exact ⟨.ran, h.put (.one _) (h.guard.stay hinside) rfl rfl (by simp [Phase.allows]) (.inr howner)
      nofun⟩
  | unlocking how =>
    obtain ⟨howner, rfl⟩ := h.holder hcalls rfl
    have hguard : Guarded Inside (some t) s.calls := howner ▸ h.guard
    have hleave := hguard.leave not_inside_nil
    have hheld : ph ≠ .storing := by
      intro he
      rw [he] at hallowed
      cases how <;> cases hallowed
    have hunlock : syncUnlock t s.once.mu = .ok ⟨none⟩ := if_pos howner
    simp only [OnceDo.turn, hunlock] at hr
    cases how with
    | returns =>
      cases hr
      exact ⟨ph, h.put .out hleave h.done rfl (by simp) (.inl rfl) fun he => absurd he hheld⟩
    | throws e =>
      cases hr
      exact ⟨ph, h.put .out hleave h.done rfl (by simp) (.inl rfl) fun he => absurd he hheld⟩

theorem Sane.move (h : Sane ph tr s) (hm : step m s = some (ev, s')) : ∃ ph', Sane ph' (tr ++ ev) s' := by
  cases m with
  | call t =>
    obtain ⟨hcalls, rfl, rfl⟩ := step_call hm
    have hinside : Inside (.loading :: s.calls t) ↔ Inside (s.calls t) := by
      simp [inside_cons, Pc.holds]
    have hstack : Stack (.loading :: s.calls t) := by
      rcases hcalls with hnil | ⟨rest, hrun⟩
      · rw [hnil]
        exact .one _
      · obtain ⟨-, rfl⟩ := h.holder hrun rfl
        rw [hrun]
        exact .nested rfl
    have hallows : ∀ p ∈ Pc.loading :: s.calls t, ph.allows p = true :=
      forall_mem_cons.mpr ⟨ph.allows_of_outside rfl, h.allows t⟩
    exact ⟨ph, h.stay hstack hinside hallows (show Event.completed ∉ [] by simp)⟩
  | run t f =>
    obtain ⟨pc, rest, r, hcalls, hr, rfl, rfl⟩ := step_run hm
    exact h.turn hcalls hr

theorem sane_of_run (h : Run step start tr s) : ∃ ph, Sane ph tr s :=
  h.holds (fun tr s => ∃ ph, Sane ph tr s) ⟨_, sane_start⟩ fun _ _ _ _ _ ⟨_, hs⟩ hm => hs.move hm

/-! ### What `do` promises -/

/-- A call returns normally only from a Once that has run. -/
theorem Sane.returned (h : Sane ph tr s) (hm : step m s = some (ev, s')) (hret : (t, .returned) ∈ ev) :
    ph = .ran := by
  cases m with
  | call u =>
    obtain ⟨-, rfl, -⟩ := step_call hm
    cases hret
  | run u f =>
    obtain ⟨pc, rest, r, hcalls, hr, rfl, -⟩ := step_run hm
    obtain ⟨e, he, heq⟩ := mem_map.mp hret
    obtain rfl : e = .returned := (Prod.ext_iff.mp heq).2
    have hdone := h.done
    have hallowed : ph.allows pc = true := h.allows u pc (by simp [hcalls])
    cases pc with
    | loading =>
      simp only [OnceDo.turn] at hr
      split at hr
      next hset =>
        cases ph with
        | ran => rfl
        | unrun | storing => rw [hdone] at hset; exact absurd hset (by decide)
      · cases hr; cases he
    | locking =>
      obtain ⟨res, -, rfl⟩ := Option.map_eq_some_iff.mp hr
      cases res <;> simp at he
    | checking =>
      simp only [OnceDo.turn] at hr
      split at hr <;> cases hr <;> cases he
    | running => cases f <;> cases hr <;> simp at he
    | storing => cases hr; cases he
    | unlocking how =>
      cases how with
      | returns =>
        cases ph with
        | ran => rfl
        | unrun | storing => cases hallowed
      | throws e =>
        simp only [OnceDo.turn] at hr
        split at hr <;> cases hr <;> simp_all

/-- A call whose `f` has thrown unlocks next, and leaves the Once as it was made. -/
theorem Sane.unlocks {e : Exn} (h : Sane ph tr s) (hcalls : s.calls t = [.unlocking (.throws e)])
    (f : Leaving) :
    ∃ s', step (.run t f) s = some ([(t, .thrown e)], s') ∧ s'.once = once ∧ s'.calls t = [] := by
  have howner := (h.holder hcalls rfl).1
  have hdone : s.once.done = 0 := by
    rw [h.done]
    have hallowed : ph.allows (.unlocking (.throws e)) = true := h.allows t _ (by simp [hcalls])
    cases ph with
    | unrun => rfl
    | storing | ran => cases hallowed
  have hunlock : syncUnlock t s.once.mu = .ok ⟨none⟩ := if_pos howner
  refine ⟨⟨{ s.once with mu := ⟨none⟩ }, Function.update s.calls t []⟩, ?_, ?_, ?_⟩
  · simp only [step, hcalls, OnceDo.turn, hunlock]
    rfl
  · show (⟨⟨none⟩, s.once.done⟩ : Once T) = once
    rw [hdone]
    rfl
  · exact Function.update_self ..

/-- It stays there until it unlocks. -/
theorem stays_unlocking {s₁ : Sys T} (hcalls : s₁.calls t = [.unlocking (.throws e)])
    (h : RunIn (fun s => s.calls t ≠ []) step s₁ tr s) : s.calls t = [.unlocking (.throws e)] := by
  refine h.holds (fun _ s => s.calls t = [.unlocking (.throws e)]) hcalls ?_
  intro tr s m ev s' hat _ hm hin
  cases m with
  | call u =>
    obtain ⟨hu, -, rfl⟩ := step_call hm
    have hne : t ≠ u := by
      intro htu
      rw [← htu, hat] at hu
      simp at hu
    exact (Function.update_of_ne hne ..).trans hat
  | run u f =>
    obtain ⟨pc, rest, r, hu, hr, -, rfl⟩ := step_run hm
    by_cases htu : t = u
    · -- the unlock ends the call
      subst htu
      obtain ⟨rfl, rfl⟩ : Pc.unlocking (.throws e) = pc ∧ [] = rest := by simpa [hat] using hu
      refine absurd ?_ hin
      simp only [OnceDo.turn] at hr
      split at hr <;> cases hr <;> simp
    · exact (Function.update_of_ne htu ..).trans hat

theorem step_throws (h : Sane ph tr s) (hcalls : s.calls t = .running :: rest)
    (hm : step (.run t (.throws e)) s = some (ev, s')) : s'.calls t = [.unlocking (.throws e)] := by
  obtain ⟨-, rfl⟩ := h.holder hcalls rfl
  obtain ⟨pc, rest, r, hu, hr, -, rfl⟩ := step_run hm
  obtain ⟨rfl, rfl⟩ : Pc.running = pc ∧ [] = rest := by simpa [hcalls] using hu
  cases hr
  exact Function.update_self ..

/-- `f` completes at most once; no two calls of it overlap; no `do` returns before it has completed;
and a `do` whose `f` throws next unlocks and rethrows, with the Once as it was made. -/
theorem do_once :
    (∀ tr (s : Sys T), Run step start tr s → completions tr ≤ 1) ∧
    (∀ tr (s : Sys T), Run step start tr s →
      (∀ t u, .running ∈ s.calls t → .running ∈ s.calls u → t = u) ∧
      ∀ t, (s.calls t).count .running ≤ 1) ∧
    (∀ pre post (s : Sys T) t, Run step start (pre ++ (t, .returned) :: post) s →
      ∃ u, (u, .completed) ∈ pre) ∧
    (∀ tr (s s₁ : Sys T) t rest e ev, Run step start tr s → s.calls t = .running :: rest →
      step (.run t (.throws e)) s = some (ev, s₁) →
      ∀ tr' s₂, RunIn (fun s => s.calls t ≠ []) step s₁ tr' s₂ →
      ∀ f, ∃ s₃, step (.run t f) s₂ = some ([(t, .thrown e)], s₃) ∧ s₃.once = once ∧
        s₃.calls t = []) := by
  refine ⟨?_, ?_, ?_, ?_⟩
  · intro tr s h
    obtain ⟨ph, hs⟩ := sane_of_run h
    rw [hs.completed]
    cases ph <;> decide
  · intro tr s h
    obtain ⟨ph, hs⟩ := sane_of_run h
    refine ⟨?_, fun t => (hs.stack t).count_running⟩
    intro t u ht hu
    exact hs.guard.unique ⟨_, ht, rfl⟩ ⟨_, hu, rfl⟩
  · intro pre post s t h
    obtain ⟨tr, s₁, m, ev₁, ev₂, s₂, tr', hrun, hm, -, rfl, -⟩ := h.performed
    obtain ⟨ph, hs⟩ := sane_of_run hrun
    obtain rfl := hs.returned (t := t) hm (by simp)
    have hpos : 0 < completions tr := by
      rw [hs.completed]
      decide
    obtain ⟨⟨u, e⟩, hmem, he⟩ := countP_pos_iff.mp hpos
    obtain rfl : e = .completed := by simpa using he
    exact ⟨u, mem_append_left _ hmem⟩
  · intro tr s s₁ t rest e ev h hcalls hm tr' s₂ hin f
    obtain ⟨ph, hs⟩ := sane_of_run h
    have hat := stays_unlocking (step_throws hs hcalls hm) hin
    obtain ⟨ph₂, hs₂⟩ := sane_of_run ((h.move _ hm).append hin.run)
    exact hs₂.unlocks hat f

end Voila.Sync.OnceDo
