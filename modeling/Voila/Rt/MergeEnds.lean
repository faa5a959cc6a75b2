import Voila.Rt.MergeSound

/-!
# Voila.Rt.MergeEnds

`chan.merge` comes to its end. With its tasks not cancelled and the inputs closed, one of them has a move
until the output is closed, as long as the output is received from (`moves_of_run`), and the moves that they
have left are bounded (`work_le`).
-/

namespace Voila.Rt.Merge

open Lib Program

variable {C E : Type*} {V : Type} {n : Nat}

/-- Only tasks of the world outside are cancelled. -/
def Calm (m : Program.Move (Task E n) (Port C) (Item V)) : Prop := m.cancelled = true → ∃ e, m.task = .env e

/-- The tasks of `merge`. -/
def Own (t : Task E n) : Prop := ∀ e, t ≠ .env e

theorem Calm.own {m : Program.Move (Task E n) (Port C) (Item V)} (calm : Calm m) (own : Own m.task) :
    m.cancelled = false := by
  rw [Bool.eq_false_iff]
  intro cancelled
  obtain ⟨e, outside⟩ := calm cancelled
  exact own e outside

variable [DecidableEq C] [DecidableEq E] {srcs : Fin n → C} {cap : C → Int} {s s' : State C E V n}
  {tr ev : List (Task E n × Event (Port C) (Item V))}

/-! ### Nothing fails -/

/-- Nobody closes the channel of the reports. -/
theorem done_open (h : Run (program srcs).step (start cap) tr s) : (s.world.chans .done).closed = false := by
  rw [Bool.eq_false_iff]
  intro closed
  obtain ⟨t, mem⟩ := (closed_iff_shut (world_of_run h) .done).mp closed
  have deals := deals_of_run h _ mem
  cases t with
  | env e =>
    obtain ⟨c, no⟩ := deals
    cases no
  | forwarder => exact deals
  | closer => cases deals

variable {i : Fin n} {b : Bool} {u : Task E n} {m : Program.Move _ _ _}

/-- The output is open to a forwarder in its loop. -/
theorem out_open (h : Run (program srcs).step (start cap) tr s) (notEnded : fwd s i ≠ .ended) :
    (s.world.chans .out).closed = false := by
  rw [Bool.eq_false_iff]
  intro closed
  exact notEnded (ended_of_closed h closed i)

/-- The call of a forwarder that has left its loop. -/
theorem reporting (h : Run (program srcs).step (start cap) tr s)
    (within : (forward (srcs i) : Copier (Port C) (Item V)).last.Within (s.world.pcs (.forwarder i))) :
    s.world.pcs (.forwarder i) = .sending .done (.int 1) := by
  rcases within with same | ⟨k, v, same, hands⟩
  · exact same
  · cases same
    exact absurd hands (done_buffered h _).2

theorem forwarder_keeps (h : Run (program srcs).step (start cap) tr s)
    (effect : Effect (program srcs) s u b ev s') (calm : u = .forwarder i → b = false)
    (fine : fwd s i ≠ .failed) : fwd s' i ≠ .failed := by
  refine (forward_copies i).keeps (begun_of_run begun_start h) effect calm ?_ ?_ fine
  · intro inLoop
    exact out_open h inLoop.not_ended
  · intro _ st within hst
    rw [reporting h within] at hst
    rcases send_cases hst with ⟨_, -, pc, es, rfl, -, rfl | ⟨-, rfl⟩⟩ | ⟨closed | no, -⟩ | ⟨-, rfl⟩
    · nofun
    · nofun
    · rw [done_open h] at closed
      cases closed
    · cases no
    · nofun

theorem closer_keeps (h : Run (program srcs).step (start cap) tr s)
    (effect : Effect (program srcs) s u b ev s') (calm : u = .closer → b = false)
    (fine : close s ≠ .failed) : close s' ≠ .failed := by
  by_cases hu : u = .closer
  · obtain rfl := calm hu
    rw [hu] at effect
    rcases effect.self with ⟨-, -, -, -, hvars⟩ | ⟨st, hst, -, -, -, hvars⟩ | ⟨no, -⟩
    · rw [close, hvars]
      exact fine
    · rcases closer_within (begun_of_run begun_start h) with ⟨r, out⟩ | call
      · rw [out] at hst
        cases hst
      obtain ⟨again, m, here, ⟨pos, hat⟩ | ⟨neg, hat⟩⟩ := closer_call call
      · rw [hat] at hst
        rw [close, hvars, show s.vars .closer = .left again m from here]
        rcases recv_cases hst with ⟨x, -, rfl⟩ | ⟨-, ⟨-, rfl⟩ | ⟨no, -⟩ | ⟨-, rfl⟩⟩
        · exact fun h => by cases h
        · exact fun h => by cases h
        · cases no
        · exact fun h => by cases h
      · rw [hat] at hst
        rw [close, hvars, show s.vars .closer = .left again m from here]
        rcases close_cases hst with ⟨-, rfl⟩ | ⟨closed, -⟩
        · exact fun h => by cases h
        · -- the output is closed by the closer alone, which is then over
          cases here.symm.trans ((closed_iff_ended h).mp closed)
    · cases no
  · rw [close, (effect.other (Ne.symm hu)).2.1]
    exact fine

/-- A task that is not cancelled does not fail. -/
theorem calm_of_run (h : RunBy (fun m _ => Calm m) (program srcs).step (start cap) tr s) :
    (∀ i, fwd s i ≠ .failed) ∧ close s ≠ .failed := by
  induction h with
  | start => exact ⟨fun i => nofun, nofun⟩
  | move m hrun calm hm ih =>
    have effect := step_effect hm
    refine ⟨fun i => forwarder_keeps hrun.run effect (fun here => calm.own ?_) (ih.1 i),
      closer_keeps hrun.run effect (fun here => calm.own ?_) ih.2⟩
    · rw [here]
      nofun
    · rw [here]
      nofun

/-! ### Until the output is closed something moves -/

/-- There is room for every report. -/
theorem done_room (h : Run (program srcs).step (start cap) tr s) :
    (s.world.chans .done).count < (s.world.chans .done).cap := by
  have put : (accepted .done tr).length ≤ n := by
    rw [length_reports h]
    calc ∑ i, (accepted .done (own (.forwarder i) tr)).length
        ≤ ∑ _i : Fin n, 1 := Finset.sum_le_sum fun i _ => length_report h i
      _ = n := by simp
  have size : (s.world.chans .done).cap = n + 1 := by
    rw [(same_of_run (world_of_run h) .done).cap]
    show chanCap ((n : Int) + 1) = n + 1
    unfold chanCap
    split <;> omega
  have flow := congrArg List.length (flow_of_run (world_of_run h) .done)
  rw [List.length_append, Chan.length_items] at flow
  omega

/-- With the inputs closed and nothing on the output, one of the tasks has a move, until the output is
closed. -/
theorem moves_of_run (h : RunBy (fun m _ => Calm m) (program srcs).step (start cap) tr s)
    (closed : ∀ i, (s.world.chans (.src (srcs i))).closed = true)
    (empty : (s.world.chans .out).count = 0) :
    (s.world.chans .out).closed = true ∨ ∃ t, Own t ∧ Moves (program srcs) s t := by
  obtain ⟨fine, fineCloser⟩ := calm_of_run h
  have begun := begun_of_run begun_start h.run
  by_cases all : ∀ i, fwd s i = .ended
  · by_cases past : close s = .ended
    · exact .inl ((closed_iff_ended h.run).mpr past)
    right
    refine ⟨.closer, nofun, ?_⟩
    obtain ⟨again, m, here⟩ : ∃ again m, close s = .left again m := by
      cases hclose : close s with
      | left again m => exact ⟨again, m, rfl⟩
      | ended => exact absurd hclose past
      | failed => exact absurd hclose fineCloser
    have left : m = n - (received .done tr).length := by
      have counted := counted_of_run h.run
      rwa [here] at counted
    rcases closer_within begun with ⟨r, out⟩ | call
    · -- it begins its next call
      by_cases pos : m > 0
      · have call : (close s).call = some (.receiving .done : Pc (Port C) (Item V)) := by
          rw [here]
          exact if_pos pos
        exact moves_call out call rfl
      · have call : (close s).call = some (.closing .out : Pc (Port C) (Item V)) := by
          rw [here]
          exact if_neg pos
        exact moves_call out call rfl
    · obtain ⟨again', m', here', ⟨pos, hat⟩ | ⟨neg, hat⟩⟩ := closer_call call
      · obtain ⟨rfl, rfl⟩ := Closer.left.inj (here.symm.trans here')
        -- a report is there to be taken, since all have been made
        have held : (s.world.chans .done).count ≠ 0 := by
          intro none
          have reports : (accepted .done tr).length = n := by
            rw [length_reports h.run, Finset.sum_congr rfl fun i _ => by
              rw [(reported_of_run h.run i).1 (all i)]]
            simp
          have flow := congrArg List.length (flow_of_run (world_of_run h.run) .done)
          rw [List.length_append, Chan.length_items, none, Nat.add_zero, reports] at flow
          omega
        have hst : stretch false s.world.chans (s.world.pcs .closer) =
            some (chanRecv false s.world.chans .done) := by
          rw [hat]
          rfl
        refine moves_run hst ?_
        rw [hat]
        rcases recv_cases (show stretch false s.world.chans (.receiving .done) = some _ from rfl) with
          ⟨x, -, h⟩ | ⟨none, -⟩
        · rw [h]
          nofun
        · exact absurd none held
      · have hst : stretch false s.world.chans (s.world.pcs .closer) =
            some (chanClose s.world.chans .out) := by
          rw [hat]
          rfl
        refine moves_run hst ?_
        rw [hat]
        rcases close_cases (b := false)
          (show stretch false s.world.chans (.closing .out) = some _ from rfl) with ⟨-, h⟩ | ⟨-, _, _, h⟩
        · rw [h]
          nofun
        · rw [h]
          nofun
  · right
    obtain ⟨i, notEnded⟩ := not_forall.mp all
    refine ⟨.forwarder i, nofun, ?_⟩
    refine (forward_copies i).moves begun (closed i) empty (out_open h.run notEnded) rfl ?_ notEnded (fine i)
    intro within
    rw [reporting h.run within]
    refine ⟨_, rfl, ?_⟩
    rcases send_cases (show stretch false s.world.chans (.sending .done (.int 1)) = some _ from rfl) with
      ⟨_, -, pc, es, h, -, rfl | ⟨-, rfl⟩⟩ | ⟨-, _, _, h⟩ | ⟨full, -⟩
    · rw [h]
      nofun
    · rw [h]
      nofun
    · rw [h]
      nofun
    · exact absurd (done_room h.run) full

/-! ### The moves that are left -/

/-- What is left for the closer. -/
def closerWork : Closer → Pc (Port C) (Item V) → Nat
  | .left _ m, .out _ => 2 * m.toNat + 2
  | .left _ m, _ => 2 * m.toNat + 1
  | .ended, _ | .failed, _ => 0

/-- What is left for all the tasks. -/
def work (srcs : Fin n → C) (s : State C E V n) : Nat :=
  copiesWork Task.forwarder (fun i => forward (srcs i)) (fun _ => id) s + closerWork (close s) (s.world.pcs .closer)

theorem closerWork_le (h : Run (program srcs).step (start cap) tr s)
    (hm : (program srcs).step m s = some (ev, s')) (hcloser : m.task = .closer) :
    s' = s ∨ closerWork (close s') (s'.world.pcs .closer) < closerWork (close s) (s.world.pcs .closer) := by
  have effect := step_effect hm
  rw [hcloser] at effect
  rcases effect.self with ⟨-, -, ⟨r, out⟩, made, hvars⟩ | ⟨st, hst, rfl, hchans, hpc, hvars⟩ |
    ⟨-, -, hworld, -, left⟩
  · right
    obtain ⟨again, m, here, at_⟩ := closer_call (made.resolve_right nofun)
    have here : s.vars .closer = .left again m := here
    rw [close, hvars, out, close, here]
    rcases at_ with ⟨-, hat⟩ | ⟨-, hat⟩
    · rw [hat]
      exact Nat.lt_succ_self _
    · rw [hat]
      exact Nat.lt_succ_self _
  · rcases closer_within (begun_of_run begun_start h) with ⟨r, out⟩ | call
    · rw [out] at hst
      cases hst
    obtain ⟨again, m, here, ⟨pos, hat⟩ | ⟨neg, hat⟩⟩ := closer_call call
    · have here : s.vars .closer = .left again m := here
      rw [hat] at hst
      rcases recv_cases hst with ⟨x, items, rfl⟩ | ⟨-, ⟨closed, -⟩ | ⟨-, _, _, rfl⟩ | ⟨-, rfl⟩⟩
      · right
        have next : Run _ _ (tr ++ [(.closer, .took .done x)]) s' := h.move _ hm
        obtain rfl := report_eq next (taken_report next)
        rw [close, hvars, hpc, hat, close, here]
        show 2 * (m - 1).toNat + 2 < 2 * m.toNat + 1
        omega
      · rw [done_open h] at closed
        cases closed
      · right
        rw [close, hvars, hpc, hat, close, here]
        exact Nat.succ_pos _
      · left
        refine effect.eq_of_same hchans (hpc.trans hat.symm) (hvars.trans ?_)
        rw [here]
        rfl
    · have here : s.vars .closer = .left again m := here
      right
      rw [hat] at hst
      rcases close_cases hst with ⟨-, rfl⟩ | ⟨-, _, _, rfl⟩
      · rw [close, hvars, hpc, hat, close, here]
        exact Nat.succ_pos _
      · rw [close, hvars, hpc, hat, close, here]
        exact Nat.succ_pos _
  · right
    obtain ⟨failed, m, here⟩ : close s' = .failed ∧ ∃ m, close s = .left true m := closer_cancel left
    rw [failed, here, hworld]
    cases s.world.pcs .closer <;> exact Nat.succ_pos _

/-- With the inputs closed no move leaves more to be done, and every move of the tasks leaves less, unless it
waits. -/
theorem work_le (h : Run (program srcs).step (start cap) tr s)
    (hm : (program srcs).step m s = some (ev, s')) (closed : ∀ i, (s.world.chans (.src (srcs i))).closed = true) :
    work srcs s' ≤ work srcs s ∧ (Own m.task → s' ≠ s → work srcs s' < work srcs s) := by
  have effect := step_effect hm
  obtain ⟨copies, copying⟩ := copiesWork_le forward_copies (begun_of_run begun_start h) effect closed
    (fun i => .inl ⟨.done, .int 1, rfl, nofun⟩) (fun i => nofun)
  have closing : m.task ≠ .closer →
      closerWork (close s') (s'.world.pcs .closer) = closerWork (close s) (s.world.pcs .closer) := by
    intro hcloser
    obtain ⟨hpc, hvars, -⟩ := effect.other (Ne.symm hcloser)
    rw [close, hvars, hpc]
  by_cases hcloser : m.task = .closer
  · rcases closerWork_le h hm hcloser with rfl | less
    · exact ⟨le_rfl, fun _ away => absurd rfl away⟩
    · exact ⟨Nat.add_le_add copies less.le, fun _ _ => Nat.add_lt_add_of_le_of_lt copies less⟩
  · refine ⟨Nat.add_le_add copies (closing hcloser).le, ?_⟩
    intro own away
    cases htask : m.task with
    | env e => exact absurd htask (own e)
    | forwarder i => exact Nat.add_lt_add_of_lt_of_le ((copying i htask).resolve_left away) (closing hcloser).le
    | closer => exact absurd htask hcloser

/-- `merge(srcs)` under any schedule: what it promises of every run, and that with the inputs closed and its
tasks not cancelled it comes to its end, when its output is received from. -/
structure Works (srcs : Fin n → C) (cap : C → Int) (E : Type*) (V : Type) [DecidableEq E] : Prop where
  promise : ∀ tr (s : State C E V n), Run (program srcs).step (start cap) tr s → Promise srcs tr
  moves : ∀ tr (s : State C E V n), RunBy (fun m _ => Calm m) (program srcs).step (start cap) tr s →
    (∀ i, (s.world.chans (.src (srcs i))).closed = true) → (s.world.chans .out).count = 0 →
    (s.world.chans .out).closed = true ∨ ∃ t, Own t ∧ Moves (program srcs) s t
  bounded : ∀ tr (s : State C E V n), Run (program srcs).step (start cap) tr s →
    (∀ i, (s.world.chans (.src (srcs i))).closed = true) →
    ∀ m ev s', (program srcs).step m s = some (ev, s') →
      work srcs s' ≤ work srcs s ∧ (Own m.task → s' ≠ s → work srcs s' < work srcs s)

theorem works (srcs : Fin n → C) (cap : C → Int) : Works srcs cap E V where
  promise _ _ h := promise_of_run h
  moves _ _ h := moves_of_run h
  bounded _ _ h closed _ _ _ hm := work_le h hm closed

end Voila.Rt.Merge
