import Voila.Rt.TeeStage

/-!
# Voila.Rt.TeeMoves

The moves of a tee have one of a few effects (`Effect`, `step_effect`): a value goes from the producer into
the source, from there into both queues, from a queue into its output, from there to its consumer; or a
channel is closed, the source when nothing is left to send, an output when the source is drained and its
queue empty. What makes them so few is kept by all of them (`Sane.next`).
-/

namespace Voila.Rt.Tee

open Lib

variable {V : Type*}

/-! ### Moves -/

namespace Sys

/-- A task has come to another place, and the channels and the variables are as given. -/
def goes (s : Sys V) (chans : Port → Chan V) (t : Task) (pc : Pc Port V) (rest : Option (List V))
    (stage : Stage V) : Sys V :=
  ⟨⟨chans, Function.update s.world.pcs t pc⟩, rest, stage⟩

section

variable (s : Sys V) (chans : Port → Chan V) (t : Task) (pc : Pc Port V) (rest : Option (List V))
  (stage : Stage V)

@[simp] theorem goes_chans : (s.goes chans t pc rest stage).world.chans = chans := rfl

@[simp] theorem goes_rest : (s.goes chans t pc rest stage).rest = rest := rfl

@[simp] theorem goes_stage : (s.goes chans t pc rest stage).stage = stage := rfl

@[simp] theorem goes_pc : (s.goes chans t pc rest stage).world.pcs t = pc := Function.update_self ..

@[simp] theorem goes_pc_of_ne {t' : Task} (h : t' ≠ t) :
    (s.goes chans t pc rest stage).world.pcs t' = s.world.pcs t' :=
  Function.update_of_ne h _ _

end

/-- The producer is in the call that its variables say. -/
def ProducerAt (rest : Option (List V)) : Pc Port V → Prop
  | .out _ => True
  | .handing k => k = .src ∧ ∃ x xs, rest = some (x :: xs)
  | .sending k x => k = .src ∧ ∃ xs, rest = some (x :: xs)
  | .closing k => k = .src ∧ rest = some []
  | _ => False

/-- What keeps the moves to the few effects there are. -/
structure Sane (s : Sys V) : Prop where
  producer : ProducerAt s.rest (s.world.pcs .producer)
  srcClosed : (s.world.chans .src).closed = s.rest.isNone
  stage : s.stage.Ok
  stagePc : (∃ r, s.world.pcs .stage = .out r) ∨ s.stage.call = some (s.world.pcs .stage)
  input : s.stage.isOpen = false → (s.world.chans .src).closed = true ∧ (s.world.chans .src).count = 0
  outClosed : ∀ o, (s.world.chans (.out o)).closed = (s.stage.lane o).done
  buffered : ∀ o, (s.world.chans (.out o)).isRendezvous = false
  consumer : ∀ o, (∃ r, s.world.pcs (.consumer o) = .out r) ∨
    s.world.pcs (.consumer o) = .receiving (.out o)

variable [Inhabited V]

/-- What a move does: the last is that it is blocked. -/
inductive Effect (s : Sys V) : List (Task × Event Port V) → Sys V → Prop
  | begins {t : Task} {pc : Pc Port V} : s.call t = some pc → (∃ r, s.world.pcs t = .out r) →
      Effect s [] (s.goes s.world.chans t pc s.rest s.stage)
  | sends {x : V} {xs : List V} (room : (s.world.chans .src).count < (s.world.chans .src).cap) :
      s.rest = some (x :: xs) → s.world.pcs .producer = .sending .src x →
      Effect s [(.producer, .placed .src x), (.producer, .sent .src .send false false)]
        (s.goes (Function.update s.world.chans .src ((s.world.chans .src).put x room)) .producer
          (.out (some .sent)) (some xs) s.stage)
  | hands {x : V} {xs : List V} (room : (s.world.chans .src).count < (s.world.chans .src).cap) :
      s.rest = some (x :: xs) → s.world.pcs .producer = .sending .src x →
      Effect s [(.producer, .placed .src x)]
        (s.goes (Function.update s.world.chans .src ((s.world.chans .src).put x room)) .producer
          (.handing .src) s.rest s.stage)
  | handed {x : V} {xs : List V} : s.rest = some (x :: xs) → s.world.pcs .producer = .handing .src →
      Effect s [(.producer, .sent .src .send false false)]
        (s.goes s.world.chans .producer (.out (some .sent)) (some xs) s.stage)
  | ends : s.rest = some [] → s.world.pcs .producer = .closing .src →
      Effect s [(.producer, .shut .src)]
        (s.goes (Function.update s.world.chans .src { s.world.chans .src with closed := true }) .producer
          (.out (some .closed)) none s.stage)
  | takes {o : Output} {v : V} : s.world.pcs (.consumer o) = .receiving (.out o) →
      (s.world.chans (.out o)).items = v :: (s.world.chans (.out o)).shrink.items →
      Effect s [(.consumer o, .took (.out o) v)]
        (s.goes (Function.update s.world.chans (.out o) (s.world.chans (.out o)).shrink) (.consumer o)
          (.out (some (.received v true))) s.rest s.stage)
  | told {o : Output} : s.world.pcs (.consumer o) = .receiving (.out o) →
      (s.world.chans (.out o)).closed = true → (s.world.chans (.out o)).count = 0 →
      Effect s [(.consumer o, .drained (.out o))]
        (s.goes s.world.chans (.consumer o) (.out (some (.received default false))) s.rest s.stage)
  | shuts {o : Output} : s.stage.point = .closing o → s.world.pcs .stage = .closing (.out o) →
      Effect s [(.stage, .shut (.out o))]
        (s.goes (Function.update s.world.chans (.out o) { s.world.chans (.out o) with closed := true }) .stage
          (.out (some .closed)) s.rest (s.stage.back .closed))
  | acts {act : Act V} {chans : Port → Chan V} {ev : List (Event Port V)} {r : Option (V × Bool)} :
      s.stage.point = .turn → (∀ r, s.world.pcs .stage ≠ .out r) → act ∈ s.stage.acts →
      Does s.world.chans act chans ev r → (res : Result V) →
      Effect s (ev.map (.stage, ·)) (s.goes chans .stage (.out (some res)) s.rest (s.stage.after act r))
  | bursts {k : Nat} {chans : Port → Chan V} {ev : List (Event Port V)} {v : V} {ok : Bool} :
      s.stage.point = .burst k → (∀ r, s.world.pcs .stage ≠ .out r) →
      Does s.world.chans .input chans ev (some (v, ok)) → (res : Result V) →
      Effect s (ev.map (.stage, ·))
        (s.goes chans .stage (.out (some res)) s.rest (s.stage.burstInput k v ok))
  | idles {k : Nat} : s.stage.point = .burst k → (∀ r, s.world.pcs .stage ≠ .out r) → (res : Result V) →
      Effect s [] (s.goes s.world.chans .stage (.out (some res)) s.rest s.stage.endTurn)
  | still : Effect s [] s

/-- The move of a task that is blocked. -/
theorem Effect.blocked {s : Sys V} {t : Task} {pc : Pc Port V} (h : s.world.pcs t = pc) :
    Effect s [] (s.goes s.world.chans t pc s.rest s.stage) := by
  unfold goes
  rw [← h, Function.update_eq_self]
  exact .still

/-- A run of a call, from its stretch. -/
theorem step_run {s s' : Sys V} {t : Task} {ev : List (Task × Event Port V)}
    (h : step (.run t) s = some (ev, s')) :
    ∃ st, stretch false s.world.chans (s.world.pcs t) = some st ∧ ev = st.events.map (t, ·) ∧
      s' = match st.pc with
        | .out (some r) => (s.goes st.chans t (.out (some r)) s.rest s.stage).back t r
        | pc => s.goes st.chans t pc s.rest s.stage := by
  simp only [step, Option.bind_eq_bind, Option.bind_eq_some_iff] at h
  obtain ⟨⟨ev', w⟩, hw, h⟩ := h
  obtain ⟨st, hst, same⟩ := Option.map_eq_some_iff.mp hw
  cases same
  refine ⟨st, hst, ?_⟩
  dsimp only at h
  rw [Function.update_self] at h
  cases hpc : st.pc with
  | out r =>
    rw [hpc] at h
    cases r with
    | none => cases h; exact ⟨rfl, rfl⟩
    | some r => cases h; exact ⟨rfl, rfl⟩
  | sending | handing | trying | receiving | closing | selecting | timing =>
    rw [hpc] at h
    cases h
    exact ⟨rfl, rfl⟩

/-- The move of a task whose stretch is known. -/
theorem step_out {s s' : Sys V} {t : Task} {ev : List (Task × Event Port V)} {chans : Port → Chan V}
    (r : Result V) (es : List (Event Port V)) (h : step (.run t) s = some (ev, s'))
    (hst : stretch false s.world.chans (s.world.pcs t) = some ⟨chans, .out (some r), es⟩) :
    ev = es.map (t, ·) ∧ s' = (s.goes chans t (.out (some r)) s.rest s.stage).back t r := by
  obtain ⟨st, hst', rfl, rfl⟩ := step_run h
  rw [hst] at hst'
  cases hst'
  exact ⟨rfl, rfl⟩

theorem step_in {s s' : Sys V} {t : Task} {ev : List (Task × Event Port V)} {chans : Port → Chan V}
    (pc : Pc Port V) (es : List (Event Port V)) (h : step (.run t) s = some (ev, s'))
    (hst : stretch false s.world.chans (s.world.pcs t) = some ⟨chans, pc, es⟩) (inside : ∀ r, pc ≠ .out r) :
    ev = es.map (t, ·) ∧ s' = s.goes chans t pc s.rest s.stage := by
  obtain ⟨st, hst', rfl, rfl⟩ := step_run h
  rw [hst] at hst'
  cases hst'
  refine ⟨rfl, ?_⟩
  cases pc with
  | out r => exact absurd rfl (inside r)
  | sending | handing | trying | receiving | closing | selecting | timing => rfl

theorem call_effect {s s' : Sys V} {t : Task} {ev : List (Task × Event Port V)}
    (h : step (.call t) s = some (ev, s')) : Effect s ev s' := by
  simp only [step, Option.bind_eq_bind, Option.bind_eq_some_iff] at h
  obtain ⟨pc, hcall, ⟨ev', w⟩, hw, h⟩ := h
  cases h
  simp only [World.step] at hw
  split at hw
  · next r outside =>
      split at hw
      · cases hw
        exact .begins hcall ⟨_, outside⟩
      · cases hw
  · cases hw

variable {s s' : Sys V} {ev : List (Task × Event Port V)}

variable {x : V} {o : Output} {c : Chan V} {act : Act V} {es : List (Event Port V)}
  {r : Option (V × Bool)}

omit [Inhabited V] in
theorem back_sent {xs : List V} {chans : Port → Chan V} {pc : Pc Port V}
    (rest : s.rest = some (x :: xs)) :
    (s.goes chans .producer pc s.rest s.stage).back .producer .sent =
      s.goes chans .producer pc (some xs) s.stage := by
  show s.goes chans .producer pc (s.rest.map List.tail) s.stage = _
  rw [rest]
  rfl

omit [Inhabited V] in
theorem producer_call {pc : Pc Port V} (h : s.call .producer = some pc) :
    (∃ x xs, s.rest = some (x :: xs) ∧ pc = .sending .src x) ∨ s.rest = some [] ∧ pc = .closing .src := by
  cases rest : s.rest with
  | none =>
    simp only [Sys.call, rest] at h
    cases h
  | some r =>
    cases r with
    | nil =>
      simp only [Sys.call, rest] at h
      cases h
      exact Or.inr ⟨rfl, rfl⟩
    | cons x xs =>
      simp only [Sys.call, rest] at h
      cases h
      exact Or.inl ⟨x, xs, rfl, rfl⟩

/-- The producer runs. -/
theorem producer_effect (sane : s.Sane) (h : step (.run .producer) s = some (ev, s')) : Effect s ev s' := by
  have opened : ∀ {r}, s.rest = some r → (s.world.chans .src).closed = false := by
    intro r rest
    rw [sane.srcClosed, rest]
    rfl
  have place := sane.producer
  cases hpc : s.world.pcs .producer with
  | out r =>
    obtain ⟨st, hst, -⟩ := step_run h
    rw [hpc] at hst
    cases hst
  | handing k =>
    rw [hpc] at place
    obtain ⟨rfl, x, xs, rest⟩ := place
    by_cases full : (s.world.chans .src).count > 0
    · obtain ⟨rfl, rfl⟩ := step_in (.handing .src) [] h (by
        rw [hpc]
        simp [stretch, handLoop, full, opened rest]
        rfl) (fun r => (by simp))
      exact .blocked hpc
    · obtain ⟨rfl, rfl⟩ := step_out .sent [.sent .src .send false false] h (by
        rw [hpc]
        simp [stretch, handLoop, full, opened rest]
        rfl)
      rw [back_sent rest]
      exact .handed rest hpc
  | sending k x =>
    rw [hpc] at place
    obtain ⟨rfl, xs, rest⟩ := place
    have open_ := opened rest
    by_cases room : (s.world.chans .src).count < (s.world.chans .src).cap
    · have put := (Chan.same_put (v := x) room).2
      by_cases rendezvous : (s.world.chans .src).isRendezvous = true
      · rw [rendezvous] at put
        obtain ⟨rfl, rfl⟩ := step_in (.handing .src) [.placed .src x] h (by
          rw [hpc]
          simp [stretch, chanSend, handLoop, open_, room, put, Chan.count_put]
          rfl) (fun r => (by simp))
        exact .hands room rest hpc
      · rw [Bool.not_eq_true] at rendezvous
        rw [rendezvous] at put
        obtain ⟨rfl, rfl⟩ := step_out .sent
          [.placed .src x, .sent .src .send false false] h (by
            rw [hpc]
            simp [stretch, chanSend, open_, room, put]
            rfl)
        rw [back_sent rest]
        exact .sends room rest hpc
    · obtain ⟨rfl, rfl⟩ := step_in (.sending .src x) [] h (by
        rw [hpc]
        simp [stretch, chanSend, open_, room]
        rfl) (fun r => (by simp))
      exact .blocked hpc
  | closing k =>
    rw [hpc] at place
    obtain ⟨rfl, rest⟩ := place
    have open_ := opened rest
    obtain ⟨rfl, rfl⟩ := step_out .closed [.shut .src] h (by
      rw [hpc]
      simp [stretch, chanClose, open_]
      rfl)
    exact .ends rest hpc
  | trying | receiving | selecting | timing =>
    rw [hpc] at place
    exact place.elim

/-- A consumer runs. -/
theorem consumer_effect (sane : s.Sane) (h : step (.run (.consumer o)) s = some (ev, s')) :
    Effect s ev s' := by
  obtain ⟨r, hpc⟩ | hpc := sane.consumer o
  · obtain ⟨st, hst, -⟩ := step_run h
    rw [hpc] at hst
    cases hst
  · cases htake : (s.world.chans (.out o)).take with
    | some p =>
      obtain ⟨v, c⟩ := p
      obtain ⟨rfl, items⟩ := Chan.take_eq_some htake
      obtain ⟨rfl, rfl⟩ := step_out (.received v true) [.took (.out o) v] h (by
        rw [hpc]
        simp only [stretch, chanRecv, htake]
        rfl)
      exact .takes hpc items
    | none =>
      have empty := Chan.take_eq_none.mp htake
      cases hclosed : (s.world.chans (.out o)).closed with
      | true =>
        obtain ⟨rfl, rfl⟩ := step_out (.received default false) [.drained (.out o)] h (by
          rw [hpc]
          simp only [stretch, chanRecv, htake, hclosed, if_true]
          rfl)
        exact .told hpc hclosed empty
      | false =>
        obtain ⟨rfl, rfl⟩ := step_in (.receiving (.out o)) [] h (by
          rw [hpc]
          simp only [stretch, chanRecv, htake, hclosed, Bool.false_eq_true, if_false]
          rfl) (fun r => (by simp))
        exact .blocked hpc

omit [Inhabited V] in
theorem closing_closable {s : Stage V} (ok : s.Ok) (h : s.point = .closing o) :
    s.closable o = true := by
  have point := ok.point
  rw [h] at point
  cases o with
  | a => exact point
  | b => exact point.1

omit [Inhabited V] in
/-- An output that has something to deliver is open. -/
theorem Sane.opened (sane : s.Sane) (h : (s.stage.lane o).front = some x) :
    (s.world.chans (.out o)).closed = false := by
  rw [sane.outClosed, Bool.eq_false_iff]
  intro done
  rw [Lane.front_eq, (sane.stage.done o done).2] at h
  cases h

omit [Inhabited V] in
theorem turnCall_inside {s : Stage V} {pc : Pc Port V} (h : s.turnCall = some pc) (r : Option (Result V)) :
    pc ≠ .out r := by
  unfold Stage.turnCall at h
  split at h
  · cases h
  · cases h
    exact nofun
  · cases h
    exact nofun
  · cases h
    exact nofun

/-- The stage runs. -/
theorem stage_effect (sane : s.Sane) (h : step (.run .stage) s = some (ev, s')) : Effect s ev s' := by
  obtain ⟨r, hpc⟩ | made := sane.stagePc
  · obtain ⟨st, hst, -⟩ := step_run h
    rw [hpc] at hst
    cases hst
  · unfold Stage.call at made
    split at made
    · next o here =>
        have hpc := (Option.some.inj made).symm
        obtain ⟨-, -, notDone⟩ := Stage.closable_iff.mp (closing_closable sane.stage here)
        have open_ : (s.world.chans (.out o)).closed = false := (sane.outClosed o).trans notDone
        obtain ⟨rfl, rfl⟩ := step_out .closed [.shut (.out o)] h (by
          rw [hpc]
          simp only [stretch, chanClose, open_, Bool.false_eq_true, if_false]
          rfl)
        exact .shuts here hpc
    · next here =>
        have inside := turnCall_inside made
        obtain ⟨blocked, -⟩ | ⟨act, mem, chans, es, r, res, does, hst, back⟩ := turn_run here made
          (fun o x mem => ⟨sane.opened (Stage.deliver_mem_acts.mp mem), sane.buffered o⟩)
        · obtain ⟨rfl, rfl⟩ := step_in _ _ h blocked inside
          exact .blocked rfl
        · obtain ⟨rfl, rfl⟩ := step_out _ _ h hst
          have effect := Effect.acts here inside mem does res
          rw [← back] at effect
          exact effect
    · next k here =>
        have hpc := (Option.some.inj made).symm
        have inside : ∀ r, s.world.pcs .stage ≠ .out r := by
          rw [hpc]
          exact fun r => (by simp)
        have back : ∀ v ok, s.stage.back (.selected 0 (some (v, ok))) = s.stage.burstInput k v ok := by
          intro v ok
          unfold Stage.back
          rw [here]
          rfl
        obtain ⟨v, c, htake, does⟩ | ⟨htake, ⟨closed, does⟩ | ⟨open_, -⟩⟩ := take_does s.world.chans
        · obtain ⟨rfl, rfl⟩ := step_out (.selected 0 (some (v, true))) [.took .src v] h (by
            rw [hpc]
            simp only [stretch, chanSelect, selectCases, htake]
            rfl)
          have effect := Effect.bursts here inside does (.selected 0 (some (v, true)))
          rw [← back] at effect
          exact effect
        · obtain ⟨rfl, rfl⟩ := step_out (.selected 0 (some (default, false))) [.drained .src] h (by
            rw [hpc]
            simp only [stretch, chanSelect, selectCases, htake, closed, if_true]
            rfl)
          have effect := Effect.bursts here inside does (.selected 0 (some (default, false)))
          rw [← back] at effect
          exact effect
        · obtain ⟨rfl, rfl⟩ := step_out (.selected 1 none) [] h (by
            rw [hpc]
            simp only [stretch, chanSelect, selectCases, htake, open_, Bool.false_eq_true, if_false,
              selectDefault]
            rfl)
          have idle : s.stage.back (.selected 1 none) = s.stage.endTurn := by
            unfold Stage.back
            rw [here]
            rfl
          have effect := Effect.idles here inside (.selected 1 none)
          rw [← idle] at effect
          exact effect
    · cases made

/-- Every move has one of the effects. -/
theorem step_effect (sane : s.Sane) {m : Step} (h : step m s = some (ev, s')) : Effect s ev s' := by
  cases m with
  | call t => exact call_effect h
  | run t =>
    cases t with
    | producer => exact producer_effect sane h
    | stage => exact stage_effect sane h
    | consumer o => exact consumer_effect sane h

/-! ### What every move keeps -/

omit [Inhabited V] in
theorem update_out_src {chans : Port → Chan V} :
    Function.update chans (.out o) c .src = chans .src :=
  Function.update_of_ne (by exact nofun) _ _

omit [Inhabited V] in
theorem update_src_out {chans : Port → Chan V} :
    Function.update chans .src c (.out o) = chans (.out o) :=
  Function.update_of_ne (by exact nofun) _ _

omit [Inhabited V] in
theorem closed_put {chans : Port → Chan V} {k : Port} (room : (chans k).count < (chans k).cap)
    (k' : Port) : (Function.update chans k ((chans k).put x room) k').closed = (chans k').closed := by
  by_cases here : k' = k
  · rw [here, Function.update_self]
    rfl
  · rw [Function.update_of_ne here]

omit [Inhabited V] in
theorem closed_shrink {chans : Port → Chan V} (k k' : Port) :
    (Function.update chans k (chans k).shrink k').closed = (chans k').closed := by
  by_cases here : k' = k
  · rw [here, Function.update_self]
    rfl
  · rw [Function.update_of_ne here]

theorem does_closed {chans chans' : Port → Chan V} (h : Does chans act chans' es r) (k : Port) :
    (chans' k).closed = (chans k).closed := by
  cases h with
  | takes => exact closed_shrink .src k
  | told => rfl
  | puts path room => exact closed_put room k

theorem does_acts {chans chans' : Port → Chan V}
    (h : Does chans act chans' es r) : Acts chans chans' es := by
  cases h with
  | takes items => exact .take items
  | told => exact .none (by simp [Event.quiet])
  | puts path room opened => exact .put room opened (by simp [Event.quiet])

/-- What a move does to the channels. -/
theorem Effect.acts_of {s s' : Sys V} {ev : List (Task × Event Port V)} (h : Effect s ev s')
    (srcOpen : s.rest ≠ none → (s.world.chans .src).closed = false)
    (outOpen : ∀ o, s.stage.point = .closing o → (s.world.chans (.out o)).closed = false) :
    ∃ t es, ev = es.map (t, ·) ∧ Acts s.world.chans s'.world.chans es := by
  cases h with
  | begins | idles | still => exact ⟨.stage, [], rfl, .none (by simp)⟩
  | sends room rest =>
    exact ⟨.producer, [_, _], rfl, .put room (srcOpen (by rw [rest]; simp)) (by simp [Event.quiet])⟩
  | hands room rest => exact ⟨.producer, [_], rfl, .put room (srcOpen (by rw [rest]; simp)) (by simp)⟩
  | handed => exact ⟨.producer, [_], rfl, .none (by simp [Event.quiet])⟩
  | ends rest => exact ⟨.producer, [_], rfl, .shut (srcOpen (by rw [rest]; simp))⟩
  | takes _ items => exact ⟨_, [_], rfl, .take items⟩
  | told => exact ⟨_, [_], rfl, .none (by simp [Event.quiet])⟩
  | shuts here => exact ⟨.stage, [_], rfl, .shut (outOpen _ here)⟩
  | acts _ _ _ does => exact ⟨.stage, _, rfl, does_acts does⟩
  | bursts _ _ does => exact ⟨.stage, _, rfl, does_acts does⟩

theorem Sane.acts_of (sane : s.Sane) (h : Effect s ev s') :
    ∃ t es, ev = es.map (t, ·) ∧ Acts s.world.chans s'.world.chans es := by
  refine h.acts_of ?_ ?_
  · intro open_
    rw [sane.srcClosed]
    cases rest : s.rest with
    | none => exact absurd rest open_
    | some r => rfl
  · intro o here
    rw [sane.outClosed]
    exact (Stage.closable_iff.mp (closing_closable sane.stage here)).2.2

/-- The stage after a turn. -/
theorem after_ok {s : Stage V} (base : s.Base) (mem : act ∈ s.acts) {chans chans' : Port → Chan V}
    (h : Does chans act chans' es r) : (s.after act r).Ok := by
  cases h with
  | takes =>
    have opened := Stage.input_mem_acts.mp mem
    have appended := base.append opened
    refine ⟨⟨(appended _).within, (appended _).done⟩, opened⟩
  | told => exact base.told.endTurn
  | puts => exact base.deliver (Stage.deliver_mem_acts.mp mem)

omit [Inhabited V] in
theorem burstInput_ok {s : Stage V} (base : s.Base) (opened : s.isOpen = true) (k : Nat) (v : V) (ok : Bool) :
    (s.burstInput k v ok).Ok := by
  unfold Stage.burstInput
  cases ok with
  | true =>
    rw [if_pos rfl]
    split
    · exact ⟨⟨(base.append opened v).within, (base.append opened v).done⟩, opened⟩
    · exact (base.append opened v).endTurn
  | false => exact base.told.endTurn

omit [Inhabited V] in
theorem shut_ok {s : Stage V} (ok : s.Ok) (h : s.point = .closing o) : (s.back .closed).Ok := by
  have closes := closing_closable ok h
  have base := ok.toBase.shut closes
  have doneHere : (s.shut o).Settled o := by
    intro _ _
    rw [Stage.done_shut, if_pos rfl]
  have point := ok.point
  rw [h] at point
  unfold Stage.back
  rw [h]
  cases o with
  | a => exact base.atCloseB doneHere
  | b =>
    refine base.atTurn fun o => ?_
    cases o with
    | a =>
      intro closed empty
      rw [Stage.done_shut, if_neg (by decide)]
      exact point.2 closed (Lane.front_none.mpr (by
        rw [← Stage.pending_shut .b .a]
        exact Lane.front_none.mp empty))
    | b => exact doneHere

theorem Sane.next_stage (sane : s.Sane) (h : Effect s ev s') : s'.stage.Ok := by
  have base := sane.stage.toBase
  cases h with
  | begins | sends | hands | handed | ends | takes | told | still => exact sane.stage
  | shuts here => exact shut_ok sane.stage here
  | acts _ _ mem does => exact after_ok base mem does
  | bursts here _ _ =>
    have opened := sane.stage.point
    rw [here] at opened
    exact burstInput_ok base opened _ _ _
  | idles => exact base.endTurn

theorem Sane.next_srcClosed (sane : s.Sane) (h : Effect s ev s') :
    (s'.world.chans .src).closed = s'.rest.isNone := by
  have before := sane.srcClosed
  cases h with
  | begins | told | idles | still => exact before
  | sends room rest =>
    rw [rest] at before
    exact (closed_put room .src).trans before
  | hands room rest => exact (closed_put room .src).trans before
  | handed rest =>
    rw [rest] at before
    exact before
  | ends =>
    rw [goes_chans, Function.update_self]
    rfl
  | takes => exact (closed_shrink _ .src).trans before
  | shuts =>
    rw [goes_chans, update_out_src]
    exact before
  | acts _ _ _ does => exact (does_closed does .src).trans before
  | bursts _ _ does => exact (does_closed does .src).trans before

omit [Inhabited V] in
theorem like_back_closed {s : Stage V} (h : s.point = .closing o) :
    Stage.Like (s.shut o) (s.back .closed) := by
  unfold Stage.back
  rw [h]
  cases o with
  | a => exact Stage.like_atCloseB
  | b => exact Stage.like_atTurn

theorem done_after {s : Stage V} {chans chans' : Port → Chan V}
    (h : Does chans act chans' es r) (o : Output) :
    ((s.after act r).lane o).done = (s.lane o).done := by
  cases h with
  | takes => rfl
  | told => exact Stage.like_endTurn.done o
  | puts => exact Stage.done_deliver _ o

omit [Inhabited V] in
theorem done_burstInput {s : Stage V} (k : Nat) (v : V) (ok : Bool) (o : Output) :
    ((s.burstInput k v ok).lane o).done = (s.lane o).done := by
  unfold Stage.burstInput
  split
  · split
    · rfl
    · exact Stage.like_endTurn.done o
  · exact Stage.like_endTurn.done o

theorem Sane.next_outClosed (sane : s.Sane) (h : Effect s ev s') (o : Output) :
    (s'.world.chans (.out o)).closed = (s'.stage.lane o).done := by
  have before := sane.outClosed o
  cases h with
  | begins | handed | told | still => exact before
  | sends | hands | ends =>
    rw [goes_chans, update_src_out]
    exact before
  | takes => exact (closed_shrink _ (.out o)).trans before
  | @shuts o' here =>
    rw [goes_chans, goes_stage, (like_back_closed here).done, Stage.done_shut]
    by_cases same : o = o'
    · rw [same, Function.update_self, if_pos rfl]
    · rw [Function.update_of_ne (fun other => same (Port.out.inj other)), if_neg same]
      exact before
  | acts _ _ _ does => exact (does_closed does (.out o)).trans (before.trans (done_after does o).symm)
  | bursts _ _ does => exact (does_closed does (.out o)).trans (before.trans (done_burstInput _ _ _ o).symm)
  | idles => exact before.trans (Stage.like_endTurn.done o).symm

theorem Sane.next_input (sane : s.Sane) (h : Effect s ev s') (closed : s'.stage.isOpen = false) :
    (s'.world.chans .src).closed = true ∧ (s'.world.chans .src).count = 0 := by
  have before := sane.input
  have given : ∀ {r}, s.rest = some r → s.stage.isOpen = false → False := by
    intro r rest isClosed
    have none := (sane.srcClosed.symm.trans (before isClosed).1)
    rw [rest] at none
    cases none
  cases h with
  | begins | told | still => exact before closed
  | sends room rest => exact (given rest closed).elim
  | hands room rest => exact (given rest closed).elim
  | handed rest => exact (given rest closed).elim
  | ends rest => exact (given rest closed).elim
  | takes =>
    rw [goes_chans, update_out_src]
    exact before closed
  | @shuts o here =>
    rw [goes_chans, update_out_src]
    exact before (Stage.closable_iff.mp (closing_closable sane.stage here)).1
  | acts _ _ mem does =>
    cases does with
    | takes => exact absurd ((Stage.input_mem_acts.mp mem).symm.trans closed) (by decide)
    | told drained empty => exact ⟨drained, empty⟩
    | @puts o x path room opened =>
      have same : (s.stage.deliver o).isOpen = s.stage.isOpen := Stage.like_endTurn.isOpen
      rw [goes_chans, update_out_src]
      exact before (same.symm.trans closed)
  | @bursts k _ _ v ok here _ does =>
    have opened := sane.stage.point
    rw [here] at opened
    cases does with
    | takes =>
      have same : (s.stage.burstInput k v true).isOpen = s.stage.isOpen := by
        unfold Stage.burstInput
        rw [if_pos rfl]
        split
        · rfl
        · exact Stage.like_endTurn.isOpen
      exact absurd (opened.symm.trans (same.symm.trans closed)) (by decide)
    | told drained empty => exact ⟨drained, empty⟩
  | idles here =>
    have opened := sane.stage.point
    rw [here] at opened
    exact absurd (opened.symm.trans (Stage.like_endTurn.isOpen.symm.trans closed)) (by decide)

theorem Sane.next_producer (sane : s.Sane) (h : Effect s ev s') :
    ProducerAt s'.rest (s'.world.pcs .producer) := by
  have before := sane.producer
  cases h with
  | @begins t pc made =>
    cases t with
    | producer =>
      rw [goes_rest, goes_pc]
      obtain ⟨x, xs, rest, rfl⟩ | ⟨rest, rfl⟩ := producer_call made
      · exact ⟨rfl, xs, rest⟩
      · exact ⟨rfl, rest⟩
    | stage | consumer =>
      rw [goes_pc_of_ne _ _ _ _ _ _ (by exact nofun)]
      exact before
  | hands _ rest =>
    rw [goes_pc]
    exact ⟨rfl, _, _, rest⟩
  | sends | handed | ends =>
    rw [goes_pc]
    trivial
  | takes | told | shuts | acts | bursts | idles =>
    rw [goes_pc_of_ne _ _ _ _ _ _ (by exact nofun)]
    exact before
  | still => exact before

theorem Sane.next_stagePc (sane : s.Sane) (h : Effect s ev s') :
    (∃ r, s'.world.pcs .stage = .out r) ∨ s'.stage.call = some (s'.world.pcs .stage) := by
  have before := sane.stagePc
  cases h with
  | @begins t pc made =>
    cases t with
    | stage =>
      rw [goes_stage, goes_pc]
      exact Or.inr made
    | producer | consumer =>
      rw [goes_pc_of_ne _ _ _ _ _ _ (by exact nofun)]
      exact before
  | sends | hands | handed | ends | takes | told =>
    rw [goes_pc_of_ne _ _ _ _ _ _ (by exact nofun)]
    exact before
  | shuts | acts | bursts | idles =>
    rw [goes_pc]
    exact Or.inl ⟨_, rfl⟩
  | still => exact before

theorem Sane.next_consumer (sane : s.Sane) (h : Effect s ev s') (o : Output) :
    (∃ r, s'.world.pcs (.consumer o) = .out r) ∨ s'.world.pcs (.consumer o) = .receiving (.out o) := by
  have before := sane.consumer o
  have other : ∀ {o' chans pc rest stage}, o ≠ o' → ((∃ r,
      (s.goes chans (.consumer o') pc rest stage).world.pcs (.consumer o) = .out r) ∨
      (s.goes chans (.consumer o') pc rest stage).world.pcs (.consumer o) = .receiving (.out o)) := by
    intro o' chans pc rest stage ne
    rw [goes_pc_of_ne _ _ _ _ _ _ fun same => ne (Task.consumer.inj same)]
    exact before
  cases h with
  | @begins t pc made =>
    cases t with
    | consumer o' =>
      by_cases same : o = o'
      · subst same
        rw [goes_pc]
        unfold Sys.call at made
        dsimp only at made
        split at made
        · cases made
        · exact Or.inr (Option.some.inj made).symm
      · exact other same
    | producer | stage =>
      rw [goes_pc_of_ne _ _ _ _ _ _ (by exact nofun)]
      exact before
  | sends | hands | handed | ends | shuts | acts | bursts | idles =>
    rw [goes_pc_of_ne _ _ _ _ _ _ (by exact nofun)]
    exact before
  | @takes o' | @told o' =>
    by_cases same : o = o'
    · subst same
      rw [goes_pc]
      exact Or.inl ⟨_, rfl⟩
    · exact other same
  | still => exact before

/-- Every move keeps the system sane. -/
theorem Sane.next (sane : s.Sane) (h : Effect s ev s') : s'.Sane where
  producer := sane.next_producer h
  srcClosed := sane.next_srcClosed h
  stage := sane.next_stage h
  stagePc := sane.next_stagePc h
  input := sane.next_input h
  outClosed := sane.next_outClosed h
  buffered := by
    intro o
    obtain ⟨t, es, -, acts⟩ := sane.acts_of h
    exact (acts.same (.out o)).2.trans (sane.buffered o)
  consumer := sane.next_consumer h

/-- Where the stage is at the start. -/
theorem start_stage (cap : Int) (xs : List V) :
    (start cap xs).stage = ⟨fun _ => ⟨[], 0, false⟩, true, .turn⟩ := rfl

theorem sane_start (cap : Int) (xs : List V) : (start cap xs).Sane where
  producer := trivial
  srcClosed := rfl
  stage := by
    rw [start_stage]
    exact ⟨⟨fun o => Nat.zero_le _, fun o done => (nomatch done)⟩, rfl, fun o closed => (nomatch closed)⟩
  stagePc := Or.inl ⟨_, rfl⟩
  input := by
    rw [start_stage]
    exact fun closed => (nomatch closed)
  outClosed := by
    rw [start_stage]
    exact fun o => rfl
  buffered := fun o => rfl
  consumer := fun o => Or.inl ⟨_, rfl⟩

end Sys

end Voila.Rt.Tee
