import Voila.Rt.TeeMoves

/-!
# Voila.Rt.TeeSound

What `chan.tee` delivers: the values of an output are those of the source in order (`Account`).

No move but a blocked one leaves the work that is left as it is (`Sane.work_next`), and while a consumer is not
done some task other than the other consumer has work to do (`Sane.busy`); so an output can be delivered
without the other consumer (`tee_delivers`).
-/

open List

namespace Voila.Rt.Tee

open Lib

variable {V : Type*}

namespace Sys

variable [Inhabited V] {s s' : Sys V} {ev : List (Task × Event Port V)}

/-! ### The account -/

/-- What the producer has not put into the source yet. -/
def unsentAt (rest : Option (List V)) : Pc Port V → List V
  | .handing _ => (rest.getD []).tail
  | _ => rest.getD []

def unsent (s : Sys V) : List V := unsentAt s.rest (s.world.pcs .producer)

/-- The close of an output is one event, behind all values. -/
def ShutOnce (xs : List V) (o : Output) (tr : List (Task × Event Port V)) (done : Bool) : Prop :=
  if done then
    ∃ pre post, tr = pre ++ (.stage, .shut (.out o)) :: post ∧ accepted (.out o) pre = xs ∧
      accepted (.out o) post = [] ∧ ∀ e ∈ pre ++ post, e.2 ≠ .shut (.out o)
  else ∀ e ∈ tr, e.2 ≠ .shut (.out o)

/-- Where the values are, and what has been seen. -/
structure Account (cap : Int) (xs : List V) (tr : List (Task × Event Port V)) (s : Sys V) : Prop where
  run : Run World.step (World.start (caps cap)) tr s.world
  sane : s.Sane
  unsent : accepted .src tr ++ s.unsent = xs
  lanes : ∀ o, accepted (.out o) tr ++ (s.stage.lane o).pending = received .src tr
  shut : ∀ o, ShutOnce xs o tr (s.stage.lane o).done
  told : ∀ o v, s.world.pcs (.consumer o) = .out (some (.received v false)) →
    (.consumer o, .drained (.out o)) ∈ tr
  drained : ∀ o t, (t, .drained (.out o)) ∈ tr →
    (s.world.chans (.out o)).closed = true ∧ (s.world.chans (.out o)).count = 0

variable {act : Act V} {chans chans' : Port → Chan V} {es : List (Event Port V)}
  {r : Option (V × Bool)} {pc : Pc Port V} {ok : Bool} {v : V} {m : Step} {o : Output}

theorem accepted_src_does (h : Does chans act chans' es r) (t : Task) :
    accepted .src (es.map (t, ·)) = [] := by
  cases h with
  | takes => rfl
  | told => rfl
  | puts => simp [accepted]

omit [Inhabited V] in
theorem unsentAt_call {s : Sys V} (h : s.call .producer = some pc) :
    unsentAt s.rest pc = s.rest.getD [] := by
  obtain ⟨x, xs, rest, rfl⟩ | ⟨rest, rfl⟩ := producer_call h
  · rfl
  · rfl

/-- A move puts into the source what the producer then has sent. -/
theorem Effect.unsent {s s' : Sys V} {ev : List (Task × Event Port V)} (h : Effect s ev s') :
    accepted .src ev ++ s'.unsent = s.unsent := by
  unfold Sys.unsent
  cases h with
  | @begins t pc made outside =>
    cases t with
    | producer =>
      obtain ⟨r, outside⟩ := outside
      rw [goes_pc, goes_rest, outside, unsentAt_call made]
      rfl
    | stage | consumer =>
      rw [goes_pc_of_ne _ _ _ _ _ _ (by exact nofun)]
      rfl
  | sends _ rest here =>
    rw [goes_pc, goes_rest, rest, here]
    simp [accepted, unsentAt]
  | hands _ rest here =>
    rw [goes_pc, goes_rest, rest, here]
    simp [accepted, unsentAt]
  | handed rest here =>
    rw [goes_pc, goes_rest, rest, here]
    rfl
  | ends rest here =>
    rw [goes_pc, goes_rest, rest, here]
    rfl
  | takes | told | shuts | idles =>
    rw [goes_pc_of_ne _ _ _ _ _ _ (by exact nofun)]
    rfl
  | acts _ _ _ does =>
    rw [goes_pc_of_ne _ _ _ _ _ _ (by exact nofun), accepted_src_does does]
    rfl
  | bursts _ _ does =>
    rw [goes_pc_of_ne _ _ _ _ _ _ (by exact nofun), accepted_src_does does]
    rfl
  | still => rfl

/-- What a turn does to a queue. -/
theorem lanes_after {s : Stage V} (base : s.Base)
    (mem : act ∈ s.acts) (h : Does chans act chans' es r) (o : Output) :
    accepted (.out o) (es.map (Task.stage, ·)) ++ ((s.after act r).lane o).pending =
      (s.lane o).pending ++ received .src (es.map (Task.stage, ·)) := by
  cases h with
  | takes =>
    rw [show (s.after .input (some (_, true))).lane o = (s.append _).lane o from rfl,
      Stage.pending_append base]
    simp [accepted, received]
  | told =>
    rw [show s.after .input (some (default, false)) = ({ s with isOpen := false } : Stage V).endTurn from rfl,
      Stage.like_endTurn.pending]
    simp [accepted, received]
  | @puts o' x =>
    rw [Stage.pending_deliver (Stage.deliver_mem_acts.mp mem) o]
    by_cases same : o = o'
    · simp [accepted, received, same, Stage.after]
    · simp [accepted, received, same, Ne.symm same, Stage.after]

theorem lanes_burst {s : Stage V} (base : s.Base) (h : Does chans .input chans' es (some (v, ok)))
    (k : Nat) (o : Output) :
    accepted (.out o) (es.map (Task.stage, ·)) ++ ((s.burstInput k v ok).lane o).pending =
      (s.lane o).pending ++ received .src (es.map (Task.stage, ·)) := by
  cases h with
  | takes =>
    have appended : ((s.burstInput k v true).lane o).pending = ((s.append v).lane o).pending := by
      unfold Stage.burstInput
      rw [if_pos rfl]
      split
      · rfl
      · exact Stage.like_endTurn.pending o
    rw [appended, Stage.pending_append base]
    simp [accepted, received]
  | told =>
    rw [show s.burstInput k default false = ({ s with isOpen := false } : Stage V).endTurn from rfl,
      Stage.like_endTurn.pending]
    simp [accepted, received]

/-- A move puts into an output what the stage then has delivered, and into both queues what it has
received. -/
theorem Effect.lanes {s s' : Sys V} {ev : List (Task × Event Port V)} (sane : s.Sane) (h : Effect s ev s')
    (o : Output) :
    accepted (.out o) ev ++ (s'.stage.lane o).pending = (s.stage.lane o).pending ++ received .src ev := by
  have base := sane.stage.toBase
  cases h with
  | begins | sends | hands | handed | ends | takes | told | still => simp [accepted, received]
  | shuts here =>
    rw [goes_stage, (like_back_closed here).pending, Stage.pending_shut]
    simp [accepted, received]
  | acts _ _ mem does => exact lanes_after base mem does o
  | bursts _ _ does => exact lanes_burst base does _ o
  | idles =>
    rw [goes_stage, Stage.like_endTurn.pending]
    simp [accepted, received]

/-- A move closes an output only when that is due. -/
theorem Effect.shut {s s' : Sys V} {ev : List (Task × Event Port V)} (sane : s.Sane) (h : Effect s ev s')
    (o : Output) :
    ((s'.stage.lane o).done = (s.stage.lane o).done ∧ ∀ e ∈ ev, e.2 ≠ .shut (.out o)) ∨
      ev = [(.stage, .shut (.out o))] ∧ s.stage.closable o = true ∧ (s'.stage.lane o).done = true := by
  have quiet : ∀ {act : Act V} {chans es r}, Does s.world.chans act chans es r →
      ∀ e ∈ es.map (Task.stage, ·), e.2 ≠ .shut (.out o) := by
    intro act chans es r does
    cases does with
    | takes => simp
    | told => simp
    | puts => simp
  cases h with
  | begins | sends | hands | handed | ends | takes | told | still => exact Or.inl ⟨rfl, by simp⟩
  | @shuts o' here =>
    rw [goes_stage, (like_back_closed here).done, Stage.done_shut]
    by_cases same : o = o'
    · rw [if_pos same, same]
      exact Or.inr ⟨rfl, closing_closable sane.stage here, rfl⟩
    · rw [if_neg same]
      exact Or.inl ⟨rfl, by simpa using Ne.symm same⟩
  | acts _ _ _ does => exact Or.inl ⟨done_after does o, quiet does⟩
  | bursts _ _ does => exact Or.inl ⟨done_burstInput _ _ _ o, quiet does⟩
  | idles => exact Or.inl ⟨Stage.like_endTurn.done o, by simp⟩

omit [Inhabited V] in
/-- A channel that is closed and empty stays so. -/
theorem closed_empty (h : Acts chans chans' es)
    {k : Port} (closed : (chans k).closed = true) (empty : (chans k).count = 0) :
    (chans' k).closed = true ∧ (chans' k).count = 0 := by
  refine ⟨(h.closed (t := Task.stage) closed).1, ?_⟩
  cases h with
  | none => exact empty
  | @put k' v _ room opened =>
    by_cases same : k = k'
    · subst same
      exact absurd (closed.symm.trans opened) (by decide)
    · rw [Function.update_of_ne same]
      exact empty
  | @take k' v items =>
    by_cases same : k = k'
    · subst same
      have some_ := congrArg List.length items
      rw [Chan.length_items, empty] at some_
      cases some_
    · rw [Function.update_of_ne same]
      exact empty
  | @shut k' opened =>
    by_cases same : k = k'
    · subst same
      exact absurd (closed.symm.trans opened) (by decide)
    · rw [Function.update_of_ne same]
      exact empty

variable {cap : Int} {xs : List V} {tr : List (Task × Event Port V)}

/-- Once the stage knows that the source is closed it has received all there is. -/
theorem Account.complete (acc : Account cap xs tr s) (closed : s.stage.isOpen = false) :
    received .src tr = xs := by
  obtain ⟨srcClosed, empty⟩ := acc.sane.input closed
  have flow := flow_of_run acc.run .src
  have items : (s.world.chans .src).items = [] := by
    rw [← length_eq_zero_iff, Chan.length_items, empty]
  have none : s.rest = none := by
    rw [← Option.isNone_iff_eq_none, ← acc.sane.srcClosed]
    exact srcClosed
  have unsent : s.unsent = [] := by
    unfold Sys.unsent unsentAt
    rw [none]
    split
    · rfl
    · rfl
  have all := acc.unsent
  rw [unsent, append_nil, flow, items, append_nil] at all
  exact all

theorem Account.next_shut (acc : Account cap xs tr s) (h : Effect s ev s') (o : Output) :
    ShutOnce xs o (tr ++ ev) (s'.stage.lane o).done := by
  have before := acc.shut o
  have after := h.shut acc.sane o
  unfold ShutOnce at before ⊢
  obtain ⟨same, quiet⟩ | ⟨rfl, closes, done⟩ := after
  · rw [same]
    cases hdone : (s.stage.lane o).done with
    | true =>
      rw [hdone, if_pos rfl] at before
      rw [if_pos rfl]
      obtain ⟨pre, post, rfl, all, none, once⟩ := before
      obtain ⟨t, es, rfl, acts⟩ := acc.sane.acts_of h
      have closed : (s.world.chans (.out o)).closed = true := (acc.sane.outClosed o).trans hdone
      refine ⟨pre, post ++ es.map (t, ·), by simp, all, ?_, ?_⟩
      · rw [accepted_append, none, (acts.closed closed).2]
        rfl
      · intro e he
        rw [← append_assoc] at he
        exact (mem_append.mp he).elim (once e) (quiet e)
    | false =>
      rw [hdone, if_neg (by decide)] at before
      rw [if_neg (by decide)]
      exact fun e he => (mem_append.mp he).elim (before e) (quiet e)
  · obtain ⟨closed, empty, notDone⟩ := Stage.closable_iff.mp closes
    rw [notDone, if_neg (by decide)] at before
    have lane := acc.lanes o
    rw [empty, append_nil, acc.complete closed] at lane
    rw [done, if_pos rfl]
    refine ⟨tr, [], rfl, lane, rfl, ?_⟩
    rw [append_nil]
    exact before

theorem Account.next_told (acc : Account cap xs tr s) (h : Effect s ev s') (o : Output) (v : V)
    (here : s'.world.pcs (.consumer o) = .out (some (.received v false))) :
    (.consumer o, .drained (.out o)) ∈ tr ++ ev := by
  rw [mem_append]
  have before := acc.told o v
  have other : ∀ {o' chans pc rest stage}, o ≠ o' →
      (s.goes chans (.consumer o') pc rest stage).world.pcs (.consumer o) = .out (some (.received v false)) →
      (.consumer o, .drained (.out o)) ∈ tr := by
    intro o' chans pc rest stage ne here
    rw [goes_pc_of_ne _ _ _ _ _ _ fun same => ne (Task.consumer.inj same)] at here
    exact before here
  cases h with
  | @begins t pc made =>
    cases t with
    | consumer o' =>
      by_cases same : o = o'
      · subst same
        rw [goes_pc] at here
        unfold Sys.call at made
        dsimp only at made
        split at made
        · cases made
        · cases made
          cases here
      · exact Or.inl (other same here)
    | producer | stage =>
      rw [goes_pc_of_ne _ _ _ _ _ _ (by exact nofun)] at here
      exact Or.inl (before here)
  | sends | hands | handed | ends | shuts | acts | bursts | idles =>
    rw [goes_pc_of_ne _ _ _ _ _ _ (by exact nofun)] at here
    exact Or.inl (before here)
  | @takes o' =>
    by_cases same : o = o'
    · subst same
      rw [goes_pc] at here
      cases here
    · exact Or.inl (other same here)
  | @told o' =>
    by_cases same : o = o'
    · subst same
      exact Or.inr mem_cons_self
    · exact Or.inl (other same here)
  | still => exact Or.inl (before here)

theorem Account.next_drained (acc : Account cap xs tr s) (h : Effect s ev s') (o : Output) (t : Task)
    (here : (t, .drained (.out o)) ∈ tr ++ ev) :
    (s'.world.chans (.out o)).closed = true ∧ (s'.world.chans (.out o)).count = 0 := by
  obtain before | now := mem_append.mp here
  · obtain ⟨closed, empty⟩ := acc.drained o t before
    obtain ⟨_, _, -, acts⟩ := acc.sane.acts_of h
    exact closed_empty acts closed empty
  · have quiet : ∀ {act : Act V} {chans es r}, Does s.world.chans act chans es r →
        (t, .drained (.out o)) ∉ es.map (Task.stage, ·) := by
      intro act chans es r does
      cases does with
      | takes => simp
      | told => simp
      | puts => simp
    cases h with
    | begins | idles | still => cases now
    | sends | hands | handed | ends | takes | shuts => simp at now
    | told _ closed empty =>
      simp only [mem_singleton, Prod.mk.injEq, Event.drained.injEq, Port.out.injEq] at now
      rw [goes_chans, now.2]
      exact ⟨closed, empty⟩
    | acts _ _ _ does => exact absurd now (quiet does)
    | bursts _ _ does => exact absurd now (quiet does)

omit [Inhabited V] in
@[simp] theorem back_world (t : Task) (r : Result V) : (s.back t r).world = s.world := by
  cases t with
  | producer =>
    cases r with
    | sent | refused | received | closed | selected | thrown => rfl
  | stage | consumer => rfl

/-- The moves of the programs are moves of the channels. -/
theorem step_world (h : step m s = some (ev, s')) :
    ∃ m', World.step m' s.world = some (ev, s'.world) := by
  cases m with
  | call t =>
    simp only [step, Option.bind_eq_bind, Option.bind_eq_some_iff] at h
    obtain ⟨pc, -, ⟨ev', w⟩, hw, h⟩ := h
    cases h
    exact ⟨_, hw⟩
  | run t =>
    simp only [step, Option.bind_eq_bind, Option.bind_eq_some_iff] at h
    obtain ⟨⟨ev', w⟩, hw, h⟩ := h
    refine ⟨.run t false, ?_⟩
    rw [hw]
    dsimp only at h
    split at h
    · cases h
      rw [back_world]
    · cases h
      rfl

/-- The account is kept by every move. -/
theorem Account.next (acc : Account cap xs tr s) {m : Step} (hm : step m s = some (ev, s')) :
    Account cap xs (tr ++ ev) s' := by
  have h := step_effect acc.sane hm
  obtain ⟨m', hw⟩ := step_world hm
  exact {
    run := acc.run.move m' hw
    sane := acc.sane.next h
    unsent := by
      rw [accepted_append, append_assoc, h.unsent]
      exact acc.unsent
    lanes := by
      intro o
      rw [accepted_append, received_append, append_assoc, h.lanes acc.sane o, ← append_assoc,
        acc.lanes o]
    shut := acc.next_shut h
    told := acc.next_told h
    drained := acc.next_drained h }

theorem account_start (cap : Int) (xs : List V) : Account cap xs [] (start cap xs) where
  run := .start
  sane := sane_start cap xs
  unsent := rfl
  lanes := fun o => by
    rw [start_stage]
    rfl
  shut := fun o => by
    rw [start_stage]
    exact fun e none => (nomatch none)
  told := fun o v told => (nomatch told)
  drained := fun o t none => (nomatch none)

theorem account_of_run (h : Run step (start cap xs) tr s) : Account cap xs tr s :=
  h.holds (Account cap xs) (account_start cap xs) fun _ _ _ _ _ acc hm => acc.next hm

/-- What an output has given out comes first in what was sent. -/
theorem Account.order (acc : Account cap xs tr s) (o : Output) : received (.out o) tr <+: xs := by
  have out := flow_of_run acc.run (.out o)
  have src := flow_of_run acc.run .src
  refine ⟨(s.world.chans (.out o)).items ++ ((s.stage.lane o).pending ++
    ((s.world.chans .src).items ++ s.unsent)), ?_⟩
  calc received (.out o) tr ++ ((s.world.chans (.out o)).items ++ ((s.stage.lane o).pending ++
        ((s.world.chans .src).items ++ s.unsent)))
      = (accepted (.out o) tr ++ (s.stage.lane o).pending) ++
          ((s.world.chans .src).items ++ s.unsent) := by rw [out]; simp only [append_assoc]
    _ = accepted .src tr ++ s.unsent := by rw [acc.lanes o, src]; simp only [append_assoc]
    _ = xs := acc.unsent

/-- Whoever is told of the close has received all. -/
theorem Account.all (acc : Account cap xs tr s) {o : Output} {t : Task}
    (told : (t, .drained (.out o)) ∈ tr) : received (.out o) tr = xs := by
  obtain ⟨closed, empty⟩ := acc.drained o t told
  have items : (s.world.chans (.out o)).items = [] := by
    rw [← length_eq_zero_iff, Chan.length_items, empty]
  have flow := flow_of_run acc.run (.out o)
  rw [items, append_nil] at flow
  have shut := acc.shut o
  unfold ShutOnce at shut
  rw [← acc.sane.outClosed, closed, if_pos rfl] at shut
  obtain ⟨pre, post, rfl, all, none, -⟩ := shut
  rw [← flow, accepted_append, all, show accepted (.out o) ((Task.stage, Event.shut (.out o)) :: post) =
    accepted (.out o) post from rfl, none, append_nil]

/-! ### The work that is left -/

/-- The values that the stage has still to receive. -/
def left (s : Sys V) : Nat := s.unsent.length + (s.world.chans .src).count

/-- The values that a consumer has still to receive. -/
def leftOf (s : Sys V) (o : Output) : Nat :=
  s.left + (s.stage.lane o).pending.length + (s.world.chans (.out o)).count

def producerWork (rest : Option (List V)) (pc : Pc Port V) : Nat :=
  match rest with
  | none => 0
  | some r => 3 * r.length + 1 + match pc with
    | .out _ => 2
    | .handing _ => 0
    | _ => 1

def stageWork : Pc Port V → Nat
  | .out _ => 1
  | _ => 0

def consumerWork : Pc Port V → Nat
  | .out (some (.received _ false)) => 0
  | .out _ => 3
  | _ => 2

/-- Every move that changes something makes this less. -/
def work (s : Sys V) : Nat :=
  producerWork s.rest (s.world.pcs .producer) + 8 * s.left + s.stage.work + stageWork (s.world.pcs .stage) +
    (2 * s.leftOf .a + consumerWork (s.world.pcs (.consumer .a))) +
    (2 * s.leftOf .b + consumerWork (s.world.pcs (.consumer .b)))

theorem Sane.count_next (sane : s.Sane) (h : Effect s ev s') (k : Port) :
    (s'.world.chans k).count + (received k ev).length = (s.world.chans k).count + (accepted k ev).length := by
  obtain ⟨t, es, rfl, acts⟩ := sane.acts_of h
  have flow := congrArg List.length (acts.flow t k)
  rw [length_append, length_append, Chan.length_items, Chan.length_items] at flow
  omega

theorem Sane.left_next (sane : s.Sane) (h : Effect s ev s') : s'.left + (received .src ev).length = s.left := by
  have count := sane.count_next h .src
  have unsent := congrArg List.length h.unsent
  rw [length_append] at unsent
  unfold left
  omega

theorem Sane.leftOf_next (sane : s.Sane) (h : Effect s ev s') (o : Output) :
    s'.leftOf o + (received (.out o) ev).length = s.leftOf o := by
  have count := sane.count_next h (.out o)
  have left := sane.left_next h
  have lane := congrArg List.length (h.lanes sane o)
  rw [length_append, length_append] at lane
  unfold leftOf
  omega

omit [Inhabited V] in
theorem call_inside {s : Stage V} (h : s.call = some pc) (r : Option (Result V)) : pc ≠ .out r := by
  unfold Stage.call at h
  split at h
  · cases h
    exact nofun
  · exact turnCall_inside h r
  · cases h
    exact nofun
  · cases h

omit [Inhabited V] in
theorem stageWork_inside (h : ∀ r, pc ≠ .out r) : stageWork pc = 0 := by
  cases pc with
  | out r => exact absurd rfl (h r)
  | sending | handing | trying | receiving | closing | selecting | timing => rfl

omit [Inhabited V] in
theorem work_of_not_burst {s : Stage V} (h : ∀ k, s.point ≠ .burst k) : s.work = s.load := by
  unfold Stage.work
  split
  · next k here => exact absurd here (h k)
  · rfl

/-- What a receive or a delivery leaves to do, in a turn. -/
theorem work_after {s : Stage V} (base : s.Base)
    (mem : act ∈ s.acts) (h : Does chans act chans' es r) :
    (s.after act r).work + 2 ≤ s.load + 8 * (received .src (es.map (Task.stage, ·))).length := by
  cases h with
  | takes =>
    show (s.append _).load + 2 + 2 ≤ _
    rw [Stage.load_append base]
    simp [received]
  | told =>
    have opened := Stage.input_mem_acts.mp mem
    have told := Stage.load_told opened
    have work := (Stage.like_endTurn (s := { s with isOpen := false })).work
    show (Stage.endTurn { s with isOpen := false }).work + 2 ≤ _
    omega
  | puts =>
    have work := Stage.work_deliver (Stage.deliver_mem_acts.mp mem)
    show (s.deliver _).work + 2 ≤ _
    omega

/-- What a receive leaves to do, in a burst. -/
theorem work_burst {s : Stage V} (base : s.Base) (opened : s.isOpen = true)
    (h : Does chans .input chans' es (some (v, ok))) (k : Nat) :
    (s.burstInput k v ok).work + 2 ≤ s.load + 2 + 8 * (received .src (es.map (Task.stage, ·))).length := by
  cases h with
  | takes =>
    have more := Stage.load_append base v
    have bound : (s.burstInput k v true).work ≤ (s.append v).load + 2 := by
      unfold Stage.burstInput
      rw [if_pos rfl]
      split
      · exact le_refl _
      · rw [Stage.like_endTurn.work]
        omega
    have one : (received .src ([Event.took Port.src v].map (Task.stage, ·))).length = 1 := by simp [received]
    omega
  | told =>
    have told := Stage.load_told opened
    have work := (Stage.like_endTurn (s := { s with isOpen := false })).work
    show (Stage.endTurn { s with isOpen := false }).work + 2 ≤ _
    omega

omit [Inhabited V] in
theorem producerWork_call {s : Sys V} (h : s.call .producer = some pc)
    (r : Option (Result V)) : producerWork s.rest pc + 1 = producerWork s.rest (.out r) := by
  obtain ⟨x, xs, rest, rfl⟩ | ⟨rest, rfl⟩ := producer_call h
  · rw [rest]
    rfl
  · rw [rest]
    rfl

omit [Inhabited V] in
theorem consumerWork_call {s : Sys V} (h : s.call (.consumer o) = some pc)
    (outside : ∃ r, s.world.pcs (.consumer o) = .out r) :
    consumerWork pc + 1 = consumerWork (s.world.pcs (.consumer o)) := by
  obtain ⟨r, outside⟩ := outside
  unfold Sys.call at h
  dsimp only at h
  split at h
  · cases h
  · next told =>
      cases h
      rw [outside] at told ⊢
      cases r with
      | none => rfl
      | some res =>
        cases res with
        | received v ok =>
          cases ok with
          | true => rfl
          | false => exact absurd rfl (told v)
        | sent | refused | closed | selected | thrown => rfl

/-- A move that is not blocked leaves less work. -/
theorem Sane.work_next (sane : s.Sane) (h : Effect s ev s') : s' = s ∨ s'.work < s.work := by
  have left := sane.left_next h
  have leftA := sane.leftOf_next h .a
  have leftB := sane.leftOf_next h .b
  have base := sane.stage.toBase
  unfold work
  cases h with
  | still => exact Or.inl rfl
  | @begins t pc made outside =>
    right
    simp only [received, filterMap_nil, length_nil, Nat.add_zero] at left leftA leftB
    cases t with
    | producer =>
      obtain ⟨r, outside⟩ := outside
      have less := producerWork_call made r
      simp only [goes_pc, goes_pc_of_ne, ne_eq, reduceCtorEq, not_false_eq_true, goes_rest, goes_stage,
        outside]
      omega
    | stage =>
      obtain ⟨r, outside⟩ := outside
      have less := stageWork_inside (call_inside made)
      have one : stageWork (Pc.out r : Pc Port V) = 1 := rfl
      simp only [goes_pc, goes_pc_of_ne, ne_eq, reduceCtorEq, not_false_eq_true, goes_rest, goes_stage,
        outside]
      omega
    | consumer o =>
      have less := consumerWork_call made outside
      cases o with
      | a =>
        simp only [goes_pc, goes_pc_of_ne, ne_eq, reduceCtorEq, not_false_eq_true, goes_rest, goes_stage,
          Task.consumer.injEq]
        omega
      | b =>
        simp only [goes_pc, goes_pc_of_ne, ne_eq, reduceCtorEq, not_false_eq_true, goes_rest, goes_stage,
          Task.consumer.injEq]
        omega
  | sends _ rest here =>
    right
    simp [received] at left leftA leftB
    simp only [goes_pc, goes_pc_of_ne, ne_eq, reduceCtorEq, not_false_eq_true, goes_rest, goes_stage, here,
      rest, producerWork, length_cons]
    omega
  | hands _ rest here =>
    right
    simp [received, rest] at left leftA leftB
    simp only [goes_pc, goes_pc_of_ne, ne_eq, reduceCtorEq, not_false_eq_true, goes_rest, goes_stage, here,
      rest, producerWork, length_cons]
    omega
  | handed rest here =>
    right
    simp [received] at left leftA leftB
    simp only [goes_pc, goes_pc_of_ne, ne_eq, reduceCtorEq, not_false_eq_true, goes_rest, goes_stage, here,
      rest, producerWork, length_cons]
    omega
  | ends rest here =>
    right
    simp [received] at left leftA leftB
    simp only [goes_pc_of_ne, ne_eq, reduceCtorEq, not_false_eq_true, goes_rest, goes_stage, here,
      rest, producerWork, length_nil]
    omega
  | @takes o v here =>
    right
    cases o with
    | a =>
      simp [received] at left leftA leftB
      simp only [goes_pc, goes_pc_of_ne, ne_eq, reduceCtorEq, not_false_eq_true, goes_rest, goes_stage,
        Task.consumer.injEq, here, consumerWork]
      omega
    | b =>
      simp [received] at left leftA leftB
      simp only [goes_pc, goes_pc_of_ne, ne_eq, reduceCtorEq, not_false_eq_true, goes_rest, goes_stage,
        Task.consumer.injEq, here, consumerWork]
      omega
  | @told o here =>
    right
    cases o with
    | a =>
      simp [received] at left leftA leftB
      simp only [goes_pc, goes_pc_of_ne, ne_eq, reduceCtorEq, not_false_eq_true, goes_rest, goes_stage,
        Task.consumer.injEq, here, consumerWork]
      omega
    | b =>
      simp [received] at left leftA leftB
      simp only [goes_pc, goes_pc_of_ne, ne_eq, reduceCtorEq, not_false_eq_true, goes_rest, goes_stage,
        Task.consumer.injEq, here, consumerWork]
      omega
  | shuts here inside =>
    right
    have less := Stage.load_shut (closing_closable sane.stage here)
    have after := (like_back_closed here).work
    have before := work_of_not_burst (s := s.stage) (by rw [here]; exact fun k => (by simp))
    simp [received] at left leftA leftB
    simp only [goes_pc, goes_pc_of_ne, ne_eq, reduceCtorEq, not_false_eq_true, goes_rest, goes_stage, inside,
      stageWork]
    omega
  | acts here inside mem does =>
    right
    have less := work_after base mem does
    have before := work_of_not_burst (s := s.stage) (by rw [here]; exact fun k => (by simp))
    have outside := stageWork_inside inside
    simp only [goes_pc, goes_pc_of_ne, ne_eq, reduceCtorEq, not_false_eq_true, goes_rest, goes_stage,
      outside]
    simp only [stageWork]
    omega
  | @bursts k _ _ _ _ here inside does =>
    right
    have opened := sane.stage.point
    rw [here] at opened
    have before : s.stage.work = s.stage.load + 2 := by
      unfold Stage.work
      rw [here]
    have outside := stageWork_inside inside
    have less := work_burst base opened does k
    simp only [goes_pc, goes_pc_of_ne, ne_eq, reduceCtorEq, not_false_eq_true, goes_rest, goes_stage,
      outside]
    simp only [stageWork]
    omega
  | idles here inside =>
    right
    have before : s.stage.work = s.stage.load + 2 := by
      unfold Stage.work
      rw [here]
    have outside := stageWork_inside inside
    have after := (Stage.like_endTurn (s := s.stage)).work
    simp [received] at left leftA leftB
    simp only [goes_pc, goes_pc_of_ne, ne_eq, reduceCtorEq, not_false_eq_true, goes_rest, goes_stage,
      outside]
    simp only [stageWork]
    omega

/-! ### Whose turn it is -/

/-- A task has a move that is not blocked. -/
def Moves (s : Sys V) (t : Task) : Prop :=
  ∃ m ev s', m.task = t ∧ step m s = some (ev, s') ∧ s' ≠ s

variable {t : Task}

/-- A move that takes the task to another place is not blocked. -/
theorem moves_of (mine : m.task = t) (hm : step m s = some (ev, s'))
    (changed : s'.world.pcs t ≠ s.world.pcs t) : Moves s t :=
  ⟨m, ev, s', mine, hm, fun same => changed (by rw [same])⟩

theorem moves_call (pc : Pc Port V) (made : s.call t = some pc) (begins : pc.begins = true)
    (outside : ∃ r, s.world.pcs t = .out r) : Moves s t := by
  obtain ⟨r, outside⟩ := outside
  have hw : World.step (.call t pc) s.world =
      some ([], ⟨s.world.chans, Function.update s.world.pcs t pc⟩) := by
    simp only [World.step, outside, begins, if_true]
  have hm : step (.call t) s = some ([], s.goes s.world.chans t pc s.rest s.stage) := by
    simp only [step, made, Option.bind_eq_bind, Option.bind_some, hw]
    rfl
  refine moves_of rfl hm ?_
  rw [goes_pc, outside]
  intro same
  rw [same] at begins
  cases begins

theorem moves_run (st : Stretch Port V)
    (hst : stretch false s.world.chans (s.world.pcs t) = some st) (changed : st.pc ≠ s.world.pcs t) :
    Moves s t := by
  have hw : World.step (.run t false) s.world =
      some (st.events.map (t, ·), ⟨st.chans, Function.update s.world.pcs t st.pc⟩) := by
    simp only [World.step, hst, Option.map_some]
  cases hm : step (.run t) s with
  | none =>
    simp only [step, Option.bind_eq_bind, Option.bind_some, hw] at hm
    split at hm
    · cases hm
    · cases hm
  | some p =>
    obtain ⟨ev, s'⟩ := p
    refine moves_of rfl hm ?_
    simp only [step, Option.bind_eq_bind, Option.bind_some, hw] at hm
    have place : s'.world.pcs t = st.pc := by
      split at hm
      · cases hm
        rw [back_world]
        exact Function.update_self ..
      · cases hm
        exact Function.update_self ..
    rw [place]
    exact changed

/-- The producer has a move while the source is open and empty. -/
theorem Sane.producer_moves (sane : s.Sane) (opened : (s.world.chans .src).closed = false)
    (empty : (s.world.chans .src).count = 0) : Moves s .producer := by
  have place := sane.producer
  have room : (s.world.chans .src).count < (s.world.chans .src).cap := by
    rw [empty]
    exact (s.world.chans .src).cap_pos
  have given := sane.srcClosed
  rw [opened] at given
  cases hpc : s.world.pcs .producer with
  | out r =>
    cases rest : s.rest with
    | none =>
      rw [rest] at given
      cases given
    | some xs =>
      cases xs with
      | nil => exact moves_call (.closing .src) (by simp only [Sys.call, rest]) rfl ⟨r, hpc⟩
      | cons x xs => exact moves_call (.sending .src x) (by simp only [Sys.call, rest]) rfl ⟨r, hpc⟩
  | handing k =>
    rw [hpc] at place
    obtain ⟨rfl, -⟩ := place
    refine moves_run ⟨s.world.chans, .out (some .sent), [.sent .src .send false false]⟩ ?_ ?_
    · rw [hpc]
      simp [stretch, handLoop, empty, opened]
    · rw [hpc]
      simp
  | sending k x =>
    rw [hpc] at place
    obtain ⟨rfl, -⟩ := place
    refine moves_run (chanSend false s.world.chans .src x) (by rw [hpc]; rfl) ?_
    rw [hpc]
    simp only [chanSend, opened, Bool.false_eq_true, if_false, dif_pos room]
    split
    · obtain ⟨leaves, -⟩ | stays := handLoop_cases false
        (Function.update s.world.chans .src ((s.world.chans .src).put x room)) .src
      · rw [leaves]
        simp
      · rw [stays]
        simp
    · simp
  | closing k =>
    rw [hpc] at place
    obtain ⟨rfl, -⟩ := place
    refine moves_run (chanClose s.world.chans .src) (by rw [hpc]; rfl) ?_
    rw [hpc]
    simp [chanClose, opened]
  | trying | receiving | selecting | timing =>
    rw [hpc] at place
    exact place.elim

/-- A consumer that is not done has a move unless its output is open and empty. -/
theorem Sane.consumer_moves (sane : s.Sane)
    (unfinished : ∀ v, s.world.pcs (.consumer o) ≠ .out (some (.received v false))) :
    Moves s (.consumer o) ∨
      (s.world.chans (.out o)).closed = false ∧ (s.world.chans (.out o)).count = 0 := by
  obtain ⟨r, outside⟩ | hpc := sane.consumer o
  · have made : s.call (.consumer o) = some (.receiving (.out o)) := by
      unfold Sys.call
      dsimp only
      split
      · next v told => exact absurd told (unfinished v)
      · rfl
    exact Or.inl (moves_call _ made rfl ⟨r, outside⟩)
  · by_cases waits : (s.world.chans (.out o)).closed = false ∧ (s.world.chans (.out o)).count = 0
    · exact Or.inr waits
    · refine Or.inl (moves_run (chanRecv false s.world.chans (.out o)) (by rw [hpc]; rfl) ?_)
      rw [hpc]
      unfold chanRecv
      dsimp only
      split
      · exact nofun
      · next htake =>
          have empty := Chan.take_eq_none.mp htake
          rw [if_pos (by
            by_contra open_
            exact waits ⟨Bool.not_eq_true _ ▸ open_, empty⟩)]
          exact nofun

omit [Inhabited V] in
theorem turnCall_none {s : Stage V} (h : s.turnCall = none) : s.acts = [] := by
  unfold Stage.turnCall at h
  split at h
  · next none => exact none
  · cases h
  · cases h
  · cases h

omit [Inhabited V] in
theorem call_begins {s : Stage V} (h : s.call = some pc) : pc.begins = true := by
  unfold Stage.call Stage.turnCall at h
  split at h
  · cases h
    rfl
  · split at h
    · cases h
    · cases h
      rfl
    · cases h
      rfl
    · cases h
      rfl
  · cases h
    rfl
  · cases h

omit [Inhabited V] in
/-- While an output is open the stage goes on. -/
theorem call_of_open {s : Stage V} (ok : s.Ok) (open_ : s.bothDone = false) : ∃ pc, s.call = some pc := by
  have point := ok.point
  unfold Stage.call
  split
  · exact ⟨_, rfl⟩
  · next turn =>
      rw [turn] at point
      cases made : s.turnCall with
      | some pc => exact ⟨pc, rfl⟩
      | none =>
        have idle := turnCall_none made
        have closed : s.isOpen = false := by
          rw [Bool.eq_false_iff]
          intro opened
          have act := Stage.input_mem_acts.mpr opened
          rw [idle] at act
          cases act
        have done : ∀ o, (s.lane o).done = true := by
          intro o
          refine point.2 o closed ?_
          cases front : (s.lane o).front with
          | none => rfl
          | some x =>
            have act := Stage.deliver_mem_acts.mpr front
            rw [idle] at act
            cases act
        unfold Stage.bothDone at open_
        rw [done .a, done .b] at open_
        cases open_
  · exact ⟨_, rfl⟩
  · next ended =>
      rw [ended] at point
      rw [open_] at point
      cases point

/-- While an output is open and has room, the stage has a move or the producer has one. -/
theorem Sane.stage_moves (sane : s.Sane) (opened : (s.world.chans (.out o)).closed = false)
    (room : (s.world.chans (.out o)).count < (s.world.chans (.out o)).cap) :
    Moves s .stage ∨ Moves s .producer := by
  have notDone : (s.stage.lane o).done = false := (sane.outClosed o).symm.trans opened
  have open_ : s.stage.bothDone = false := by
    unfold Stage.bothDone
    cases o with
    | a => rw [notDone, Bool.false_and]
    | b => rw [notDone, Bool.and_false]
  obtain ⟨r, outside⟩ | made := sane.stagePc
  · obtain ⟨pc, made⟩ := call_of_open sane.stage open_
    exact Or.inl (moves_call _ made (call_begins made) ⟨r, outside⟩)
  · have inside := call_inside made
    have point := sane.stage.point
    unfold Stage.call at made
    split at made
    · next o' here =>
        have hpc := (Option.some.inj made).symm
        refine Or.inl (moves_run (chanClose s.world.chans (.out o')) (by rw [hpc]; rfl) ?_)
        rw [hpc]
        unfold chanClose
        dsimp only
        split
        · simp
        · simp
    · next turn =>
        rw [turn] at point
        obtain ⟨-, blocked⟩ | ⟨act, mem, chans, es, r, res, does, hst, back⟩ := turn_run turn made
          (fun o x mem => ⟨sane.opened (Stage.deliver_mem_acts.mp mem), sane.buffered o⟩)
        · by_cases input : s.stage.isOpen = true
          · obtain ⟨srcOpen, empty⟩ := blocked _ (Stage.input_mem_acts.mpr input)
            exact Or.inr (sane.producer_moves srcOpen empty)
          · cases front : (s.stage.lane o).front with
            | none =>
              have done := point.2 o (Bool.not_eq_true _ ▸ input) front
              exact absurd (done.symm.trans notDone) (by decide)
            | some x =>
              obtain closed | full := blocked _ (Stage.deliver_mem_acts.mpr front)
              · exact absurd (closed.symm.trans opened) (by decide)
              · exact absurd room (not_lt.mpr full)
        · exact Or.inl (moves_run _ hst (inside _).symm)
    · next k here =>
        have hpc := (Option.some.inj made).symm
        refine Or.inl (moves_run (chanSelect false s.world.chans [.recv .src, .default])
          (by rw [hpc]; rfl) ?_)
        rw [hpc]
        obtain ⟨v, c, htake, -⟩ | ⟨htake, ⟨closed, -⟩ | ⟨srcOpen, -⟩⟩ := take_does s.world.chans
        · simp only [chanSelect, selectCases, htake]
          simp
        · simp only [chanSelect, selectCases, htake, closed, if_true]
          simp
        · simp only [chanSelect, selectCases, htake, srcOpen, Bool.false_eq_true, if_false, selectDefault]
          simp
    · cases made

/-- While a consumer is not done it has a move, or the stage has, or the producer. -/
theorem Sane.busy (sane : s.Sane)
    (unfinished : ∀ v, s.world.pcs (.consumer o) ≠ .out (some (.received v false))) :
    Moves s (.consumer o) ∨ Moves s .stage ∨ Moves s .producer := by
  obtain moves | ⟨opened, empty⟩ := sane.consumer_moves unfinished
  · exact Or.inl moves
  · have room : (s.world.chans (.out o)).count < (s.world.chans (.out o)).cap := by
      rw [empty]
      exact (s.world.chans (.out o)).cap_pos
    exact Or.inr (sane.stage_moves opened room)

/-! ### What is delivered -/

theorem run_without {s₀ : Sys V} (h : Run (stepWithout t) s₀ tr s) : Run step s₀ tr s := by
  induction h with
  | start => exact .start
  | move m _ hm ih =>
    unfold stepWithout at hm
    split at hm
    · cases hm
    · exact ih.move m hm

/-- From any state reached the others bring a consumer to its end, whatever the other consumer does. -/
theorem Account.finish (acc : Account cap xs tr s) (o o' : Output) (ne : o ≠ o') :
    ∃ tr' s', Run (stepWithout (.consumer o')) s tr' s' ∧
      ∃ v, s'.world.pcs (.consumer o) = .out (some (.received v false)) := by
  induction hn : s.work using Nat.strong_induction_on generalizing s tr with
  | _ n ih =>
    by_cases finished : ∃ v, s.world.pcs (.consumer o) = .out (some (.received v false))
    · exact ⟨[], s, .start, finished⟩
    · have unfinished : ∀ v, s.world.pcs (.consumer o) ≠ .out (some (.received v false)) :=
        fun v here => finished ⟨v, here⟩
      obtain ⟨m, ev, s', allowed, hm, changed⟩ :
          ∃ m ev s', m.task ≠ .consumer o' ∧ step m s = some (ev, s') ∧ s' ≠ s := by
        obtain ⟨m, ev, s', mine, hm, changed⟩ | ⟨m, ev, s', mine, hm, changed⟩ |
          ⟨m, ev, s', mine, hm, changed⟩ := acc.sane.busy unfinished
        · exact ⟨m, ev, s', by rw [mine]; exact fun same => ne (Task.consumer.inj same), hm, changed⟩
        · exact ⟨m, ev, s', by rw [mine]; exact nofun, hm, changed⟩
        · exact ⟨m, ev, s', by rw [mine]; exact nofun, hm, changed⟩
      have less := (acc.sane.work_next (step_effect acc.sane hm)).resolve_left changed
      obtain ⟨tr', s'', rest, done⟩ := ih s'.work (hn ▸ less) (acc.next hm) rfl
      have first : Run (stepWithout (.consumer o')) s ([] ++ ev) s' :=
        Run.start.move m (by unfold stepWithout; rw [if_neg allowed]; exact hm)
      exact ⟨_, s'', first.append rest, done⟩

/-- An output gives out what was sent, in order; it is closed once, behind all of it, and whoever is told of
the close has received all of it. A move that changes anything leaves less work, and where no move does, the
consumer has been told. From every state reached it can be brought to that without another move of the
other consumer. -/
theorem tee_delivers (h : Run step (start cap xs) tr s) (o o' : Output) (ne : o ≠ o') :
    received (.out o) tr <+: xs ∧
    ((∀ e ∈ tr, e.2 ≠ .shut (.out o)) ∨
      ∃ pre post, tr = pre ++ (.stage, .shut (.out o)) :: post ∧ accepted (.out o) pre = xs ∧
        accepted (.out o) post = [] ∧ ∀ e ∈ pre ++ post, e.2 ≠ .shut (.out o)) ∧
    (∀ t, (t, .drained (.out o)) ∈ tr → received (.out o) tr = xs) ∧
    (∀ m ev s', step m s = some (ev, s') → s' = s ∨ s'.work < s.work) ∧
    ((∀ m ev s', step m s = some (ev, s') → s' = s) →
      (.consumer o, .drained (.out o)) ∈ tr ∧ (s.world.chans (.out o)).closed = true) ∧
    ∃ tr' s', Run (stepWithout (.consumer o')) s tr' s' ∧ received (.out o) (tr ++ tr') = xs ∧
      (s'.world.chans (.out o)).closed = true ∧ (.consumer o, .drained (.out o)) ∈ tr ++ tr' := by
  have acc := account_of_run h
  refine ⟨acc.order o, ?_, fun t told => acc.all told,
    fun m ev s' hm => acc.sane.work_next (step_effect acc.sane hm), ?_, ?_⟩
  · have shut := acc.shut o
    unfold ShutOnce at shut
    split at shut
    · exact Or.inr shut
    · exact Or.inl shut
  · intro stuck
    have finished : ∃ v, s.world.pcs (.consumer o) = .out (some (.received v false)) := by
      by_contra unfinished
      obtain ⟨m, ev, s', -, hm, changed⟩ | ⟨m, ev, s', -, hm, changed⟩ | ⟨m, ev, s', -, hm, changed⟩ :=
        acc.sane.busy (o := o) fun v here => unfinished ⟨v, here⟩
      · exact changed (stuck m ev s' hm)
      · exact changed (stuck m ev s' hm)
      · exact changed (stuck m ev s' hm)
    obtain ⟨v, here⟩ := finished
    have told := acc.told o v here
    exact ⟨told, (acc.drained o _ told).1⟩
  · obtain ⟨tr', s', rest, v, done⟩ := acc.finish o o' ne
    have after := account_of_run (h.append (run_without rest))
    have told := after.told o v done
    exact ⟨tr', s', rest, after.all told, (after.drained o _ told).1, told⟩

/-- The consumer of `a` has received the one value and stops; that of `b` is served. -/
theorem tee_delivers_b : ∃ tr s, Run step (start 0 [7]) tr s ∧ received (.out .a) tr = [7] ∧
    ∃ tr' s', Run (stepWithout (.consumer .a)) s tr' s' ∧ received (.out .b) (tr ++ tr') = [7] := by
  obtain ⟨s, run⟩ : ∃ s, Run step (start 0 [7])
      [(.producer, .placed .src 7), (.stage, .took .src 7), (.producer, .sent .src .send false false),
        (.stage, .placed (.out .a) 7), (.stage, .sent (.out .a) .select false false),
        (.consumer .a, .took (.out .a) 7)] s := run_of_schedule
    [.call .producer, .run .producer, .call .stage, .run .stage, .run .producer, .call .stage, .run .stage,
      .call .stage, .run .stage, .call (.consumer .a), .run (.consumer .a)] (by decide +kernel)
  obtain ⟨-, -, -, -, -, tr', s', rest, all, -⟩ := tee_delivers run .b .a (by decide)
  exact ⟨_, s, run, by decide, tr', s', rest, all⟩

end Sys

end Voila.Rt.Tee
