import Voila.Rt.ChanSound
import Voila.Rt.Tee

/-!
# Voila.Rt.TeeStage

The stage of a tee by itself: what its transitions do to its queues (`Lane.pending`), to what it has to do
(`Stage.work`) and to what holds between its calls (`Stage.Ok`); and the call of a turn, in which one of its
cases goes through (`Does`) or all are blocked (`turn_run`).
-/

open List

namespace Voila.Rt.Tee

open Lib

variable {V : Type*}

/-! ### Queues -/

/-- What is still to be delivered. -/
def Lane.pending (l : Lane V) : List V := l.q.drop l.h

section

variable {l : Lane V}

theorem Lane.front_eq : l.front = l.pending.head? := by
  unfold front pending
  rw [List.head?_drop]

theorem Lane.front_none : l.front = none ↔ l.pending = [] := by
  rw [Lane.front_eq, List.head?_eq_none_iff]

theorem Lane.pending_append (h : l.h ≤ l.q.length) (v : V) : (l.append v).pending = l.pending ++ [v] := by
  unfold append pending
  exact drop_append_of_le_length h

variable {x : V}

theorem Lane.pending_advance (h : l.front = some x) : l.pending = x :: l.advance.pending := by
  unfold front at h
  obtain ⟨bound, value⟩ := List.getElem?_eq_some_iff.mp h
  unfold advance pending
  rw [drop_eq_getElem_cons bound, value]

@[simp] theorem Lane.pending_compact : l.compact.pending = l.pending := by
  unfold compact pending
  split
  · rfl
  · rfl

@[simp] theorem Lane.done_compact : l.compact.done = l.done := by
  unfold compact
  split
  · rfl
  · rfl

/-- The head of a queue is in it or at its end. -/
def Lane.Within (l : Lane V) : Prop := l.h ≤ l.q.length

theorem Lane.Within.append (h : l.Within) (v : V) : (l.append v).Within := by
  unfold Within Lane.append at *
  rw [length_append]
  exact Nat.le_add_right_of_le h

theorem Lane.within_advance (h : l.front = some x) : l.advance.Within :=
  (List.getElem?_eq_some_iff.mp h).1

theorem Lane.Within.compact (h : l.Within) : l.compact.Within := by
  unfold Within Lane.compact at *
  split
  · exact Nat.zero_le _
  · exact h

end

/-! ### The stage -/

namespace Stage

variable {s : Stage V}

/-- An output is closed, or there is a reason for it to be open. -/
def Settled (s : Stage V) (o : Output) : Prop :=
  s.isOpen = false → (s.lane o).front = none → (s.lane o).done = true

/-- What holds between the calls, wherever the stage is. -/
structure Base (s : Stage V) : Prop where
  within : ∀ o, (s.lane o).Within
  done : ∀ o, (s.lane o).done = true → s.isOpen = false ∧ (s.lane o).pending = []

/-- What holds when the stage makes a call. -/
structure Ok (s : Stage V) : Prop extends Base s where
  point : match s.point with
    | .closing .a => s.closable .a = true
    | .closing .b => s.closable .b = true ∧ s.Settled .a
    | .turn => s.bothDone = false ∧ ∀ o, s.Settled o
    | .burst _ => s.isOpen = true
    | .ended => s.bothDone = true

variable {o : Output} {x : V}

theorem closable_iff : s.closable o = true ↔
    s.isOpen = false ∧ (s.lane o).pending = [] ∧ (s.lane o).done = false := by
  unfold closable
  rw [Bool.and_eq_true, Bool.and_eq_true, Bool.not_eq_true', Bool.not_eq_true', Option.isNone_iff_eq_none,
    Lane.front_none, and_assoc]

theorem settled_of_not_closable (h : ¬ s.closable o = true) : s.Settled o := by
  intro closed empty
  by_contra notDone
  exact h (closable_iff.mpr ⟨closed, Lane.front_none.mp empty, Bool.eq_false_iff.mpr notDone⟩)

theorem Base.atTurn (h : s.Base) (settled : ∀ o, s.Settled o) : s.atTurn.Ok := by
  unfold Stage.atTurn
  by_cases both : s.bothDone = true
  · rw [if_pos both]
    exact ⟨⟨h.within, h.done⟩, both⟩
  · rw [if_neg both]
    exact ⟨⟨h.within, h.done⟩, Bool.eq_false_iff.mpr both, settled⟩

theorem Base.atCloseB (h : s.Base) (settled : s.Settled .a) : s.atCloseB.Ok := by
  unfold Stage.atCloseB
  by_cases closes : s.closable .b = true
  · rw [if_pos closes]
    exact ⟨⟨h.within, h.done⟩, closes, settled⟩
  · rw [if_neg closes]
    refine h.atTurn fun o => ?_
    cases o with
    | a => exact settled
    | b => exact settled_of_not_closable closes

theorem Base.atTop (h : s.Base) : s.atTop.Ok := by
  unfold Stage.atTop
  by_cases both : s.bothDone = true
  · rw [if_pos both]
    exact ⟨⟨h.within, h.done⟩, both⟩
  · rw [if_neg both]
    by_cases closes : s.closable .a = true
    · rw [if_pos closes]
      exact ⟨⟨h.within, h.done⟩, closes⟩
    · rw [if_neg closes]
      exact h.atCloseB (settled_of_not_closable closes)

theorem Base.endTurn (h : s.Base) : s.endTurn.Ok := by
  refine Base.atTop ⟨fun o => (h.within o).compact, fun o done => ?_⟩
  dsimp only at done ⊢
  rw [Lane.done_compact] at done
  rw [Lane.pending_compact]
  exact h.done o done

/-- Two stages that differ in where they are, and in what they have dropped. -/
structure Like (s s' : Stage V) : Prop where
  isOpen : s'.isOpen = s.isOpen
  pending : ∀ o, (s'.lane o).pending = (s.lane o).pending
  done : ∀ o, (s'.lane o).done = (s.lane o).done
  burst : ∀ k, s'.point ≠ .burst k

theorem like_atTurn : Like s s.atTurn := by
  unfold atTurn
  refine ⟨rfl, fun o => rfl, fun o => rfl, fun k => ?_⟩
  split
  · exact nofun
  · exact nofun

theorem like_atCloseB : Like s s.atCloseB := by
  unfold atCloseB
  split
  · exact ⟨rfl, fun o => rfl, fun o => rfl, fun k => nofun⟩
  · exact like_atTurn

theorem like_atTop : Like s s.atTop := by
  unfold atTop
  split
  · exact ⟨rfl, fun o => rfl, fun o => rfl, fun k => nofun⟩
  · split
    · exact ⟨rfl, fun o => rfl, fun o => rfl, fun k => nofun⟩
    · exact like_atCloseB

theorem like_endTurn : Like s s.endTurn := by
  have top := like_atTop (s := { s with lane := fun o => (s.lane o).compact })
  exact ⟨top.isOpen, fun o => (top.pending o).trans Lane.pending_compact,
    fun o => (top.done o).trans Lane.done_compact, top.burst⟩

/-- What the stage has to do besides receiving: each value to deliver, the end of the input, each close. -/
def load (s : Stage V) : Nat :=
  2 * (s.lane .a).pending.length + 2 * (s.lane .b).pending.length + (if s.isOpen then 2 else 0) +
    ((if (s.lane .a).done then 0 else 2) + (if (s.lane .b).done then 0 else 2))

/-- With the receive that ends a burst. -/
def work (s : Stage V) : Nat :=
  s.load + match s.point with
    | .burst _ => 2
    | _ => 0

theorem Like.work {s' : Stage V} (h : Like s s') : s'.work = s.load := by
  have point : s'.work = s'.load := by
    unfold Stage.work
    split
    · next k here => exact absurd here (h.burst k)
    · rfl
  rw [point]
  unfold load
  rw [h.pending, h.pending, h.isOpen, h.done, h.done]

/-- What a delivery leaves to deliver. -/
theorem pending_deliver (h : (s.lane o).front = some x) (o' : Output) :
    (s.lane o').pending = (if o' = o then [x] else []) ++ ((s.deliver o).lane o').pending := by
  rw [deliver, like_endTurn.pending]
  dsimp only
  by_cases here : o' = o
  · rw [if_pos here, here, Function.update_self]
    exact Lane.pending_advance h
  · rw [if_neg here, Function.update_of_ne here]
    rfl

theorem done_deliver (o o' : Output) : ((s.deliver o).lane o').done = (s.lane o').done := by
  rw [deliver, like_endTurn.done]
  dsimp only
  by_cases here : o' = o
  · rw [here, Function.update_self]
    rfl
  · rw [Function.update_of_ne here]

theorem Base.deliver (h : s.Base) (hx : (s.lane o).front = some x) : (s.deliver o).Ok := by
  refine Base.endTurn ⟨fun o' => ?_, fun o' done => ?_⟩
  · dsimp only
    by_cases here : o' = o
    · rw [here, Function.update_self]
      exact Lane.within_advance hx
    · rw [Function.update_of_ne here]
      exact h.within o'
  · dsimp only at done ⊢
    by_cases here : o' = o
    · rw [here, Function.update_self] at done
      rw [Lane.front_eq, (h.done o done).2] at hx
      cases hx
    · rw [Function.update_of_ne here] at done ⊢
      exact h.done o' done

theorem work_deliver (h : (s.lane o).front = some x) : (s.deliver o).work + 2 = s.load := by
  have pending := pending_deliver h
  have left : (s.deliver o).work = (s.deliver o).load :=
    like_endTurn.work.trans (by unfold load; rw [deliver, like_endTurn.pending, like_endTurn.pending,
      like_endTurn.isOpen, like_endTurn.done, like_endTurn.done])
  have opened : (s.deliver o).isOpen = s.isOpen := like_endTurn.isOpen
  rw [left]
  unfold load
  rw [opened, done_deliver, done_deliver, pending .a, pending .b]
  cases o with
  | a => simp; omega
  | b => simp; omega

/-- A value goes into both queues. -/
theorem pending_append (h : s.Base) (v : V) (o : Output) :
    ((s.append v).lane o).pending = (s.lane o).pending ++ [v] :=
  Lane.pending_append (h.within o) v

theorem load_append (h : s.Base) (v : V) : (s.append v).load = s.load + 4 := by
  unfold load
  rw [pending_append h, pending_append h, length_append, length_append, length_singleton]
  show _ + _ + (if s.isOpen then 2 else 0) + ((if (s.lane .a).done then 0 else 2) +
    (if (s.lane .b).done then 0 else 2)) = _
  omega

theorem Base.append (h : s.Base) (opened : s.isOpen = true) (v : V) : (s.append v).Base := by
  refine ⟨fun o => (h.within o).append v, fun o done => ?_⟩
  have closed := (h.done o done).1
  rw [opened] at closed
  cases closed

/-- The stage has been told that the source is closed. -/
theorem Base.told (h : s.Base) : ({ s with isOpen := false } : Stage V).Base :=
  ⟨h.within, fun o done => ⟨rfl, (h.done o done).2⟩⟩

theorem load_told (opened : s.isOpen = true) : ({ s with isOpen := false } : Stage V).load + 2 = s.load := by
  unfold load
  rw [opened]
  simp only [Bool.false_eq_true, if_false, if_true]
  omega

/-- An output is closed. -/
theorem Base.shut (h : s.Base) {o : Output} (closes : s.closable o = true) : (s.shut o).Base := by
  obtain ⟨closed, empty, -⟩ := closable_iff.mp closes
  refine ⟨fun o' => ?_, fun o' done => ⟨closed, ?_⟩⟩
  · unfold Stage.shut
    dsimp only
    by_cases here : o' = o
    · rw [here, Function.update_self]
      exact h.within o
    · rw [Function.update_of_ne here]
      exact h.within o'
  · unfold Stage.shut at done ⊢
    dsimp only at done ⊢
    by_cases here : o' = o
    · rw [here, Function.update_self]
      exact empty
    · rw [Function.update_of_ne here] at done ⊢
      exact (h.done o' done).2

theorem pending_shut (o o' : Output) : ((s.shut o).lane o').pending = (s.lane o').pending := by
  unfold shut
  dsimp only
  by_cases here : o' = o
  · rw [here, Function.update_self]
    rfl
  · rw [Function.update_of_ne here]

theorem done_shut (o o' : Output) :
    ((s.shut o).lane o').done = if o' = o then true else (s.lane o').done := by
  unfold shut
  dsimp only
  by_cases here : o' = o
  · rw [here, Function.update_self, if_pos rfl]
  · rw [Function.update_of_ne here, if_neg here]

theorem load_shut (closes : s.closable o = true) : (s.shut o).load + 2 = s.load := by
  obtain ⟨-, -, notDone⟩ := closable_iff.mp closes
  unfold load
  rw [pending_shut, pending_shut, done_shut, done_shut]
  show _ + _ + (if s.isOpen then 2 else 0) + _ + 2 = _
  cases o with
  | a => simp [notDone]; omega
  | b => simp [notDone]; omega

theorem input_mem_acts : .input ∈ s.acts ↔ s.isOpen = true := by
  unfold acts
  rw [mem_append, mem_append, Option.mem_toList, Option.mem_toList, Option.map_eq_some_iff,
    Option.map_eq_some_iff]
  constructor
  · intro here
    rcases here with here | ⟨_, -, other⟩ | ⟨_, -, other⟩
    · by_contra closed
      rw [if_neg closed] at here
      cases here
    · cases other
    · cases other
  · intro opened
    rw [if_pos opened]
    exact Or.inl mem_cons_self

theorem deliver_mem_acts : .deliver o x ∈ s.acts ↔ (s.lane o).front = some x := by
  unfold acts
  rw [mem_append, mem_append, Option.mem_toList, Option.mem_toList, Option.map_eq_some_iff,
    Option.map_eq_some_iff]
  constructor
  · intro here
    rcases here with here | ⟨y, front, same⟩ | ⟨y, front, same⟩
    · split at here
      · cases mem_singleton.mp here
      · cases here
    · cases same
      exact front
    · cases same
      exact front
  · intro front
    cases o with
    | a => exact Or.inr (Or.inl ⟨x, front, rfl⟩)
    | b => exact Or.inr (Or.inr ⟨x, front, rfl⟩)

end Stage

/-! ### A turn -/

section

variable {chans : Port → Chan V}

theorem selectDefault_acts (acts : List (Act V)) (i : Nat) : selectDefault i (acts.map Act.case) = none := by
  induction acts generalizing i with
  | nil => rfl
  | cons act acts ih =>
    cases act with
    | input => exact ih (i + 1)
    | deliver o x => exact ih (i + 1)

/-- Where the stage goes on after a case of a turn. -/
def Stage.after (s : Stage V) : Act V → Option (V × Bool) → Stage V
  | .input, some (v, ok) => s.input v ok
  | .deliver o _, none => s.deliver o
  | _, _ => { s with point := .ended }

/-- A case cannot go through. -/
def Blocked (chans : Port → Chan V) : Act V → Prop
  | .input => (chans .src).closed = false ∧ (chans .src).count = 0
  | .deliver o _ => (chans (.out o)).closed = true ∨ (chans (.out o)).cap ≤ (chans (.out o)).count

variable [Inhabited V]

/-- A case goes through, with what is received. -/
inductive Does (chans : Port → Chan V) :
    Act V → (Port → Chan V) → List (Event Port V) → Option (V × Bool) → Prop
  | takes {v : V} : (chans .src).items = v :: (chans .src).shrink.items →
      Does chans .input (Function.update chans .src (chans .src).shrink) [.took .src v] (some (v, true))
  | told : (chans .src).closed = true → (chans .src).count = 0 →
      Does chans .input chans [.drained .src] (some (default, false))
  | puts {o : Output} {x : V} (path : Path) (room : (chans (.out o)).count < (chans (.out o)).cap) :
      (chans (.out o)).closed = false →
      Does chans (.deliver o x) (Function.update chans (.out o) ((chans (.out o)).put x room))
        [.placed (.out o) x, .sent (.out o) path false false] none

/-- A receive goes through, or is blocked. -/
theorem take_does (chans : Port → Chan V) :
    (∃ v c, (chans .src).take = some (v, c) ∧
      Does chans .input (Function.update chans .src c) [.took .src v] (some (v, true))) ∨
    (chans .src).take = none ∧ ((chans .src).closed = true ∧
      Does chans .input chans [.drained .src] (some (default, false)) ∨
        (chans .src).closed = false ∧ Blocked chans .input) := by
  cases htake : (chans .src).take with
  | some p =>
    obtain ⟨v, c⟩ := p
    obtain ⟨rfl, items⟩ := Chan.take_eq_some htake
    exact Or.inl ⟨v, _, rfl, .takes items⟩
  | none =>
    have empty := Chan.take_eq_none.mp htake
    refine Or.inr ⟨rfl, ?_⟩
    cases hclosed : (chans .src).closed with
    | true => exact Or.inl ⟨rfl, .told hclosed empty⟩
    | false => exact Or.inr ⟨rfl, hclosed, empty⟩

/-- Of the cases of a select one goes through, or all are blocked. -/
def Selects (chans : Port → Chan V) (i : Nat) (acts : List (Act V)) : Prop :=
  (selectCases false chans i (acts.map Act.case) = none ∧ ∀ act ∈ acts, Blocked chans act) ∨
    ∃ j act chans' ev r, acts[j]? = some act ∧ Does chans act chans' ev r ∧
      selectCases false chans i (acts.map Act.case) =
        some ⟨chans', .out (some (.selected (i + j) r)), ev⟩

variable {i : Nat} {act : Act V} {chans' : Port → Chan V} {ev : List (Event Port V)}
  {r : Option (V × Bool)}

theorem Selects.first {acts : List (Act V)} (does : Does chans act chans' ev r)
    (select : selectCases false chans i ((act :: acts).map Act.case) =
      some ⟨chans', .out (some (.selected i r)), ev⟩) : Selects chans i (act :: acts) :=
  Or.inr ⟨0, act, chans', ev, r, rfl, does, select⟩

theorem Selects.later {acts : List (Act V)} (blocked : Blocked chans act)
    (skipped : selectCases false chans i ((act :: acts).map Act.case) =
      selectCases false chans (i + 1) (acts.map Act.case))
    (h : Selects chans (i + 1) acts) : Selects chans i (act :: acts) := by
  obtain ⟨none, all⟩ | ⟨j, act', chans', ev, r, here, does, select⟩ := h
  · exact Or.inl ⟨skipped.trans none, forall_mem_cons.mpr ⟨blocked, all⟩⟩
  · refine Or.inr ⟨j + 1, act', chans', ev, r, here, does, ?_⟩
    rw [skipped, select, Nat.add_assoc, Nat.add_comm 1 j]

/-- The cases of a select in turn: the first that is not blocked goes through. -/
theorem selects (chans : Port → Chan V) (i : Nat) (acts : List (Act V)) : Selects chans i acts := by
  induction acts generalizing i with
  | nil => exact Or.inl ⟨rfl, fun act none => (nomatch none)⟩
  | cons act acts ih =>
    cases act with
    | input =>
      obtain ⟨v, c, htake, does⟩ | ⟨htake, ⟨closed, does⟩ | ⟨opened, blocked⟩⟩ := take_does chans
      · exact .first does (by simp only [map_cons, Act.case, selectCases, htake])
      · exact .first does
          (by simp only [map_cons, Act.case, selectCases, htake, closed, if_true])
      · exact .later blocked
          (by simp only [map_cons, Act.case, selectCases, htake, opened, Bool.false_eq_true, if_false])
          (ih (i + 1))
    | deliver o x =>
      by_cases room : (chans (.out o)).closed = false ∧ (chans (.out o)).count < (chans (.out o)).cap
      · refine .first (.puts .select room.2 room.1) ?_
        simp only [map_cons, Act.case, selectCases, dif_pos room]
        rw [show ((chans (.out o)).put x room.2).closed = false from room.1]
      · refine .later ?_ (by simp only [map_cons, Act.case, selectCases, dif_neg room]) (ih (i + 1))
        rw [not_and_or, Bool.not_eq_false, not_lt] at room
        exact room

theorem back_selected {s : Stage V} (turn : s.point = .turn) {j : Nat}
    (here : s.acts[j]? = some act)
    (does : Does chans act chans' ev r) : s.back (.selected j r) = s.after act r := by
  unfold Stage.back
  rw [turn]
  dsimp only
  rw [here]
  cases does with
  | takes => rfl
  | told => rfl
  | puts => rfl

/-- The call of a turn: a case goes through, or all are blocked. -/
theorem turn_run {s : Stage V} {pc : Pc Port V} (turn : s.point = .turn) (call : s.turnCall = some pc)
    (opened : ∀ o x, .deliver o x ∈ s.acts →
      (chans (.out o)).closed = false ∧ (chans (.out o)).isRendezvous = false) :
    (stretch false chans pc = some ⟨chans, pc, []⟩ ∧ ∀ act ∈ s.acts, Blocked chans act) ∨
    ∃ act ∈ s.acts, ∃ chans' ev r res, Does chans act chans' ev r ∧
      stretch false chans pc = some ⟨chans', .out (some res), ev⟩ ∧ s.back res = s.after act r := by
  unfold Stage.turnCall at call
  split at call
  · cases call
  · next acts =>
      cases call
      rw [acts]
      obtain ⟨v, c, htake, does⟩ | ⟨htake, ⟨closed, does⟩ | ⟨open_, blocked⟩⟩ := take_does chans
      · refine Or.inr ⟨_, mem_singleton_self _, _, _, _, .received v true, does, ?_, ?_⟩
        · simp only [stretch, chanRecv, htake]
        · unfold Stage.back
          rw [turn]
          rfl
      · refine Or.inr ⟨_, mem_singleton_self _, _, _, _, .received default false, does, ?_, ?_⟩
        · simp only [stretch, chanRecv, htake, closed, if_true]
        · unfold Stage.back
          rw [turn]
          rfl
      · refine Or.inl ⟨?_, forall_mem_singleton.mpr blocked⟩
        simp only [stretch, chanRecv, htake, open_, Bool.false_eq_true, if_false]
  · next o x acts =>
      cases call
      obtain ⟨open_, buffered⟩ := opened o x (by rw [acts]; exact mem_singleton_self _)
      rw [acts]
      by_cases room : (chans (.out o)).count < (chans (.out o)).cap
      · refine Or.inr ⟨_, mem_singleton_self _, _, _, _, .sent, .puts .send room open_, ?_, ?_⟩
        · have put : ((chans (.out o)).put x room).isRendezvous = false := by
            rw [(Chan.same_put room).2]
            exact buffered
          simp only [stretch, chanSend, open_, Bool.false_eq_true, if_false, dif_pos room, put]
          rw [show ((chans (.out o)).put x room).closed = false from open_]
        · unfold Stage.back
          rw [turn]
          dsimp only
          rw [acts]
          rfl
      · refine Or.inl ⟨?_, forall_mem_singleton.mpr (Or.inr (not_lt.mp room))⟩
        simp only [stretch, chanSend, open_, Bool.false_eq_true, if_false, dif_neg room]
  · cases call
    obtain ⟨none, all⟩ | ⟨j, act, chans', ev, r, here, does, select⟩ := selects chans 0 s.acts
    · refine Or.inl ⟨?_, all⟩
      simp only [stretch, chanSelect, none, selectDefault_acts, Bool.false_eq_true, if_false]
    · refine Or.inr ⟨act, List.mem_of_getElem? here, chans', ev, r, _, does, ?_, back_selected turn here does⟩
      rw [Nat.zero_add] at select
      simp only [stretch, chanSelect, select]

end

end Voila.Rt.Tee
