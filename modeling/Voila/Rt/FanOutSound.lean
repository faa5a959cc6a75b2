import Voila.Rt.MergeEnds

/-!
# Voila.Rt.FanOutSound

What `chan.fan_out` promises, under any schedule and whatever the world outside does.

Each worker copies (`copied_of_run`) what it takes, in order, and what one takes no other does, so the outputs
share the source between them (`put_le`). A worker closes its output when the source is spent (`ended_spent`).
-/

namespace Voila.Rt.FanOut

open Lib Program List

variable {E : Type*} {V : Type} {n : Nat}

/-- The states of the system. -/
abbrev State (E : Type*) (V : Type) (n : Nat) := Sys (Task E n) (Port n) V (Vars V)

/-- Where a worker is. -/
abbrev wrk (s : State E V n) (i : Fin n) : Copy V := s.vars (.worker i)

variable {cap : Int} {s s' : State E V n} {t : Task E n} {i : Fin n} {v : V}
  {tr ev : List (Task E n × Event (Port n) V)}

/-! ### Who does what -/

theorem worker_copies (i : Fin n) :
    IsCopier (program : Program (Task E n) _ _ (Vars V)) (.worker i) (drainInto i) id where
  call _ := rfl
  back _ _ := rfl
  cancel _ _ h := h
  free _ := rfl

theorem worker_apart (i : Fin n) : (drainInto i : Copier (Port n) V).Apart := ⟨nofun, nofun⟩

/-- What each task may be seen to do. -/
def Deals : Task E n → Event (Port n) V → Prop
  | .env _, .placed k _ | .env _, .shut k => k = .src
  | .env _, .took k _ => ∃ i, k = .out i
  | .worker i, .placed k _ | .worker i, .shut k => k = .out i
  | .worker _, .took k _ => k = .src
  | _, .sent .. | _, .drained _ => True

variable {pc : Pc (Port n) V}

theorem free_deals {e : E} {x : Event (Port n) V} (h : free pc = true)
    (makes : pc.Makes x) : Deals (.env e) x := by
  cases x with
  | placed k v =>
    cases pc with
    | sending k' | trying k' | timing k' =>
      obtain rfl : k' = k := makes
      cases k' with
      | src => rfl
      | out => cases h
    | selecting cases =>
      obtain ⟨x, mem⟩ := makes
      have each := all_eq_true.mp h _ mem
      cases k with
      | src => rfl
      | out => cases each
    | out | handing | receiving | closing => exact makes.elim
  | took k v =>
    cases pc with
    | receiving k' =>
      obtain rfl : k' = k := makes
      cases k' with
      | src => cases h
      | out i => exact ⟨i, rfl⟩
    | selecting cases =>
      have each := all_eq_true.mp h _ makes
      cases k with
      | src => cases each
      | out i => exact ⟨i, rfl⟩
    | out | sending | handing | trying | closing | timing => exact makes.elim
  | shut k =>
    cases pc with
    | closing k' =>
      obtain rfl : k' = k := makes
      cases k' with
      | src => rfl
      | out => cases h
    | out | sending | handing | trying | receiving | selecting | timing => exact makes.elim
  | sent | drained => trivial

theorem worker_deals {x : Copy V} {e : Event (Port n) V}
    (call : (drainInto i).call x = some pc) (makes : pc.Makes e) : Deals (.worker i : Task E n) e := by
  cases e with
  | placed k v =>
    cases x with
    | copying => cases call; exact makes.symm
    | next | last => cases call; exact makes.elim
    | ended | failed => cases call
  | took k v =>
    cases x with
    | next => cases call; exact makes.symm
    | copying | last => cases call; exact makes.elim
    | ended | failed => cases call
  | shut k =>
    cases x with
    | last => cases call; exact makes.symm
    | next | copying => cases call; exact makes.elim
    | ended | failed => cases call
  | sent | drained => trivial

theorem Deals.put_out (h : Deals t (.placed (.out i) v)) : t = .worker i := by
  cases t with
  | env => cases h
  | worker j => cases h; rfl

theorem Deals.took_src (h : Deals t (.took .src v : Event (Port n) V)) : ∃ i, t = .worker i := by
  cases t with
  | env =>
    obtain ⟨i, no⟩ := h
    cases no
  | worker j => exact ⟨j, rfl⟩

theorem Deals.shut_out (h : Deals t (.shut (.out i) : Event (Port n) V)) : t = .worker i := by
  cases t with
  | env => cases h
  | worker j => cases h; rfl

theorem worker_injective : Function.Injective (Task.worker : Fin n → Task E n) :=
  fun _ _ h => Task.worker.inj h

variable [Inhabited V]

theorem begun_start : (start cap : State E V n).Begun program := fun _ => .inl ⟨none, rfl⟩

variable [DecidableEq E]

theorem deals_of_run (h : Run program.step (start cap) tr s) : ∀ e ∈ tr, Deals e.1 e.2 := by
  intro ⟨t, e⟩ mem
  obtain ⟨x, pc, made, makes⟩ := made_of_run begun_start h _ mem
  cases t with
  | env _ => exact free_deals (made.resolve_left nofun) makes
  | worker i => exact worker_deals (made.resolve_right nofun) makes

theorem world_of_run (h : Run program.step (start cap) tr s) :
    Run World.step (World.start (caps cap)) tr s.world := run_world h

/-! ### The closes -/

/-- A worker has closed its output when it has ended, and not before. -/
theorem shut_iff_ended (h : Run program.step (start cap) tr s) (i : Fin n) :
    (.worker i, .shut (.out i)) ∈ tr ↔ wrk s i = .ended := by
  suffices both : s.Begun program ∧ ((.worker i, .shut (.out i)) ∈ tr ↔ wrk s i = .ended) from both.2
  refine h.holds (fun tr s => s.Begun program ∧ ((.worker i, .shut (.out i)) ∈ tr ↔ wrk s i = .ended))
    ⟨begun_start, iff_of_false nofun nofun⟩ ?_
  intro tr s m ev s' ⟨begun, ih⟩ hm
  have effect := step_effect hm
  refine ⟨begun.next effect, ?_⟩
  rw [mem_append, ih]
  rcases (worker_copies i).cases begun effect with ⟨-, -, hvars, hown⟩ | ⟨-, hmine⟩
  · have hnew : wrk s' i = wrk s i := hvars
    rw [hnew]
    refine or_iff_left fun mem => ?_
    have mine : (Task.worker i, Event.shut (Port.out i)) ∈ own (.worker i : Task E n) ev :=
      mem_filter.mpr ⟨mem, by simp⟩
    rw [hown] at mine
    cases mine
  · rcases hmine with ⟨rfl, -, -, -, hvars⟩ | ⟨st, -, does, rfl, -, -⟩ | ⟨-, rfl, -, before, after, -⟩
    · have hnew : wrk s' i = wrk s i := hvars
      rw [hnew]
      exact or_iff_left nofun
    · have mem : (Task.worker i, Event.shut (Port.out i)) ∈ st.events.map ((Task.worker i : Task E n), ·) ↔
          .shut (.out i) ∈ st.events := by simp
      rw [mem]
      rcases does.loop_or_last with ⟨inLoop, notEnded, -, none⟩ | ⟨here, within, hst, next⟩
      · exact iff_of_false (fun closed => closed.elim inLoop.not_ended (none _)) notEnded
      · have hold : wrk s i = .last := here
        have hnew : wrk s' i = Copy.after .last st.pc := next
        rw [hold, hnew]
        obtain hat : s.world.pcs (.worker i) = .closing (.out i) := by
          rcases within with same | ⟨_, _, no, -⟩
          · exact same
          · cases no
        rw [hat] at hst
        rcases close_cases hst with ⟨-, rfl⟩ | ⟨-, _, _, rfl⟩
        · exact iff_of_true (.inr (mem_singleton_self _)) rfl
        · exact iff_of_false (Or.elim · nofun nofun) nofun
    · have hold : wrk s i = .next true := before
      have hnew : wrk s' i = .failed := after
      rw [hold, hnew]
      exact iff_of_false (Or.elim · nofun nofun) nofun

theorem closed_iff_ended (h : Run program.step (start cap) tr s) (i : Fin n) :
    (s.world.chans (.out i)).closed = true ↔ wrk s i = .ended := by
  rw [closed_iff_shut (world_of_run h), ← shut_iff_ended h]
  constructor
  · intro ⟨t, mem⟩
    obtain rfl := (deals_of_run h _ mem).shut_out
    exact mem
  · intro mem
    exact ⟨_, mem⟩

/-! ### What has been delivered -/

theorem worker_copied (h : Run program.step (start cap) tr s) (i : Fin n) :
    (wrk s i).Account (received .src (own (.worker i) tr)) (accepted (.out i) (own (.worker i) tr))
      (s.world.pcs (.worker i)) :=
  copied_of_run (worker_copies i) (worker_apart i) begun_start rfl h

/-- An output has what its worker has put. -/
theorem put_own (h : Run program.step (start cap) tr s) (i : Fin n) :
    accepted (.out i) (own (.worker i) tr) = accepted (.out i) tr :=
  accepted_alone fun _ _ mem => (deals_of_run h _ mem).put_out

/-- No worker puts a value that it has not taken, or one twice. -/
theorem put_le (h : Run program.step (start cap) tr s) (i : Fin n) :
    accepted (.out i) tr <+: received .src (own (.worker i) tr) := by
  obtain ⟨left, took, -⟩ := (worker_copied h i).short
  rw [← put_own h i]
  exact ⟨left, took.symm⟩

/-- What has come out of the source went in. -/
theorem took_le (h : Run program.step (start cap) tr s) : received .src tr <+: accepted .src tr :=
  ⟨_, (flow_of_run (world_of_run h) .src).symm⟩

/-- Every output has its values in the order of the source. -/
theorem out_sublist (h : Run program.step (start cap) tr s) (i : Fin n) :
    (accepted (.out i) tr).Sublist (accepted .src tr) := by
  have share : (received .src (own (.worker i) tr)).Sublist (received .src tr) :=
    filter_sublist.filterMap _
  exact ((put_le h i).sublist.trans share).trans (took_le h).sublist

/-- What is taken from the source, as the workers take it. -/
theorem taken_split (h : Run program.step (start cap) tr s) :
    (received .src tr : Multiset V) = ∑ i, (received .src (own (.worker i) tr) : Multiset V) :=
  received_owners worker_injective fun t v mem => (deals_of_run h (t, .took .src v) mem).took_src

/-- At any time, what is on the outputs is part of what went into the source. -/
theorem outs_le (h : Run program.step (start cap) tr s) :
    ∑ i, (accepted (.out i) tr : Multiset V) ≤ (accepted .src tr : Multiset V) :=
  calc ∑ i, (accepted (.out i) tr : Multiset V)
      ≤ ∑ i, (received .src (own (.worker i) tr) : Multiset V) :=
        Finset.sum_le_sum fun i _ => Multiset.coe_le.mpr (put_le h i).sublist.subperm
    _ = (received .src tr : Multiset V) := (taken_split h).symm
    _ ≤ _ := Multiset.coe_le.mpr (took_le h).sublist.subperm

/-- A worker that has ended has put all that it has taken. -/
theorem ended_copied (h : Run program.step (start cap) tr s) (ended : wrk s i = .ended) :
    accepted (.out i) tr = received .src (own (.worker i) tr) := by
  have acc := worker_copied h i
  rw [ended, put_own h i] at acc
  exact Eq.symm acc

theorem ended_spent (h : Run program.step (start cap) tr s) (ended : wrk s i = .ended) :
    (s.world.chans .src).Spent ∧ received .src tr = accepted .src tr := by
  have spent : (s.world.chans .src).Spent := spent_of_run (worker_copies i) begun_start rfl h (.inr ended)
  refine ⟨spent, ?_⟩
  have none : (s.world.chans .src).items = [] := by
    rw [← length_eq_zero_iff, Chan.length_items]
    exact spent.2
  rw [flow_of_run (world_of_run h), none, append_nil]

/-- All the values of the source are on the outputs, once each. -/
theorem ended_all (h : Run program.step (start cap) tr s) (some : 0 < n) (ended : ∀ i, wrk s i = .ended) :
    ∑ i, (accepted (.out i) tr : Multiset V) = (accepted .src tr : Multiset V) := by
  rw [← (ended_spent h (ended ⟨0, some⟩)).2, taken_split h]
  exact Finset.sum_congr rfl fun i _ => by rw [ended_copied h (ended i)]

/-! ### The promise -/

/-- The output is closed once, when the source is closed and drained and what its worker has taken is put, and
the worker is then over. -/
structure Closing (i : Fin n) (pre post : List (Task E n × Event (Port n) V)) : Prop where
  once : ∀ e ∈ pre ++ post, e.2 ≠ .shut (.out i)
  closed : ∃ t, (t, .shut .src) ∈ pre
  drained : received .src pre = accepted .src pre ∧ accepted .src post = []
  put : accepted (.out i) pre = received .src (own (.worker i) pre) ∧ accepted (.out i) post = []
  past : own (.worker i) post = []

/-- What `fan_out` promises of a run. -/
structure Promise (tr : List (Task E n × Event (Port n) V)) : Prop where
  /-- At any time nothing is on the outputs that is not from the source, and nothing twice. -/
  once : ∑ i, (accepted (.out i) tr : Multiset V) ≤ (accepted .src tr : Multiset V)
  order : ∀ i, (accepted (.out i) tr).Sublist (accepted .src tr)
  /-- Each output gives out what is on it in order. -/
  fifo : ∀ i, received (.out i) tr <+: accepted (.out i) tr
  closing : ∀ i t pre post, tr = pre ++ (t, .shut (.out i)) :: post → Closing i pre post
  /-- With all of them closed, every value is on one. -/
  all : (∀ i, ∃ t, (t, .shut (.out i)) ∈ tr) →
    ∑ i, (accepted (.out i) tr : Multiset V) = (accepted .src tr : Multiset V)
  /-- Receivers that are told of the closes have received all. -/
  told : (∀ i, ∃ t, (t, .drained (.out i)) ∈ tr) →
    ∑ i, (received (.out i) tr : Multiset V) = (accepted .src tr : Multiset V)

theorem closing_of_run {pre post : List (Task E n × Event (Port n) V)}
    (h : Run program.step (start cap) (pre ++ (t, .shut (.out i)) :: post) s) : Closing i pre post := by
  obtain ⟨s₂, before, closed, after⟩ := shut_performed h
  have ended := (closed_iff_ended before i).mp closed
  obtain ⟨spent, all⟩ := ended_spent before ended
  have put := ended_copied before ended
  have none : ∀ k : Port n, accepted k [(t, (.shut (.out i) : Event (Port n) V))] = [] ∧
      received k [(t, (.shut (.out i) : Event (Port n) V))] = [] := fun _ => ⟨rfl, rfl⟩
  have mine : own (.worker i) [(t, (.shut (.out i) : Event (Port n) V))] = [(t, .shut (.out i))] := by
    obtain rfl := (deals_of_run before _ (mem_append_right _ (mem_singleton_self _))).shut_out
    simp [own]
  refine ⟨shut_once (world_of_run h), ?_, ⟨?_, ?_⟩, ⟨?_, ?_⟩, ?_⟩
  · obtain ⟨u, mem⟩ := (closed_iff_shut (world_of_run before) .src).mp spent.1
    rcases mem_append.mp mem with mem | mem
    · exact ⟨u, mem⟩
    · cases mem_singleton.mp mem
  · rw [received_append, accepted_append, (none .src).1, (none .src).2, append_nil,
      append_nil] at all
    exact all
  · exact (closed_of_run (run_world after) spent.1).2
  · rw [own_append, mine, received_append, accepted_append, (none _).1, (none .src).2, append_nil,
      append_nil] at put
    exact put
  · exact (closed_of_run (run_world after) closed).2
  · have past : s₂.vars (.worker i) = (.ended : Copy V) := ended
    refine over_of_run (begun_of_run begun_start before) ?_ ?_ (fun _ => rfl) after
    · rw [past]
      rfl
    · rw [past]
      rfl

theorem promise_of_run (h : Run program.step (start cap) tr s) (some : 0 < n) : Promise tr where
  once := outs_le h
  order := out_sublist h
  fifo i := ⟨_, (flow_of_run (world_of_run h) (.out i)).symm⟩
  closing i t pre post := by
    rintro rfl
    exact closing_of_run h
  all closed := by
    refine ended_all h some fun i => (closed_iff_ended h i).mp ?_
    exact (closed_iff_shut (world_of_run h) (.out i)).mpr (closed i)
  told told := by
    have each : ∀ i, received (.out i) tr = accepted (.out i) tr ∧ wrk s i = .ended := by
      intro i
      obtain ⟨t, told⟩ := told i
      have spent := spent_of_drained (world_of_run h) told
      have none : (s.world.chans (.out i)).items = [] := by
        rw [← length_eq_zero_iff, Chan.length_items]
        exact spent.2
      refine ⟨?_, (closed_iff_ended h i).mp spent.1⟩
      rw [flow_of_run (world_of_run h), none, append_nil]
    rw [← ended_all h some fun i => (each i).2]
    exact Finset.sum_congr rfl fun i _ => by rw [(each i).1]

/-! ### The end -/

/-- Only tasks of the world outside are cancelled. -/
def Calm (m : Program.Move (Task E n) (Port n) V) : Prop := m.cancelled = true → ∃ e, m.task = .env e

omit [Inhabited V] [DecidableEq E] in
/-- The call of a worker that has left its loop. -/
theorem closing (within : (drainInto i : Copier (Port n) V).last.Within (s.world.pcs (.worker i))) :
    s.world.pcs (.worker i) = .closing (.out i) := by
  rcases within with same | ⟨_, _, no, -⟩
  · exact same
  · cases no

/-- The output is open to its worker. -/
theorem out_open (h : Run program.step (start cap) tr s) (notEnded : wrk s i ≠ .ended) :
    (s.world.chans (.out i)).closed = false := by
  rw [Bool.eq_false_iff]
  intro closed
  exact notEnded ((closed_iff_ended h i).mp closed)

/-- A worker that is not cancelled does not fail. -/
theorem calm_of_run (h : RunBy (fun m _ => Calm m) program.step (start cap) tr s) (i : Fin n) :
    wrk s i ≠ .failed := by
  induction h with
  | start => nofun
  | @move tr ev s s' m hrun calm hm ih =>
    refine (worker_copies i).keeps (begun_of_run begun_start hrun.run) (step_effect hm) ?_ ?_ ?_ ih
    · intro here
      rw [Bool.eq_false_iff]
      intro cancelled
      obtain ⟨e, outside⟩ := calm cancelled
      cases here.symm.trans outside
    · intro inLoop
      exact out_open hrun.run inLoop.not_ended
    · intro last st within hst
      have notEnded : wrk s i ≠ .ended := by
        intro ended
        cases Eq.trans (Eq.symm last) ended
      rw [closing within] at hst
      rcases close_cases hst with ⟨-, rfl⟩ | ⟨closed, -⟩
      · nofun
      · rw [out_open hrun.run notEnded] at closed
        cases closed

/-- With the source closed and nothing on an output, its worker has a move, until the output is closed. -/
theorem moves_of_run (h : RunBy (fun m _ => Calm m) program.step (start cap) tr s)
    (closed : (s.world.chans .src).closed = true) (empty : (s.world.chans (.out i)).count = 0) :
    (s.world.chans (.out i)).closed = true ∨ Moves program s (.worker i) := by
  by_cases ended : wrk s i = .ended
  · exact .inl ((closed_iff_ended h.run i).mpr ended)
  · right
    refine (worker_copies i).moves (begun_of_run begun_start h.run) closed empty (out_open h.run ended) rfl ?_
      ended (calm_of_run h i)
    intro within
    rw [closing within]
    refine ⟨_, rfl, ?_⟩
    rcases close_cases (b := false)
      (show stretch false s.world.chans (.closing (.out i)) = some _ from rfl) with ⟨-, h⟩ | ⟨-, _, _, h⟩
    · rw [h]
      nofun
    · rw [h]
      nofun

/-- What is left for all the workers. -/
def work (s : State E V n) : Nat := copiesWork Task.worker drainInto (fun _ => id) s

/-- With the source closed no move leaves more to be done, and every move of a worker leaves less, unless it
waits. -/
theorem work_le (h : Run program.step (start cap) tr s) {m : Program.Move _ _ _}
    (hm : program.step m s = some (ev, s')) (closed : (s.world.chans .src).closed = true) :
    work s' ≤ work s ∧ ∀ i, m.task = .worker i → s' ≠ s → work s' < work s := by
  obtain ⟨copies, copying⟩ := copiesWork_le worker_copies (begun_of_run begun_start h) (step_effect hm)
    (fun i => closed) (fun i => .inr ⟨.out i, rfl⟩) (fun i => nofun)
  exact ⟨copies, fun i here away => (copying i here).resolve_left away⟩

/-- `fan_out(src, n)` under any schedule: what it promises of every run, and that with the source closed and
its workers not cancelled each output that is received from comes to its end. -/
structure Works (n : Nat) (cap : Int) (E : Type*) (V : Type) [DecidableEq E] [Inhabited V] : Prop where
  promise : ∀ tr (s : State E V n), Run program.step (start cap) tr s → Promise tr
  moves : ∀ tr (s : State E V n), RunBy (fun m _ => Calm m) program.step (start cap) tr s →
    (s.world.chans .src).closed = true → ∀ i, (s.world.chans (.out i)).count = 0 →
    (s.world.chans (.out i)).closed = true ∨ Moves program s (.worker i)
  bounded : ∀ tr (s : State E V n), Run program.step (start cap) tr s → (s.world.chans .src).closed = true →
    ∀ m ev s', program.step m s = some (ev, s') →
      work s' ≤ work s ∧ ∀ i, m.task = .worker i → s' ≠ s → work s' < work s

/-- It makes an output at least, or none of its tasks. -/
theorem outputs_pos {m : Int} (made : outputs m = .ok n) : 0 < n := by
  unfold outputs at made
  split at made
  · cases made
  next enough =>
    cases made
    omega

theorem works (some : 0 < n) (cap : Int) : Works n cap E V where
  promise _ _ h := promise_of_run h some
  moves _ _ h closed _ empty := moves_of_run h closed empty
  bounded _ _ h closed _ _ _ hm := work_le h hm closed

end Voila.Rt.FanOut
