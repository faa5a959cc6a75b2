import Voila.Lib.Owners
import Voila.Rt.ChanSound

/-!
# Voila.Rt.Spawn

Tasks that run programs over channels, among tasks of which only the calls that they may make are known.

A program's variables are its task's own, so what it does between two calls nobody else sees and is done
at the end of the first. A task's group may be cancelled at any time: the move that runs a call says
whether it is, and between two calls a loop may be left at its backedge.

What the world does as a whole is that of `Voila.Rt.ChanSound` (`run_world`). What a task does is up to
its program alone (`Effect.other`), and its events are those of the calls that it makes (`made_of_run`).
-/

open List

namespace Voila.Rt

open Lib

/-! ### One call -/

section

variable {K V : Type*}

namespace Pc

/-- A call that began as `pc` is at `pc'`. -/
def Within (pc pc' : Pc K V) : Prop := pc' = pc ∨ ∃ k v, pc = .sending k v ∧ pc' = .handing k

/-- The call may put a value into the channel. -/
def Puts (k : K) : Pc K V → Prop
  | .sending k' _ | .trying k' _ | .timing k' _ => k' = k
  | .selecting cases => ∃ v, .send k v ∈ cases
  | _ => False

/-- The call may take a value from the channel. -/
def Takes (k : K) : Pc K V → Prop
  | .receiving k' => k' = k
  | .selecting cases => .recv k ∈ cases
  | _ => False

/-- The call may close the channel. -/
def Shuts (k : K) : Pc K V → Prop
  | .closing k' => k' = k
  | _ => False

/-- What may be seen of the call. -/
def Makes (pc : Pc K V) : Event K V → Prop
  | .placed k _ => pc.Puts k
  | .took k _ => pc.Takes k
  | .shut k => pc.Shuts k
  | .sent .. | .drained _ => True

theorem makes_quiet {pc : Pc K V} {e : Event K V} (h : e.quiet) : pc.Makes e := by
  cases e with
  | placed | took | shut => exact h.elim
  | sent | drained => trivial

end Pc

variable [DecidableEq K] {chans : K → Chan V} {b : Bool} {k : K} {v : V} {pc pc' : Pc K V}
  {st : Stretch K V}

/-- What a receive does, the last of which is to wait. -/
theorem recv_cases [Inhabited V] (h : stretch b chans (.receiving k) = some st) :
    (∃ v, (chans k).items = v :: (chans k).shrink.items ∧
      st = ⟨Function.update chans k (chans k).shrink, .out (some (.received v true)), [.took k v]⟩) ∨
    (chans k).count = 0 ∧
      ((chans k).closed = true ∧
          st = ⟨chans, .out (some (.received default false)), [.drained k]⟩ ∨
        b = true ∧ (∃ type msg, st = ⟨chans, .out (some (.thrown type msg)), []⟩) ∨
        (chans k).closed = false ∧ st = ⟨chans, .receiving k, []⟩) := by
  cases h
  simp only [chanRecv]
  split
  next v c htake =>
    obtain ⟨rfl, hitems⟩ := Chan.take_eq_some htake
    exact .inl ⟨v, hitems, rfl⟩
  next htake =>
    refine .inr ⟨Chan.take_eq_none.mp htake, ?_⟩
    split
    next closed => exact .inl ⟨closed, rfl⟩
    next open_ =>
      split
      next cancelled => exact .inr (.inl ⟨cancelled, _, _, rfl⟩)
      · exact .inr (.inr ⟨Bool.eq_false_iff.mpr open_, rfl⟩)

/-- What a send does, the last of which is to wait. -/
theorem send_cases [Inhabited V] (h : stretch b chans (.sending k v) = some st) :
    (∃ room : (chans k).count < (chans k).cap, (chans k).closed = false ∧
      ∃ pc ev, st = ⟨Function.update chans k ((chans k).put v room), pc, .placed k v :: ev⟩ ∧
        (∀ e ∈ ev, e.quiet) ∧
        (pc = .out (some .sent) ∨ (chans k).isRendezvous = true ∧ pc = .handing k)) ∨
    ((chans k).closed = true ∨ b = true) ∧ (∃ type msg, st = ⟨chans, .out (some (.thrown type msg)), []⟩) ∨
    ¬ (chans k).count < (chans k).cap ∧ st = ⟨chans, .sending k v, []⟩ := by
  cases h
  simp only [chanSend]
  split
  next closed => exact .inr (.inl ⟨.inl closed, _, _, rfl⟩)
  next open_ =>
    split
    next cancelled => exact .inr (.inl ⟨.inr cancelled, _, _, rfl⟩)
    · split
      next room =>
        refine .inl ⟨room, Bool.eq_false_iff.mpr open_, ?_⟩
        split
        next rendezvous =>
          rcases handLoop_cases b (Function.update chans k ((chans k).put v room)) k with ⟨h, -⟩ | h
          · rw [h]
            exact ⟨_, _, rfl, by simp [Event.quiet], .inl rfl⟩
          · rw [h]
            exact ⟨_, _, rfl, by simp, .inr ⟨rendezvous, rfl⟩⟩
        · exact ⟨_, _, rfl, by simp [Event.quiet], .inl rfl⟩
      next full => exact .inr (.inr ⟨full, rfl⟩)

theorem close_cases [Inhabited V] (h : stretch b chans (.closing k) = some st) :
    ((chans k).closed = false ∧
      st = ⟨Function.update chans k { chans k with closed := true }, .out (some .closed), [.shut k]⟩) ∨
    ((chans k).closed = true ∧ ∃ type msg, st = ⟨chans, .out (some (.thrown type msg)), []⟩) := by
  cases h
  simp only [chanClose]
  split
  next closed => exact .inr ⟨closed, _, _, rfl⟩
  next open_ => exact .inl ⟨Bool.eq_false_iff.mpr open_, rfl⟩

theorem selectCases_makes [Inhabited V] {i : Nat} {cases all : List (SelCase K V)}
    (h : selectCases b chans i cases = some st) (sub : ∀ c ∈ cases, c ∈ all) :
    ∀ e ∈ st.events, (Pc.selecting all).Makes e := by
  fun_induction selectCases b chans i cases with
  | case1 => cases h
  | case2 i k rest =>
    cases h
    intro e he
    obtain rfl := mem_singleton.mp he
    exact sub (.recv k) (by simp)
  | case3 => cases h; intro e he; exact Pc.makes_quiet (by simp at he; simp [he, Event.quiet])
  | case4 _ _ _ _ _ _ ih => exact ih h fun c hc => sub c (by simp [hc])
  | case5 i k v rest =>
    cases h
    intro e he
    rcases mem_cons.mp he with rfl | he
    · exact ⟨v, sub (.send k v) (by simp)⟩
    · exact Pc.makes_quiet (by simp at he; simp [he, Event.quiet])
  | case6 _ _ _ _ _ _ ih => exact ih h fun c hc => sub c (by simp [hc])
  | case7 _ _ ih => exact ih h fun c hc => sub c (by simp [hc])

/-- What is seen of a stretch is what may be seen of its call. -/
theorem stretch_makes [Inhabited V] (h : stretch b chans pc' = some st) (within : pc.Within pc') :
    ∀ e ∈ st.events, pc.Makes e := by
  rcases within with rfl | ⟨k, v, rfl, rfl⟩
  · cases pc' with
    | out => cases h
    | sending k v =>
      rcases send_cases h with ⟨room, -, pc, ev, rfl, hq, -⟩ | ⟨-, _, _, rfl⟩ | ⟨-, rfl⟩
      · exact forall_mem_cons.mpr ⟨rfl, fun e he => Pc.makes_quiet (hq e he)⟩
      · simp
      · simp
    | handing k => cases h; exact fun e he => Pc.makes_quiet (handLoop_quiet e he)
    | trying k v =>
      cases h
      simp only [chanTrySend]
      split
      · simp
      · split
        · exact forall_mem_cons.mpr ⟨rfl, by simp [Pc.Makes]⟩
        · simp
    | receiving k =>
      rcases recv_cases h with ⟨v, -, rfl⟩ | ⟨-, ⟨-, rfl⟩ | ⟨-, _, _, rfl⟩ | ⟨-, rfl⟩⟩
      · exact forall_mem_singleton.mpr rfl
      · exact forall_mem_singleton.mpr trivial
      · simp
      · simp
    | closing k =>
      rcases close_cases h with ⟨-, rfl⟩ | ⟨-, _, _, rfl⟩
      · exact forall_mem_singleton.mpr rfl
      · simp
    | selecting cases =>
      cases h
      unfold chanSelect
      split
      next hs => exact selectCases_makes hs fun _ h => h
      · split
        · simp
        · split <;> simp
    | timing k v =>
      cases h
      simp only [afterMain]
      split
      · exact forall_mem_singleton.mpr rfl
      · simp
  · cases h
    exact fun e he => Pc.makes_quiet (handLoop_quiet e he)

/-- A stretch ends its call or leaves the task within it. -/
theorem stretch_within [Inhabited V] (h : stretch b chans pc' = some st) (within : pc.Within pc') :
    (∃ r, st.pc = .out r) ∨ pc.Within st.pc := by
  have hand : ∀ {k : K}, stretch b chans (.handing k) = some st →
      (∃ r, st.pc = .out r) ∨ st.pc = .handing k := by
    intro k h
    cases h
    rcases handLoop_cases b chans k with ⟨h, -⟩ | h
    · exact .inl ⟨_, by rw [h]⟩
    · exact .inr (by rw [h])
  rcases within with rfl | ⟨k, v, rfl, rfl⟩
  · cases pc' with
    | out => cases h
    | sending k v =>
      rcases send_cases h with ⟨room, -, pc, ev, rfl, -, rfl | ⟨-, rfl⟩⟩ | ⟨-, _, _, rfl⟩ | ⟨-, rfl⟩
      · exact .inl ⟨_, rfl⟩
      · exact .inr (.inr ⟨k, v, rfl, rfl⟩)
      · exact .inl ⟨_, rfl⟩
      · exact .inr (.inl rfl)
    | handing k => exact (hand h).imp id .inl
    | trying k v =>
      cases h
      simp only [chanTrySend]
      split
      · exact .inl ⟨_, rfl⟩
      · split <;> exact .inl ⟨_, rfl⟩
    | receiving k =>
      rcases recv_cases h with ⟨v, -, rfl⟩ | ⟨-, ⟨-, rfl⟩ | ⟨-, _, _, rfl⟩ | ⟨-, rfl⟩⟩
      · exact .inl ⟨_, rfl⟩
      · exact .inl ⟨_, rfl⟩
      · exact .inl ⟨_, rfl⟩
      · exact .inr (.inl rfl)
    | closing k =>
      rcases close_cases h with ⟨-, rfl⟩ | ⟨-, _, _, rfl⟩
      · exact .inl ⟨_, rfl⟩
      · exact .inl ⟨_, rfl⟩
    | selecting cases =>
      cases h
      unfold chanSelect
      split
      next hs => exact .inl (selectCases_out hs)
      · split
        · exact .inl ⟨_, rfl⟩
        · split
          · exact .inl ⟨_, rfl⟩
          · exact .inr (.inl rfl)
    | timing k v =>
      cases h
      simp only [afterMain]
      split <;> exact .inl ⟨_, rfl⟩
  · exact (hand h).imp id fun here => .inr ⟨k, v, rfl, here⟩

/-- Only a send on a channel for rendezvous hands its value over. -/
theorem stretch_hands [Inhabited V] (h : stretch b chans pc = some st) (hp : st.pc = .handing k) :
    pc = .handing k ∨ (chans k).isRendezvous = true := by
  rcases stretch_within h (.inl rfl) with ⟨r, out⟩ | same | ⟨k', v, rfl, same⟩
  · rw [hp] at out
    cases out
  · exact .inl (same ▸ hp)
  · rw [hp] at same
    cases same
    rcases send_cases h with ⟨room, -, pc, ev, rfl, -, rfl | ⟨rendezvous, -⟩⟩ | ⟨-, _, _, rfl⟩ | ⟨-, rfl⟩
    · cases hp
    · exact .inr rendezvous
    · cases hp
    · cases hp

variable {cap : K → Int}

/-- Nobody hands a value over on a channel with a buffer. -/
theorem not_handing_of_run {T : Type*} [DecidableEq T] [Inhabited V] {w : World T K V}
    {tr : List (T × Event K V)} (h : Run World.step (World.start cap) tr w) (hk : 0 < cap k) (t : T) :
    w.pcs t ≠ .handing k := by
  suffices both : Run World.step (World.start cap) tr w ∧ w.pcs t ≠ .handing k from both.2
  refine h.holds (fun tr w => Run World.step (World.start cap) tr w ∧ w.pcs t ≠ .handing k)
    ⟨.start, nofun⟩ ?_
  intro tr w m ev w' ⟨hrun, ih⟩ hm
  refine ⟨hrun.move m hm, ?_⟩
  rcases World.step_cases hm with ⟨u, pc, -, begins, -, -, hw⟩ | ⟨u, b, st, -, hst, -, -, hw⟩
  · rw [hw]
    by_cases hu : t = u
    · subst hu
      rw [Function.update_self]
      rintro rfl
      cases begins
    · rw [Function.update_of_ne hu]
      exact ih
  · rw [hw]
    by_cases hu : t = u
    · subst hu
      rw [Function.update_self]
      intro hands
      rcases stretch_hands hst hands with here | rendezvous
      · exact ih here
      · have made := (same_of_run hrun k).rendezvous
        rw [rendezvous, Chan.isRendezvous_new] at made
        simp at made
        omega
    · rw [Function.update_of_ne hu]
      exact ih

/-- A channel that is closed and empty. -/
def Chan.Spent (c : Chan V) : Prop := c.closed = true ∧ c.count = 0

/-- It stays so. -/
theorem Acts.spent {chans' : K → Chan V} {ev : List (Event K V)} (h : Acts chans chans' ev)
    (spent : (chans k).Spent) : (chans' k).Spent := by
  have other : ∀ {k' : K} {c : Chan V}, (k' = k → c.Spent) → (Function.update chans k' c k).Spent := by
    intro k' c hc
    by_cases hk : k' = k
    · subst hk
      rw [Function.update_self]
      exact hc rfl
    · rw [Function.update_of_ne (Ne.symm hk)]
      exact spent
  cases h with
  | none => exact spent
  | put room hopen => exact other fun hk => by subst hk; exact absurd spent.1 (by simp [hopen])
  | @take k' v hitems =>
    refine other fun hk => ?_
    subst hk
    have hlen := congrArg List.length hitems
    rw [Chan.length_items, spent.2] at hlen
    exact absurd hlen (by simp)
  | shut hopen => exact other fun hk => by subst hk; exact absurd spent.1 (by simp [hopen])

/-- A receiver is told of the close when there is nothing left to take. -/
theorem spent_of_drained {T : Type*} [DecidableEq T] [Inhabited V] {w : World T K V} {t : T}
    {tr : List (T × Event K V)} (h : Run World.step (World.start cap) tr w) (told : (t, .drained k) ∈ tr) :
    (w.chans k).Spent := by
  refine h.holds (fun tr w => (t, .drained k) ∈ tr → (w.chans k).Spent) nofun ?_ told
  intro tr w m ev w' ih hm told
  obtain ⟨u, es, rfl, acts⟩ := World.step_acts hm
  refine acts.spent ?_
  rcases mem_append.mp told with before | now
  · exact ih before
  · rcases World.step_cases hm with ⟨_, _, -, -, none, -⟩ | ⟨u', b, st, -, hst, events, -⟩
    · rw [none] at now
      cases now
    · rw [events] at now
      obtain ⟨e, mem, same⟩ := mem_map.mp now
      obtain ⟨-, rfl⟩ := Prod.mk.inj same
      exact (stretch_drained hst k mem).2

/-- The close of the channel. -/
def Event.closes (k : K) : Event K V → Bool
  | .shut k' => k' = k
  | _ => false

theorem Event.closes_iff {e : Event K V} : e.closes k = true ↔ e = .shut k := by
  cases e <;> simp [closes]

/-- How many times the channel has been closed. -/
def closings {T : Type*} (k : K) (tr : List (T × Event K V)) : Nat := tr.countP fun e => e.2.closes k

theorem closings_append {T : Type*} (tr tr' : List (T × Event K V)) :
    closings k (tr ++ tr') = closings k tr + closings k tr' := countP_append

theorem Acts.closings {T : Type*} {chans' : K → Chan V} {ev : List (Event K V)}
    (h : Acts chans chans' ev) (t : T) :
    (if (chans k).closed then 1 else 0) + closings k (ev.map (t, ·)) =
      if (chans' k).closed then 1 else 0 := by
  have quiet : ∀ {ev : List (Event K V)}, (∀ e ∈ ev, e.quiet) → Rt.closings k (ev.map (t, ·)) = 0 := by
    intro ev hq
    rw [Rt.closings, countP_eq_zero]
    intro p hp
    obtain ⟨e, he, rfl⟩ := mem_map.mp hp
    intro closes
    obtain rfl := Event.closes_iff.mp closes
    exact hq _ he
  have stays : ∀ {k' : K} {c : Chan V}, c.closed = (chans k').closed →
      (Function.update chans k' c k).closed = (chans k).closed := by
    intro k' c hc
    by_cases hk : k' = k
    · subst hk; rw [Function.update_self, hc]
    · rw [Function.update_of_ne (Ne.symm hk)]
  cases h with
  | none hq => rw [quiet hq, Nat.add_zero]
  | put room hopen hq =>
    have none := quiet hq
    rw [stays (Chan.closed_put room)]
    simpa [Rt.closings, Event.closes] using none
  | take =>
    rw [stays Chan.closed_shrink]
    simp [Rt.closings, Event.closes]
  | @shut k' hopen =>
    by_cases hk : k' = k
    · subst hk
      simp [Rt.closings, Event.closes, hopen]
    · rw [Function.update_of_ne (Ne.symm hk)]
      simp [Rt.closings, Event.closes, hk]

/-- A channel is closed once, or not at all. -/
theorem closings_of_run {T : Type*} [DecidableEq T] [Inhabited V] {w : World T K V}
    {tr : List (T × Event K V)} (h : Run World.step (World.start cap) tr w) (k : K) :
    closings k tr = if (w.chans k).closed then 1 else 0 := by
  refine h.holds (fun tr w => closings k tr = if (w.chans k).closed then 1 else 0) rfl ?_
  intro tr w m ev w' ih hm
  obtain ⟨t, es, rfl, hacts⟩ := World.step_acts hm
  rw [closings_append, ih, hacts.closings t]

theorem closed_iff_shut {T : Type*} [DecidableEq T] [Inhabited V] {w : World T K V}
    {tr : List (T × Event K V)} (h : Run World.step (World.start cap) tr w) (k : K) :
    (w.chans k).closed = true ↔ ∃ t, (t, .shut k) ∈ tr := by
  have count := closings_of_run h k
  have some : 0 < closings k tr ↔ ∃ t, (t, .shut k) ∈ tr := by
    rw [closings, countP_pos_iff]
    constructor
    · intro ⟨⟨t, e⟩, mem, closes⟩
      exact ⟨t, Event.closes_iff.mp closes ▸ mem⟩
    · intro ⟨t, mem⟩
      exact ⟨_, mem, Event.closes_iff.mpr rfl⟩
  rw [← some, count]
  split <;> simp_all

/-- There is no other close. -/
theorem shut_once {T : Type*} [DecidableEq T] [Inhabited V] {w : World T K V} {t : T}
    {pre post : List (T × Event K V)}
    (h : Run World.step (World.start cap) (pre ++ (t, .shut k) :: post) w) :
    ∀ e ∈ pre ++ post, e.2 ≠ .shut k := by
  have total := closings_of_run h k
  have le : closings k (pre ++ (t, .shut k) :: post) ≤ 1 := by
    rw [total]
    split <;> decide
  have here : closings k (pre ++ (t, .shut k) :: post) = closings k (pre ++ post) + 1 := by
    simp only [closings, countP_append, countP_cons, Event.closes_iff.mpr, if_true]
    exact (Nat.add_assoc ..).symm
  intro e he same
  have none : closings k (pre ++ post) = 0 := by omega
  exact (countP_eq_zero.mp none) e he (Event.closes_iff.mpr same)

end

variable {T K V : Type*} {S : T → Type*}

/-! ### Programs -/

/-- What the tasks do: their next call, what they make of its result, where a cancelled loop goes, and the
calls of a task that has no program here. -/
structure Program (T K V : Type*) (S : T → Type*) where
  call (t : T) : S t → Option (Pc K V)
  back (t : T) : S t → Result V → S t
  cancel (t : T) : S t → Option (S t)
  free (t : T) : Pc K V → Bool

namespace Program

/-- The channels and the calls, and the variables of each task. -/
structure Sys (T K V : Type*) (S : T → Type*) where
  world : World T K V
  vars : ∀ t, S t

/-- A task begins its next call, or one of its own choice, runs the next stretch of the one it is in, or
leaves a loop. -/
inductive Move (T K V : Type*)
  | call (t : T)
  | free (t : T) (pc : Pc K V)
  | run (t : T) (cancelled : Bool)
  | cancel (t : T)

/-- The task that moves. -/
def Move.task : Move T K V → T
  | .call t | .free t _ | .run t _ | .cancel t => t

/-- Its group is cancelled. -/
def Move.cancelled : Move T K V → Bool
  | .run _ b => b
  | .cancel _ => true
  | .call _ | .free _ _ => false

/-- The task's variables after a stretch that leaves it at `pc`. -/
def after (P : Program T K V S) (t : T) (v : S t) : Pc K V → S t
  | .out (some r) => P.back t v r
  | _ => v

variable [DecidableEq T] [DecidableEq K] [Inhabited V]

/-- One move. -/
def step (P : Program T K V S) :
    Move T K V → Sys T K V S → Option (List (T × Event K V) × Sys T K V S)
  | .call t, s =>
    (P.call t (s.vars t)).bind fun pc =>
      (World.step (.call t pc) s.world).map fun (ev, w) => (ev, { s with world := w })
  | .free t pc, s =>
    if P.free t pc then
      (World.step (.call t pc) s.world).map fun (ev, w) => (ev, { s with world := w })
    else none
  | .run t cancelled, s =>
    (World.step (.run t cancelled) s.world).map fun (ev, w) =>
      (ev, ⟨w, Function.update s.vars t (P.after t (s.vars t) (w.pcs t))⟩)
  | .cancel t, s =>
    match s.world.pcs t with
    | .out _ => (P.cancel t (s.vars t)).map fun v => ([], { s with vars := Function.update s.vars t v })
    | _ => none

/-! ### What a move does -/

variable {P : Program T K V S}

/-- The moves there are. -/
inductive Effect (P : Program T K V S) (s : Sys T K V S) :
    T → Bool → List (T × Event K V) → Sys T K V S → Prop
  | begins {t : T} {pc : Pc K V} (made : P.call t (s.vars t) = some pc ∨ P.free t pc = true)
      (outside : ∃ r, s.world.pcs t = .out r) :
      Effect P s t false [] ⟨⟨s.world.chans, Function.update s.world.pcs t pc⟩, s.vars⟩
  | runs {t : T} {b : Bool} {st : Stretch K V} (hst : stretch b s.world.chans (s.world.pcs t) = some st) :
      Effect P s t b (st.events.map (t, ·)) ⟨⟨st.chans, Function.update s.world.pcs t st.pc⟩,
        Function.update s.vars t (P.after t (s.vars t) st.pc)⟩
  | cancels {t : T} {v : S t} (outside : ∃ r, s.world.pcs t = .out r)
      (left : P.cancel t (s.vars t) = some v) :
      Effect P s t true [] { s with vars := Function.update s.vars t v }

omit [DecidableEq T] [DecidableEq K] [Inhabited V] in
/-- A task that is still in its call has its variables as they were. -/
theorem after_inside {t : T} {v : S t} {pc : Pc K V} (inside : ∀ r, pc ≠ .out r) : P.after t v pc = v := by
  cases pc with
  | out r => exact absurd rfl (inside r)
  | sending | handing | trying | receiving | closing | selecting | timing => rfl

variable {s s' s₀ : Sys T K V S} {m : Move T K V} {tr ev : List (T × Event K V)} {t u : T} {b : Bool}

theorem world_call {w w' : World T K V} {pc : Pc K V} (h : World.step (.call t pc) w = some (ev, w')) :
    (∃ r, w.pcs t = .out r) ∧ ev = [] ∧ w' = ⟨w.chans, Function.update w.pcs t pc⟩ := by
  simp only [World.step] at h
  split at h
  next r outside =>
    split at h
    · cases h
      exact ⟨⟨r, outside⟩, rfl, rfl⟩
    · cases h
  · cases h

theorem step_effect (h : P.step m s = some (ev, s')) : Effect P s m.task m.cancelled ev s' := by
  cases m with
  | call t =>
    obtain ⟨pc, made, h⟩ := Option.bind_eq_some_iff.mp h
    obtain ⟨⟨ev', w⟩, hw, same⟩ := Option.map_eq_some_iff.mp h
    cases same
    obtain ⟨outside, rfl, rfl⟩ := world_call hw
    exact .begins (.inl made) outside
  | free t pc =>
    simp only [step] at h
    split at h
    next made =>
      obtain ⟨⟨ev', w⟩, hw, same⟩ := Option.map_eq_some_iff.mp h
      cases same
      obtain ⟨outside, rfl, rfl⟩ := world_call hw
      exact .begins (.inr made) outside
    · cases h
  | run t b =>
    obtain ⟨⟨ev', w⟩, hw, same⟩ := Option.map_eq_some_iff.mp h
    cases same
    obtain ⟨st, hst, same⟩ := Option.map_eq_some_iff.mp hw
    cases same
    have runs := Effect.runs (P := P) hst
    dsimp only
    rw [Function.update_self]
    exact runs
  | cancel t =>
    simp only [step] at h
    split at h
    next r outside =>
      obtain ⟨v, left, same⟩ := Option.map_eq_some_iff.mp h
      cases same
      exact .cancels ⟨r, outside⟩ left
    · cases h

/-! ### Runs -/

theorem step_world (h : P.step m s = some (ev, s')) :
    (∃ m', World.step m' s.world = some (ev, s'.world)) ∨ ev = [] ∧ s'.world = s.world := by
  cases m with
  | call t =>
    obtain ⟨pc, -, h⟩ := Option.bind_eq_some_iff.mp h
    obtain ⟨⟨ev', w⟩, hw, same⟩ := Option.map_eq_some_iff.mp h
    cases same
    exact .inl ⟨_, hw⟩
  | free t pc =>
    simp only [step] at h
    split at h
    · obtain ⟨⟨ev', w⟩, hw, same⟩ := Option.map_eq_some_iff.mp h
      cases same
      exact .inl ⟨_, hw⟩
    · cases h
  | run t b =>
    obtain ⟨⟨ev', w⟩, hw, same⟩ := Option.map_eq_some_iff.mp h
    cases same
    exact .inl ⟨_, hw⟩
  | cancel t =>
    simp only [step] at h
    split at h
    · obtain ⟨v, -, same⟩ := Option.map_eq_some_iff.mp h
      cases same
      exact .inr ⟨rfl, rfl⟩
    · cases h

/-- What the programs do is a run of the channels. -/
theorem run_world (h : Run P.step s₀ tr s) : Run World.step s₀.world tr s.world := by
  induction h with
  | start => exact .start
  | move m _ hm ih =>
    rcases step_world hm with ⟨m', hm'⟩ | ⟨rfl, same⟩
    · exact ih.move m' hm'
    · rw [same, List.append_nil]
      exact ih

theorem Effect.acts (h : Effect P s t b ev s') :
    ∃ es, ev = es.map (t, ·) ∧ Acts s.world.chans s'.world.chans es := by
  cases h with
  | begins | cancels => exact ⟨[], rfl, .none nofun⟩
  | runs hst => exact ⟨_, rfl, stretch_acts hst⟩

/-- The events of a task. -/
def own (t : T) (tr : List (T × Event K V)) : List (T × Event K V) := tr.filter fun e => e.1 = t

omit [DecidableEq K] [Inhabited V] in
@[simp] theorem own_append (tr tr' : List (T × Event K V)) : own t (tr ++ tr') = own t tr ++ own t tr' :=
  filter_append ..

omit [DecidableEq K] [Inhabited V] in
@[simp] theorem own_map (es : List (Event K V)) : own t (es.map (t, ·)) = es.map (t, ·) := by
  simp [own, filter_eq_self]

omit [DecidableEq K] [Inhabited V] in
theorem own_other (h : u ≠ t) (es : List (Event K V)) : own u (es.map (t, ·)) = [] := by
  simp [own, filter_eq_nil_iff, h.symm]

/-- A move leaves every other task where it is. -/
theorem Effect.other (h : Effect P s t b ev s') (hu : u ≠ t) :
    s'.world.pcs u = s.world.pcs u ∧ s'.vars u = s.vars u ∧ own u ev = [] := by
  cases h with
  | begins => exact ⟨Function.update_of_ne hu .., rfl, rfl⟩
  | runs => exact ⟨Function.update_of_ne hu .., Function.update_of_ne hu .., own_other hu _⟩
  | cancels => exact ⟨rfl, Function.update_of_ne hu .., rfl⟩

/-- What it does to the task that makes it. -/
theorem Effect.self (h : Effect P s t b ev s') :
    (ev = [] ∧ s'.world.chans = s.world.chans ∧ (∃ r, s.world.pcs t = .out r) ∧
        (P.call t (s.vars t) = some (s'.world.pcs t) ∨ P.free t (s'.world.pcs t) = true) ∧
        s'.vars t = s.vars t) ∨
    (∃ st, stretch b s.world.chans (s.world.pcs t) = some st ∧ ev = st.events.map (t, ·) ∧
        s'.world.chans = st.chans ∧ s'.world.pcs t = st.pc ∧
        s'.vars t = P.after t (s.vars t) st.pc) ∨
    b = true ∧ ev = [] ∧ s'.world = s.world ∧ (∃ r, s.world.pcs t = .out r) ∧
      P.cancel t (s.vars t) = some (s'.vars t) := by
  cases h with
  | @begins pc made outside =>
    have here : Function.update s.world.pcs t pc t = pc := Function.update_self ..
    refine .inl ⟨rfl, rfl, outside, ?_, rfl⟩
    dsimp only
    rw [here]
    exact made
  | @runs b st hst =>
    have hpc : Function.update s.world.pcs t st.pc t = st.pc := Function.update_self ..
    have hvars : Function.update s.vars t (P.after t (s.vars t) st.pc) t =
        P.after t (s.vars t) st.pc := Function.update_self ..
    exact .inr (.inl ⟨st, hst, rfl, rfl, hpc, hvars⟩)
  | @cancels v outside left =>
    have hvars : Function.update s.vars t v t = v := Function.update_self ..
    exact .inr (.inr ⟨rfl, rfl, rfl, outside, left.trans (congrArg some hvars.symm)⟩)

omit [DecidableEq T] [Inhabited V] in
theorem mem_accepted {k : K} {v : V} : v ∈ accepted k tr ↔ ∃ t, (t, .placed k v) ∈ tr := by
  constructor
  · intro h
    obtain ⟨⟨t, e⟩, mem, sel⟩ := mem_filterMap.mp h
    cases e with
    | placed k' x =>
      obtain ⟨rfl, rfl⟩ : k' = k ∧ x = v := by simpa using sel
      exact ⟨t, mem⟩
    | took | shut | sent | drained => cases sel
  · intro ⟨t, mem⟩
    exact mem_filterMap.mpr ⟨_, mem, if_pos rfl⟩

omit [DecidableEq T] [Inhabited V] in
theorem mem_received {k : K} {v : V} : v ∈ received k tr ↔ ∃ t, (t, .took k v) ∈ tr := by
  constructor
  · intro h
    obtain ⟨⟨t, e⟩, mem, sel⟩ := mem_filterMap.mp h
    cases e with
    | took k' x =>
      obtain ⟨rfl, rfl⟩ : k' = k ∧ x = v := by simpa using sel
      exact ⟨t, mem⟩
    | placed | shut | sent | drained => cases sel
  · intro ⟨t, mem⟩
    exact mem_filterMap.mpr ⟨_, mem, if_pos rfl⟩

omit [Inhabited V] in
/-- What only one task puts into a channel. -/
theorem accepted_alone {k : K} (alone : ∀ u v, (u, .placed k v) ∈ tr → u = t) :
    accepted k (own t tr) = accepted k tr := by
  unfold own accepted
  rw [filterMap_filter]
  refine filterMap_congr fun ⟨u, e⟩ mem => ?_
  cases e with
  | placed k' v =>
    by_cases hk : k' = k
    · subst hk
      simp [alone u v mem]
    · simp [hk]
  | took | shut | sent | drained => simp

omit [Inhabited V] in
/-- What only one task takes from a channel. -/
theorem received_alone {k : K} (alone : ∀ u v, (u, .took k v) ∈ tr → u = t) :
    received k (own t tr) = received k tr := by
  unfold own received
  rw [filterMap_filter]
  refine filterMap_congr fun ⟨u, e⟩ mem => ?_
  cases e with
  | took k' v =>
    by_cases hk : k' = k
    · subst hk
      simp [alone u v mem]
    · simp [hk]
  | placed | shut | sent | drained => simp

section

variable {ι : Type*} [Fintype ι] [DecidableEq ι] {owner : ι → T} {k : K}

omit [Inhabited V] in
/-- What went into a channel, by who put it in. -/
theorem accepted_owners (inj : Function.Injective owner)
    (owned : ∀ t v, (t, .placed k v) ∈ tr → ∃ i, t = owner i) :
    (accepted k tr : Multiset V) = ∑ i, (accepted k (own (owner i) tr) : Multiset V) := by
  unfold accepted own
  refine filterMap_owners inj _ ?_
  rintro ⟨t, e⟩ mem some
  cases e with
  | placed k' v =>
    by_cases hk : k' = k
    · subst hk
      exact owned t v mem
    · exact absurd (if_neg hk) some
  | took | shut | sent | drained => exact absurd rfl some

omit [Inhabited V] in
/-- What came out of a channel, by who took it. -/
theorem received_owners (inj : Function.Injective owner)
    (owned : ∀ t v, (t, .took k v) ∈ tr → ∃ i, t = owner i) :
    (received k tr : Multiset V) = ∑ i, (received k (own (owner i) tr) : Multiset V) := by
  unfold received own
  refine filterMap_owners inj _ ?_
  rintro ⟨t, e⟩ mem some
  cases e with
  | took k' v =>
    by_cases hk : k' = k
    · subst hk
      exact owned t v mem
    · exact absurd (if_neg hk) some
  | placed | shut | sent | drained => exact absurd rfl some

end

/-- Every task in a call is in one that its program makes, or that is free for it. -/
def Sys.Begun (P : Program T K V S) (s : Sys T K V S) : Prop :=
  ∀ t, (∃ r, s.world.pcs t = .out r) ∨
    ∃ pc, (P.call t (s.vars t) = some pc ∨ P.free t pc = true) ∧ pc.Within (s.world.pcs t)

theorem Sys.Begun.next (begun : s.Begun P) (h : Effect P s t b ev s') : s'.Begun P := by
  intro u
  by_cases hu : u = t
  · subst hu
    rcases h.self with ⟨-, -, -, made, hvars⟩ | ⟨st, hst, -, -, hpc, hvars⟩ | ⟨-, -, hworld, outside, -⟩
    · rw [hvars]
      exact .inr ⟨_, made, .inl rfl⟩
    · rw [hpc, hvars]
      by_cases out : ∃ r, st.pc = .out r
      · exact .inl out
      · rcases begun u with ⟨r, outside⟩ | ⟨pc, made, within⟩
        · rw [outside] at hst
          cases hst
        · rw [after_inside fun r here => out ⟨r, here⟩]
          exact .inr ⟨pc, made, (stretch_within hst within).resolve_left out⟩
    · rw [hworld]
      exact .inl outside
  · obtain ⟨hpc, hvars, -⟩ := h.other hu
    rw [hpc, hvars]
    exact begun u

theorem begun_of_run (start : s₀.Begun P) (h : Run P.step s₀ tr s) : s.Begun P :=
  h.holds (fun _ s => s.Begun P) start fun _ _ _ _ _ begun hm => begun.next (step_effect hm)

/-- What is seen of a task is what may be seen of a call that its program makes, or that is free for
it. -/
theorem made_of_run (start : s₀.Begun P) (h : Run P.step s₀ tr s) :
    ∀ e ∈ tr, ∃ v pc, (P.call e.1 v = some pc ∨ P.free e.1 pc = true) ∧ pc.Makes e.2 := by
  suffices both : s.Begun P ∧
      ∀ e ∈ tr, ∃ v pc, (P.call e.1 v = some pc ∨ P.free e.1 pc = true) ∧ pc.Makes e.2 from both.2
  refine h.holds (fun tr s => s.Begun P ∧
    ∀ e ∈ tr, ∃ v pc, (P.call e.1 v = some pc ∨ P.free e.1 pc = true) ∧ pc.Makes e.2) ⟨start, nofun⟩ ?_
  intro tr s m ev s' ⟨begun, made⟩ hm
  have effect := step_effect hm
  refine ⟨begun.next effect, fun e he => ?_⟩
  rcases mem_append.mp he with he | he
  · exact made e he
  · rcases effect.self with ⟨rfl, -⟩ | ⟨st, hst, rfl, -⟩ | ⟨-, rfl, -⟩
    · cases he
    · obtain ⟨e', he', rfl⟩ := mem_map.mp he
      rcases begun m.task with ⟨r, outside⟩ | ⟨pc, from_, within⟩
      · rw [outside] at hst
        cases hst
      · exact ⟨_, pc, from_, stretch_makes hst within e' he'⟩
    · cases he

/-- A close is alone in its move. -/
theorem shut_performed {k : K} {pre post : List (T × Event K V)}
    (h : Run P.step s₀ (pre ++ (t, .shut k) :: post) s) :
    ∃ s₂, Run P.step s₀ (pre ++ [(t, .shut k)]) s₂ ∧ (s₂.world.chans k).closed = true ∧
      Run P.step s₂ post s := by
  obtain ⟨tr, s₁, m, ev₁, ev₂, s₂, tr', hrun, hm, rest, rfl, rfl⟩ := h.performed
  obtain ⟨es, same, acts⟩ := (step_effect hm).acts
  obtain ⟨e, mem, he⟩ := mem_map.mp (same ▸ mem_append_right ev₁ mem_cons_self)
  obtain ⟨-, rfl⟩ := Prod.mk.inj he
  generalize hafter : s₂.world.chans = after at acts
  cases acts with
  | none quiet => exact (quiet _ mem).elim
  | put room opened quiet =>
    rcases mem_cons.mp mem with no | mem
    · cases no
    · exact (quiet _ mem).elim
  | take => cases mem_singleton.mp mem
  | @shut k' opened =>
    cases mem_singleton.mp mem
    have one : ev₁.length + (1 + ev₂.length) = 1 := by
      simpa [Nat.add_comm] using congrArg List.length same
    obtain rfl : ev₁ = [] := length_eq_zero_iff.mp (by omega)
    obtain rfl : ev₂ = [] := length_eq_zero_iff.mp (by omega)
    refine ⟨s₂, by simpa using hrun.move m hm, ?_, by simpa using rest⟩
    rw [hafter, Function.update_self]

/-- A task that is over does nothing. -/
theorem over_of_run (begun : s₀.Begun P) (ended : P.call t (s₀.vars t) = none)
    (kept : P.cancel t (s₀.vars t) = none) (free : ∀ pc, P.free t pc = false) (h : Run P.step s₀ tr s) :
    own t tr = [] := by
  suffices all : s.Begun P ∧ s.vars t = s₀.vars t ∧ own t tr = [] from all.2.2
  refine h.holds (fun tr s => s.Begun P ∧ s.vars t = s₀.vars t ∧ own t tr = []) ⟨begun, rfl, rfl⟩ ?_
  intro tr s m ev s' ⟨begun, vars, quiet⟩ hm
  have effect := step_effect hm
  refine ⟨begun.next effect, ?_⟩
  rw [own_append, quiet, nil_append]
  by_cases ht : t = m.task
  · rw [← ht] at effect
    rcases effect.self with ⟨rfl, -, -, made | no, hvars⟩ | ⟨st, hst, -⟩ | ⟨-, -, -, -, left⟩
    · rw [vars, ended] at made
      cases made
    · rw [free] at no
      cases no
    · rcases begun t with ⟨r, out⟩ | ⟨pc, made | no, -⟩
      · rw [out] at hst
        cases hst
      · rw [vars, ended] at made
        cases made
      · rw [free] at no
        cases no
    · rw [vars, kept] at left
      cases left
  · obtain ⟨-, hvars, hown⟩ := effect.other ht
    exact ⟨hvars.trans vars, hown⟩

/-! ### Progress -/

omit [DecidableEq T] [Inhabited V] in
/-- A stretch that leaves its task in place has been a wait. -/
theorem after_same {v : S t} {st : Stretch K V} {chans : K → Chan V} {pc : Pc K V} [Inhabited V]
    (hst : stretch b chans pc = some st) (same : st.pc = pc) : P.after t v st.pc = v := by
  refine after_inside fun r out => ?_
  rw [same] at out
  rw [out] at hst
  cases hst

/-- A move that leaves its task and the channels as they are has done nothing. -/
theorem Effect.eq_of_same (h : Effect P s t b ev s') (chans : s'.world.chans = s.world.chans)
    (pc : s'.world.pcs t = s.world.pcs t) (vars : s'.vars t = s.vars t) : s' = s := by
  have pcs : s'.world.pcs = s.world.pcs := by
    funext u
    by_cases hu : u = t
    · rw [hu, pc]
    · exact (h.other hu).1
  have all : s'.vars = s.vars := by
    funext u
    by_cases hu : u = t
    · subst hu
      exact vars
    · exact (h.other hu).2.1
  obtain ⟨⟨chans', pcs'⟩, vars'⟩ := s'
  obtain ⟨⟨chans₀, pcs₀⟩, vars₀⟩ := s
  cases chans
  cases pcs
  cases all
  rfl

/-- What is in a channel after a move. -/
theorem Effect.count (h : Effect P s t b ev s') (k : K) :
    (s.world.chans k).count + (accepted k ev).length =
      (received k ev).length + (s'.world.chans k).count := by
  obtain ⟨es, rfl, acts⟩ := h.acts
  have flow := congrArg List.length (acts.flow t k)
  simpa using flow

/-- A closed channel does not fill. -/
theorem Effect.count_le (h : Effect P s t b ev s') {k : K} (closed : (s.world.chans k).closed = true) :
    (s'.world.chans k).count ≤ (s.world.chans k).count := by
  obtain ⟨es, rfl, acts⟩ := h.acts
  have flow := h.count k
  rw [(acts.closed (t := t) closed).2, length_nil, Nat.add_zero] at flow
  rw [flow]
  exact Nat.le_add_left ..

/-- The task has a move of its own that changes something, with its group not cancelled. -/
def Moves (P : Program T K V S) (s : Sys T K V S) (t : T) : Prop :=
  ∃ m ev s', (m = .call t ∨ m = .run t false) ∧ P.step m s = some (ev, s') ∧ s' ≠ s

theorem moves_call {pc : Pc K V} {r : Option (Result V)} (outside : s.world.pcs t = .out r)
    (made : P.call t (s.vars t) = some pc) (begins : pc.begins = true) : Moves P s t := by
  refine ⟨.call t, [], ⟨⟨s.world.chans, Function.update s.world.pcs t pc⟩, s.vars⟩, .inl rfl, ?_, ?_⟩
  · simp [step, made, World.step, outside, begins]
  · intro same
    have here : Function.update s.world.pcs t pc t = s.world.pcs t := congrArg (·.world.pcs t) same
    rw [Function.update_self, outside] at here
    rw [here] at begins
    cases begins

theorem moves_run {st : Stretch K V} (hst : stretch false s.world.chans (s.world.pcs t) = some st)
    (away : st.pc ≠ s.world.pcs t) : Moves P s t := by
  refine ⟨.run t false, st.events.map (t, ·), ⟨⟨st.chans, Function.update s.world.pcs t st.pc⟩,
    Function.update s.vars t (P.after t (s.vars t) st.pc)⟩, .inr rfl, ?_, ?_⟩
  · simp [step, World.step, hst]
  · intro same
    have here : Function.update s.world.pcs t st.pc t = s.world.pcs t := congrArg (·.world.pcs t) same
    rw [Function.update_self] at here
    exact away here

end Program

end Voila.Rt
