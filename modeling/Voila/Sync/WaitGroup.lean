import Voila.Lib.Guarded
import Voila.Rt.Chan
import Voila.Sync.Native

/-!
# Voila.Sync.WaitGroup

`WaitGroup` of `std/sync`, called by any number of tasks.

A move is one atomic step of one task: a load, an add or a compare-and-swap of an atomic word, or
a stretch of a channel call on the gate. What a method does between two of them concerns no other
task, so it is done at the end of the first.
-/

open List

namespace Voila.Sync.Wg

open Rt

/-- `WaitGroup`. -/
structure WaitGroup where
  n : Int64
  shut : Int64
  gate : Chan Int64

/-- `wait_group`. -/
def waitGroup : WaitGroup where
  n := 0
  shut := 0
  gate := chanNew 1

/-- The methods that tasks call. -/
inductive Method
  | add (delta : Int64)
  | wait

/-- `done`. -/
def Method.done : Method := .add (-1)

/-- Where a task is: in no method, or in one, about to take its next atomic step. -/
inductive Pc
  | out
  /-- `self.shut.load() == 1` of `add`. -/
  | testing (delta : Int64)
  /-- `self.n.add(delta)`. -/
  | adding (delta : Int64)
  /-- `self.shut.cas(0, 1)`. -/
  | landed
  /-- `close(self.gate)`. -/
  | closing
  /-- `self.n.load() <= 0` of `wait`. -/
  | loading
  /-- `<-self.gate`. -/
  | receiving
  deriving DecidableEq

/-- Where a call begins: `and` evaluates its right side only when the left holds. -/
def Method.begins : Method → Pc
  | .add delta => if delta > 0 then .testing delta else .adding delta
  | .wait => .loading

def reused : Exn where
  type := "RuntimeError"
  msg := "sync.WaitGroup: reused after its count reached zero; count all the work with one add() " ++
    "before spawning it, or make a new WaitGroup per round"

def wentNegative : Exn where
  type := "RuntimeError"
  msg := "sync.WaitGroup: count went negative (more done() than add())"

/-- What is seen of a method: what it does to the gate, and how it ends. -/
inductive Event
  | gate (e : Rt.Event Unit Int64)
  | added
  | waited
  | thrown (e : Exn)
  deriving DecidableEq

/-- What an atomic step leaves: the words and the gate, and where the task is then. -/
structure Turn where
  wg : WaitGroup
  pc : Pc
  events : List Event

namespace WaitGroup

variable (wg : WaitGroup)

/-- What is left of `add` once the count is `now`. -/
def counted (delta now : Int64) : Turn :=
  let wg := { wg with n := now }
  if now < 0 then ⟨wg, .out, [.thrown wentNegative]⟩
  else if now = 0 ∧ delta < 0 then ⟨wg, .landed, []⟩
  else ⟨wg, .out, [.added]⟩

/-- A stretch of a call on the gate, which is `pc` when it goes on and ends the method with
`ended` when it is over. -/
def onGate (s : Stretch Unit Int64) (pc : Pc) (ended : Event) : Turn :=
  let wg := { wg with gate := s.chans () }
  match s.pc with
  | .out (some (.thrown type msg)) => ⟨wg, .out, s.events.map .gate ++ [.thrown ⟨type, msg⟩]⟩
  | .out _ => ⟨wg, .out, s.events.map .gate ++ [ended]⟩
  | _ => ⟨wg, pc, s.events.map .gate⟩

/-- The next atomic step of a method. -/
def turn (cancelled : Bool) : Pc → Option Turn
  | .out => none
  | .testing delta =>
    if wg.shut = 1 then some ⟨wg, .out, [.thrown reused]⟩ else some ⟨wg, .adding delta, []⟩
  | .adding delta => some (wg.counted delta (syncAdd wg.n delta))
  | .landed =>
    let (won, shut) := syncCas wg.shut 0 1
    let wg := { wg with shut }
    if won then some ⟨wg, .closing, []⟩ else some ⟨wg, .out, [.added]⟩
  | .closing => some (wg.onGate (chanClose (fun _ => wg.gate) ()) .closing .added)
  | .loading => if wg.n ≤ 0 then some ⟨wg, .out, [.waited]⟩ else some ⟨wg, .receiving, []⟩
  | .receiving => some (wg.onGate (chanRecv cancelled (fun _ => wg.gate) ()) .receiving .waited)

end WaitGroup

/-! ### The system -/

/-- The group, and where each task is. -/
structure Sys (T : Type*) where
  wg : WaitGroup
  pcs : T → Pc

/-- A task calls a method, or takes its next atomic step with its task group cancelled or not. -/
inductive Move (T : Type*)
  | call (t : T) (m : Method)
  | run (t : T) (cancelled : Bool)

variable {T : Type*}

def start : Sys T := ⟨waitGroup, fun _ => .out⟩

variable [DecidableEq T]

/-- One move. -/
def step : Move T → Sys T → Option (List (T × Event) × Sys T)
  | .call t m, s =>
    match s.pcs t with
    | .out => some ([], { s with pcs := Function.update s.pcs t m.begins })
    | _ => none
  | .run t cancelled, s =>
    (s.wg.turn cancelled (s.pcs t)).map fun r =>
      (r.events.map (t, ·), ⟨r.wg, Function.update s.pcs t r.pc⟩)

/-- How many times the gate has been closed. -/
def closings (tr : List (T × Event)) : Nat :=
  tr.countP fun e => e.2 = .gate (.shut ())

/-- `t` calls `wait` in the state `s`, and it returns normally, with the count above zero in every
state from the call to the return; all moves on the way are as `C` says. -/
def WaitsInVain (C : Move T → Sys T → Prop) (t : T) (s : Sys T) : Prop :=
  ∃ s₁ tr s₂ cancelled ev s₃,
    step (.call t .wait) s = some ([], s₁) ∧
    Lib.RunBy (fun m s => C m s ∧ 0 < s.wg.n ∧ s.pcs t ≠ .out) step s₁ tr s₂ ∧
    (0 < s₂.wg.n ∧ C (.run t cancelled) s₂) ∧
    step (.run t cancelled) s₂ = some (ev, s₃) ∧ (t, .waited) ∈ ev

/-- A step down has landed on zero. -/
def Sys.Landed (s : Sys T) : Prop := s.wg.shut = 1 ∨ ∃ u, s.pcs u = .landed

/-- The move does not raise the count above zero once a step down has landed on it. -/
def InTime : Move T → Sys T → Prop
  | .run t _, s => ∀ delta, s.pcs t = .adding delta →
      s.wg.n ≤ 0 → 0 < syncAdd s.wg.n delta → ¬ s.Landed
  | .call _ _, _ => True

end Voila.Sync.Wg

/-!
What `WaitGroup` promises to any number of tasks, under any schedule.

A group counts, then one task closes its gate, then it is over (`Phase`); every atomic step keeps
to that (`Sane.move`), so the gate is closed at most once. That the count is still zero when the
gate is closed is not kept by every step: the test of `shut` and the add after it are two.
-/

namespace Voila.Sync.Wg

open Lib

variable {T : Type*}

/-! ### One atomic step -/

/-- Past the landing and before the end of the method. -/
def Pc.Ending (pc : Pc) : Prop := pc = .landed ∨ pc = .closing

/-- What an atomic step does to a group whose gate is empty. -/
inductive Does (wg : WaitGroup) : Pc → Turn → Prop
  | look {pc pc' : Pc} {ev : List Event} (hpc : ¬ pc.Ending) (hpc' : ¬ pc'.Ending)
      (hshut : .gate (.shut ()) ∉ ev) (hwaited : .waited ∈ ev → wg.n ≤ 0 ∨ wg.gate.closed = true) :
      Does wg pc ⟨wg, pc', ev⟩
  | count {delta : Int64} {pc' : Pc} {ev : List Event} (hpc' : pc' ≠ .closing)
      (hlanded : pc' = .landed → syncAdd wg.n delta = 0) (hshut : .gate (.shut ()) ∉ ev)
      (hwaited : .waited ∉ ev) : Does wg (.adding delta) ⟨{ wg with n := syncAdd wg.n delta }, pc', ev⟩
  | lose (h : wg.shut ≠ 0) : Does wg .landed ⟨wg, .out, [.added]⟩
  | win (h : wg.shut = 0) : Does wg .landed ⟨{ wg with shut := 1 }, .closing, []⟩
  | close (h : wg.gate.closed = false) :
      Does wg .closing ⟨{ wg with gate := { wg.gate with closed := true } }, .out,
        [.gate (.shut ()), .added]⟩
  | again (h : wg.gate.closed = true) (e : Exn) : Does wg .closing ⟨wg, .out, [.thrown e]⟩

variable {wg : WaitGroup} {cancelled : Bool}

theorem counted_does (delta : Int64) : Does wg (.adding delta) (wg.counted delta (syncAdd wg.n delta)) := by
  unfold WaitGroup.counted
  dsimp only
  split
  · exact .count nofun nofun (by simp) (by simp)
  · split
    next hlanded => exact .count nofun (fun _ => hlanded.1) (by simp) (by simp)
    · exact .count nofun nofun (by simp) (by simp)

variable {r : Turn} {pc : Pc} {w : T}

theorem landed_does (h : wg.turn cancelled .landed = some r) : Does wg .landed r := by
  by_cases hshut : wg.shut = 0
  · obtain rfl : ⟨{ wg with shut := 1 }, .closing, []⟩ = r := by
      simpa [WaitGroup.turn, syncCas, hshut] using h
    exact .win hshut
  · obtain rfl : ⟨wg, .out, [.added]⟩ = r := by simpa [WaitGroup.turn, syncCas, hshut] using h
    exact .lose hshut

theorem closing_does (h : wg.turn cancelled .closing = some r) : Does wg .closing r := by
  cases hclosed : wg.gate.closed
  · simp only [WaitGroup.turn, WaitGroup.onGate, Rt.chanClose, hclosed] at h
    cases h
    exact .close hclosed
  · simp only [WaitGroup.turn, WaitGroup.onGate, Rt.chanClose, hclosed] at h
    cases h
    exact .again hclosed _

/-- A receive from the empty gate. -/
theorem receiving_eq (hempty : wg.gate.count = 0) :
    wg.turn cancelled .receiving =
      if wg.gate.closed then some ⟨wg, .out, [.gate (.drained ()), .waited]⟩
      else if cancelled then
        some ⟨wg, .out, [.thrown ⟨"Cancelled", "task cancelled during channel receive"⟩]⟩
      else some ⟨wg, .receiving, []⟩ := by
  have htake : wg.gate.take = none := by simp [Rt.Chan.take, hempty]
  simp only [WaitGroup.turn, Rt.chanRecv, htake]
  split
  · rfl
  · split <;> rfl

theorem turn_does (hempty : wg.gate.count = 0)
    (h : wg.turn cancelled pc = some r) : Does wg pc r := by
  have hlook : ∀ {pc : Pc}, pc ≠ .landed → pc ≠ .closing → ¬ pc.Ending := by
    intro pc h₁ h₂ h
    exact h.elim h₁ h₂
  cases pc with
  | out => cases h
  | testing delta =>
    simp only [WaitGroup.turn] at h
    split at h
    · cases h; exact .look (hlook nofun nofun) (hlook nofun nofun) (by simp) (by simp)
    · cases h; exact .look (hlook nofun nofun) (hlook nofun nofun) (by simp) (by simp)
  | adding delta => cases h; exact counted_does delta
  | landed => exact landed_does h
  | closing => exact closing_does h
  | loading =>
    simp only [WaitGroup.turn] at h
    split at h
    next hn =>
      cases h
      exact .look (hlook nofun nofun) (hlook nofun nofun) (by simp) fun _ => .inl hn
    · cases h; exact .look (hlook nofun nofun) (hlook nofun nofun) (by simp) (by simp)
  | receiving =>
    rw [receiving_eq hempty] at h
    split at h
    next hclosed =>
      cases h
      exact .look (hlook nofun nofun) (hlook nofun nofun) (by simp) fun _ => .inr hclosed
    · split at h
      · cases h; exact .look (hlook nofun nofun) (hlook nofun nofun) (by simp) (by simp)
      · cases h; exact .look (hlook nofun nofun) (hlook nofun nofun) (by simp) (by simp)

/-! ### The life of a group -/

/-- Who is to close the gate, with the value of `shut` and the gate closed or not. -/
inductive Phase : Option T → Int64 → Bool → Prop
  | counting : Phase none 0 false
  | closing (w : T) : Phase (some w) 1 false
  | past : Phase none 1 true

theorem Phase.of_closing {shut : Int64} {closed : Bool} (h : Phase (some w) shut closed) :
    shut = 1 ∧ closed = false := by
  cases h
  exact ⟨rfl, rfl⟩

/-- What every state reached is like. -/
structure Sane (tr : List (T × Event)) (s : Sys T) : Prop where
  phase : ∃ owner, Guarded (· = .closing) owner s.pcs ∧ Phase owner s.wg.shut s.wg.gate.closed
  empty : s.wg.gate.count = 0
  closings : closings tr = if s.wg.gate.closed then 1 else 0

theorem sane_start : Sane [] (start : Sys T) where
  phase := ⟨none, .of_outside fun _ => nofun, .counting⟩
  empty := rfl
  closings := rfl

variable {s s' : Sys T} {tr ev : List (T × Event)} {m : Move T} {t : T}

theorem closings_append (tr tr' : List (T × Event)) :
    closings (tr ++ tr') = closings tr + closings tr' := countP_append

theorem closings_of_not_mem {ev : List Event} (h : .gate (.shut ()) ∉ ev) :
    closings (ev.map (t, ·)) = 0 := by
  rw [closings, countP_eq_zero]
  intro e he
  obtain ⟨e', he', rfl⟩ := mem_map.mp he
  simp only [decide_eq_true_eq]
  intro heq
  exact h (heq ▸ he')

variable {u : T}

theorem Sane.landed_of_closing (h : Sane tr s) (hu : s.pcs u = .closing) : s.Landed := by
  obtain ⟨owner, hguard, hphase⟩ := h.phase
  obtain rfl := hguard.owner_eq hu
  exact .inl hphase.of_closing.1

theorem Sane.landed_of_closed (h : Sane tr s) (hclosed : s.wg.gate.closed = true) : s.Landed := by
  obtain ⟨owner, -, hphase⟩ := h.phase
  rw [hclosed] at hphase
  left
  generalize s.wg.shut = shut at hphase ⊢
  cases hphase
  rfl

theorem ne_of_out (hout : s.pcs t = .out) (hu : s.pcs u = pc) (hpc : pc ≠ .out) : t ≠ u := by
  intro htu
  rw [← htu, hout] at hu
  exact hpc hu.symm

variable [DecidableEq T]

/-- A call leaves the group as it is, and goes to where no other task minds. -/
theorem step_call {method : Method} (h : step (.call t method) s = some (ev, s')) :
    s.pcs t = .out ∧ ev = [] ∧ s' = { s with pcs := Function.update s.pcs t method.begins } := by
  simp only [step] at h
  split at h
  next hout => cases h; exact ⟨hout, rfl, rfl⟩
  · cases h

theorem step_run {cancelled : Bool} (h : step (.run t cancelled) s = some (ev, s')) :
    ∃ r, s.wg.turn cancelled (s.pcs t) = some r ∧ ev = r.events.map (t, ·) ∧
      s' = ⟨r.wg, Function.update s.pcs t r.pc⟩ := by
  obtain ⟨r, hr, he⟩ := Option.map_eq_some_iff.mp h
  cases he
  exact ⟨r, hr, rfl, rfl⟩

theorem begins_not_ending (method : Method) : ¬ method.begins.Ending := by
  cases method with
  | add delta =>
    simp only [Method.begins]
    split <;> exact (Or.elim · nofun nofun)
  | wait => exact (Or.elim · nofun nofun)

/-- One atomic step keeps to the phases. -/
theorem Sane.turn {r : Turn} (h : Sane tr s) (hdoes : Does s.wg (s.pcs t) r) :
    Sane (tr ++ r.events.map (t, ·)) ⟨r.wg, Function.update s.pcs t r.pc⟩ := by
  obtain ⟨⟨owner, hguard, hphase⟩, hempty, hclosings⟩ := h
  -- a step that is not about closing leaves the phase alone
  have hstay : ∀ {wg' : WaitGroup} {pc' : Pc} {ev : List Event}, wg'.shut = s.wg.shut →
      wg'.gate = s.wg.gate → (pc' = .closing ↔ s.pcs t = .closing) → .gate (.shut ()) ∉ ev →
      Sane (tr ++ ev.map (t, ·)) ⟨wg', Function.update s.pcs t pc'⟩ := by
    intro wg' pc' ev hshut hgate hpc hev
    refine ⟨⟨owner, hguard.stay hpc, ?_⟩, ?_, ?_⟩
    · rw [hshut, hgate]; exact hphase
    · rw [hgate]; exact hempty
    · rw [closings_append, closings_of_not_mem hev, hclosings, hgate]; rfl
  generalize hat : s.pcs t = pc at hdoes
  cases hdoes with
  | look hpc hpc' hev hwaited =>
    refine hstay rfl rfl (iff_of_false (fun h => hpc' (.inr h)) fun h => hpc (.inr ?_)) hev
    rw [← hat]; exact h
  | count hpc' hlanded hev hwaited =>
    exact hstay rfl rfl (iff_of_false hpc' (by rw [hat]; nofun)) hev
  | lose h => exact hstay rfl rfl (iff_of_false nofun (by rw [hat]; nofun)) (by simp)
  | win h =>
    -- `shut` was zero, so nobody is closing the gate yet
    generalize hsh : s.wg.shut = shut at hphase
    generalize hcl : s.wg.gate.closed = closed at hphase
    cases hphase with
    | counting =>
      refine ⟨⟨some t, hguard.enter rfl, ?_⟩, hempty, ?_⟩
      · show Phase (some t) 1 s.wg.gate.closed
        rw [hcl]
        exact .closing t
      · simpa using hclosings
    | closing | past => rw [hsh] at h; exact absurd h (by decide)
  | close h =>
    obtain rfl := hguard.owner_eq hat
    obtain ⟨hshut, hopen⟩ := hphase.of_closing
    refine ⟨⟨none, hguard.leave nofun, ?_⟩, hempty, ?_⟩
    · show Phase none s.wg.shut true
      rw [hshut]
      exact .past
    · rw [closings_append, hclosings, hopen]
      rfl
  | again h e =>
    obtain rfl := hguard.owner_eq hat
    exact absurd (h.symm.trans hphase.of_closing.2) nofun

theorem Sane.move (h : Sane tr s) (hm : step m s = some (ev, s')) : Sane (tr ++ ev) s' := by
  cases m with
  | call t method =>
    obtain ⟨hout, rfl, rfl⟩ := step_call hm
    obtain ⟨owner, hguard, hphase⟩ := h.phase
    refine ⟨⟨owner, hguard.stay (iff_of_false ?_ ?_), hphase⟩, h.empty, by simpa using h.closings⟩
    · intro he; exact begins_not_ending method (.inr he)
    · rw [hout]; nofun
  | run t cancelled =>
    obtain ⟨r, hr, rfl, rfl⟩ := step_run hm
    exact h.turn (turn_does h.empty hr)

theorem Sane.of_run (h : Sane tr s) {tr' : List (T × Event)} (hrun : Run step s tr' s') :
    Sane (tr ++ tr') s' := by
  refine hrun.holds (fun tr' s' => Sane (tr ++ tr') s') (by simpa using h) ?_
  intro tr' s m ev s' hs hm
  rw [← append_assoc]
  exact hs.move hm

theorem sane_of_run (h : Run step start tr s) : Sane tr s := sane_start.of_run h

/-! ### The count at the closing -/

theorem Sys.Landed.of_update {wg' : WaitGroup} {pc' : Pc}
    (h : (⟨wg', Function.update s.pcs t pc'⟩ : Sys T).Landed) (hshut : wg'.shut = s.wg.shut)
    (hpc' : pc' ≠ .landed) : s.Landed := by
  rcases h with h | ⟨u, hu⟩
  · exact .inl (hshut.symm.trans h)
  · change Function.update s.pcs t pc' u = .landed at hu
    by_cases hut : u = t
    · rw [hut, Function.update_self] at hu
      exact absurd hu hpc'
    · rw [Function.update_of_ne hut] at hu
      exact .inr ⟨u, hu⟩

/-- Once a step down has landed on zero, the count stays there or below. -/
def Sys.Late (s : Sys T) : Prop := s.Landed → s.wg.n ≤ 0

theorem Sys.Late.turn {r : Turn} (h : s.Late) (hsane : Sane tr s) (hdoes : Does s.wg (s.pcs t) r)
    (hin : ∀ delta, s.pcs t = .adding delta → s.wg.n ≤ 0 → 0 < syncAdd s.wg.n delta → ¬ s.Landed) :
    Sys.Late ⟨r.wg, Function.update s.pcs t r.pc⟩ := by
  intro hlanded
  generalize hat : s.pcs t = pc at hdoes
  cases hdoes with
  | look hpc hpc' =>
    exact h (hlanded.of_update rfl fun he => hpc' (.inl he))
  | @count delta pc' ev hpc' hzero =>
    by_cases hland : pc' = .landed
    · exact (hzero hland).symm ▸ Int64.le_refl 0
    · -- some other task has landed, and this add is in time
      have hold := hlanded.of_update rfl hland
      by_contra hpos
      exact hin delta hat (h hold) (Int64.not_le.mp hpos) hold
  | lose | win => exact h (.inr ⟨t, hat⟩)
  | close | again => exact h (hsane.landed_of_closing hat)

theorem Sys.Late.move (h : s.Late) (hsane : Sane tr s) (hin : InTime m s)
    (hm : step m s = some (ev, s')) : s'.Late := by
  cases m with
  | call t method =>
    obtain ⟨hout, rfl, rfl⟩ := step_call hm
    intro hlanded
    exact h (hlanded.of_update rfl fun he => begins_not_ending method (.inl he))
  | run t cancelled =>
    obtain ⟨r, hr, rfl, rfl⟩ := step_run hm
    exact h.turn hsane (turn_does hsane.empty hr) hin

/-- What every state reached by adds in time is like, and every state that it goes on to. -/
theorem late_of_run {s₀ : Sys T} {tr₀ : List (T × Event)} (h₀ : s₀.Late) (hsane : Sane tr₀ s₀)
    (h : RunBy InTime step s₀ tr s) : s.Late ∧ ∃ tr, Sane tr s := by
  refine h.holds (fun s => s.Late ∧ ∃ tr, Sane tr s) ⟨h₀, tr₀, hsane⟩ ?_
  intro s m ev s' ⟨hlate, tr, hs⟩ hin hm
  exact ⟨hlate.move hs hin hm, tr ++ ev, hs.move hm⟩

/-- A wait that returns has seen the count at zero or below, or the gate closed. -/
theorem Sane.waited {cancelled : Bool} (h : Sane tr s) (hm : step (.run t cancelled) s = some (ev, s'))
    (hwaited : (t, .waited) ∈ ev) : s.wg.n ≤ 0 ∨ s.wg.gate.closed = true := by
  obtain ⟨r, hr, rfl, -⟩ := step_run hm
  obtain ⟨e, he, heq⟩ := mem_map.mp hwaited
  obtain rfl : e = .waited := (Prod.ext_iff.mp heq).2
  have hdoes := turn_does h.empty hr
  generalize s.pcs t = pc at hdoes
  cases hdoes with
  | look _ _ _ hw => exact hw he
  | count _ _ _ hw => exact absurd he hw
  | lose | win | close | again => simp at he

theorem not_waitsInVain (hrun : RunBy InTime step start tr s) : ¬ WaitsInVain InTime t s := by
  intro ⟨s₁, tr', s₂, cancelled, ev, s₃, hcall, hwait, ⟨hpos, _⟩, hret, hwaited⟩
  have hin : InTime (.call t .wait) s := trivial
  have hinto : RunBy InTime step s [] s₁ := RunBy.start.move _ hin hcall
  have hon := hinto.append (hwait.mono fun _ _ hc => hc.1)
  obtain ⟨hlate, _, hsane⟩ := late_of_run (fun _ => Int64.le_refl 0) sane_start (hrun.append hon)
  refine absurd ?_ (Int64.not_le.mpr hpos)
  rcases hsane.waited hret hwaited with hn | hclosed
  · exact hn
  · exact hlate (hsane.landed_of_closed hclosed)

/-! ### An add that is late -/

/-- A wait at a closed gate returns, whatever the count. -/
theorem waitsInVain_of_closed (hempty : s.wg.gate.count = 0) (hclosed : s.wg.gate.closed = true)
    (hpos : 0 < s.wg.n) (hout : s.pcs t = .out) : WaitsInVain (fun _ _ => True) t s := by
  let s₁ : Sys T := { s with pcs := Function.update s.pcs t .loading }
  let s₂ : Sys T := ⟨s.wg, Function.update s₁.pcs t .receiving⟩
  have hat₁ : s₁.pcs t = .loading := Function.update_self ..
  have hat₂ : s₂.pcs t = .receiving := Function.update_self ..
  have hcall : step (.call t .wait) s = some ([], s₁) := by simp [step, hout, Method.begins, s₁]
  have hload : step (.run t false) s₁ = some ([], s₂) := by
    simp only [step, hat₁]
    rw [WaitGroup.turn, if_neg (Int64.not_le.mpr hpos)]
    rfl
  have hrecv : step (.run t false) s₂ =
      some ([(t, .gate (.drained ())), (t, .waited)], ⟨s.wg, Function.update s₂.pcs t .out⟩) := by
    simp only [step, hat₂]
    rw [receiving_eq hempty, if_pos hclosed]
    rfl
  refine ⟨s₁, _, s₂, false, _, _, hcall, RunBy.start.move (.run t false) ?_ hload, ?_, hrecv, by simp⟩
  · exact ⟨trivial, hpos, by rw [hat₁]; nofun⟩
  · exact ⟨hpos, trivial⟩

/-- The task that has won the swap can close the gate. -/
theorem Sane.closes (h : Sane tr s) (hw : s.pcs w = .closing) (hout : s.pcs t = .out) :
    ∃ tr' s', Run step s tr' s' ∧ s'.wg.gate.closed = true ∧ s'.wg.n = s.wg.n ∧ s'.pcs t = .out := by
  obtain ⟨owner, hguard, hphase⟩ := h.phase
  obtain rfl := hguard.owner_eq hw
  have hopen := hphase.of_closing.2
  have hclose : step (.run w false) s = some ([(w, .gate (.shut ())), (w, .added)],
      ⟨{ s.wg with gate := { s.wg.gate with closed := true } }, Function.update s.pcs w .out⟩) := by
    simp [step, hw, WaitGroup.turn, WaitGroup.onGate, Rt.chanClose, hopen]
  have hne := ne_of_out hout hw nofun
  exact ⟨_, _, Run.start.move _ hclose, rfl, rfl, (Function.update_of_ne hne ..).trans hout⟩

/-- Once a step down has landed, the task that is to close the gate can do so. -/
theorem Sane.can_close (h : Sane tr s) (hlanded : s.Landed) (hout : s.pcs t = .out) :
    ∃ tr' s', Run step s tr' s' ∧ s'.wg.gate.closed = true ∧ s'.wg.n = s.wg.n ∧ s'.pcs t = .out := by
  obtain ⟨owner, hguard, hphase⟩ := h.phase
  generalize hsh : s.wg.shut = shut at hphase
  generalize hcl : s.wg.gate.closed = closed at hphase
  cases hphase with
  | counting =>
    -- the task that has landed wins the swap, and closes
    obtain ⟨u, hu⟩ : ∃ u, s.pcs u = .landed := by
      refine hlanded.resolve_left ?_
      rw [hsh]
      decide
    have hne := ne_of_out hout hu nofun
    have hwin : step (.run u false) s =
        some ([], ⟨{ s.wg with shut := 1 }, Function.update s.pcs u .closing⟩) := by
      simp [step, hu, WaitGroup.turn, syncCas, hsh]
    obtain ⟨tr', s', hrun, hrest⟩ := (h.move hwin).closes (Function.update_self ..)
      ((Function.update_of_ne hne ..).trans hout)
    exact ⟨_, s', (Run.start.move _ hwin).append hrun, hrest⟩
  | closing w => exact h.closes ((hguard w).mpr rfl) hout
  | past => exact ⟨[], s, .start, hcl, rfl, hout⟩

/-- After an add that is late, a wait may return with items still to be done. -/
theorem exists_waitsInVain (h : Sane tr s) (hlate : ¬ InTime m s)
    (hm : step m s = some (ev, s')) :
    ∃ t tr' s₁, Run step s' tr' s₁ ∧ WaitsInVain (fun _ _ => True) t s₁ := by
  cases m with
  | call => exact absurd trivial hlate
  | run t cancelled =>
    simp only [InTime, not_forall, not_not] at hlate
    obtain ⟨delta, hat, hle, hpos, hlanded⟩ := hlate
    have hsane := h.move hm
    obtain ⟨r, hr, rfl, rfl⟩ := step_run hm
    -- the add leaves a positive count, so its method has ended
    obtain rfl : ⟨{ s.wg with n := syncAdd s.wg.n delta }, .out, [.added]⟩ = r := by
      rw [hat] at hr
      refine Option.some.inj (Eq.trans ?_ hr)
      have hneg : ¬ syncAdd s.wg.n delta < 0 := fun hn => Int64.lt_irrefl (Int64.lt_trans hn hpos)
      have hzero : syncAdd s.wg.n delta ≠ 0 := fun hz => by rw [hz] at hpos; cases hpos
      simp [WaitGroup.turn, WaitGroup.counted, hneg, hzero]
    have hstill : Sys.Landed ⟨{ s.wg with n := syncAdd s.wg.n delta },
        Function.update s.pcs t .out⟩ := by
      refine hlanded.imp id fun ⟨u, hu⟩ => ⟨u, ?_⟩
      have hne : u ≠ t := by
        rintro rfl
        rw [hat] at hu
        cases hu
      exact (Function.update_of_ne hne ..).trans hu
    obtain ⟨tr', s₁, hrun, hclosed, hn, hout⟩ := hsane.can_close hstill (Function.update_self ..)
    have hempty := (hsane.of_run hrun).empty
    exact ⟨t, tr', s₁, hrun, waitsInVain_of_closed hempty hclosed (hn ▸ hpos) hout⟩

/-- The gate is closed at most once. While every add is in time, no wait returns without the count
having been at zero or below since its call; after the first add that is not, one may. -/
theorem waits_for_zero :
    (∀ tr (s : Sys T), Run step start tr s → closings tr ≤ 1) ∧
    (∀ tr (s : Sys T) t, RunBy InTime step start tr s → ¬ WaitsInVain InTime t s) ∧
    (∀ tr (s s' : Sys T) m ev, RunBy InTime step start tr s → ¬ InTime m s →
      step m s = some (ev, s') →
      ∃ t tr' s₁, Run step s' tr' s₁ ∧ WaitsInVain (fun _ _ => True) t s₁) := by
  refine ⟨?_, ?_, ?_⟩
  · intro tr s h
    rw [(sane_of_run h).closings]
    split <;> decide
  · intro tr s t h
    exact not_waitsInVain h
  · intro tr s s' m ev h hlate hm
    exact exists_waitsInVain (sane_of_run h.run) hlate hm

/-- One task counts one item and is done with it. Before it sets `shut`, another has passed the test
and adds an item of its own. -/
def race : List (Move Bool) :=
  [.call false (.add 1), .run false false, .run false false, .call false .done,
    .call true (.add 1), .run true false, .run false false, .run true false, .run false false,
    .run false false]

/-- The other task then waits, for its own item, and is not kept. -/
theorem waits_for_zero_race :
    ¬ ∀ tr (s : Sys Bool) t, Run step start tr s → ¬ WaitsInVain (fun _ _ => True) t s := by
  intro h
  have hends : (runSchedule step race start).map (fun r => (r.2.wg.n, r.2.wg.gate.closed,
      r.2.wg.gate.count, r.2.pcs true)) = some (1, true, 0, .out) := by decide
  obtain ⟨⟨tr, s⟩, hrun, hs⟩ := Option.map_eq_some_iff.mp hends
  obtain ⟨hn, hclosed, hempty, hout⟩ : s.wg.n = 1 ∧ s.wg.gate.closed = true ∧ s.wg.gate.count = 0 ∧
      s.pcs true = .out := by simpa using hs
  have hpos : 0 < s.wg.n := by rw [hn]; decide
  exact h tr s true (runSchedule_run race hrun) (waitsInVain_of_closed hempty hclosed hpos hout)

end Voila.Sync.Wg
