import Voila.Lib.RingBuf
import Voila.Lib.Steps

/-!
# Voila.Rt.Chan

Channels and `select` (`task.c`), under the one monitor.

A move of the system is one stretch of a call from taking the monitor to letting it go, at
its end or in `monitor_wait`; between two of them any other task may move. Whether the task's
group is cancelled is for each move to say: the group flags are written under the monitor
too, so they stand during a move. A channel that nobody has made yet is one that nobody uses,
so every channel is there from the start.
-/

namespace Voila.Rt

open Lib

/-! ### Channels -/

/-- `VlChan`. A slot not yet written is the nil of zeroed memory. -/
structure Chan (V : Type*) where
  cap : Nat
  buf : Vector V cap
  head : Int
  count : Nat
  closed : Bool
  cap_pos : 0 < cap
  head_ok : head = -1 ∧ cap = 1 ∨ 0 ≤ head
  count_le : count ≤ cap

variable {V : Type*}

/-- The size that `vl_chan_new` gives the buffer. -/
def chanCap (cap : Int) : Nat := if cap > 0 then cap.toNat else 1

theorem chanCap_pos (cap : Int) : 0 < chanCap cap := by unfold chanCap; split <;> omega

/-- `vl_chan_new`. -/
def chanNew [Inhabited V] (cap : Int) : Chan V where
  cap := chanCap cap
  buf := Vector.replicate _ default
  head := if cap ≤ 0 then -1 else 0
  count := 0
  closed := false
  cap_pos := chanCap_pos cap
  head_ok := by unfold chanCap; split <;> split <;> omega
  count_le := Nat.zero_le _

namespace Chan

variable (c : Chan V)

def isRendezvous : Bool := c.head == -1

def ringHead : Nat := if c.isRendezvous then 0 else c.head.toNat

/-- `c->buf[(h + c->count) % c->cap] = v; c->count++`. -/
def put (v : V) (room : c.count < c.cap) : Chan V :=
  { c with
    buf := c.buf.set ((c.ringHead + c.count) % c.cap) v (Nat.mod_lt _ c.cap_pos)
    count := c.count + 1
    count_le := room }

/-- `if (!is_rendezvous(c)) c->head = (c->head + 1) % c->cap; c->count--`. -/
def shrink : Chan V :=
  { c with
    head := if !c.isRendezvous then (c.head + 1) % c.cap else c.head
    count := c.count - 1
    head_ok := by
      have := c.head_ok
      split
      · exact .inr (Int.emod_nonneg _ (by have := c.cap_pos; omega))
      · exact this
    count_le := by have := c.count_le; omega }

/-- `chan_take`. -/
def take : Option (V × Chan V) :=
  if c.count = 0 then none else some (ringAt c.cap_pos c.buf c.ringHead, c.shrink)

end Chan

/-! ### Calls -/

/-- `VlSelCase`. -/
inductive SelCase (K V : Type*)
  | recv (k : K)
  | send (k : K) (v : V)
  | default

/-- How a call ends. -/
inductive Result (V : Type*)
  | sent
  | refused
  | received (v : V) (ok : Bool)
  | closed
  | selected (i : Nat) (recv : Option (V × Bool))
  | thrown (type msg : String)

/-- Where a task is: outside the calls, with the result of its last, or in one, about to
take the monitor. -/
inductive Pc (K V : Type*)
  | out (last : Option (Result V))
  | sending (k : K) (v : V)
  | handing (k : K)
  | trying (k : K) (v : V)
  | receiving (k : K)
  | closing (k : K)
  | selecting (cases : List (SelCase K V))
  /-- The timer thread of `vl_time_after`. -/
  | timing (k : K) (v : V)

/-- The call that a send went through. -/
inductive Path
  | send
  | trySend
  | select
  deriving DecidableEq

/-- What is seen of a call: a value put into a channel or taken from it, the closing of one, the
normal end of a send, with the state of the channel and of the sender's group, and a
receiver told that the channel is closed. -/
inductive Event (K V : Type*)
  | placed (k : K) (v : V)
  | took (k : K) (v : V)
  | shut (k : K)
  | sent (k : K) (path : Path) (closed cancelled : Bool)
  | drained (k : K)
  deriving DecidableEq

/-- What a stretch under the monitor leaves: the channels, and where the task is then. -/
structure Stretch (K V : Type*) where
  chans : K → Chan V
  pc : Pc K V
  events : List (Event K V)

variable {K : Type*} [DecidableEq K]

section

variable (cancelled : Bool) (chans : K → Chan V)

/-- The second loop of `vl_chan_send`. -/
def handLoop (k : K) : Stretch K V :=
  let c := chans k
  if c.count > 0 && !c.closed then
    if cancelled then ⟨chans, .out (some .sent), [.sent k .send c.closed cancelled]⟩
    else ⟨chans, .handing k, []⟩
  else ⟨chans, .out (some .sent), [.sent k .send c.closed cancelled]⟩

/-- `vl_chan_send`, from the top of its first loop. -/
def chanSend (k : K) (v : V) : Stretch K V :=
  let c := chans k
  if c.closed then ⟨chans, .out (some (.thrown "RuntimeError" "send on closed channel")), []⟩
  else if cancelled then
    ⟨chans, .out (some (.thrown "Cancelled" "task cancelled during channel send")), []⟩
  else if room : c.count < c.cap then
    let c := c.put v room
    let chans := Function.update chans k c
    if c.isRendezvous then
      let s := handLoop cancelled chans k
      { s with events := .placed k v :: s.events }
    else ⟨chans, .out (some .sent), [.placed k v, .sent k .send c.closed cancelled]⟩
  else ⟨chans, .sending k v, []⟩

/-- `vl_chan_try_send`. -/
def chanTrySend (k : K) (v : V) : Stretch K V :=
  let c := chans k
  if c.closed || c.isRendezvous then ⟨chans, .out (some .refused), []⟩
  else if room : c.count < c.cap then
    let c := c.put v room
    ⟨Function.update chans k c, .out (some .sent),
      [.placed k v, .sent k .trySend c.closed cancelled]⟩
  else ⟨chans, .out (some .refused), []⟩

/-- `vl_chan_recv_ok`, from the top of its loop. -/
def chanRecv [Inhabited V] (k : K) : Stretch K V :=
  let c := chans k
  match c.take with
  | some (v, c) => ⟨Function.update chans k c, .out (some (.received v true)), [.took k v]⟩
  | none =>
    if c.closed then ⟨chans, .out (some (.received default false)), [.drained k]⟩
    else if cancelled then
      ⟨chans, .out (some (.thrown "Cancelled" "task cancelled during channel receive")), []⟩
    else ⟨chans, .receiving k, []⟩

/-- `vl_chan_close`. -/
def chanClose (k : K) : Stretch K V :=
  let c := chans k
  if c.closed then
    ⟨chans, .out (some (.thrown "RuntimeError" "close of already-closed channel")), []⟩
  else ⟨Function.update chans k { c with closed := true }, .out (some .closed), [.shut k]⟩

/-- The cases of a `vl_select` in turn, `i` before these: what the first that can go does. -/
def selectCases [Inhabited V] : Nat → List (SelCase K V) → Option (Stretch K V)
  | _, [] => none
  | i, .recv k :: rest =>
    let c := chans k
    match c.take with
    | some (v, c) =>
      some ⟨Function.update chans k c, .out (some (.selected i (some (v, true)))), [.took k v]⟩
    | none =>
      if c.closed then
        some ⟨chans, .out (some (.selected i (some (default, false)))), [.drained k]⟩
      else selectCases (i + 1) rest
  | i, .send k v :: rest =>
    let c := chans k
    if room : c.closed = false ∧ c.count < c.cap then
      let c := c.put v room.2
      some ⟨Function.update chans k c, .out (some (.selected i none)),
        [.placed k v, .sent k .select c.closed cancelled]⟩
    else selectCases (i + 1) rest
  | i, .default :: rest => selectCases (i + 1) rest

/-- `def` of `vl_select`: the last default case, `i` cases before these. -/
def selectDefault : Nat → List (SelCase K V) → Option Nat
  | _, [] => none
  | i, .default :: rest => some ((selectDefault (i + 1) rest).getD i)
  | i, _ :: rest => selectDefault (i + 1) rest

/-- `vl_select`, from the top of its loop. -/
def chanSelect [Inhabited V] (cases : List (SelCase K V)) : Stretch K V :=
  match selectCases cancelled chans 0 cases with
  | some s => s
  | none =>
    match selectDefault 0 cases with
    | some i => ⟨chans, .out (some (.selected i none)), []⟩
    | none =>
      if cancelled then
        ⟨chans, .out (some (.thrown "Cancelled" "task cancelled in select")), []⟩
      else ⟨chans, .selecting cases, []⟩

/-- `after_main`, when its time is over. -/
def afterMain (k : K) (v : V) : Stretch K V :=
  let c := chans k
  if room : c.closed = false ∧ c.count < c.cap then
    ⟨Function.update chans k (c.put v room.2), .out none, [.placed k v]⟩
  else ⟨chans, .out none, []⟩

/-- The next stretch of the call that a task is in. -/
def stretch [Inhabited V] : Pc K V → Option (Stretch K V)
  | .out _ => none
  | .sending k v => some (chanSend cancelled chans k v)
  | .handing k => some (handLoop cancelled chans k)
  | .trying k v => some (chanTrySend cancelled chans k v)
  | .receiving k => some (chanRecv cancelled chans k)
  | .closing k => some (chanClose chans k)
  | .selecting cases => some (chanSelect cancelled chans cases)
  | .timing k v => some (afterMain chans k v)

end

/-! ### The system -/

/-- The channels, and where each task is. -/
structure World (T K V : Type*) where
  chans : K → Chan V
  pcs : T → Pc K V

/-- A task begins a call, or runs its next stretch with its group cancelled or not. -/
inductive Move (T K V : Type*)
  | call (t : T) (pc : Pc K V)
  | run (t : T) (cancelled : Bool)

variable {T : Type*} [DecidableEq T]

/-- A call begins at its beginning. -/
def Pc.begins : Pc K V → Bool
  | .out _ | .handing _ => false
  | _ => true

/-- One move. -/
def World.step [Inhabited V] :
    Move T K V → World T K V → Option (List (T × Event K V) × World T K V)
  | .call t pc, w =>
    match w.pcs t with
    | .out _ => if pc.begins then some ([], { w with pcs := Function.update w.pcs t pc }) else none
    | _ => none
  | .run t cancelled, w =>
    (stretch cancelled w.chans (w.pcs t)).map fun s =>
      (s.events.map (t, ·), ⟨s.chans, Function.update w.pcs t s.pc⟩)

/-- Channels of the given capacities, and no task in a call. -/
def World.start [Inhabited V] (cap : K → Int) : World T K V :=
  ⟨fun k => chanNew (cap k), fun _ => .out none⟩

/-- The values that went into a channel, in order. -/
def accepted (k : K) (tr : List (T × Event K V)) : List V :=
  tr.filterMap fun
    | (_, .placed k' v) => if k' = k then some v else none
    | _ => none

/-- The values that came out of a channel, in order. -/
def received (k : K) (tr : List (T × Event K V)) : List V :=
  tr.filterMap fun
    | (_, .took k' v) => if k' = k then some v else none
    | _ => none

end Voila.Rt
