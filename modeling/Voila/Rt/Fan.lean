import Voila.Rt.Spawn

/-!
# Voila.Rt.Fan

`chan.merge` and `chan.fan_out`: their tasks, among the tasks of a world outside that sends into the inputs
and closes them, and receives from the outputs, in any way that channels allow.

The world outside does not receive from the inputs, and does not send into the outputs or close them: the one
is what the tasks are for, and the other is theirs to do.
-/

namespace Voila.Rt

/-! ### A loop that copies -/

/-- `each v in src { dst <- v }`, and the call that follows it. -/
structure Copier (K V : Type*) where
  src : K
  dst : K
  last : Pc K V

/-- Where the loop is: at its top, after a turn or before the first, in a turn, past it. -/
inductive Copy (V : Type*)
  | next (again : Bool)
  | copying (v : V)
  | last
  | ended
  | failed

namespace Copy

variable {V : Type*}

/-- From the end of a call to the next one. An exception ends the task. -/
def back : Copy V → Result V → Copy V
  | .next _, .received v true => .copying v
  | .next _, .received _ false => .last
  | .copying _, .sent => .next true
  | .last, .sent | .last, .closed => .ended
  | _, _ => .failed

/-- At the backedge of a loop the task of a cancelled group throws. -/
def cancel : Copy V → Option (Copy V)
  | .next true => some .failed
  | _ => none

end Copy

/-- The next call. -/
def Copier.call {K V : Type*} (c : Copier K V) : Copy V → Option (Pc K V)
  | .next _ => some (.receiving c.src)
  | .copying v => some (.sending c.dst v)
  | .last => some c.last
  | .ended | .failed => none

/-! ### `merge` -/

namespace Merge

/-- The values that channels carry: those of the inputs, and the reports on `done`. -/
inductive Item (V : Type*)
  | val (v : V)
  | int (n : Int)
  deriving DecidableEq

instance {V : Type*} : Inhabited (Item V) := ⟨.int 0⟩

/-- `x` of `left -= x`. -/
def Item.toInt {V : Type*} : Item V → Int
  | .int n => n
  | .val _ => 0

/-- The channels: any that may be inputs, and the two that `merge` makes. -/
inductive Port (C : Type*)
  | src (c : C)
  | out
  | done
  deriving DecidableEq

/-- The tasks: those of the world outside, and those that `merge` spawns. -/
inductive Task (E : Type*) (n : Nat)
  | env (e : E)
  | forwarder (i : Fin n)
  | closer
  deriving DecidableEq

variable {C E : Type*} {V : Type} {n : Nat}

/-- `forward`. -/
def forward (c : C) : Copier (Port C) (Item V) where
  src := .src c
  dst := .out
  last := .sending .done (.int 1)

/-- `close_after`: at the top of its loop, after a turn or before the first, or over. -/
inductive Closer
  | left (again : Bool) (n : Int)
  | ended
  | failed

namespace Closer

def call : Closer → Option (Pc (Port C) (Item V))
  | .left _ n => if n > 0 then some (.receiving .done) else some (.closing .out)
  | .ended | .failed => none

def back : Closer → Result (Item V) → Closer
  | .left _ n, .received x _ => .left true (n - x.toInt)
  | .left _ _, .closed => .ended
  | _, _ => .failed

def cancel : Closer → Option Closer
  | .left true _ => some .failed
  | _ => none

end Closer

/-- `close_after(n, done, out)`. -/
def closeAfter (n : Nat) : Closer := .left false n

/-- The variables of each task. -/
def Vars (V : Type) : Task E n → Type
  | .env _ => Unit
  | .forwarder _ => Copy (Item V)
  | .closer => Closer

/-- The calls that the world outside makes. -/
def free : Pc (Port C) (Item V) → Bool
  | .sending (.src _) _ | .trying (.src _) _ | .timing (.src _) _ | .closing (.src _) => true
  | .receiving .out => true
  | .selecting cases => cases.all fun
      | .send (.src _) _ | .recv .out | .default => true
      | _ => false
  | _ => false

/-- The tasks of `merge(srcs)`, which may have one channel more than once. -/
def program (srcs : Fin n → C) : Program (Task E n) (Port C) (Item V) (Vars V) where
  call
    | .env _, _ => none
    | .forwarder i, v => (forward (srcs i)).call v
    | .closer, v => Closer.call v
  back
    | .env _, v, _ => v
    | .forwarder _, v, r => Copy.back v r
    | .closer, v, r => Closer.back v r
  cancel
    | .env _, _ => none
    | .forwarder _, v => Copy.cancel v
    | .closer, v => Closer.cancel v
  free
    | .env _, pc => free pc
    | _, _ => false

/-- The capacities: the inputs have any, `out` has none and `done` has `len(srcs) + 1`. -/
def caps (cap : C → Int) (n : Nat) : Port C → Int
  | .src c => cap c
  | .out => 0
  | .done => n + 1

/-- The start, with every channel as it was made. -/
def start (cap : C → Int) : Program.Sys (Task E n) (Port C) (Item V) (Vars V) where
  world := World.start (caps cap n)
  vars
    | .env _ => ()
    | .forwarder _ => Copy.next false
    | .closer => closeAfter n

end Merge

/-! ### `fan_out` -/

namespace FanOut

/-- The source, and the outputs that `fan_out` makes. -/
inductive Port (n : Nat)
  | src
  | out (i : Fin n)
  deriving DecidableEq

/-- The tasks: those of the world outside, and the worker of each output. -/
inductive Task (E : Type*) (n : Nat)
  | env (e : E)
  | worker (i : Fin n)
  deriving DecidableEq

variable {E : Type*} {V : Type} {n : Nat}

/-- `drain_into`. -/
def drainInto (i : Fin n) : Copier (Port n) V where
  src := .src
  dst := .out i
  last := .closing (.out i)

def Vars (V : Type) : Task E n → Type
  | .env _ => Unit
  | .worker _ => Copy V

/-- The calls that the world outside makes. -/
def free : Pc (Port n) V → Bool
  | .sending .src _ | .trying .src _ | .timing .src _ | .closing .src => true
  | .receiving (.out _) => true
  | .selecting cases => cases.all fun
      | .send .src _ | .recv (.out _) | .default => true
      | _ => false
  | _ => false

/-- The tasks of `fan_out(src, n)`. -/
def program : Program (Task E n) (Port n) V (Vars V) where
  call
    | .env _, _ => none
    | .worker i, v => (drainInto i).call v
  back
    | .env _, v, _ => v
    | .worker _, v, r => Copy.back v r
  cancel
    | .env _, _ => none
    | .worker _, v => Copy.cancel v
  free
    | .env _, pc => free pc
    | .worker _, _ => false

/-- How many outputs `fan_out(src, n)` makes, or what it throws before it makes any. -/
def outputs (n : Int) : Except (String × String) Nat :=
  if n < 1 then .error ("RangeError", s!"chan.fan_out: {n} outputs; it needs at least 1")
  else .ok n.toNat

/-- The capacities: the source has any, the outputs have none. -/
def caps (cap : Int) : Port n → Int
  | .src => cap
  | .out _ => 0

/-- The start, with every channel as it was made. -/
def start [Inhabited V] (cap : Int) : Program.Sys (Task E n) (Port n) V (Vars V) where
  world := World.start (caps cap)
  vars
    | .env _ => ()
    | .worker _ => Copy.next false

end FanOut

end Voila.Rt
