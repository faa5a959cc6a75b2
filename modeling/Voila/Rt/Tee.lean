import Voila.Rt.Chan

/-!
# Voila.Rt.Tee

`chan.tee`: its stage, between a producer that sends some values and closes and two consumers that
receive until they are told of the close.

A task is a program over its own variables whose calls are those of `Voila.Rt.Chan`. What it does between
two calls nobody else sees, so it is done at the end of the first. Nobody cancels the group.
-/

namespace Voila.Rt.Tee

variable {V : Type*}

/-! ### The stage -/

/-- The outputs. -/
inductive Output
  | a
  | b
  deriving DecidableEq

/-- The channels. -/
inductive Port
  | src
  | out (o : Output)
  deriving DecidableEq

/-- `TEE_BUF`. -/
def teeBuf : Nat := 256

/-- What the stage holds for an output: `qa`, `ha` and `doneA`, or those of `b`. -/
structure Lane (V : Type*) where
  q : List V
  h : Nat
  done : Bool

namespace Lane

variable (l : Lane V)

/-- `qa[ha]`, if `ha < len(qa)`. -/
def front : Option V := l.q[l.h]?

def append (v : V) : Lane V := { l with q := l.q ++ [v] }

def advance : Lane V := { l with h := l.h + 1 }

/-- The end of a turn: what has been delivered is dropped, once it is most of the queue. -/
def compact : Lane V :=
  if l.h > teeBuf ∧ l.h * 2 > l.q.length then { l with q := l.q.drop l.h, h := 0 } else l

end Lane

/-- What a turn may do: receive more, or deliver an output's next. -/
inductive Act (V : Type*)
  | input
  | deliver (o : Output) (x : V)

def Act.case : Act V → SelCase Port V
  | .input => .recv .src
  | .deliver o x => .send (.out o) x

/-- Where the stage is in its loop. -/
inductive Point
  | closing (o : Output)
  | turn
  | burst (k : Nat)
  | ended
  deriving DecidableEq

/-- The variables of `tee_stage`. -/
structure Stage (V : Type*) where
  lane : Output → Lane V
  isOpen : Bool
  point : Point

namespace Stage

variable (s : Stage V)

/-- `doneA and doneB`. -/
def bothDone : Bool := (s.lane .a).done && (s.lane .b).done

/-- `not open and not wa and not doneA`. -/
def closable (o : Output) : Bool := !s.isOpen && (s.lane o).front.isNone && !(s.lane o).done

/-- From the check that both outputs are closed. -/
def atTurn : Stage V := { s with point := if s.bothDone then .ended else .turn }

/-- From the check of `b` on. -/
def atCloseB : Stage V := if s.closable .b then { s with point := .closing .b } else s.atTurn

/-- From the top of the loop. -/
def atTop : Stage V :=
  if s.bothDone then { s with point := .ended }
  else if s.closable .a then { s with point := .closing .a }
  else s.atCloseB

/-- The cases of this turn: each combination of open input and queues with something in them is a branch
of its own. -/
def acts : List (Act V) :=
  (if s.isOpen then [.input] else []) ++ (((s.lane .a).front.map (Act.deliver .a)).toList ++
    ((s.lane .b).front.map (Act.deliver .b)).toList)

/-- The call of this turn: a `select`, unless there is one case only. -/
def turnCall : Option (Pc Port V) :=
  match s.acts with
  | [] => none
  | [.input] => some (.receiving .src)
  | [.deliver o x] => some (.sending (.out o) x)
  | acts => some (.selecting (acts.map Act.case))

/-- The next call. -/
def call : Option (Pc Port V) :=
  match s.point with
  | .closing o => some (.closing (.out o))
  | .turn => s.turnCall
  | .burst _ => some (.selecting [.recv .src, .default])
  | .ended => none

/-- From the end of a turn. -/
def endTurn : Stage V := { s with lane := fun o => (s.lane o).compact }.atTop

/-- `qa.append(v); qb.append(v)`. -/
def append (v : V) : Stage V := { s with lane := fun o => (s.lane o).append v }

/-- After a receive in a turn. -/
def input (v : V) (ok : Bool) : Stage V :=
  if ok then { s.append v with point := .burst 0 } else { s with isOpen := false }.endTurn

/-- After a delivery. -/
def deliver (o : Output) : Stage V :=
  { s with lane := Function.update s.lane o (s.lane o).advance }.endTurn

/-- After a receive in a burst. -/
def burstInput (k : Nat) (v : V) (ok : Bool) : Stage V :=
  if ok then
    if k + 1 < teeBuf then { s.append v with point := .burst (k + 1) } else (s.append v).endTurn
  else { s with isOpen := false }.endTurn

def shut (o : Output) : Stage V :=
  { s with lane := Function.update s.lane o { s.lane o with done := true } }

/-- From the end of a call to the next one. An exception ends the stage. -/
def back (r : Result V) : Stage V :=
  match s.point, r with
  | .closing .a, .closed => (s.shut .a).atCloseB
  | .closing .b, .closed => (s.shut .b).atTurn
  | .turn, .received v ok => s.input v ok
  | .turn, .sent =>
    match s.acts with
    | .deliver o _ :: _ => s.deliver o
    | _ => { s with point := .ended }
  | .turn, .selected i recv =>
    match s.acts[i]?, recv with
    | some .input, some (v, ok) => s.input v ok
    | some (.deliver o _), none => s.deliver o
    | _, _ => { s with point := .ended }
  | .burst k, .selected 0 (some (v, ok)) => s.burstInput k v ok
  | .burst _, .selected 1 none => s.endTurn
  | _, _ => { s with point := .ended }

end Stage

/-! ### The system -/

inductive Task
  | producer
  | stage
  | consumer (o : Output)
  deriving DecidableEq

/-- The channels and the calls; what the producer has not sent yet, if it has not closed; the stage. -/
structure Sys (V : Type*) where
  world : World Task Port V
  rest : Option (List V)
  stage : Stage V

namespace Sys

/-- The next call of a task that is outside the calls. A consumer ends when it is told of the close. -/
def call (s : Sys V) : Task → Option (Pc Port V)
  | .producer =>
    match s.rest with
    | none => none
    | some [] => some (.closing .src)
    | some (x :: _) => some (.sending .src x)
  | .stage => s.stage.call
  | .consumer o =>
    match s.world.pcs (.consumer o) with
    | .out (some (.received _ false)) => none
    | _ => some (.receiving (.out o))

/-- A call of `t` has ended. -/
def back (s : Sys V) (t : Task) (r : Result V) : Sys V :=
  match t with
  | .producer =>
    match r with
    | .sent => { s with rest := s.rest.map List.tail }
    | _ => { s with rest := none }
  | .stage => { s with stage := s.stage.back r }
  | .consumer _ => s

/-- A task begins its next call, or runs the next stretch of the one it is in. -/
inductive Step
  | call (t : Task)
  | run (t : Task)

/-- The task that moves. -/
def Step.task : Step → Task
  | .call t | .run t => t

variable [Inhabited V]

/-- One move. -/
def step : Step → Sys V → Option (List (Task × Event Port V) × Sys V)
  | .call t, s => do
    let pc ← s.call t
    let (ev, w) ← World.step (.call t pc) s.world
    return (ev, { s with world := w })
  | .run t, s => do
    let (ev, w) ← World.step (.run t false) s.world
    let s := { s with world := w }
    match w.pcs t with
    | .out (some r) => return (ev, s.back t r)
    | _ => return (ev, s)

/-- The capacities: the source has any, the outputs have `TEE_BUF`. -/
def caps (cap : Int) : Port → Int
  | .src => cap
  | .out _ => teeBuf

/-- The start, with the values that the producer sends. -/
def start (cap : Int) (xs : List V) : Sys V where
  world := World.start (caps cap)
  rest := some xs
  stage := Stage.atTop ⟨fun _ => ⟨[], 0, false⟩, true, .turn⟩

/-- A system in which a task makes no further move. -/
def stepWithout (t : Task) (m : Step) (s : Sys V) : Option (List (Task × Event Port V) × Sys V) :=
  if m.task = t then none else step m s

end Sys

end Voila.Rt.Tee
