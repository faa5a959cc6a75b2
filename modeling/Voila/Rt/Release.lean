import Voila.Lib.Holding

/-!
# Voila.Rt.Release

Reference counting and destruction (`value.c`): `vl_release`, `obj_free`, the worklist of
parked objects, and the frames that closures hold.

Objects and frames live in one heap under their addresses. A freed cell is taken out of the
heap before its references are let go, where the code frees it after, so that a use of it in
between would show: what counts down, holds or frees a cell that is not there is `none`. So
is a count that would go below zero, the end of a hold that a frame's reference should
outlive, and the clearing of a frame that a judgement finds to be garbage, which takes a
cycle.
-/

namespace Voila.Rt

open Lib

/-! ### The worklist -/

/-- `DEAD_INLINE`. -/
def deadInline : Nat := 512

/-- `g_dead_inline`, `g_dead`, `g_ndead` and `g_capdead`. -/
structure DeadList where
  inl : List Nat
  block : Option (List Nat)
  ndead : Nat
  capdead : Nat
  deriving DecidableEq

/-- `park_dead`. -/
def parkDead (w : DeadList) (o : Nat) : DeadList :=
  match w.block with
  | none =>
    if w.ndead < deadInline then { w with inl := w.inl.set w.ndead o, ndead := w.ndead + 1 }
    else
      let block := w.inl ++ List.replicate (deadInline * 4 - deadInline) 0
      { w with
        block := some (block.set w.ndead o)
        capdead := deadInline * 4
        ndead := w.ndead + 1 }
  | some block =>
    if w.ndead = w.capdead then
      let block := block ++ List.replicate w.capdead 0
      { w with
        block := some (block.set w.ndead o)
        capdead := w.capdead * 2
        ndead := w.ndead + 1 }
    else { w with block := some (block.set w.ndead o), ndead := w.ndead + 1 }

/-- `g_dead ? g_dead[--g_ndead] : g_dead_inline[--g_ndead]`. -/
def takeDead (w : DeadList) : Option (Nat × DeadList) :=
  let o := match w.block with
    | none => w.inl[w.ndead - 1]?
    | some block => block[w.ndead - 1]?
  o.map (·, { w with ndead := w.ndead - 1 })

/-- The end of the drain: the heap block goes. -/
def dropBlock (w : DeadList) : DeadList :=
  match w.block with
  | none => w
  | some _ => { w with block := none, capdead := 0 }

/-! ### Cells -/

/-- What counting references sees of a value. -/
inductive HVal
  | imm
  | obj (o : Nat)
  deriving DecidableEq

/-- An entry of a map. -/
structure MapEnt where
  used : Bool
  k : HVal
  v : HVal
  deriving DecidableEq

/-- The buffer of a channel: `count` values in the ring `buf`, from `head` on. -/
structure Queue where
  buf : List HVal
  head : Nat
  count : Nat
  fits : count ≤ buf.length

/-- The values that an object of each kind holds. -/
inductive Body
  /-- `O_STR`, `O_DEC`, `O_RANGE`, `O_NATIVE`, `O_WEAK`, `O_MUTEX`, `O_RWLOCK`, `O_REGEX`,
  `O_HANDLE`, `O_ATOMIC`, `O_BUILDER`, `O_TYPE`: none. -/
  | plain
  | slice (e : List HVal)
  | map (isSet : Bool) (ents : List MapEnt)
  | tuple (e : List HVal)
  | struct (f : List HVal)
  | enum (f : List HVal)
  | err (typeName msg fields cause suppressed trace : HVal)
  | closure (up : Option Nat)
  | chan (q : Queue)
  | task (result exc closure : HVal) (argv : List HVal)
  | shared (v : HVal)
  | box (v : HVal)
  | cell (v : HVal)
  | file (name : HVal)
  | socket (flt : HVal)
  | reader (owner name : HVal)
  | writer (owner name : HVal)
  | proc (pin pout : HVal)
  | iter (src ch : HVal)

/-- An object: its header and what it holds. -/
structure Obj where
  rc : Nat
  body : Body

/-- A frame; `refs`, `active` and `holds` are the three counts of `frc`. -/
structure Frame where
  refs : Nat
  active : Nat
  holds : Nat
  shared : Bool
  done : Bool
  /-- It entered through `frame_enter`, and counts as active in `up`. -/
  inact : Bool
  up : Option Nat
  r : List HVal
  defers : List HVal

/-- The address of a cell. -/
inductive Loc
  | obj (o : Nat)
  | frame (f : Nat)
  deriving DecidableEq

/-- The heap and the state of destruction. -/
structure Heap where
  objs : Nat → Option Obj
  frames : Nat → Option Frame
  dead : DeadList
  /-- `g_deferred`. -/
  deferred : List Nat
  /-- The cells freed, the last one first. -/
  freed : List Loc

def Heap.setObj (s : Heap) (o : Nat) (n : Obj) : Heap :=
  { s with objs := fun i => if i = o then some n else s.objs i }

def Heap.setFrame (s : Heap) (f : Nat) (n : Frame) : Heap :=
  { s with frames := fun i => if i = f then some n else s.frames i }

/-- `free` of an object. -/
def Heap.dropObj (s : Heap) (o : Nat) : Heap :=
  { s with objs := fun i => if i = o then none else s.objs i, freed := .obj o :: s.freed }

/-- `free` of a frame. -/
def Heap.dropFrame (s : Heap) (f : Nat) : Heap :=
  { s with frames := fun i => if i = f then none else s.frames i, freed := .frame f :: s.freed }

/-! ### Judgements -/

/-- The loops of `owned_refs` and `self_refs`: the sum of the counts, -1 if one gave up. -/
def sumRefs (count : HVal → Nat → Int × Nat) : Int → List HVal → Nat → Int × Nat
  | sum, [], budget => (sum, budget)
  | sum, v :: vs, budget =>
    let (c, budget) := count v budget
    if c < 0 then (-1, budget) else sumRefs count (sum + c) vs budget

/-- `owned_refs`; the first number bounds its depth, which the budget does too. -/
def ownedRefs (objs : Nat → Option Obj) (f : Nat) : Nat → HVal → Nat → Int × Nat
  | 0, _, budget => (-1, budget)
  | _ + 1, .imm, budget => (0, budget)
  | depth + 1, .obj o, budget =>
    if budget = 0 then (-1, 0)
    else
      let budget := budget - 1
      match objs o with
      | none => (0, budget)
      | some n =>
        if n.rc ≠ 1 then (0, budget)
        else match n.body with
          | .closure up => (if up = some f then 1 else 0, budget)
          | .struct e | .enum e | .tuple e | .slice e =>
            sumRefs (ownedRefs objs f depth) 0 e budget
          | .box v => ownedRefs objs f depth v budget
          | .map isSet ents =>
            if isSet then (0, budget)
            else sumRefs (ownedRefs objs f depth) 0 ((ents.filter (·.used)).map (·.v)) budget
          | _ => (0, budget)

/-- `CYCLE_WALK_BUDGET`. -/
def cycleWalkBudget : Nat := 256

def isClosure (objs : Nat → Option Obj) : HVal → Bool
  | .imm => false
  | .obj o => match objs o with
    | some ⟨_, .closure _⟩ => true
    | _ => false

/-- `self_refs`. -/
def selfRefs (objs : Nat → Option Obj) (f : Nat) (r : List HVal) (deep : Bool) : Int :=
  (sumRefs (ownedRefs objs f (cycleWalkBudget + 1)) 0 (r.filter fun v => deep || isClosure objs v)
    cycleWalkBudget).1

/-- `self_cycle_only`: whether the judgement was deferred, with its hold. -/
def selfCycleOnly (s : Heap) (f : Nat) (deep : Bool) : Option (Heap × Bool) :=
  match s.frames f with
  | none => none
  | some fr =>
    if !fr.done then some (s, false)
    else if fr.active ≠ 0 then some ({ s with deferred := s.deferred ++ [f] }, true)
    else
      let n := selfRefs s.objs f fr.r deep
      if n > 0 ∧ n = fr.refs then none else some (s, false)

/-- `FRAME_HOLD` is added. -/
def frameHold (s : Heap) (f : Nat) : Option Heap :=
  (s.frames f).map fun fr => s.setFrame f { fr with holds := fr.holds + 1 }

/-- `frame_unhold`. -/
def frameUnhold (s : Heap) (f : Nat) : Option Heap :=
  match s.frames f with
  | none => none
  | some fr =>
    if fr.refs = 0 ∧ fr.active = 0 ∧ fr.holds ≤ 1 then none
    else some (s.setFrame f { fr with holds := fr.holds - 1 })

/-- A judgement under a hold, and the end of the hold if it was not deferred. -/
def judge (s : Heap) (f : Nat) (deep : Bool) : Option Heap :=
  match selfCycleOnly s f deep with
  | none => none
  | some (s, deferred) => if deferred then some s else frameUnhold s f

/-! ### Release -/

/-- The finished frame that an object is a closure over, if it is over one. -/
def finishedFrame (s : Heap) : Body → Option (Option Nat)
  | .closure (some f) => (s.frames f).map fun fr => if fr.done then some f else none
  | _ => some none

/-- The first half of `vl_release`: the count goes down, and the frame of a closure with one
holder left is judged. The count that is left is the result. -/
def countDown (s : Heap) (o : Nat) : Option (Heap × Nat) :=
  match s.objs o with
  | none => none
  | some n =>
    if n.rc = 0 then none
    else
      let left := n.rc - 1
      match finishedFrame s n.body with
      | none => none
      | some none => some (s.setObj o { n with rc := left }, left)
      | some (some f) =>
        match frameHold s f with
        | none => none
        | some s =>
          let s := s.setObj o { n with rc := left }
          (if left ≠ 1 then frameUnhold s f else judge s f true).map (·, left)

/-- `vl_release` while `g_freeing`: what dies is parked. -/
def release (s : Heap) : HVal → Option Heap
  | .imm => some s
  | .obj o =>
    match countDown s o with
    | none => none
    | some (s, left) => some (if left > 0 then s else { s with dead := parkDead s.dead o })

def releaseAll : Heap → List HVal → Option Heap
  | s, [] => some s
  | s, v :: vs => match release s v with
    | none => none
    | some s => releaseAll s vs

/-- The loop over a map's entries. -/
def releaseEntries (isSet : Bool) : Heap → List MapEnt → Option Heap
  | s, [] => some s
  | s, e :: ents =>
    if !e.used then releaseEntries isSet s ents
    else match releaseAll s (if isSet then [e.k] else [e.k, e.v]) with
      | none => none
      | some s => releaseEntries isSet s ents

/-- The loop over a channel's buffer: `left` values from the `i`-th on. -/
def releaseQueue (q : Queue) : Nat → Nat → Heap → Option Heap
  | _, 0, s => some s
  | i, left + 1, s => match q.buf[(q.head + i) % q.buf.length]? with
    | none => none
    | some v => match release s v with
      | none => none
      | some s => releaseQueue q (i + 1) left s

/-- `frame_exit`; `free` is `frame_free`. -/
def frameExit (free : Heap → Nat → Option Heap) (s : Heap) (u : Nat) : Option Heap :=
  match s.frames u with
  | none => none
  | some fr =>
    if fr.refs = 0 ∨ fr.active = 0 then none
    else
      let s := s.setFrame u { fr with refs := fr.refs - 1, active := fr.active - 1 }
      if fr.refs = 1 ∧ fr.active = 1 ∧ fr.holds = 0 then free s u else some s

/-- `frame_release_judged`. -/
def frameReleaseJudged (free : Heap → Nat → Option Heap) (s : Heap) (f : Nat) (deep : Bool) :
    Option Heap :=
  match s.frames f with
  | none => none
  | some fr =>
    if fr.refs = 0 then none
    else
      let zero := fr.refs = 1 ∧ fr.active = 0 ∧ fr.holds = 0
      if !fr.shared then
        let s := s.setFrame f { fr with refs := fr.refs - 1 }
        if zero then free s f else some s
      else if fr.refs > 1 then
        -- the reference becomes a hold for the judgement
        judge (s.setFrame f { fr with refs := fr.refs - 1, holds := fr.holds + 1 }) f deep
      else
        let s := s.setFrame f { fr with refs := fr.refs - 1 }
        if zero then free s f else some s

/-- `frame_free`; the first argument bounds how far up it goes. -/
def frameFree : Nat → Heap → Nat → Option Heap
  | 0, _, _ => none
  | k + 1, s, f =>
    match s.frames f with
    | none => none
    | some fr =>
      match releaseAll (s.dropFrame f) fr.r with
      | none => none
      | some s =>
        match releaseAll s fr.defers with
        | none => none
        | some s =>
          match fr.up with
          | none => some s
          | some u =>
            if fr.inact then frameExit (frameFree k) s u
            else frameReleaseJudged (frameFree k) s u false

/-- `obj_free`. -/
def objFree (k : Nat) (s : Heap) (o : Nat) : Option Heap :=
  match s.objs o with
  | none => none
  | some n =>
    let s := s.dropObj o
    match n.body with
    | .plain => some s
    | .slice e | .tuple e | .struct e | .enum e => releaseAll s e
    | .map isSet ents => releaseEntries isSet s ents
    | .err typeName msg fields cause suppressed trace =>
      releaseAll s [typeName, msg, fields, cause, suppressed, trace]
    | .closure none => some s
    | .closure (some f) => frameReleaseJudged (frameFree k) s f true
    | .chan q => releaseQueue q 0 q.count s
    | .task result exc closure argv => releaseAll s (result :: exc :: closure :: argv)
    | .shared v | .box v | .cell v => releaseAll s [v]
    | .file v | .socket v => releaseAll s [v]
    | .reader v w | .writer v w | .proc v w | .iter v w => releaseAll s [v, w]

/-- The drain of the worklist, for a number of rounds. -/
def drain (k : Nat) : Nat → Heap → Option Heap
  | rounds, s =>
    if s.dead.ndead = 0 then some s
    else match rounds with
      | 0 => none
      | rounds + 1 => match takeDead s.dead with
        | none => none
        | some (o, w) => match objFree k { s with dead := w } o with
          | none => none
          | some s => drain k rounds s

/-- `vl_release` of a reference held from outside. `k` bounds the drain and the frames. -/
def vlRelease (k : Nat) (s : Heap) : HVal → Option Heap
  | .imm => some s
  | .obj o =>
    match countDown s o with
    | none => none
    | some (s, left) =>
      if left > 0 then some s
      else match objFree k s o with
        | none => none
        | some s => (drain k k s).map fun s => { s with dead := dropBlock s.dead }

end Voila.Rt
