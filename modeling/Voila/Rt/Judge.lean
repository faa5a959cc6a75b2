import Voila.Lib.Steps

/-!
# Voila.Rt.Judge

The judgement of a finished, shared frame (`value.c`): `frame_enter`, `frame_exit`,
`frame_release_judged`, `self_cycle_only`, `frame_unhold` and `vl_judge_deferred`, run by any
number of threads on one frame.

A move is one atomic operation on the frame's count word, `pending`, `reaper` or the deferred list.
What the program does with the references in between is left open: a thread hands them to another,
makes more, and a call over the frame may put them in the frame's registers and take them out. A
reference is the frame's own while only its registers lead to the closure that holds it; those are
the ones that `self_refs` may count.
-/

namespace Voila.Rt.Judge

open Lib

/-! ### The count word -/

/-- `w & FRAME_REFS`. -/
def frameRefs (w : Nat) : Nat := w % 2 ^ 32

/-- `w & FRAME_ACTS`, as a count. -/
def frameActs (w : Nat) : Nat := w / 2 ^ 32 % 2 ^ 20

/-- `w & FRAME_JUDGING`. -/
def frameJudging (w : Nat) : Bool := w / 2 ^ 62 % 2 == 1

def frameAct : Nat := 2 ^ 32

def frameHold : Nat := 2 ^ 52

/-- The operations on a 64-bit word. -/
def fetchAdd (w k : Nat) : Nat := (w + k) % 2 ^ 64

def fetchSub (w k : Nat) : Nat := (w + (2 ^ 64 - k)) % 2 ^ 64

/-- `w | FRAME_JUDGING`. -/
def raised (w : Nat) : Nat := if frameJudging w then w else w + 2 ^ 62

/-- `w & ~FRAME_JUDGING`. -/
def lowered (w : Nat) : Nat := if frameJudging w then w - 2 ^ 62 else w

/-! ### Threads -/

/-- Where a thread is in the code, before its next atomic operation. -/
inductive Pc
  | idle
  /-- `frame_enter` waits for a judge. -/
  | entering
  /-- `frame_release_judged` has read the word. -/
  | releasing (c : Nat)
  /-- `vl_release` holds the frame and is about to count the closure down. -/
  | dropping
  -- `self_cycle_only`, up to its result
  | judging
  | deferCheck
  | deferring
  | loading
  | pending
  | recheck
  | raising (c : Nat)
  | unpending (c : Nat)
  | reading (c : Nat)
  | verdict (c : Nat) (garbage : Bool)
  | voiding
  | reaping
  | lowering
  | again
  /-- The result was false. -/
  | unholding
  /-- The count has reached 0. -/
  | freeing
  deriving DecidableEq

structure Thread where
  /-- The references that are this thread's to give up. -/
  refs : Nat
  /-- Its calls over the frame that are past `frame_enter`, each with a reference. -/
  calls : Nat
  /-- What `vl_judge_deferred` has taken off the list and not judged yet. -/
  todo : Nat
  /-- It is in the loop of `self_cycle_only` that drops the registers of a garbage frame; what it
  runs now is run by the releases there. -/
  clearing : Bool
  pc : Pc
  deriving DecidableEq

/-- What the threads share. -/
structure Shared where
  word : Nat
  pending : Bool
  reaper : Option Nat
  /-- How often the frame is on the deferred list. -/
  deferred : Nat
  /-- The references that are the frame's own. -/
  own : Nat
  /-- How often `frame_free` has run. -/
  freed : Nat
  deriving DecidableEq

structure State where
  sh : Shared
  threads : List Thread
  deriving DecidableEq

/-- What is seen of a run. -/
inductive Event
  /-- `frame_release_judged` has dropped a reference and left others. -/
  | dropped (t : Nat)
  /-- The verdict of a judge stands, on the count in the word. -/
  | judged (t : Nat)
  /-- A judge has dropped the registers of the frame that it found to be garbage. -/
  | reaped (t : Nat)
  deriving DecidableEq

/-! ### The code of a thread -/

/-- What a thread does next. -/
inductive Act
  | enter
  | exit
  | release
  /-- `vl_release` of a closure over the frame. -/
  | drop
  /-- Another closure over the frame is made, or one is copied into a register of it or out. -/
  | retain
  | put
  | take
  /-- `vl_judge_deferred`. -/
  | judgeDeferred
  | judgeNext
  /-- The loop that drops the registers: one that leads to `n` references, and the end of it. -/
  | clear (n : Nat)
  | cleared
  /-- On to the next operation. `n` is what `self_refs` finds; `b` says whether a weak
  compare-and-swap fails without cause, or whether one holder of the closure is left. -/
  | go (n : Nat) (b : Bool)
  deriving DecidableEq

/-- What a thread begins: `idle` is between two operations. -/
def Act.begins (t : Nat) (sh : Shared) (th : Thread) : Act → Option (Shared × Thread)
  | .enter =>
    if th.clearing = false ∧ 0 < th.refs + th.calls then
      let sh' := { sh with word := fetchAdd sh.word (1 + frameAct) }
      if frameJudging sh.word ∧ sh.reaper ≠ some t then some (sh', { th with pc := .entering })
      else some (sh', { th with calls := th.calls + 1 })
    else none
  | .exit =>
    if th.clearing = false ∧ 0 < th.calls then
      some ({ sh with word := fetchSub sh.word (1 + frameAct) },
        { th with
          calls := th.calls - 1
          pc := if sh.word = 1 + frameAct then .freeing else .idle })
    else none
  | .release => if 0 < th.refs then some (sh, { th with pc := .releasing sh.word }) else none
  | .drop =>
    if th.clearing = false ∧ 0 < th.refs then
      some ({ sh with word := fetchAdd sh.word frameHold }, { th with pc := .dropping })
    else none
  | .retain =>
    if th.clearing = false ∧ 0 < th.refs + th.calls then
      some ({ sh with word := fetchAdd sh.word 1 }, { th with refs := th.refs + 1 })
    else none
  | .put =>
    if 0 < th.calls ∧ 0 < th.refs then
      some ({ sh with own := sh.own + 1 }, { th with refs := th.refs - 1 })
    else none
  | .take =>
    if 0 < th.calls ∧ 0 < sh.own then
      some ({ sh with own := sh.own - 1 }, { th with refs := th.refs + 1 })
    else none
  | .judgeDeferred =>
    if th.clearing = false ∧ th.todo = 0 then
      some ({ sh with deferred := 0 }, { th with todo := sh.deferred })
    else none
  | .judgeNext =>
    if th.clearing = false ∧ 0 < th.todo then
      some (sh, { th with todo := th.todo - 1, pc := .judging })
    else none
  | .clear n =>
    if th.clearing = true ∧ n ≤ sh.own then
      some ({ sh with own := sh.own - n }, { th with refs := th.refs + n })
    else none
  | .cleared =>
    if th.clearing = true then
      some ({ sh with reaper := none }, { th with clearing := false, pc := .lowering })
    else none
  | .go .. => none

/-- The next atomic operation of what a thread has begun. -/
def goes (t : Nat) (sh : Shared) (th : Thread) (n : Nat) (b : Bool) :
    Pc → Option (List Event × Shared × Thread)
  | .idle => none
  | .entering =>
    if frameJudging sh.word then some ([], sh, th)
    else some ([], sh, { th with calls := th.calls + 1, pc := .idle })
  | .releasing c =>
    if b = false ∧ sh.word = c then
      if 1 < frameRefs c then
        some ([.dropped t], { sh with word := fetchAdd (fetchSub c 1) frameHold },
          { th with refs := th.refs - 1, pc := .judging })
      else
        some ([], { sh with word := fetchSub c 1 },
          { th with refs := th.refs - 1, pc := if fetchSub c 1 = 0 then .freeing else .idle })
    else some ([], sh, { th with pc := .releasing sh.word })
  | .dropping =>
    -- the one holder that is left may be a register of the frame, or someone else
    if b = true ∧ 0 < th.refs ∧ n = 0 then
      some ([], { sh with own := sh.own + 1 }, { th with refs := th.refs - 1, pc := .judging })
    else some ([], sh, { th with pc := if b then .judging else .unholding })
  | .judging => some ([], sh, { th with pc := if sh.reaper = some t then .unholding else .deferCheck })
  | .deferCheck =>
    some ([], sh, { th with pc := if frameActs sh.word ≠ 0 then .deferring else .loading })
  | .deferring => some ([], { sh with deferred := sh.deferred + 1 }, { th with pc := .idle })
  | .loading =>
    some ([], sh, { th with
      pc := if frameActs sh.word ≠ 0 then .deferCheck
        else if frameJudging sh.word then .pending else .raising sh.word })
  | .pending => some ([], { sh with pending := true }, { th with pc := .recheck })
  | .recheck =>
    some ([], sh, { th with pc := if frameJudging sh.word then .unholding else .deferCheck })
  | .raising c =>
    if sh.word = c then
      some ([], { sh with word := raised c }, { th with pc := .unpending c })
    else some ([], sh, { th with pc := .deferCheck })
  | .unpending c => some ([], { sh with pending := false }, { th with pc := .reading c })
  | .reading c =>
    if n ≤ sh.own then
      some ([], sh, { th with pc := .verdict c (decide (0 < n ∧ n = frameRefs c)) })
    else none
  | .verdict c garbage =>
    if sh.word = raised c then
      if garbage then some ([.judged t], sh, { th with pc := .reaping })
      else some ([.judged t], { sh with word := c }, { th with pc := .again })
    else some ([], sh, { th with pc := .voiding })
  | .voiding =>
    some ([], { sh with word := lowered sh.word }, { th with pc := .deferCheck })
  | .reaping =>
    some ([], { sh with reaper := some t }, { th with clearing := true, pc := .idle })
  | .lowering =>
    some ([.reaped t], { sh with word := lowered sh.word }, { th with pc := .unholding })
  | .again =>
    some ([], { sh with pending := false },
      { th with pc := if sh.pending then .deferCheck else .unholding })
  | .unholding =>
    some ([], { sh with word := fetchSub sh.word frameHold },
      { th with pc := if fetchSub sh.word frameHold = 0 then .freeing else .idle })
  | .freeing => some ([], { sh with freed := sh.freed + 1 }, { th with pc := .idle })

def Act.run (t : Nat) (a : Act) (sh : Shared) (th : Thread) : Option (List Event × Shared × Thread) :=
  match a with
  | .go n b => goes t sh th n b th.pc
  | a => if th.pc = .idle then (a.begins t sh th).map ([], ·) else none

/-! ### The system -/

inductive Move
  | act (t : Nat) (a : Act)
  /-- A thread hands a reference to another. -/
  | give (t u : Nat)
  deriving DecidableEq

def step : Move → State → Option (List Event × State)
  | .act t a, s => do
    let th ← s.threads[t]?
    let (ev, sh, th) ← a.run t s.sh th
    return (ev, ⟨sh, s.threads.set t th⟩)
  | .give t u, s => do
    let th ← s.threads[t]?
    let uh ← s.threads[u]?
    if t ≠ u ∧ th.pc = .idle ∧ th.clearing = false ∧ 0 < th.refs then
      return ([], ⟨s.sh, (s.threads.set t { th with refs := th.refs - 1 }).set u
        { uh with refs := uh.refs + 1 }⟩)
    else none

end Voila.Rt.Judge
