import Mathlib

/-!
# Voila.Low.Exits

How control leaves the constructs of a function body, in the code that the lowering emits
(`low/stmt.voi`, `low/low.voi`, `low/expr.voi`, `cg/instr.voi`) and on the runtime it calls.

A statement here is what is left of one when only control is looked at: an expression may throw,
and which branch is taken is open. `Exec` runs the lowered code of a statement. A jump, a return
and an exception go through the constructs they leave one at a time, from the inside out, and
each rule does what the lowering emits for that edge: `unwind_finallies` ends groups and runs
finally blocks in this order, and does so for `return`, `break` and `continue` only.

What is seen of a run is its list of events: how each block, group and `try` statement was left,
and in what state. An outcome `cut` stops a run anywhere, so what holds of every run holds of every
beginning of one that never ends, or that ends with the process.
-/

namespace Voila.Low.Exits

/-! ### Statements -/

/-- The control skeleton of a statement. -/
inductive Stmt (F : Type)
  /-- An expression. -/
  | eval
  | call (f : F)
  | spawn
  /-- `try e`, and `e?`. -/
  | tryp
  | numeric (n : Int)
  /-- A block in braces: `lower_body` and `lower_value_block`. -/
  | block (ss : List (Stmt F))
  /-- A list of statements that has a scope but is no block: the body of a `case` or of an arm. -/
  | bare (ss : List (Stmt F))
  /-- `if`, `match` and `select`: one of them runs. -/
  | choose (alts : List (Stmt F))
  | switch (arms : List (List (Stmt F)))
  /-- The loops: what is evaluated before each turn, and the block. -/
  | loop (label : String) (head body : List (Stmt F))
  | brk (label : String)
  | cont (label : String)
  | ret
  | fallthrough
  | throw
  /-- A clause says whether it catches everything. -/
  | tryCatch (body : List (Stmt F)) (clauses : List (Bool × List (Stmt F)))
      (fin : Option (List (Stmt F)))
  /-- `attempt e`. -/
  | attempt (ss : List (Stmt F))
  | group (isTry : Bool) (body : List (Stmt F))
  | deferStmt (f : F)

variable {F : Type}

def Stmt.isNumeric : Stmt F → Bool
  | .numeric _ => true
  | _ => false

/-- `hasNumeric` of `lower_body`. -/
def hasNumeric (ss : List (Stmt F)) : Bool := ss.any Stmt.isNumeric

/-- A function: its body, and whether it can return a failure (`canFail`). -/
structure Func (F : Type) where
  body : List (Stmt F)
  canFail : Bool

/-! ### The state of a thread -/

/-- The part of `VlCtx` that leaving a construct is to restore, the tasks that live in each of the
thread's groups, and the defers of the frames on its stack. -/
structure State (F : Type) where
  digits : Int
  digitStack : List Int
  /-- The installed handlers, by the number each was given. -/
  handlers : List Nat
  nextHandler : Nat
  /-- `c->group`, and then its `parent` and so on. -/
  group : List Nat
  nextGroup : Nat
  live : Nat → Nat
  defers : List (List F)

/-- `vl_numeric_digits`. -/
def numericDigits (n : Int) : Int := if n > 0 then n else 28

namespace State

variable (σ : State F)

/-- `vl_digits_save`. -/
def digitsSave : State F := { σ with digitStack := σ.digits :: σ.digitStack }

/-- `vl_digits_restore`. -/
def digitsRestore : State F :=
  match σ.digitStack with
  | [] => σ
  | d :: ds => { σ with digits := d, digitStack := ds }

/-- `vl_eh_prepare`. -/
def ehPush : State F :=
  { σ with handlers := σ.nextHandler :: σ.handlers, nextHandler := σ.nextHandler + 1 }

/-- `vl_eh_pop`, and what `throw_to` does of it. -/
def ehPop : State F := { σ with handlers := σ.handlers.tail }

/-- `vl_group_begin`. -/
def groupBegin : State F :=
  { σ with
    group := σ.nextGroup :: σ.group
    nextGroup := σ.nextGroup + 1
    live := Function.update σ.live σ.nextGroup 0 }

/-- What the tasks may do on their own: end, and spawn others in a group that has one. -/
def Drift (σ σ' : State F) : Prop :=
  ∃ live, σ' = { σ with live := live } ∧ ∀ g, σ.live g = 0 → live g = 0

/-- `vl_group_end`: it waits until no task of the current group is left. -/
def GroupEnd (σ σ' : State F) : Prop :=
  match σ.group with
  | [] => σ' = σ
  | g :: gs => ∃ live, σ' = { σ with group := gs, live := live } ∧
      live g = 0 ∧ ∀ g, σ.live g = 0 → live g = 0

end State

/-- A thread that has just begun. -/
def State.start : State F := ⟨28, [], [], 0, [], 0, fun _ => 0, []⟩

/-! ### Runs -/

/-- How the code of a statement is left: at its end, by `RET`, by the jump to the function's exit of
a failure that propagates, by a jump to a label of a loop or to the next `case`, or by an exception
for a handler. -/
inductive Outcome
  | next
  | ret
  | fail
  | brk (label : String)
  | cont (label : String)
  | fall
  | thrown (h : Nat)
  | cut
  deriving DecidableEq

namespace Outcome

/-- The edges on which `unwind_finallies` runs, and the normal end. -/
def exits : Outcome → Bool
  | next | ret | brk _ | cont _ => true
  | fail | fall | thrown _ | cut => false

/-- The outcome of what ran on the way out, unless that came to its end. -/
def andThen (o o' : Outcome) : Outcome := if o' = next then o else o'

/-- How a call ends whose function body was left by `o`. -/
def ofBody : Outcome → Outcome
  | ret | fail => next
  | o => o

/-- A label names a loop, or none names the innermost. -/
def names (label name : String) : Bool := label = "" || label = name

/-- The loop goes on. -/
def again (o : Outcome) (name : String) : Bool :=
  match o with
  | next => true
  | cont label => names label name
  | _ => false

/-- How a loop is left, that its body leaves by `o`. -/
def ofLoop (o : Outcome) (name : String) : Outcome :=
  match o with
  | brk label => if names label name then next else brk label
  | o => o

end Outcome

/-- From where a `try` statement was left: past everything of it, or straight out of its body or
out of a clause. -/
inductive Via
  | done
  | body
  | clause
  deriving DecidableEq

/-- What is seen of a run. -/
inductive Event
  /-- A `numeric digits` statement ran, in a block or not, and what it changed. -/
  | set (inBlock : Bool) (before after : Int)
  /-- A block was left: whether it saves the digits, and the digits and their stack. -/
  | leftBlock (numeric : Bool) (entry : Int × List Int) (edge : Outcome) (after : Int × List Int)
  | leftGroup (g : Nat) (entry : List Nat) (edge : Outcome) (after : List Nat) (live : Nat)
  /-- An `attempt` was left other than by its end or by an exception for it. -/
  | leftAttempt (h : Nat) (entry : List Nat) (edge : Outcome) (after : List Nat)
  /-- The finally block of the `try` statement with handler `h` began, and `next` is the number of
  the handler to come. -/
  | finallyRan (h next : Nat)
  /-- A `try` statement was left: whether it has a finally block, and the handlers. -/
  | leftTry (h : Nat) (hasFin : Bool) (via : Via) (entry : List Nat) (edge : Outcome)
      (after : List Nat)

/-- What the lowering knows where a statement stands. -/
structure Env where
  canFail : Bool
  /-- `finLoops` is not empty. -/
  inFinally : Bool
  /-- The nearest list of statements around is that of a block. -/
  inBlock : Bool

/-- Code to be run. -/
inductive Code (F : Type)
  | stmt (s : Stmt F)
  | list (ss : List (Stmt F))
  | turns (label : String) (head body : List (Stmt F))
  | arms (arms : List (List (Stmt F)))
  | func (f : F)
  /-- `run_defers` on the frame on top. -/
  | defers

/-- The code of a finally block. -/
def finCode : Option (List (Stmt F)) → Code F
  | none => .list []
  | some ss => .stmt (.block ss)

/-- The finally block of a statement that began in `σ` begins in `σ'`. -/
def finEvents (σ σ' : State F) : Option (List (Stmt F)) → List Event
  | none => []
  | some _ => [.finallyRan σ.nextHandler σ'.nextHandler]

/-- Before the statements of a block. -/
def enterBlock (ss : List (Stmt F)) (σ : State F) : State F :=
  if hasNumeric ss then σ.digitsSave else σ

/-- After them: the restore stands at the block's end. -/
def leaveBlock (ss : List (Stmt F)) (o : Outcome) (σ : State F) : State F :=
  if hasNumeric ss ∧ o = .next then σ.digitsRestore else σ

/-- The events of a construct that began in `σ` and is left by the edge `o`. -/
def leftBlock (ss : List (Stmt F)) (σ : State F) (o : Outcome) (σ' : State F) : Event :=
  .leftBlock (hasNumeric ss) (σ.digits, σ.digitStack) o (σ'.digits, σ'.digitStack)

def leftGroup (σ : State F) (o : Outcome) (σ' : State F) : Event :=
  .leftGroup σ.nextGroup σ.group o σ'.group (σ'.live σ.nextGroup)

def leftAttempt (σ : State F) (o : Outcome) (σ' : State F) : Event :=
  .leftAttempt σ.nextHandler σ.handlers o σ'.handlers

def leftTry (fin : Option (List (Stmt F))) (via : Via) (σ : State F) (o : Outcome)
    (σ' : State F) : Event :=
  .leftTry σ.nextHandler fin.isSome via σ.handlers o σ'.handlers

/-- An event, unless the run was cut before. -/
def unlessCut (o : Outcome) (e : Event) : List Event := if o = .cut then [] else [e]

/-- An exception goes to the handler on top; with none, it ends the process. -/
def Throws (σ : State F) (o : Outcome) : Prop :=
  o = .cut ∨ ∃ h hs, σ.handlers = h :: hs ∧ o = .thrown h

/-- How a group ends whose block was left by `o`: its tasks may have left a failure. -/
def GroupGives (isTry : Bool) (σ : State F) (o o' : Outcome) : Prop :=
  o' = o ∨ if isTry then o' = .fail else Throws σ o'

/-- The clause that catches: those before it are for other types. -/
def Picks (clauses : List (Bool × List (Stmt F))) (clause : List (Stmt F)) : Prop :=
  ∃ pre all post, clauses = pre ++ (all, clause) :: post ∧ ∀ c ∈ pre, c.1 = false

/-- The runs of the program `P`. -/
inductive Exec (P : F → Func F) :
    Env → Code F → State F → Outcome → State F → List Event → Prop
  | cut {e c σ} : Exec P e c σ .cut σ []
  -- expressions
  | eval {e σ σ'} : σ.Drift σ' → Exec P e (.stmt .eval) σ .next σ' []
  | evalThrows {e σ o} : Throws σ o → Exec P e (.stmt .eval) σ o σ []
  | throw {e σ o} : Throws σ o → Exec P e (.stmt .throw) σ o σ []
  | tryp {e σ} : Exec P e (.stmt .tryp) σ .next σ []
  | trypFails {e σ} : (e.canFail && !e.inFinally) = true → Exec P e (.stmt .tryp) σ .fail σ []
  | trypRaises {e σ o} : (e.canFail && !e.inFinally) = false → Throws σ o →
      Exec P e (.stmt .tryp) σ o σ []
  | spawn {e σ g gs} : σ.group = g :: gs →
      Exec P e (.stmt .spawn) σ .next
        { σ with live := Function.update σ.live g (σ.live g + 1) } []
  | numeric {e σ n} :
      Exec P e (.stmt (.numeric n)) σ .next { σ with digits := numericDigits n }
        [.set e.inBlock σ.digits (numericDigits n)]
  | deferStmt {e σ f ds fs} : σ.defers = ds :: fs →
      Exec P e (.stmt (.deferStmt f)) σ .next { σ with defers := (f :: ds) :: fs } []
  -- calls
  | call {e f σ o σ' l} : Exec P e (.func f) σ o σ' l → Exec P e (.stmt (.call f)) σ o σ' l
  | func {e f σ o σ₁ l o' σ₂ l'} :
      Exec P ⟨(P f).canFail, false, true⟩ (.stmt (.block (P f).body))
        { σ with defers := [] :: σ.defers } o σ₁ l →
      o ≠ .cut → Exec P e .defers σ₁ o' σ₂ l' →
      Exec P e (.func f) σ (o.ofBody.andThen o') { σ₂ with defers := σ.defers } (l ++ l')
  | funcCut {e f σ σ₁ l} :
      Exec P ⟨(P f).canFail, false, true⟩ (.stmt (.block (P f).body))
        { σ with defers := [] :: σ.defers } .cut σ₁ l →
      Exec P e (.func f) σ .cut σ₁ l
  | defersNil {e σ fs} : σ.defers = [] :: fs → Exec P e .defers σ .next σ []
  | defersCons {e σ f ds fs o σ₁ l o' σ₂ l'} : σ.defers = (f :: ds) :: fs →
      Exec P e (.func f) { σ with defers := ds :: fs } o σ₁ l → o ≠ .cut →
      Exec P e .defers σ₁ o' σ₂ l' → Exec P e .defers σ (o.andThen o') σ₂ (l ++ l')
  | defersCut {e σ f ds fs σ₁ l} : σ.defers = (f :: ds) :: fs →
      Exec P e (.func f) { σ with defers := ds :: fs } .cut σ₁ l → Exec P e .defers σ .cut σ₁ l
  -- lists of statements
  | listNil {e σ} : Exec P e (.list []) σ .next σ []
  | listCons {e s ss σ σ₁ l o σ₂ l'} : Exec P e (.stmt s) σ .next σ₁ l →
      Exec P e (.list ss) σ₁ o σ₂ l' → Exec P e (.list (s :: ss)) σ o σ₂ (l ++ l')
  | listOut {e s ss σ o σ' l} : Exec P e (.stmt s) σ o σ' l → o ≠ .next →
      Exec P e (.list (s :: ss)) σ o σ' l
  | block {e ss σ o σ' l} : Exec P { e with inBlock := true } (.list ss) (enterBlock ss σ) o σ' l →
      Exec P e (.stmt (.block ss)) σ o (leaveBlock ss o σ')
        (l ++ unlessCut o (leftBlock ss σ o (leaveBlock ss o σ')))
  | bare {e ss σ o σ' l} : Exec P { e with inBlock := false } (.list ss) σ o σ' l →
      Exec P e (.stmt (.bare ss)) σ o σ' l
  -- branches and loops
  | choose {e alts s σ o σ' l} : s ∈ alts → Exec P { e with inBlock := false } (.stmt s) σ o σ' l →
      Exec P e (.stmt (.choose alts)) σ o σ' l
  | switch {e pre rest σ o σ' l} : Exec P e (.arms rest) σ o σ' l →
      Exec P e (.stmt (.switch (pre ++ rest))) σ o σ' l
  | armsNil {e σ} : Exec P e (.arms []) σ .next σ []
  | armsFall {e a rest σ σ₁ l o σ₂ l'} : Exec P e (.stmt (.bare a)) σ .fall σ₁ l →
      Exec P e (.arms rest) σ₁ o σ₂ l' → Exec P e (.arms (a :: rest)) σ o σ₂ (l ++ l')
  | armsOut {e a rest σ o σ' l} : Exec P e (.stmt (.bare a)) σ o σ' l → o ≠ .fall →
      Exec P e (.arms (a :: rest)) σ o σ' l
  | loop {e label head body σ o σ' l} : Exec P e (.turns label head body) σ o σ' l →
      Exec P e (.stmt (.loop label head body)) σ o σ' l
  | turnsExit {e label head body σ σ' l} : Exec P e (.stmt (.bare head)) σ .next σ' l →
      Exec P e (.turns label head body) σ .next σ' l
  | turnsAgain {e label head body σ o σ₁ l o' σ₂ l'} :
      Exec P e (.list [.bare head, .block body]) σ o σ₁ l → o.again label = true →
      Exec P e (.turns label head body) σ₁ o' σ₂ l' →
      Exec P e (.turns label head body) σ o' σ₂ (l ++ l')
  | turnsOut {e label head body σ o σ' l} :
      Exec P e (.list [.bare head, .block body]) σ o σ' l → o.again label = false →
      Exec P e (.turns label head body) σ (o.ofLoop label) σ' l
  | brk {e label σ} : Exec P e (.stmt (.brk label)) σ (.brk label) σ []
  | cont {e label σ} : Exec P e (.stmt (.cont label)) σ (.cont label) σ []
  | ret {e σ} : Exec P e (.stmt .ret) σ .ret σ []
  | fallthrough {e σ} : Exec P e (.stmt .fallthrough) σ .fall σ []
  -- groups
  | group {e isTry body σ o σ₁ l σ₂ o'} :
      Exec P e (.stmt (.block body)) σ.groupBegin o σ₁ l → o.exits = true → σ₁.GroupEnd σ₂ →
      GroupGives isTry σ₂ o o' →
      Exec P e (.stmt (.group isTry body)) σ o' σ₂
        (l ++ [leftGroup σ o σ₂])
  | groupOut {e isTry body σ o σ₁ l} :
      Exec P e (.stmt (.block body)) σ.groupBegin o σ₁ l → o.exits = false →
      Exec P e (.stmt (.group isTry body)) σ o σ₁
        (l ++ unlessCut o (leftGroup σ o σ₁))
  -- handlers
  | attempt {e ss σ σ₁ l} : Exec P e (.stmt (.bare ss)) σ.ehPush .next σ₁ l →
      Exec P e (.stmt (.attempt ss)) σ .next σ₁.ehPop l
  | attemptCatches {e ss σ σ₁ l o} :
      Exec P e (.stmt (.bare ss)) σ.ehPush (.thrown σ.nextHandler) σ₁ l →
      -- `CATCH` sends an abort on
      (o = .next ∨ Throws σ₁.ehPop o) → Exec P e (.stmt (.attempt ss)) σ o σ₁.ehPop l
  | attemptOut {e ss σ o σ₁ l} : Exec P e (.stmt (.bare ss)) σ.ehPush o σ₁ l →
      o ≠ .next → o ≠ .thrown σ.nextHandler →
      Exec P e (.stmt (.attempt ss)) σ o σ₁ (l ++ unlessCut o (leftAttempt σ o σ₁))
  | tryExits {e body clauses fin σ o σ₁ l o' σ₂ l'} :
      Exec P e (.stmt (.block body)) σ.ehPush o σ₁ l → o.exits = true →
      Exec P { e with inFinally := true } (finCode fin) σ₁.ehPop o' σ₂ l' →
      Exec P e (.stmt (.tryCatch body clauses fin)) σ (o.andThen o') σ₂
        (l ++ finEvents σ σ₁ fin ++ l' ++
          unlessCut (o.andThen o') (leftTry fin .done σ (o.andThen o') σ₂))
  | tryOut {e body clauses fin σ o σ₁ l} :
      Exec P e (.stmt (.block body)) σ.ehPush o σ₁ l → o.exits = false →
      o ≠ .thrown σ.nextHandler →
      Exec P e (.stmt (.tryCatch body clauses fin)) σ o σ₁
        (l ++ unlessCut o (leftTry fin .body σ o σ₁))
  | tryCatches {e body clauses fin clause σ σ₁ l o σ₂ l' o' σ₃ l''} :
      Exec P e (.stmt (.block body)) σ.ehPush (.thrown σ.nextHandler) σ₁ l →
      Picks clauses clause → Exec P e (.stmt (.block clause)) σ₁.ehPop o σ₂ l' →
      o.exits = true → Exec P { e with inFinally := true } (finCode fin) σ₂ o' σ₃ l'' →
      Exec P e (.stmt (.tryCatch body clauses fin)) σ (o.andThen o') σ₃
        (l ++ l' ++ finEvents σ σ₂ fin ++ l'' ++
          unlessCut (o.andThen o') (leftTry fin .done σ (o.andThen o') σ₃))
  | tryCatchesOut {e body clauses fin clause σ σ₁ l o σ₂ l'} :
      Exec P e (.stmt (.block body)) σ.ehPush (.thrown σ.nextHandler) σ₁ l →
      Picks clauses clause → Exec P e (.stmt (.block clause)) σ₁.ehPop o σ₂ l' →
      o.exits = false →
      Exec P e (.stmt (.tryCatch body clauses fin)) σ o σ₂
        (l ++ l' ++ unlessCut o (leftTry fin .clause σ o σ₂))
  -- no clause is for it, or it is an abort: the finally block, and on
  | tryUncaught {e body clauses fin σ σ₁ l o σ₂ l' o'} :
      Exec P e (.stmt (.block body)) σ.ehPush (.thrown σ.nextHandler) σ₁ l →
      Exec P { e with inFinally := true } (finCode fin) σ₁.ehPop o σ₂ l' →
      (if o = .next then Throws σ₂ o' else o' = o) →
      Exec P e (.stmt (.tryCatch body clauses fin)) σ o' σ₂
        (l ++ finEvents σ σ₁ fin ++ l' ++ unlessCut o' (leftTry fin .done σ o' σ₂))

end Voila.Low.Exits
