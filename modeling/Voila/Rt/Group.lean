import Voila.Lib.Steps

/-!
# Voila.Rt.Group

The end of a group (`task.c`): its tasks, the failures they leave, the deadline, and what
`vl_group_end` makes of them.

A move is one stretch of a thread under the monitor, or what the owner does by itself once
all tasks are done. The clock is read by the move. What else the program does to error objects
in the meantime is a move of its own, which may do anything to them.
-/

open List

namespace Voila.Rt.Group

open Lib

/-! ### Failures -/

/-- A value, as far as failures go: nil, an error object with the name of its type, or any
other. -/
inductive Val
  | nil
  | err (o : Nat) (typeName : String)
  | other (n : Nat)
  deriving DecidableEq

/-- The error objects: where the next goes, and the values of the `suppressed` slice of each. -/
structure Errs where
  next : Nat
  suppressed : Nat → List Val

namespace Errs

/-- `vl_slice_append` on the `suppressed` slice of `o`, for each of the values. -/
def append (h : Errs) (o : Nat) (vs : List Val) : Errs :=
  { h with suppressed := Function.update h.suppressed o (h.suppressed o ++ vs) }

/-- `vl_exc_new`: an error object with nothing suppressed. -/
def excNew (h : Errs) : Nat × Errs :=
  (h.next, { next := h.next + 1, suppressed := Function.update h.suppressed h.next [] })

end Errs

/-! ### Groups -/

/-- `VlGroup`. -/
structure VlGroup where
  live : Nat
  cancelled : Bool
  failure : Val
  suppressed : Option (List Val)
  failureIsValue : Bool
  deadlineNs : Int

/-- `vl_group_begin`, with its timeout if that is a duration. -/
def groupBegin (timeout : Option Int) (now : Int) : VlGroup where
  live := 0
  cancelled := false
  failure := .nil
  suppressed := none
  failureIsValue := false
  deadlineNs := match timeout with
    | some d => now + d
    | none => 0

/-- `group_fail`. -/
def groupFail (g : VlGroup) (exc : Val) (isValue : Bool) : VlGroup :=
  if g.failure = .nil then { g with failure := exc, failureIsValue := isValue, cancelled := true }
  else { g with suppressed := some (g.suppressed.getD [] ++ [exc]) }

/-- How `vl_group_end` returns. -/
inductive Ending
  | nil
  | value (v : Val)
  | thrown (v : Val)
  deriving DecidableEq

/-- `only_cancelled`. -/
def onlyCancelled : Val → Bool
  | .err _ typeName => typeName == "Cancelled"
  | _ => true

/-- The failure that `vl_group_end` delivers: a deadline that expired outranks the Cancelled
failures it caused. -/
def groupFailure (g : VlGroup) (timedOut : Bool) (h : Errs) : Val × Errs :=
  if timedOut && onlyCancelled g.failure then
    let (t, h) := h.excNew
    (.err t "Timeout", if g.failure ≠ .nil then h.append t [g.failure] else h)
  else (g.failure, h)

/-- The group's suppressed slice is added to that of the failure, if it has one. -/
def addSuppressed (failure : Val) (suppressed : Option (List Val)) (h : Errs) : Errs :=
  match suppressed, failure with
  | some sup, .err o _ => h.append o sup
  | _, _ => h

/-- `vl_group_end`, after its loop. -/
def groupEnd (asErrorValue : Bool) (g : VlGroup) (timedOut : Bool) (h : Errs) : Ending × Errs :=
  let (failure, h) := groupFailure g timedOut h
  let h := addSuppressed failure g.suppressed h
  if failure = .nil then (.nil, h)
  else if asErrorValue then (.value failure, h)
  else (.thrown failure, h)

/-! ### The system -/

/-- Where a task is in `task_main`: in its closure, past `group_fail`, past `live--`. -/
inductive Phase
  | running
  | ending
  | done
  deriving DecidableEq

/-- How the closure of a task ends. -/
inductive Finish
  | threw (exc : Val)
  | returned (r : Val)

/-- Where the owner of the group is: in the block, in the loop of `vl_group_end` or past it, with
`timed_out`, or at its end. -/
inductive Owner
  | inBlock
  | joining (timedOut : Bool)
  | joined (timedOut : Bool)
  | ended
  deriving DecidableEq

structure World where
  group : VlGroup
  errs : Errs
  tasks : List Phase
  owner : Owner

/-- What is seen of the group: a failure recorded, the deadline fired, the group over. -/
inductive Event
  | recorded (v : Val)
  | fired
  | over (e : Ending)
  deriving DecidableEq

inductive Move
  /-- `task_new`, by the owner or by a task of the group. -/
  | spawn (parent : Option Nat)
  | finish (t : Nat) (f : Finish)
  | leave (t : Nat)
  | touch (errs : Errs)
  | enter
  /-- A turn of the loop of `vl_group_end`. -/
  | turn (now : Int)
  | conclude (asErrorValue : Bool)

/-- Who may spawn. -/
def World.awake (w : World) : Option Nat → Bool
  | none => w.owner = .inBlock
  | some t => w.tasks[t]? = some .running

/-- The end of a task's closure: what the group makes of it, and what is recorded. -/
def taskEnd (g : VlGroup) : Finish → VlGroup × List Event
  | .threw exc => (groupFail g exc false, [.recorded exc])
  | .returned (.err o typeName) =>
    (groupFail g (.err o typeName) true, [.recorded (.err o typeName)])
  | .returned _ => (g, [])

/-- One move. -/
def World.step : Move → World → Option (List Event × World)
  | .spawn parent, w =>
    if w.awake parent then
      some ([], { w with
        group := { w.group with live := w.group.live + 1 }
        tasks := w.tasks ++ [.running] })
    else none
  | .finish t f, w =>
    if w.tasks[t]? = some .running then
      let (g, ev) := taskEnd w.group f
      some (ev, { w with group := g, tasks := w.tasks.set t .ending })
    else none
  | .leave t, w =>
    if w.tasks[t]? = some .ending then
      some ([], { w with
        group := { w.group with live := w.group.live - 1 }
        tasks := w.tasks.set t .done })
    else none
  | .touch errs, w => some ([], { w with errs := errs })
  | .enter, w => if w.owner = .inBlock then some ([], { w with owner := .joining false }) else none
  | .turn now, w =>
    match w.owner with
    | .joining timedOut =>
      if w.group.live > 0 then
        if w.group.deadlineNs ≠ 0 ∧ now ≥ w.group.deadlineNs ∧ w.group.cancelled = false then
          some ([.fired], { w with
            group := { w.group with cancelled := true }
            owner := .joining true })
        else some ([], w)
      else some ([], { w with owner := .joined timedOut })
    | _ => none
  | .conclude asErrorValue, w =>
    match w.owner with
    | .joined timedOut =>
      let (e, errs) := groupEnd asErrorValue w.group timedOut w.errs
      some ([.over e], { w with errs := errs, owner := .ended })
    | _ => none

/-- A group has begun. -/
def World.start (timeout : Option Int) (now : Int) (errs : Errs) : World :=
  ⟨groupBegin timeout now, errs, [], .inBlock⟩

/-- The failures recorded, in order. -/
def recorded (tr : List Event) : List Val :=
  tr.filterMap fun
    | .recorded v => some v
    | _ => none

end Voila.Rt.Group

/-!
What `vl_group_end` says of the tasks of its group, in every order in which they end.

The invariant (`Accounted`) is kept by every move: the group's count is that of its tasks not
yet done, its failure and suppressed slice are the failures recorded, and the owner is past the
loop only with no task left.
-/

namespace Voila.Rt.Group

open Lib

/-! ### The failures of a group -/

/-- The failure and the suppressed slice of a group with the failures `fs`: a nil is no failure
until there is one. -/
def tally : List Val → Val × List Val
  | [] => (.nil, [])
  | .nil :: fs => tally fs
  | f :: fs => (f, fs)

theorem tally_cons {f : Val} (hf : f ≠ .nil) (fs : List Val) : tally (f :: fs) = (f, fs) := by
  cases f with
  | nil => exact absurd rfl hf
  | err | other => rfl

theorem tally_append (fs : List Val) (v : Val) :
    tally (fs ++ [v]) =
      if (tally fs).1 = .nil then (v, []) else ((tally fs).1, (tally fs).2 ++ [v]) := by
  induction fs with
  | nil => cases v <;> rfl
  | cons f fs ih =>
    by_cases hf : f = .nil
    · rw [hf]; exact ih
    · rw [cons_append, tally_cons hf, tally_cons hf, if_neg hf]

theorem tally_nil {fs : List Val} (h : (tally fs).1 = .nil) : (tally fs).2 = [] := by
  induction fs with
  | nil => rfl
  | cons f fs ih =>
    by_cases hf : f = .nil
    · rw [hf] at h ⊢; exact ih h
    · rw [tally_cons hf] at h; exact absurd h hf

/-- The group's failure and its suppressed slice are the failures recorded. -/
structure Tallied (fs : List Val) (g : VlGroup) : Prop where
  failure : g.failure = (tally fs).1
  suppressed : g.suppressed.getD [] = (tally fs).2

variable {g : VlGroup} {tr ev : List Event} {t : Nat} {ph : Phase}

theorem groupFail_tallied {fs : List Val} (h : Tallied fs g) (exc : Val) (b : Bool) :
    Tallied (fs ++ [exc]) (groupFail g exc b) := by
  unfold groupFail
  split
  next hnil =>
    rw [h.failure] at hnil
    refine ⟨?_, ?_⟩
    · rw [tally_append, if_pos hnil]
    · rw [tally_append, if_pos hnil]
      exact h.suppressed.trans (tally_nil hnil)
  next hne =>
    rw [h.failure] at hne
    refine ⟨?_, ?_⟩
    · rw [tally_append, if_neg hne]
      exact h.failure
    · rw [tally_append, if_neg hne, ← h.suppressed]
      rfl

@[simp] theorem groupFail_live (g : VlGroup) (exc : Val) (b : Bool) :
    (groupFail g exc b).live = g.live := by
  unfold groupFail
  split <;> rfl

/-! ### Runs -/

@[simp] theorem recorded_append (tr tr' : List Event) :
    recorded (tr ++ tr') = recorded tr ++ recorded tr' := filterMap_append

/-- The end of a task records what it leaves to the group. -/
theorem taskEnd_tallied (h : Tallied (recorded tr) g) (f : Finish) :
    Tallied (recorded (tr ++ (taskEnd g f).2)) (taskEnd g f).1 := by
  rw [recorded_append]
  cases f with
  | threw exc => exact groupFail_tallied h exc false
  | returned r =>
    cases r with
    | err o typeName => exact groupFail_tallied h (.err o typeName) true
    | nil | other => simpa [taskEnd, recorded] using h

theorem taskEnd_live (g : VlGroup) (f : Finish) : (taskEnd g f).1.live = g.live := by
  cases f with
  | threw => exact groupFail_live ..
  | returned r =>
    cases r with
    | err => exact groupFail_live ..
    | nil | other => rfl

theorem taskEnd_not_fired (g : VlGroup) (f : Finish) : .fired ∉ (taskEnd g f).2 := by
  cases f with
  | threw => simp [taskEnd]
  | returned r => cases r <;> simp [taskEnd]

/-- The tasks that `live` counts. -/
def unfinished (tasks : List Phase) : Nat := tasks.countP (· ≠ .done)

/-- The owner knows whether the deadline has fired. -/
def Owner.Knows (tr : List Event) : Owner → Prop
  | .inBlock => .fired ∉ tr
  | .joining timedOut | .joined timedOut => timedOut = true ↔ .fired ∈ tr
  | .ended => True

/-- The owner is past its loop. -/
def Owner.past : Owner → Bool
  | .inBlock | .joining _ => false
  | .joined _ | .ended => true

structure Accounted (tr : List Event) (w : World) : Prop where
  tallied : Tallied (recorded tr) w.group
  live : w.group.live = unfinished w.tasks
  knows : w.owner.Knows tr
  past : w.owner.past = true → ∀ ph ∈ w.tasks, ph = .done

theorem start_accounted (timeout : Option Int) (now : Int) (errs : Errs) :
    Accounted [] (World.start timeout now errs) :=
  ⟨⟨rfl, rfl⟩, rfl, not_mem_nil, nofun⟩

/-- A task that goes on to another phase is counted on its own. -/
theorem unfinished_set {tasks : List Phase} (ph' : Phase) (h : tasks[t]? = some ph) :
    unfinished (tasks.set t ph') + (if ph ≠ .done then 1 else 0) =
      unfinished tasks + (if ph' ≠ .done then 1 else 0) := by
  induction tasks generalizing t with
  | nil => cases h
  | cons a tasks ih =>
    cases t with
    | zero =>
      obtain rfl : a = ph := by simpa using h
      simp only [unfinished, set_cons_zero, countP_cons, decide_eq_true_eq]
      omega
    | succ t =>
      have hrest := ih (t := t) (by simpa using h)
      simp only [unfinished, set_cons_succ, countP_cons] at hrest ⊢
      omega

/-- A task that is not done leaves the owner in its block or its loop. -/
theorem Accounted.not_past {w : World} (h : Accounted tr w)
    (ht : w.tasks[t]? = some ph) (hph : ph ≠ .done) : w.owner.past = false := by
  cases hp : w.owner.past with
  | false => rfl
  | true => exact absurd (h.past hp ph (mem_of_getElem? ht)) hph

theorem Owner.Knows.append {o : Owner} (h : o.Knows tr) (hev : .fired ∉ ev) :
    o.Knows (tr ++ ev) := by
  cases o <;> simp_all [Owner.Knows]

theorem step_accounted {w w' : World} {m : Move} (h : Accounted tr w)
    (hs : World.step m w = some (ev, w')) : Accounted (tr ++ ev) w' := by
  cases m with
  | spawn parent =>
    simp only [World.step] at hs
    split at hs
    next hawake =>
      cases hs
      -- who spawns is not past the loop, nor is a parent done
      have hp : w.owner.past = false := by
        cases parent with
        | none =>
          have ho : w.owner = .inBlock := by simpa [World.awake] using hawake
          rw [ho]; rfl
        | some t =>
          have ht : w.tasks[t]? = some .running := by simpa [World.awake] using hawake
          exact h.not_past ht nofun
      rw [List.append_nil]
      refine ⟨⟨h.tallied.failure, h.tallied.suppressed⟩, ?_, h.knows, ?_⟩
      · simp [unfinished, h.live]
      · intro hp'
        rw [hp] at hp'
        cases hp'
    · cases hs
  | finish t f =>
    simp only [World.step] at hs
    split at hs
    next ht =>
      cases hs
      have hp := h.not_past ht nofun
      refine ⟨taskEnd_tallied h.tallied f, ?_, h.knows.append (taskEnd_not_fired _ f), ?_⟩
      · have hset := unfinished_set .ending ht
        simp only [taskEnd_live, h.live]
        simpa using hset.symm
      · intro hp'
        rw [hp] at hp'
        cases hp'
    · cases hs
  | leave t =>
    simp only [World.step] at hs
    split at hs
    next ht =>
      cases hs
      have hp := h.not_past ht nofun
      rw [List.append_nil]
      refine ⟨⟨h.tallied.failure, h.tallied.suppressed⟩, ?_, h.knows, ?_⟩
      · have hset := unfinished_set .done ht
        have hlive := h.live
        simp at hset ⊢
        omega
      · intro hp'
        rw [hp] at hp'
        cases hp'
    · cases hs
  | touch errs =>
    cases hs
    rw [List.append_nil]
    exact ⟨h.tallied, h.live, h.knows, h.past⟩
  | enter =>
    simp only [World.step] at hs
    split at hs
    next ho =>
      cases hs
      have hknows := h.knows
      rw [ho] at hknows
      rw [List.append_nil]
      exact ⟨h.tallied, h.live, by simpa [Owner.Knows] using hknows, nofun⟩
    · cases hs
  | turn now =>
    simp only [World.step] at hs
    split at hs
    next timedOut ho =>
      split at hs
      next hlive =>
        split at hs
        · cases hs
          refine ⟨⟨?_, ?_⟩, h.live, by simp [Owner.Knows], nofun⟩
          · simpa [recorded] using h.tallied.failure
          · simpa [recorded] using h.tallied.suppressed
        · cases hs
          rw [List.append_nil]
          exact h
      next hlive =>
        cases hs
        have hknows := h.knows
        rw [ho] at hknows
        rw [List.append_nil]
        refine ⟨h.tallied, h.live, hknows, fun _ ph hph => ?_⟩
        -- the count is zero, so no task is left
        have hzero : unfinished w.tasks = 0 := by have := h.live; omega
        simpa using countP_eq_zero.mp hzero ph hph
    · cases hs
  | conclude asErrorValue =>
    simp only [World.step] at hs
    split at hs
    next timedOut ho =>
      cases hs
      refine ⟨⟨?_, ?_⟩, h.live, trivial, fun _ => h.past (by rw [ho]; rfl)⟩
      · simpa [recorded] using h.tallied.failure
      · simpa [recorded] using h.tallied.suppressed
    · cases hs

theorem run_accounted {timeout : Option Int} {now : Int} {errs : Errs} {w : World}
    (h : Run World.step (World.start timeout now errs) tr w) : Accounted tr w :=
  h.holds Accounted (start_accounted ..) fun _ _ _ _ _ ih hm => step_accounted ih hm

/-! ### What a group delivers -/

def Val.isCancelled : Val → Bool
  | .err _ typeName => typeName == "Cancelled"
  | _ => false

/-- What an ending delivers, as a value or as an exception. -/
def Ending.delivered : Ending → Option Val
  | .nil => none
  | .value v | .thrown v => some v

/-- A group with the failures `fs`, whose deadline has fired or not, ends as it should: no task is
left; it ends with nil when there is no failure and the deadline has not fired; else it delivers
the first failure, or a Timeout where the deadline has fired and that is a Cancelled, and what
it delivers has the others added to its suppressed ones, in order. -/
structure Settles (fs : List Val) (fired : Prop) (w w' : World) (e : Ending) : Prop where
  joined : ∀ ph ∈ w.tasks, ph = .done
  nil_iff : e = .nil ↔ fs = [] ∧ ¬ fired
  late : fs = [] → fired →
    ∃ o, e.delivered = some (.err o "Timeout") ∧ w'.errs.suppressed o = []
  timeout : ∀ f rest, fs = f :: rest → fired → f.isCancelled = true →
    ∃ o, e.delivered = some (.err o "Timeout") ∧ w'.errs.suppressed o = f :: rest
  first : ∀ f rest, fs = f :: rest → ¬ (fired ∧ f.isCancelled = true) → e.delivered = some f ∧
    (rest ≠ [] → ∃ o name, f = .err o name ∧
      w'.errs.suppressed o = w.errs.suppressed o ++ rest)

/-- There is no failure, or the first is an error object; or it is another value, not nil, and
there is nothing to replace it or to add to it. -/
def Plain (fs : List Val) (fired : Prop) : Prop :=
  match fs with
  | [] | .err .. :: _ => True
  | .nil :: _ => False
  | .other _ :: rest => rest = [] ∧ ¬ fired

theorem Errs.append_nil (h : Errs) (o : Nat) : h.append o [] = h := by
  simp [Errs.append]

@[simp] theorem Errs.suppressed_append (h : Errs) (o : Nat) (vs : List Val) :
    (h.append o vs).suppressed o = h.suppressed o ++ vs := by
  simp [Errs.append]

/-- What is added to an error object is what the slice holds, if there is one. -/
theorem addSuppressed_err (o : Nat) (name : String) (sup : Option (List Val)) (h : Errs) :
    addSuppressed (.err o name) sup h = h.append o (sup.getD []) := by
  cases sup with
  | none => exact (h.append_nil o).symm
  | some => rfl

theorem groupEnd_errs (b : Bool) (g : VlGroup) (timedOut : Bool) (h : Errs) :
    (groupEnd b g timedOut h).2 =
      addSuppressed (groupFailure g timedOut h).1 g.suppressed (groupFailure g timedOut h).2 := by
  simp only [groupEnd]
  split <;> [skip; split] <;> rfl

/-- What is delivered is the failure, unless that is nil. -/
theorem groupEnd_delivered (b : Bool) (g : VlGroup) (timedOut : Bool) (h : Errs) :
    (groupEnd b g timedOut h).1.delivered =
      if (groupFailure g timedOut h).1 = .nil then none else some (groupFailure g timedOut h).1 := by
  simp only [groupEnd]
  split
  · rfl
  · split <;> rfl

theorem Ending.delivered_eq_none {e : Ending} : e.delivered = none ↔ e = .nil := by
  cases e <;> simp [Ending.delivered]

theorem groupFailure_kept {timedOut : Bool} (h : Errs)
    (hk : (timedOut && onlyCancelled g.failure) = false) :
    groupFailure g timedOut h = (g.failure, h) := by
  simp [groupFailure, hk]

/-- A Timeout has nothing suppressed but the failure that it replaces. -/
theorem groupFailure_replaced (h : Errs) (hr : onlyCancelled g.failure = true) :
    (groupFailure g true h).1 = .err h.next "Timeout" ∧
      (groupFailure g true h).2.suppressed h.next = if g.failure = .nil then [] else [g.failure] := by
  unfold groupFailure
  rw [Bool.true_and, if_pos hr]
  refine ⟨rfl, ?_⟩
  by_cases hn : g.failure = .nil
  · simp [hn, Errs.excNew]
  · simp [hn, Errs.excNew]

/-- The end of `vl_group_end`, and what it has to go by. -/
theorem conclude_inv {w w' : World} {b : Bool} (hs : World.step (.conclude b) w = some (ev, w')) :
    ∃ timedOut, w.owner = .joined timedOut ∧
      ev = [.over (groupEnd b w.group timedOut w.errs).1] ∧
      w'.errs = (groupEnd b w.group timedOut w.errs).2 := by
  simp only [World.step] at hs
  split at hs
  next timedOut ho => cases hs; exact ⟨timedOut, ho, rfl, rfl⟩
  · cases hs

section

variable {fs : List Val} {fired : Prop} {w w' : World} {b timedOut : Bool}

/-- The state in which `vl_group_end` concludes, with the failures `fs`. -/
structure Concludes (fs : List Val) (fired : Prop) (w w' : World) (b timedOut : Bool) : Prop where
  joined : ∀ ph ∈ w.tasks, ph = .done
  tallied : Tallied fs w.group
  fired_iff : timedOut = true ↔ fired
  errs : w'.errs = (groupEnd b w.group timedOut w.errs).2

/-- With no failure: nil, or a Timeout where the deadline has fired. -/
theorem Concludes.none (h : Concludes [] fired w w' b timedOut) :
    Settles [] fired w w' (groupEnd b w.group timedOut w.errs).1 := by
  have hf : w.group.failure = .nil := h.tallied.failure
  have hsup : w.group.suppressed.getD [] = [] := h.tallied.suppressed
  have hdel := groupEnd_delivered b w.group timedOut w.errs
  cases ht : timedOut with
  | false =>
    have hfired : ¬ fired := by rw [← h.fired_iff, ht]; nofun
    rw [ht, groupFailure_kept _ (by simp), hf, if_pos rfl] at hdel
    exact ⟨h.joined, by simp [Ending.delivered_eq_none.mp hdel, hfired],
      fun _ hfd => absurd hfd hfired, nofun, nofun⟩
  | true =>
    have hfired : fired := h.fired_iff.mp ht
    obtain ⟨ho, hs⟩ := groupFailure_replaced (g := w.group) w.errs (by rw [hf]; rfl)
    rw [ht, ho, if_neg nofun] at hdel
    refine ⟨h.joined, ?_, fun _ _ => ⟨w.errs.next, hdel, ?_⟩, nofun, nofun⟩
    · simp [← Ending.delivered_eq_none, hdel, hfired]
    · rw [h.errs, groupEnd_errs, ht, ho, addSuppressed_err, Errs.suppressed_append, hs, hsup, hf]
      rfl

variable {rest : List Val}

/-- A first failure that stays is delivered, with the others added where it can hold them. -/
theorem Concludes.kept {f : Val} (h : Concludes (f :: rest) fired w w' b timedOut)
    (hf : f ≠ .nil) (hk : (timedOut && onlyCancelled f) = false)
    (hrest : rest ≠ [] → ∃ o name, f = .err o name) :
    Settles (f :: rest) fired w w' (groupEnd b w.group timedOut w.errs).1 := by
  have hfail : w.group.failure = f := by rw [h.tallied.failure, tally_cons hf]
  have hsup : w.group.suppressed.getD [] = rest := by rw [h.tallied.suppressed, tally_cons hf]
  have hkept := groupFailure_kept w.errs (hfail ▸ hk)
  have hdel := groupEnd_delivered b w.group timedOut w.errs
  rw [hkept, hfail, if_neg hf] at hdel
  refine ⟨h.joined, ?_, nofun, ?_, ?_⟩
  · simp [← Ending.delivered_eq_none, hdel]
  · rintro _ _ ⟨rfl, rfl⟩ hfired hcancelled
    -- a Cancelled would have been replaced
    rw [h.fired_iff.mpr hfired, Bool.true_and] at hk
    cases f with
    | nil | other => cases hcancelled
    | err => exact absurd hcancelled (by simpa [Val.isCancelled, onlyCancelled] using hk)
  · rintro _ _ ⟨rfl, rfl⟩ -
    refine ⟨hdel, fun hne => ?_⟩
    obtain ⟨o, name, rfl⟩ := hrest hne
    refine ⟨o, name, rfl, ?_⟩
    rw [h.errs, groupEnd_errs, hkept, hfail, addSuppressed_err, Errs.suppressed_append, hsup]

/-- A Cancelled that a Timeout replaces. -/
theorem Concludes.replaced {o : Nat}
    (h : Concludes (.err o "Cancelled" :: rest) fired w w' b true) :
    Settles (.err o "Cancelled" :: rest) fired w w' (groupEnd b w.group true w.errs).1 := by
  have hfail : w.group.failure = .err o "Cancelled" := h.tallied.failure
  have hsup : w.group.suppressed.getD [] = rest := h.tallied.suppressed
  obtain ⟨hnew, hs⟩ := groupFailure_replaced (g := w.group) w.errs (by rw [hfail]; rfl)
  have hdel := groupEnd_delivered b w.group true w.errs
  rw [hnew, if_neg nofun] at hdel
  refine ⟨h.joined, ?_, nofun, ?_, ?_⟩
  · simp [← Ending.delivered_eq_none, hdel]
  · rintro _ _ ⟨rfl, rfl⟩ - -
    refine ⟨w.errs.next, hdel, ?_⟩
    rw [h.errs, groupEnd_errs, hnew, addSuppressed_err, Errs.suppressed_append, hs, hsup, hfail,
      if_neg nofun]
    rfl
  · rintro _ _ ⟨rfl, rfl⟩ hnot
    exact absurd ⟨h.fired_iff.mp rfl, rfl⟩ hnot

/-- What is delivered is not nil. -/
theorem delivered_ne_nil (b : Bool) (g : VlGroup) (timedOut : Bool) (h : Errs) :
    (groupEnd b g timedOut h).1.delivered ≠ some .nil := by
  rw [groupEnd_delivered]
  split
  · nofun
  next hne => exact fun heq => hne (Option.some.inj heq)

/-- A deadline that has fired replaces any failure that is no error object. -/
theorem Concludes.not_settles {n : Nat} (h : Concludes (.other n :: rest) fired w w' b true) :
    ¬ Settles (.other n :: rest) fired w w' (groupEnd b w.group true w.errs).1 := by
  intro hs
  have hfail : w.group.failure = .other n := h.tallied.failure
  obtain ⟨hnew, -⟩ := groupFailure_replaced (g := w.group) w.errs (by rw [hfail]; rfl)
  have hdel := groupEnd_delivered b w.group true w.errs
  rw [hnew, if_neg nofun, (hs.first _ _ rfl (by simp [Val.isCancelled])).1] at hdel
  cases hdel

end

/-- A group settles as it should if and only if there is no failure, or the first is an error
object, or it stands alone and the deadline has not fired. -/
theorem group_settles {timeout : Option Int} {now : Int} {errs : Errs} {tr : List Event}
    {w w' : World} {b : Bool} {e : Ending}
    (h : Run World.step (World.start timeout now errs) tr w)
    (hs : World.step (.conclude b) w = some ([.over e], w')) :
    Settles (recorded tr) (.fired ∈ tr) w w' e ↔ Plain (recorded tr) (.fired ∈ tr) := by
  have hacc := run_accounted h
  obtain ⟨timedOut, ho, hev, herrs⟩ := conclude_inv hs
  obtain rfl : e = (groupEnd b w.group timedOut w.errs).1 := by simpa using hev
  have hc : Concludes (recorded tr) (.fired ∈ tr) w w' b timedOut :=
    ⟨hacc.past (by rw [ho]; rfl), hacc.tallied, by have hk := hacc.knows; rwa [ho] at hk, herrs⟩
  generalize recorded tr = fs at hc ⊢
  match fs with
  | [] => exact ⟨fun _ => trivial, fun _ => hc.none⟩
  | .nil :: rest =>
    refine ⟨fun hset => ?_, False.elim⟩
    exact delivered_ne_nil b w.group timedOut w.errs (hset.first _ _ rfl (by simp [Val.isCancelled])).1
  | .err o name :: rest =>
    refine ⟨fun _ => trivial, fun _ => ?_⟩
    cases hk : timedOut && onlyCancelled (.err o name) with
    | false => exact hc.kept nofun hk fun _ => ⟨o, name, rfl⟩
    | true =>
      obtain ⟨rfl, hname⟩ := Bool.and_eq_true_iff.mp hk
      obtain rfl : name = "Cancelled" := by simpa [onlyCancelled] using hname
      exact hc.replaced
  | .other n :: rest =>
    cases timedOut with
    | true => exact ⟨fun hset => absurd hset hc.not_settles, fun hp => absurd (hc.fired_iff.mp rfl) hp.2⟩
    | false =>
      have hfired : .fired ∉ tr := by rw [← hc.fired_iff]; nofun
      refine ⟨fun hset => ⟨?_, hfired⟩, fun hp => hc.kept nofun rfl fun hne => absurd hp.1 hne⟩
      by_contra hne
      obtain ⟨o, name, heq, -⟩ := (hset.first _ _ rfl (by simp [Val.isCancelled])).2 hne
      cases heq

/-- The two tasks of a group fail in turn. -/
def twoFail (e₁ e₂ : Val) : List Move :=
  [.spawn none, .spawn none, .enter, .finish 0 (.threw e₁), .leave 0, .turn 0, .finish 1 (.threw e₂),
    .leave 1, .turn 0]

/-- The group of two tasks that have failed, about to conclude. -/
def twoFailed (e₁ e₂ : Val) : World where
  group := ⟨0, true, e₁, some [e₂], false, 0⟩
  errs := ⟨2, fun _ => []⟩
  tasks := [.done, .done]
  owner := .joined false

/-- Two tasks throw error objects: the second is suppressed in the first. -/
theorem group_settles_two : ∃ w',
    w'.errs.suppressed 0 = [.err 1 "KeyError"] ∧
    Settles (recorded [.recorded (.err 0 "IOError"), .recorded (.err 1 "KeyError")])
      (.fired ∈ [Event.recorded (.err 0 "IOError"), .recorded (.err 1 "KeyError")])
      (twoFailed (.err 0 "IOError") (.err 1 "KeyError")) w' (.thrown (.err 0 "IOError")) := by
  have h : Run World.step (World.start none 0 ⟨2, fun _ => []⟩)
      [.recorded (.err 0 "IOError"), .recorded (.err 1 "KeyError")]
      (twoFailed (.err 0 "IOError") (.err 1 "KeyError")) :=
    runSchedule_run (twoFail (.err 0 "IOError") (.err 1 "KeyError")) rfl
  exact ⟨_, rfl, (group_settles (b := false) h rfl).mpr trivial⟩

/-- Two tasks throw values that are no error objects: the second is lost. -/
theorem group_other_lost : ∃ w',
    Run World.step (World.start none 0 ⟨2, fun _ => []⟩) [.recorded (.other 1), .recorded (.other 2)]
      (twoFailed (.other 1) (.other 2)) ∧
    World.step (.conclude false) (twoFailed (.other 1) (.other 2)) =
      some ([.over (.thrown (.other 1))], w') ∧
    w'.errs = (twoFailed (.other 1) (.other 2)).errs ∧
    ¬ Settles [.other 1, .other 2] False (twoFailed (.other 1) (.other 2)) w'
      (.thrown (.other 1)) := by
  refine ⟨_, runSchedule_run (twoFail (.other 1) (.other 2)) rfl, rfl, rfl, fun hset => ?_⟩
  obtain ⟨o, name, heq, -⟩ := (hset.first _ _ rfl (by simp)).2 (by simp)
  cases heq

end Voila.Rt.Group
