import Mathlib

/-!
# Voila.Rt.Unwind

How an exception is delivered: the stacks of frames, of cleanups and of handlers that a task has
(`err.c`), and the defers of its frames (`value.c`).

The functions of the runtime are modelled; what calls them is left open. The code of a function,
of a native or of a defer does any number of things (`Op`) in any order, each of which ends before
the next begins: it calls, defers, holds a cleanup while other code runs, protects code by a
handler, or throws. `throw_to` runs such code again, in the defers of the frames that it unwinds.
-/

open List

namespace Voila.Rt.Unwind

/-! ### The context of a task -/

/-- `VlHandler`; `prev` is the rest of the list that it heads. -/
structure Handler where
  id : Nat
  frameDepth : Nat
  cleanupDepth : Nat
  deriving DecidableEq

/-- `VlCtx`. The stacks have their newest entry first. Frames, defers, cleanups and handlers are
known by the numbers they were given. -/
structure Ctx where
  frames : List Nat
  /-- The pending defers of each frame, newest first. -/
  defers : Nat → List Nat
  cleanups : List Nat
  handlers : List Handler
  next : Nat

/-- A task that has just begun. -/
def Ctx.start : Ctx := ⟨[], fun _ => [], [], [], 0⟩

namespace Ctx

variable (c : Ctx)

/-- `vl_frame_push`, of a new frame. -/
def framePush : Ctx :=
  { c with
    frames := c.next :: c.frames
    defers := Function.update c.defers c.next []
    next := c.next + 1 }

/-- What `vl_frame_pop_run_defers` does when the defers have run. -/
def framePop (f : Nat) : Ctx :=
  if c.frames.head? = some f then { c with frames := c.frames.tail } else c

/-- `vl_defer`. -/
def defer (f : Nat) : Ctx :=
  { c with defers := Function.update c.defers f (c.next :: c.defers f), next := c.next + 1 }

/-- The newest defer is taken off the frame. -/
def deferTake (f : Nat) : Ctx := { c with defers := Function.update c.defers f (c.defers f).tail }

/-- `cleanup_push`. -/
def cleanupPush : Ctx := { c with cleanups := c.next :: c.cleanups, next := c.next + 1 }

/-- `vl_cleanup_to`. -/
def cleanupTo (mark : Nat) : Ctx :=
  { c with cleanups := c.cleanups.drop (c.cleanups.length - mark) }

/-- `vl_eh_prepare`. -/
def ehPrepare : Ctx :=
  { c with
    handlers := ⟨c.next, c.frames.length, c.cleanups.length⟩ :: c.handlers
    next := c.next + 1 }

/-- `vl_eh_pop`. -/
def ehPop : Ctx := { c with handlers := c.handlers.tail }

end Ctx

/-! ### Runs -/

/-- How code ends: at its end, or by a jump to the handler with a number. A run may be cut off
anywhere. -/
inductive Outcome
  | next
  | caught (h : Nat)
  | cut
  deriving DecidableEq

/-- What is seen of a run. -/
inductive Event
  | ran (d : Nat)
  | cleaned (k : Nat)
  /-- Control is at a handler that was installed in the first context. -/
  | resumed (entry after : Ctx)
  /-- A throw was delivered: where it was raised, where control is now and at which handler, and
  the defers and the cleanups that ran in between. -/
  | threw (before after : Ctx) (h : Nat) (ran cleaned : List Nat)

/-- The defers that ran. -/
def rans (l : List Event) : List Nat := l.filterMap fun | .ran d => some d | _ => none

/-- The cleanups that ran. -/
def cleaneds (l : List Event) : List Nat := l.filterMap fun | .cleaned k => some k | _ => none

/-- `cleanup_unwind`: what is left, and what has run. -/
def cleanupUnwind (depth : Nat) : List Nat → List Nat × List Event
  | [] => ([], [])
  | k :: ks =>
    if depth < ks.length + 1 then
      let (rest, l) := cleanupUnwind depth ks
      (rest, .cleaned k :: l)
    else (k :: ks, [])

/-- What code may do. -/
inductive Op
  | call
  | defer
  /-- A cleanup is registered, other code runs, and the cleanup is dropped. -/
  | native
  | tryCatch
  | throw

/-- Code to be run. Code that a function is compiled to has a frame of its own. -/
inductive Code
  | user (own : Option Nat)
  | op (own : Option Nat) (a : Op)
  /-- `vl_call`. -/
  | called
  | runDefers (f : Nat)
  | unwindTo (depth : Nat)

/-- The runs. -/
inductive Exec : Code → Ctx → Outcome → Ctx → List Event → Prop
  | cut {k c} : Exec k c .cut c []
  -- code that calls the runtime
  | userEnd {own c} : Exec (.user own) c .next c []
  | userThen {own a c c₁ l o c₂ l'} : Exec (.op own a) c .next c₁ l →
      Exec (.user own) c₁ o c₂ l' → Exec (.user own) c o c₂ (l ++ l')
  | userOut {own a c o c' l} : Exec (.op own a) c o c' l → o ≠ .next →
      Exec (.user own) c o c' l
  | defer {f c} : Exec (.op (some f) .defer) c .next (c.defer f) []
  | native {own c c₁ l} : Exec (.user own) c.cleanupPush .next c₁ l →
      Exec (.op own .native) c .next (c₁.cleanupTo c.cleanups.length) l
  | nativeOut {own c o c₁ l} : Exec (.user own) c.cleanupPush o c₁ l → o ≠ .next →
      Exec (.op own .native) c o c₁ l
  -- calls
  | call {own c o c' l} : Exec .called c o c' l → Exec (.op own .call) c o c' l
  | calledNative {c o c' l} : Exec (.user none) c o c' l → Exec .called c o c' l
  | called {c c₁ l c₂ l'} : Exec (.user (some c.next)) c.framePush .next c₁ l →
      Exec (.runDefers c.next) c₁ .next c₂ l' → Exec .called c .next (c₂.framePop c.next) (l ++ l')
  | calledOut {c o c₁ l} : Exec (.user (some c.next)) c.framePush o c₁ l → o ≠ .next →
      Exec .called c o c₁ l
  | calledDefersOut {c c₁ l o c₂ l'} : Exec (.user (some c.next)) c.framePush .next c₁ l →
      Exec (.runDefers c.next) c₁ o c₂ l' → o ≠ .next → Exec .called c o c₂ (l ++ l')
  -- `run_defers`
  | runDefersNil {f c} : c.defers f = [] → Exec (.runDefers f) c .next c []
  | runDefersCons {f d ds c c₁ l o c₂ l'} : c.defers f = d :: ds →
      Exec .called (c.deferTake f).cleanupPush .next c₁ l →
      Exec (.runDefers f) (c₁.cleanupTo c.cleanups.length) o c₂ l' →
      Exec (.runDefers f) c o c₂ (.ran d :: (l ++ l'))
  | runDefersOut {f d ds c o c₁ l} : c.defers f = d :: ds →
      Exec .called (c.deferTake f).cleanupPush o c₁ l → o ≠ .next →
      Exec (.runDefers f) c o c₁ (.ran d :: l)
  -- `vl_unwind_to`
  | unwindDone {depth c} : c.frames.length ≤ depth → Exec (.unwindTo depth) c .next c []
  | unwindFrame {depth f fs c c₁ l o c₂ l'} : c.frames = f :: fs → depth < c.frames.length →
      Exec (.runDefers f) c .next c₁ l →
      Exec (.unwindTo depth) { c₁ with frames := c₁.frames.tail } o c₂ l' →
      Exec (.unwindTo depth) c o c₂ (l ++ l')
  | unwindOut {depth f fs c o c₁ l} : c.frames = f :: fs → depth < c.frames.length →
      Exec (.runDefers f) c o c₁ l → o ≠ .next → Exec (.unwindTo depth) c o c₁ l
  -- handlers
  | tryEnd {own c c₁ l} : Exec (.user own) c.ehPrepare .next c₁ l →
      Exec (.op own .tryCatch) c .next c₁.ehPop l
  | tryCatches {own c c₁ l} : Exec (.user own) c.ehPrepare (.caught c.next) c₁ l →
      Exec (.op own .tryCatch) c .next c₁ (l ++ [.resumed c c₁])
  | tryOut {own c o c₁ l} : Exec (.user own) c.ehPrepare o c₁ l → o ≠ .next →
      o ≠ .caught c.next → Exec (.op own .tryCatch) c o c₁ l
  -- `vl_throw` and `throw_to`
  | throw {own h hs c c₁ l rest l'} : c.handlers = h :: hs →
      Exec (.unwindTo h.frameDepth) c .next c₁ l →
      cleanupUnwind h.cleanupDepth c₁.cleanups = (rest, l') →
      Exec (.op own .throw) c (.caught h.id) { c₁ with cleanups := rest, handlers := hs }
        (l ++ l' ++ [.threw c { c₁ with cleanups := rest, handlers := hs } h.id
          (rans (l ++ l')) (cleaneds (l ++ l'))])
  -- a defer has thrown in its turn, and control is where that was delivered
  | throwOver {own h hs c h' c₁ l} : c.handlers = h :: hs →
      Exec (.unwindTo h.frameDepth) c (.caught h') c₁ l →
      Exec (.op own .throw) c (.caught h') c₁ (l ++ [.threw c c₁ h' (rans l) (cleaneds l)])
  | throwCut {own h hs c c₁ l} : c.handlers = h :: hs →
      Exec (.unwindTo h.frameDepth) c .cut c₁ l → Exec (.op own .throw) c .cut c₁ l

end Voila.Rt.Unwind

/-!
Every throw is delivered to the innermost handler, and what lies above it is unwound once.

All runs are told by one relation: `Moved` says how many frames and cleanups a run has taken off
the stacks that it found, and that those, and no others, are the ones whose defers and cleanups it
ran. It composes. Code that comes to its end takes off none; a throw takes off what lies above the
handler. What is registered after a run began has a number that tells it from what the run found.
-/

namespace Voila.Rt.Unwind

variable {k : Code} {c c' c₁ c₂ : Ctx} {o : Outcome} {l l' : List Event} {m m' j j' n n' f : Nat}
  {hs hs' : List Handler}

/-! ### What ran -/

/-- The numbers that had been given when `n` was the next. -/
def old (n : Nat) (l : List Nat) : List Nat := l.filter (· < n)

@[simp] theorem old_append (a b : List Nat) : old n (a ++ b) = old n a ++ old n b :=
  filter_append ..

variable {a id : Nat}

theorem old_cons_lt {l : List Nat} (h : a < n) : old n (a :: l) = a :: old n l :=
  filter_cons_of_pos (by simpa using h)

theorem old_cons_ge {l : List Nat} (h : n ≤ a) : old n (a :: l) = old n l :=
  filter_cons_of_neg (by simpa using h)

theorem old_old {l : List Nat} (h : n ≤ n') : old n (old n' l) = old n l := by
  unfold old
  rw [filter_filter]
  refine filter_congr fun a _ => ?_
  have hlt : a < n → a < n' := fun ha => Nat.lt_of_lt_of_le ha h
  simpa using hlt

theorem old_self {l : List Nat} (h : ∀ a ∈ l, a < n) : old n l = l :=
  filter_eq_self.mpr (by simpa using h)

theorem old_flatMap {l : List Nat} {g g' : Nat → List Nat} (h : ∀ f ∈ l, old n (g' f) = g f) :
    old n (l.flatMap g') = l.flatMap g := by
  induction l with
  | nil => rfl
  | cons f l ih =>
    obtain ⟨hf, hl⟩ := forall_mem_cons.mp h
    rw [flatMap_cons, flatMap_cons, old_append, hf, ih hl]

@[simp] theorem rans_append : rans (l ++ l') = rans l ++ rans l' := filterMap_append

@[simp] theorem cleaneds_append : cleaneds (l ++ l') = cleaneds l ++ cleaneds l' :=
  filterMap_append

theorem cleanupUnwind_eq (depth : Nat) (ks : List Nat) :
    (cleanupUnwind depth ks).1 = ks.drop (ks.length - depth) ∧
      (cleanupUnwind depth ks).2 = (ks.take (ks.length - depth)).map .cleaned := by
  induction ks with
  | nil => exact ⟨(drop_nil ..).symm, by rw [take_nil]; rfl⟩
  | cons k ks ih =>
    unfold cleanupUnwind
    by_cases h : depth < ks.length + 1
    · have hlen : (k :: ks).length - depth = ks.length - depth + 1 := by
        rw [length_cons]
        omega
      rw [if_pos h, hlen]
      exact ⟨ih.1, congrArg (Event.cleaned k :: ·) ih.2⟩
    · have hlen : (k :: ks).length - depth = 0 := by
        rw [length_cons]
        omega
      rw [if_neg h, hlen]
      exact ⟨rfl, rfl⟩

theorem rans_cleaned (ks : List Nat) : rans (ks.map .cleaned) = [] := by
  induction ks with
  | nil => rfl
  | cons k ks ih => exact ih

theorem cleaneds_cleaned (ks : List Nat) : cleaneds (ks.map .cleaned) = ks := by
  induction ks with
  | nil => rfl
  | cons k ks ih => exact congrArg (k :: ·) ih

/-! ### The numbers of a context -/

/-- What is on the stacks was given its number, and none has that of another. -/
structure Fresh (c : Ctx) : Prop where
  frames : ∀ f ∈ c.frames, f < c.next
  cleanups : ∀ k ∈ c.cleanups, k < c.next
  defers : ∀ f ∈ c.frames, ∀ d ∈ c.defers f, d < c.next
  framesOnce : c.frames.Nodup
  cleanupsOnce : c.cleanups.Nodup
  defersOnce : ∀ f ∈ c.frames, (c.defers f).Nodup
  apart : ∀ f ∈ c.frames, ∀ g ∈ c.frames, f ≠ g → (c.defers f).Disjoint (c.defers g)

/-- The depths that the handlers recorded, the newest first, are of what is on the stacks. -/
structure Depths (c : Ctx) : Prop where
  mono : c.handlers.Pairwise fun h h' =>
    h'.frameDepth ≤ h.frameDepth ∧ h'.cleanupDepth ≤ h.cleanupDepth
  frames : ∀ h ∈ c.handlers, h.frameDepth ≤ c.frames.length
  cleanups : ∀ h ∈ c.handlers, h.cleanupDepth ≤ c.cleanups.length

theorem Fresh.start : Fresh .start := by
  constructor <;> simp [Ctx.start]

theorem Fresh.framePush (h : Fresh c) : Fresh c.framePush := by
  have hne : ∀ f ∈ c.frames, f ≠ c.next := fun f hf => Nat.ne_of_lt (h.frames f hf)
  have hold : ∀ f ∈ c.frames, c.framePush.defers f = c.defers f := fun f hf =>
    Function.update_of_ne (hne f hf) ..
  have hnew : c.framePush.defers c.next = [] := Function.update_self ..
  refine ⟨?_, ?_, ?_, ?_, h.cleanupsOnce, ?_, ?_⟩
  · exact forall_mem_cons.mpr ⟨Nat.lt_succ_self _, fun f hf => Nat.lt_succ_of_lt (h.frames f hf)⟩
  · exact fun k hk => Nat.lt_succ_of_lt (h.cleanups k hk)
  · refine forall_mem_cons.mpr ⟨?_, fun f hf => ?_⟩
    · rw [hnew]
      exact forall_mem_nil _
    · rw [hold f hf]
      exact fun d hd => Nat.lt_succ_of_lt (h.defers f hf d hd)
  · exact nodup_cons.mpr ⟨fun hin => hne _ hin rfl, h.framesOnce⟩
  · refine forall_mem_cons.mpr ⟨?_, fun f hf => ?_⟩
    · rw [hnew]
      exact nodup_nil
    · rw [hold f hf]
      exact h.defersOnce f hf
  · intro f hf g hg hfg
    rcases mem_cons.mp hf with rfl | hf
    · rw [hnew]
      exact disjoint_nil_left _
    rcases mem_cons.mp hg with rfl | hg
    · rw [hnew]
      exact disjoint_nil_right _
    rw [hold f hf, hold g hg]
    exact h.apart f hf g hg hfg

theorem Fresh.defer (h : Fresh c) (f : Nat) : Fresh (c.defer f) := by
  have hcases : ∀ g ∈ c.frames, (c.defer f).defers g = c.defers g ∨
      (c.defer f).defers g = c.next :: c.defers g ∧ g = f := by
    intro g _
    by_cases hg : g = f
    · subst hg
      exact .inr ⟨Function.update_self .., rfl⟩
    · exact .inl (Function.update_of_ne hg ..)
  have hnot : ∀ g ∈ c.frames, c.next ∉ c.defers g := fun g hg hin =>
    Nat.lt_irrefl _ (h.defers g hg _ hin)
  refine ⟨fun g hg => Nat.lt_succ_of_lt (h.frames g hg),
    fun k hk => Nat.lt_succ_of_lt (h.cleanups k hk), ?_, h.framesOnce, h.cleanupsOnce, ?_, ?_⟩
  · intro g hg
    have hold := fun d hd => Nat.lt_succ_of_lt (h.defers g hg d hd)
    rcases hcases g hg with heq | ⟨heq, -⟩ <;> rw [heq]
    · exact hold
    · exact forall_mem_cons.mpr ⟨Nat.lt_succ_self _, hold⟩
  · intro g hg
    rcases hcases g hg with heq | ⟨heq, -⟩ <;> rw [heq]
    · exact h.defersOnce g hg
    · exact nodup_cons.mpr ⟨hnot g hg, h.defersOnce g hg⟩
  · intro g hg g' hg' hne
    have hdis := h.apart g hg g' hg' hne
    rcases hcases g hg with heq | ⟨heq, hf⟩
    · rcases hcases g' hg' with heq' | ⟨heq', -⟩ <;> rw [heq, heq']
      · exact hdis
      · exact disjoint_cons_right.mpr ⟨hnot g hg, hdis⟩
    · rcases hcases g' hg' with heq' | ⟨-, hf'⟩
      · rw [heq, heq']
        exact disjoint_cons_left.mpr ⟨hnot g' hg', hdis⟩
      · exact absurd (hf.trans hf'.symm) hne

theorem Fresh.deferTake (h : Fresh c) (f : Nat) : Fresh (c.deferTake f) := by
  have hsub : ∀ g, (c.deferTake f).defers g <:+ c.defers g := by
    intro g
    unfold Ctx.deferTake Function.update
    by_cases hg : g = f
    · subst hg
      simpa using tail_suffix _
    · simp [hg]
  refine ⟨h.frames, h.cleanups, fun g hg d hd => h.defers g hg d ((hsub g).subset hd), h.framesOnce,
    h.cleanupsOnce, fun g hg => (h.defersOnce g hg).sublist (hsub g).sublist, ?_⟩
  intro g hg g' hg' hne d hd hd'
  exact h.apart g hg g' hg' hne ((hsub g).subset hd) ((hsub g').subset hd')

/-- The stacks lose entries on top. -/
theorem Fresh.drop (h : Fresh c) (m j : Nat) (hs : List Handler) :
    Fresh { c with frames := c.frames.drop m, cleanups := c.cleanups.drop j, handlers := hs } := by
  have hm : ∀ {f}, f ∈ c.frames.drop m → f ∈ c.frames := mem_of_mem_drop
  exact ⟨fun f hf => h.frames f (hm hf), fun k hk => h.cleanups k (mem_of_mem_drop hk),
    fun f hf => h.defers f (hm hf), h.framesOnce.sublist (drop_sublist ..),
    h.cleanupsOnce.sublist (drop_sublist ..), fun f hf => h.defersOnce f (hm hf),
    fun f hf g hg => h.apart f (hm hf) g (hm hg)⟩

theorem Fresh.cleanupPush (h : Fresh c) : Fresh c.cleanupPush := by
  refine ⟨fun f hf => Nat.lt_succ_of_lt (h.frames f hf), ?_,
    fun f hf d hd => Nat.lt_succ_of_lt (h.defers f hf d hd), h.framesOnce, ?_, h.defersOnce, h.apart⟩
  · exact forall_mem_cons.mpr ⟨Nat.lt_succ_self _, fun k hk => Nat.lt_succ_of_lt (h.cleanups k hk)⟩
  · exact nodup_cons.mpr ⟨fun hin => Nat.lt_irrefl _ (h.cleanups _ hin), h.cleanupsOnce⟩

theorem Fresh.ehPrepare (h : Fresh c) : Fresh c.ehPrepare :=
  ⟨fun f hf => Nat.lt_succ_of_lt (h.frames f hf), fun k hk => Nat.lt_succ_of_lt (h.cleanups k hk),
    fun f hf d hd => Nat.lt_succ_of_lt (h.defers f hf d hd), h.framesOnce, h.cleanupsOnce,
    h.defersOnce, h.apart⟩

theorem Depths.framePush (h : Depths c) : Depths c.framePush :=
  ⟨h.mono, fun hd hin => Nat.le_succ_of_le (h.frames hd hin), h.cleanups⟩

theorem Depths.cleanupPush (h : Depths c) : Depths c.cleanupPush :=
  ⟨h.mono, h.frames, fun hd hin => Nat.le_succ_of_le (h.cleanups hd hin)⟩

theorem Depths.ehPrepare (h : Depths c) : Depths c.ehPrepare :=
  ⟨pairwise_cons.mpr ⟨fun hd hin => ⟨h.frames hd hin, h.cleanups hd hin⟩, h.mono⟩,
    forall_mem_cons.mpr ⟨Nat.le_refl _, h.frames⟩,
    forall_mem_cons.mpr ⟨Nat.le_refl _, h.cleanups⟩⟩

/-- No handler recorded more frames than the newest. -/
theorem Depths.head {h : Handler} (hd : Depths c) (hh : c.handlers = h :: hs) :
    ∀ x ∈ c.handlers, x.frameDepth ≤ h.frameDepth := by
  have hmono := hd.mono
  rw [hh] at hmono ⊢
  exact forall_mem_cons.mpr ⟨Nat.le_refl _, fun x hx => ((pairwise_cons.mp hmono).1 x hx).1⟩

/-! ### What a run has moved -/

/-- From `c` to `c'`, `m` frames and `j` cleanups were taken off the stacks, and the defers and
cleanups of `c` that ran are theirs. The handlers are now `hs`. -/
structure Moved (m j : Nat) (hs : List Handler) (c c' : Ctx) (l : List Event) : Prop where
  le : c.next ≤ c'.next
  fresh : Fresh c'
  frames : c'.frames = c.frames.drop m
  cleanups : c'.cleanups = c.cleanups.drop j
  handlers : c'.handlers = hs
  defers : ∀ f ∈ c'.frames, old c.next (c'.defers f) = c.defers f
  ran : old c.next (rans l) = (c.frames.take m).flatMap c.defers
  cleaned : old c.next (cleaneds l) = c.cleanups.take j

/-- Control is at the handler `id`, the newest in `c`, and what is above it has been unwound. -/
def Landed (id : Nat) (c c' : Ctx) (l : List Event) : Prop :=
  ∃ h hs, c.handlers = h :: hs ∧ h.id = id ∧
    Moved (c.frames.length - h.frameDepth) (c.cleanups.length - h.cleanupDepth) hs c c' l

theorem Moved.refl (hf : Fresh c) : Moved 0 0 c.handlers c c [] :=
  ⟨Nat.le_refl _, hf, rfl, rfl, rfl, fun f hin => old_self (hf.defers f hin), rfl, rfl⟩

theorem Moved.trans (hf : Fresh c) (h : Moved m j hs c c₁ l) (h' : Moved m' j' hs' c₁ c₂ l') :
    Moved (m + m') (j + j') hs' c c₂ (l ++ l') := by
  have hframes : c₂.frames = c.frames.drop (m + m') := by
    rw [h'.frames, h.frames, drop_drop]
  refine ⟨Nat.le_trans h.le h'.le, h'.fresh, hframes, ?_, h'.handlers, fun f hf => ?_, ?_, ?_⟩
  · rw [h'.cleanups, h.cleanups, drop_drop]
  · have hf₁ : f ∈ c₁.frames := mem_of_mem_drop (h'.frames ▸ hf)
    rw [← old_old h.le, h'.defers f hf, h.defers f hf₁]
  · rw [rans_append, old_append, h.ran, ← old_old h.le, h'.ran, take_add, flatMap_append,
      h.frames]
    refine congrArg _ (old_flatMap fun f hf => h.defers f ?_)
    rw [h.frames]
    exact mem_of_mem_take hf
  · rw [cleaneds_append, old_append, h.cleaned, ← old_old h.le, h'.cleaned, take_add, h.cleanups]
    refine congrArg _ (old_self fun k hk => hf.cleanups k ?_)
    exact mem_of_mem_drop (mem_of_mem_take hk)

theorem Moved.depths (hd : Depths c) (h : Moved m j hs c c' l) (hsuf : hs <:+ c.handlers)
    (hm : ∀ h ∈ hs, h.frameDepth ≤ c.frames.length - m ∧ h.cleanupDepth ≤ c.cleanups.length - j) :
    Depths c' := by
  refine ⟨h.handlers ▸ hd.mono.sublist hsuf.sublist, ?_, ?_⟩
  · intro x hx
    rw [h.handlers] at hx
    rw [h.frames, length_drop]
    exact (hm x hx).1
  · intro x hx
    rw [h.handlers] at hx
    rw [h.cleanups, length_drop]
    exact (hm x hx).2

/-- Nothing was taken off. -/
theorem Moved.depths_zero (hd : Depths c) (h : Moved 0 0 c.handlers c c' l) : Depths c' :=
  h.depths hd (suffix_refl _) fun x hx => ⟨hd.frames x hx, hd.cleanups x hx⟩

/-- After frames have been taken off, a throw is delivered. -/
theorem Moved.landed (hf : Fresh c) (h : Moved m 0 c.handlers c c₁ l)
    (hm : m ≤ c.frames.length) (hd : ∀ x ∈ c.handlers, x.frameDepth ≤ c.frames.length - m)
    (h' : Landed id c₁ c₂ l') : Landed id c c₂ (l ++ l') := by
  obtain ⟨x, xs, hx, hid, hmove⟩ := h'
  rw [h.handlers] at hx
  have hle : x.frameDepth ≤ c.frames.length - m := hd x (hx ▸ mem_cons_self)
  have hall := h.trans hf hmove
  have hlen : m + (c₁.frames.length - x.frameDepth) = c.frames.length - x.frameDepth := by
    rw [h.frames, length_drop]
    omega
  have hlen' : 0 + (c₁.cleanups.length - x.cleanupDepth) = c.cleanups.length - x.cleanupDepth := by
    rw [h.cleanups, drop_zero, Nat.zero_add]
  rw [hlen, hlen'] at hall
  exact ⟨x, xs, hx, hid, hall⟩

/-! ### Code that holds something on a stack -/

/-- The code ran with a cleanup on top, and that is dropped. -/
theorem Moved.native (hd : Moved 0 0 c.handlers c.cleanupPush c₁ l) (hf : Fresh c) :
    Moved 0 0 c.handlers c (c₁.cleanupTo c.cleanups.length) l := by
  have hcl : (c₁.cleanupTo c.cleanups.length).cleanups = c.cleanups := by
    have h₁ : c₁.cleanups = c.next :: c.cleanups := hd.cleanups
    unfold Ctx.cleanupTo
    rw [h₁, length_cons, Nat.add_sub_cancel_left]
    rfl
  have hfresh := hd.fresh.drop 0 (c₁.cleanups.length - c.cleanups.length) c₁.handlers
  refine ⟨Nat.le_of_succ_le hd.le, hfresh, hd.frames, hcl, hd.handlers, fun f hin => ?_, ?_, ?_⟩
  · have hframes : c₁.frames = c.frames := hd.frames
    have hin' : f ∈ c.frames := hframes ▸ hin
    rw [← old_old (Nat.le_succ c.next), ← old_self (hf.defers f hin')]
    exact congrArg (old c.next) (hd.defers f hin)
  · rw [← old_old (Nat.le_succ c.next)]
    exact congrArg (old c.next) hd.ran
  · rw [← old_old (Nat.le_succ c.next)]
    exact congrArg (old c.next) hd.cleaned

/-- A throw out of code that has a cleanup on top. -/
theorem Landed.native (h : Landed id c.cleanupPush c₁ l) (hf : Fresh c)
    (hd : Depths c) : Landed id c c₁ l := by
  obtain ⟨x, xs, hx, hid, hmove⟩ := h
  have hle : x.cleanupDepth ≤ c.cleanups.length := hd.cleanups x (show x ∈ c.handlers from hx ▸ mem_cons_self)
  have hlen : c.cleanupPush.cleanups.length - x.cleanupDepth =
      c.cleanups.length - x.cleanupDepth + 1 := by
    show c.cleanups.length + 1 - x.cleanupDepth = _
    omega
  rw [hlen] at hmove
  have hold : ∀ f ∈ c.frames, old c.next (c.defers f) = c.defers f := fun f hin =>
    old_self (hf.defers f hin)
  refine ⟨x, xs, hx, hid, Nat.le_of_succ_le hmove.le, hmove.fresh, hmove.frames, hmove.cleanups,
    hmove.handlers, fun f hin => ?_, ?_, ?_⟩
  · have hin' : f ∈ c.frames := mem_of_mem_drop (hmove.frames ▸ hin)
    rw [← old_old (Nat.le_succ c.next), ← hold f hin']
    exact congrArg (old c.next) (hmove.defers f hin)
  · rw [← old_old (Nat.le_succ c.next)]
    refine (congrArg (old c.next) hmove.ran).trans (old_flatMap fun f hin => ?_)
    exact hold f (mem_of_mem_take hin)
  · rw [← old_old (Nat.le_succ c.next)]
    refine (congrArg (old c.next) hmove.cleaned).trans ?_
    show old c.next (c.next :: c.cleanups.take _) = _
    rw [old_cons_ge (Nat.le_refl _)]
    exact old_self fun k hk => hf.cleanups k (mem_of_mem_take hk)

/-- A throw out of a function, past its frame. -/
theorem Landed.frame {id : Nat} (h : Landed id c.framePush c₁ l) (hf : Fresh c)
    (hd : Depths c) : Landed id c c₁ l := by
  obtain ⟨x, xs, hx, hid, hmove⟩ := h
  have hle : x.frameDepth ≤ c.frames.length := hd.frames x (show x ∈ c.handlers from hx ▸ mem_cons_self)
  have hlen : c.framePush.frames.length - x.frameDepth = c.frames.length - x.frameDepth + 1 := by
    show c.frames.length + 1 - x.frameDepth = _
    omega
  rw [hlen] at hmove
  have hframes : c₁.frames = c.frames.drop (c.frames.length - x.frameDepth) := hmove.frames
  have hdefers : ∀ f ∈ c.frames, c.framePush.defers f = c.defers f := fun f hin =>
    Function.update_of_ne (Nat.ne_of_lt (hf.frames f hin)) ..
  have hold : ∀ f ∈ c.frames, old c.next (c.framePush.defers f) = c.defers f := fun f hin => by
    rw [hdefers f hin]
    exact old_self (hf.defers f hin)
  refine ⟨x, xs, hx, hid, Nat.le_of_succ_le hmove.le, hmove.fresh, hframes, hmove.cleanups,
    hmove.handlers, fun f hin => ?_, ?_, ?_⟩
  · have hin' : f ∈ c.frames := mem_of_mem_drop (hframes ▸ hin)
    rw [← old_old (Nat.le_succ c.next), ← hold f hin']
    exact congrArg (old c.next) (hmove.defers f hin)
  · rw [← old_old (Nat.le_succ c.next)]
    refine (congrArg (old c.next) hmove.ran).trans ?_
    show old c.next ((c.next :: c.frames.take _).flatMap c.framePush.defers) = _
    -- the frame of the call has no defers that were there before it
    have hnew : c.framePush.defers c.next = [] := Function.update_self ..
    rw [flatMap_cons, hnew, nil_append]
    exact old_flatMap fun f hin => hold f (mem_of_mem_take hin)
  · rw [← old_old (Nat.le_succ c.next)]
    refine (congrArg (old c.next) hmove.cleaned).trans ?_
    exact old_self fun k hk => hf.cleanups k (mem_of_mem_take hk)

/-! ### The defers of a frame -/

/-- The defers of the frame `f` have run, the newest first. -/
structure RanAll (f : Nat) (c c' : Ctx) (l : List Event) : Prop where
  le : c.next ≤ c'.next
  fresh : Fresh c'
  frames : c'.frames = c.frames
  cleanups : c'.cleanups = c.cleanups
  handlers : c'.handlers = c.handlers
  others : ∀ g ∈ c.frames, g ≠ f → old c.next (c'.defers g) = c.defers g
  none : c'.defers f = []
  ran : old c.next (rans l) = c.defers f
  cleaned : old c.next (cleaneds l) = []

/-- The frame is the one on top, and no handler was installed since it was pushed. -/
def Top (f : Nat) (c : Ctx) : Prop :=
  c.frames.head? = some f ∧ ∀ h ∈ c.handlers, h.frameDepth < c.frames.length

theorem Top.called (h : Moved 0 0 c.handlers c.framePush c₁ l) (hd : Depths c) : Top c.next c₁ := by
  have hframes : c₁.frames = c.next :: c.frames := h.frames
  unfold Top
  rw [hframes, h.handlers]
  exact ⟨rfl, fun x hx => Nat.lt_succ_of_le (hd.frames x hx)⟩

theorem Top.moved (ht : Top f c) (h : Moved 0 0 c.handlers (c.deferTake f) c₁ l) : Top f c₁ := by
  have hframes : c₁.frames = c.frames := h.frames
  unfold Top
  rw [hframes, h.handlers]
  exact ht

theorem RanAll.nil (hf : Fresh c) (h : c.defers f = []) : RanAll f c c [] :=
  ⟨Nat.le_refl _, hf, rfl, rfl, rfl, fun g hg _ => old_self (hf.defers g hg), h, h.symm, rfl⟩

theorem deferTake_self {d : Nat} {ds : List Nat} (h : c.defers f = d :: ds) :
    (c.deferTake f).defers f = ds := by
  show Function.update c.defers f (c.defers f).tail f = ds
  rw [Function.update_self, h]
  rfl

theorem deferTake_other {g : Nat} (h : g ≠ f) : (c.deferTake f).defers g = c.defers g :=
  Function.update_of_ne h ..

/-- One defer has run, and then the others. -/
theorem RanAll.cons {d : Nat} {ds : List Nat} (hf : Fresh c) (hin : f ∈ c.frames)
    (hd : c.defers f = d :: ds) (h : Moved 0 0 c.handlers (c.deferTake f) c₁ l)
    (h' : RanAll f c₁ c₂ l') : RanAll f c c₂ (.ran d :: (l ++ l')) := by
  have hframes : c₁.frames = c.frames := h.frames
  have hle : c.next ≤ c₁.next := h.le
  have hlt : d < c.next := hf.defers f hin d (hd ▸ mem_cons_self)
  refine ⟨Nat.le_trans hle h'.le, h'.fresh, h'.frames.trans hframes, h'.cleanups.trans h.cleanups,
    h'.handlers.trans h.handlers, fun g hg hne => ?_, h'.none, ?_, ?_⟩
  · rw [← old_old hle, h'.others g (hframes ▸ hg) hne]
    exact (h.defers g (hframes ▸ hg)).trans (deferTake_other hne)
  · show old c.next (d :: rans (l ++ l')) = _
    rw [old_cons_lt hlt, rans_append, old_append, hd]
    refine congrArg (d :: ·) ?_
    have hnone : old c.next (rans l) = [] := h.ran
    rw [hnone, nil_append, ← old_old hle, h'.ran]
    exact (h.defers f (hframes ▸ hin)).trans (deferTake_self hd)
  · show old c.next (cleaneds (l ++ l')) = []
    have hnone : old c.next (cleaneds l) = [] := h.cleaned
    rw [cleaneds_append, old_append, hnone, ← old_old hle, h'.cleaned]
    rfl

/-- A defer of the frame on top throws. -/
theorem Landed.defer {id d : Nat} {ds : List Nat} (hf : Fresh c) (ht : Top f c)
    (hd : c.defers f = d :: ds) (h : Landed id (c.deferTake f) c₁ l) :
    Landed id c c₁ (.ran d :: l) := by
  obtain ⟨x, xs, hx, hid, hmove⟩ := h
  have hfd : x.frameDepth < c.frames.length := ht.2 x (show x ∈ c.handlers from hx ▸ mem_cons_self)
  obtain ⟨fs, hfs⟩ : ∃ fs, c.frames = f :: fs := head?_eq_some_iff.mp ht.1
  have hnot : f ∉ fs := (nodup_cons.mp (hfs ▸ hf.framesOnce)).1
  obtain ⟨m, hm⟩ : ∃ m, c.frames.length - x.frameDepth = m + 1 :=
    Nat.exists_eq_succ_of_ne_zero (by omega)
  have hlt : d < c.next := hf.defers f (hfs ▸ mem_cons_self) d (hd ▸ mem_cons_self)
  have hother : ∀ g ∈ fs, (c.deferTake f).defers g = c.defers g := fun g hg =>
    deferTake_other fun heq => hnot (heq ▸ hg)
  refine ⟨x, xs, hx, hid, hmove.le, hmove.fresh, hmove.frames, hmove.cleanups, hmove.handlers,
    fun g hg => ?_, ?_, hmove.cleaned⟩
  · have hframes : c₁.frames = c.frames.drop (c.frames.length - x.frameDepth) := hmove.frames
    rw [hm, hfs, drop_succ_cons] at hframes
    exact (hmove.defers g hg).trans (hother g (mem_of_mem_drop (hframes ▸ hg)))
  · show old c.next (d :: rans l) = _
    have hran : old c.next (rans l) = (c.frames.take (c.frames.length - x.frameDepth)).flatMap
        (c.deferTake f).defers := hmove.ran
    rw [hm, hfs, take_succ_cons, flatMap_cons, deferTake_self hd] at hran
    rw [old_cons_lt hlt, hran, hm, hfs, take_succ_cons, flatMap_cons, hd]
    refine congrArg (d :: ·) (congrArg (ds ++ ·) ?_)
    exact flatMap_congr fun g hg => hother g (mem_of_mem_take hg)

/-- The frame on top is popped, when its defers have run. -/
theorem RanAll.pop {fs : List Nat} (hf : Fresh c) (hfs : c.frames = f :: fs)
    (h : RanAll f c c' l) :
    Moved 1 0 c.handlers c { c' with frames := c'.frames.tail } l := by
  have hframes : c'.frames.tail = c.frames.drop 1 := by rw [h.frames, drop_one]
  have hnot : f ∉ fs := (nodup_cons.mp (hfs ▸ hf.framesOnce)).1
  have hfresh := h.fresh.drop 1 0 c'.handlers
  rw [drop_one, drop_zero] at hfresh
  refine ⟨h.le, hfresh, hframes, h.cleanups, h.handlers, fun g hg => ?_, ?_, h.cleaned⟩
  · have hg' : g ∈ fs := by
      rw [hframes, hfs] at hg
      exact hg
    exact h.others g (hfs ▸ mem_cons_of_mem _ hg') fun heq => hnot (heq ▸ hg')
  · rw [h.ran, hfs]
    simp

/-- A function comes to its end. -/
theorem Moved.frame (hf : Fresh c) (h : Moved 0 0 c.handlers c.framePush c₁ l)
    (h' : RanAll c.next c₁ c₂ l') :
    Moved 0 0 c.handlers c (c₂.framePop c.next) (l ++ l') := by
  have hframes : c₁.frames = c.next :: c.frames := h.frames
  have hpop := h.trans hf.framePush (h'.pop h.fresh hframes)
  have hframes₂ : c₂.frames = c.next :: c.frames := h'.frames.trans hframes
  have heq : c₂.framePop c.next = { c₂ with frames := c₂.frames.tail } := by
    unfold Ctx.framePop
    rw [if_pos (by rw [hframes₂]; rfl)]
  have hdefers : ∀ f ∈ c.frames, c.framePush.defers f = c.defers f := fun f hin =>
    Function.update_of_ne (Nat.ne_of_lt (hf.frames f hin)) ..
  have hself : c₂.frames.tail = c.frames := by rw [hframes₂]; rfl
  rw [heq]
  refine ⟨Nat.le_of_succ_le hpop.le, hpop.fresh, hself, hpop.cleanups, hpop.handlers.trans h.handlers,
    fun f hin => ?_, ?_, ?_⟩
  · have hin' : f ∈ c.frames := hself ▸ hin
    rw [← old_old (Nat.le_succ c.next), ← old_self (hf.defers f hin'), ← hdefers f hin']
    exact congrArg (old c.next) (hpop.defers f hin)
  · rw [← old_old (Nat.le_succ c.next)]
    refine (congrArg (old c.next) hpop.ran).trans ?_
    have hnew : c.framePush.defers c.next = [] := Function.update_self ..
    show old c.next ([c.next].flatMap c.framePush.defers) = []
    rw [flatMap_cons, hnew]
    rfl
  · rw [← old_old (Nat.le_succ c.next)]
    exact congrArg (old c.next) hpop.cleaned

/-! ### Handlers -/

theorem Moved.setHandlers (h : Moved m j hs c c' l) (hs' : List Handler) :
    Moved m j hs' c { c' with handlers := hs' } l := by
  have hfresh := h.fresh.drop 0 0 hs'
  rw [drop_zero, drop_zero] at hfresh
  exact ⟨h.le, hfresh, h.frames, h.cleanups, rfl, h.defers, h.ran, h.cleaned⟩

/-- What ran with a new handler. -/
theorem Moved.handler (h : Moved m j hs c.ehPrepare c' l) (hf : Fresh c) : Moved m j hs c c' l := by
  have hframes : c'.frames = c.frames.drop m := h.frames
  have hold : ∀ f ∈ c.frames, old c.next (c.defers f) = c.defers f := fun f hin =>
    old_self (hf.defers f hin)
  refine ⟨Nat.le_of_succ_le h.le, h.fresh, hframes, h.cleanups, h.handlers, fun f hin => ?_, ?_, ?_⟩
  · rw [← old_old (Nat.le_succ c.next), ← hold f (mem_of_mem_drop (hframes ▸ hin))]
    exact congrArg (old c.next) (h.defers f hin)
  · rw [← old_old (Nat.le_succ c.next)]
    refine (congrArg (old c.next) h.ran).trans (old_flatMap fun f hin => ?_)
    exact hold f (mem_of_mem_take hin)
  · rw [← old_old (Nat.le_succ c.next)]
    refine (congrArg (old c.next) h.cleaned).trans (old_self fun k hk => hf.cleanups k ?_)
    exact mem_of_mem_take hk

/-- The cleanups above a depth run. -/
theorem Moved.cleanup {depth : Nat} {rest : List Nat} (hf : Fresh c)
    (h : cleanupUnwind depth c.cleanups = (rest, l)) (hs : List Handler) :
    Moved 0 (c.cleanups.length - depth) hs c { c with cleanups := rest, handlers := hs } l := by
  obtain ⟨hrest, hl⟩ := cleanupUnwind_eq depth c.cleanups
  rw [h] at hrest hl
  obtain rfl : rest = _ := hrest
  obtain rfl : l = _ := hl
  have hfresh := hf.drop 0 (c.cleanups.length - depth) hs
  rw [drop_zero] at hfresh
  refine ⟨Nat.le_refl _, hfresh, rfl, rfl, rfl, fun f hin => old_self (hf.defers f hin), ?_, ?_⟩
  · rw [rans_cleaned]
    rfl
  · rw [cleaneds_cleaned]
    exact old_self fun k hk => hf.cleanups k (mem_of_mem_take hk)

theorem Landed.seen {id id' : Nat} {b a : Ctx} {r q : List Nat} (h : Landed id c c' l) :
    Landed id c c' (l ++ [.threw b a id' r q]) := by
  obtain ⟨x, xs, hx, hid, hmove⟩ := h
  refine ⟨x, xs, hx, hid, hmove.le, hmove.fresh, hmove.frames, hmove.cleanups, hmove.handlers,
    hmove.defers, ?_, ?_⟩
  · rw [rans_append, ← hmove.ran]
    exact congrArg _ (append_nil _)
  · rw [cleaneds_append, ← hmove.cleaned]
    exact congrArg _ (append_nil _)

/-! ### Every run -/

/-- A throw in `before`, delivered at `after`: what lies above the handler `h` is unwound, and its
defers and cleanups are those that ran of what was there at the throw. -/
structure Unwound (h : Handler) (hs : List Handler) (before after : Ctx) (ran cleaned : List Nat) :
    Prop where
  handlers : after.handlers = hs
  frameDepth : after.frames.length = h.frameDepth
  frames : before.frames = before.frames.take (before.frames.length - h.frameDepth) ++ after.frames
  cleanupDepth : after.cleanups.length = h.cleanupDepth
  cleanups : before.cleanups =
    before.cleanups.take (before.cleanups.length - h.cleanupDepth) ++ after.cleanups
  ran : old before.next ran =
    (before.frames.take (before.frames.length - h.frameDepth)).flatMap before.defers
  cleaned : old before.next cleaned =
    before.cleanups.take (before.cleanups.length - h.cleanupDepth)
  once : (before.frames.flatMap before.defers).Nodup ∧ before.cleanups.Nodup

/-- Each throw was delivered to the innermost handler, and control is there with the stacks that
it found when it was installed. -/
def Event.delivered : Event → Prop
  | .resumed entry after => after.frames = entry.frames ∧ after.cleanups = entry.cleanups ∧
      after.handlers = entry.handlers
  | .threw before after id rs ks => ∃ h hs, before.handlers = h :: hs ∧ h.id = id ∧
      Unwound h hs before after rs ks
  | _ => True

theorem Fresh.flatMap_nodup (h : Fresh c) : (c.frames.flatMap c.defers).Nodup := by
  refine nodup_flatMap.mpr ⟨h.defersOnce, ?_⟩
  refine h.framesOnce.pairwise_of_forall_ne fun f hf g hg hne => ?_
  exact h.apart f hf g hg hne

theorem Landed.unwound (hf : Fresh c) (hd : Depths c) (h : Landed id c c' l) :
    ∃ x xs, c.handlers = x :: xs ∧ x.id = id ∧ Unwound x xs c c' (rans l) (cleaneds l) := by
  obtain ⟨x, xs, hx, hid, hmove⟩ := h
  have hmem : x ∈ c.handlers := hx ▸ mem_cons_self
  have hfd := hd.frames x hmem
  have hcd := hd.cleanups x hmem
  refine ⟨x, xs, hx, hid, hmove.handlers, ?_, ?_, ?_, ?_, hmove.ran, hmove.cleaned,
    hf.flatMap_nodup, hf.cleanupsOnce⟩
  · rw [hmove.frames, length_drop]
    omega
  · rw [hmove.frames, take_append_drop]
  · rw [hmove.cleanups, length_drop]
    omega
  · rw [hmove.cleanups, take_append_drop]

/-- What runs the code needs of the context. -/
def Code.Ready : Code → Ctx → Prop
  | .runDefers f, c => Top f c
  | .unwindTo depth, c => ∀ h ∈ c.handlers, h.frameDepth ≤ depth
  | _, _ => True

/-- What the code has done when it comes to its end. -/
def Code.Done : Code → Ctx → Ctx → List Event → Prop
  | .runDefers f, c, c', l => RanAll f c c' l
  | .unwindTo depth, c, c', l => Moved (c.frames.length - depth) 0 c.handlers c c' l
  | _, c, c', l => Moved 0 0 c.handlers c c' l

/-- Every run moves what it says it does, and every throw in it is delivered. -/
theorem Exec.moves (hx : Exec k c o c' l) (hf : Fresh c) (hd : Depths c) (hr : k.Ready c) :
    (o = .next → k.Done c c' l) ∧ (∀ id, o = .caught id → Landed id c c' l) ∧
      ∀ ev ∈ l, ev.delivered := by
  induction hx with
  | cut => exact ⟨nofun, nofun, forall_mem_nil _⟩
  | userEnd => exact ⟨fun _ => .refl hf, nofun, forall_mem_nil _⟩
  | userThen _ _ ih ih' =>
    obtain ⟨hm, -, hl⟩ := ih hf hd trivial
    have hm : Moved 0 0 _ _ _ _ := hm rfl
    obtain ⟨hm', hland, hl'⟩ := ih' hm.fresh (hm.depths_zero hd) trivial
    refine ⟨fun ho => ?_, fun id ho => ?_, forall_mem_append.mpr ⟨hl, hl'⟩⟩
    · have hm' : Moved 0 0 _ _ _ _ := hm' ho
      rw [hm.handlers] at hm'
      exact hm.trans hf hm'
    · exact hm.landed hf (Nat.zero_le _) hd.frames (hland id ho)
  | userOut _ hne ih =>
    obtain ⟨-, hland, hl⟩ := ih hf hd trivial
    exact ⟨fun ho => absurd ho hne, hland, hl⟩
  | @defer f c =>
    refine ⟨fun _ => ⟨Nat.le_succ _, hf.defer f, rfl, rfl, rfl, fun g hg => ?_, rfl, rfl⟩, nofun,
      forall_mem_nil _⟩
    have hold := old_self (hf.defers g hg)
    by_cases hgf : g = f
    · subst hgf
      show old c.next (Function.update c.defers g (c.next :: c.defers g) g) = _
      rw [Function.update_self, old_cons_ge (Nat.le_refl _), hold]
    · show old c.next (Function.update c.defers f (c.next :: c.defers f) g) = _
      rw [Function.update_of_ne hgf, hold]
  | native _ ih =>
    obtain ⟨hm, -, hl⟩ := ih hf.cleanupPush hd.cleanupPush trivial
    exact ⟨fun _ => Moved.native (hm rfl) hf, nofun, hl⟩
  | nativeOut _ hne ih =>
    obtain ⟨-, hland, hl⟩ := ih hf.cleanupPush hd.cleanupPush trivial
    exact ⟨fun ho => absurd ho hne, fun id ho => (hland id ho).native hf hd, hl⟩
  | call _ ih | calledNative _ ih => exact ih hf hd trivial
  | called _ _ ih ih' =>
    obtain ⟨hm, -, hl⟩ := ih hf.framePush hd.framePush trivial
    have hm : Moved 0 0 _ _ _ _ := hm rfl
    obtain ⟨hran, -, hl'⟩ := ih' hm.fresh (hm.depths_zero hd.framePush) (.called hm hd)
    exact ⟨fun _ => hm.frame hf (hran rfl), nofun, forall_mem_append.mpr ⟨hl, hl'⟩⟩
  | calledOut _ hne ih =>
    obtain ⟨-, hland, hl⟩ := ih hf.framePush hd.framePush trivial
    exact ⟨fun ho => absurd ho hne, fun id ho => (hland id ho).frame hf hd, hl⟩
  | calledDefersOut _ _ hne ih ih' =>
    obtain ⟨hm, -, hl⟩ := ih hf.framePush hd.framePush trivial
    have hm : Moved 0 0 _ _ _ _ := hm rfl
    obtain ⟨-, hland, hl'⟩ := ih' hm.fresh (hm.depths_zero hd.framePush) (.called hm hd)
    refine ⟨fun ho => absurd ho hne, fun id ho => ?_, forall_mem_append.mpr ⟨hl, hl'⟩⟩
    exact (hm.landed hf.framePush (Nat.zero_le _) hd.framePush.frames (hland id ho)).frame hf hd
  | runDefersNil hnil => exact ⟨fun _ => .nil hf hnil, nofun, forall_mem_nil _⟩
  | @runDefersCons f _ _ c _ _ _ _ _ hcons _ _ ih ih' =>
    have hr : Top f c := hr
    have hf₀ := hf.deferTake f
    have hd₀ : Depths (c.deferTake f) := ⟨hd.mono, hd.frames, hd.cleanups⟩
    obtain ⟨hm, -, hl⟩ := ih hf₀.cleanupPush hd₀.cleanupPush trivial
    -- the defer's own cleanup is dropped
    have hm : Moved 0 0 _ (c.deferTake f).cleanupPush _ _ := hm rfl
    have hm := hm.native hf₀
    obtain ⟨hran, hland, hl'⟩ := ih' hm.fresh (hm.depths_zero hd₀) (hr.moved hm)
    refine ⟨fun ho => .cons hf (mem_of_mem_head? hr.1) hcons hm (hran ho), fun id ho => ?_,
      forall_mem_cons.mpr ⟨trivial, forall_mem_append.mpr ⟨hl, hl'⟩⟩⟩
    exact (hm.landed hf₀ (Nat.zero_le _) hd₀.frames (hland id ho)).defer hf hr hcons
  | @runDefersOut f _ _ c _ _ _ hcons _ hne ih =>
    have hf₀ := hf.deferTake f
    have hd₀ : Depths (c.deferTake f) := ⟨hd.mono, hd.frames, hd.cleanups⟩
    obtain ⟨-, hland, hl⟩ := ih hf₀.cleanupPush hd₀.cleanupPush trivial
    refine ⟨fun ho => absurd ho hne, fun id ho => ?_, forall_mem_cons.mpr ⟨trivial, hl⟩⟩
    exact ((hland id ho).native hf₀ hd₀).defer hf hr hcons
  | unwindDone hle =>
    refine ⟨fun _ => ?_, nofun, forall_mem_nil _⟩
    show Moved _ 0 _ _ _ _
    rw [Nat.sub_eq_zero_of_le hle]
    exact .refl hf
  | @unwindFrame depth f fs c _ _ _ _ _ hfs hlt _ _ ih ih' =>
    have hr : ∀ h ∈ c.handlers, h.frameDepth ≤ depth := hr
    have hbelow : ∀ h ∈ c.handlers, h.frameDepth ≤ c.frames.length - 1 := fun h hin =>
      Nat.le_sub_one_of_lt (Nat.lt_of_le_of_lt (hr h hin) hlt)
    obtain ⟨hran, -, hl⟩ := ih hf hd ⟨hfs ▸ rfl, fun h hin => Nat.lt_of_le_of_lt (hr h hin) hlt⟩
    have hm := (hran rfl).pop hf hfs
    have hd₁ := hm.depths hd (suffix_refl _) fun h hin => ⟨hbelow h hin, hd.cleanups h hin⟩
    obtain ⟨hm', hland, hl'⟩ := ih' hm.fresh hd₁ (hm.handlers.symm ▸ hr)
    refine ⟨fun ho => ?_, fun id ho => ?_, forall_mem_append.mpr ⟨hl, hl'⟩⟩
    · have hall := hm.trans hf (hm' ho)
      have hlen : 1 + ((c.frames.drop 1).length - depth) = c.frames.length - depth := by
        rw [length_drop]
        omega
      rw [hm.frames, hlen, hm.handlers] at hall
      exact hall
    · exact hm.landed hf (Nat.one_le_of_lt hlt) hbelow (hland id ho)
  | unwindOut hfs hlt _ hne ih =>
    obtain ⟨-, hland, hl⟩ := ih hf hd ⟨hfs ▸ rfl, fun h hin => Nat.lt_of_le_of_lt (hr h hin) hlt⟩
    exact ⟨fun ho => absurd ho hne, hland, hl⟩
  | @tryEnd _ c c₁ _ _ ih =>
    obtain ⟨hm, -, hl⟩ := ih hf.ehPrepare hd.ehPrepare trivial
    have hm : Moved 0 0 _ _ _ _ := hm rfl
    refine ⟨fun _ => ?_, nofun, hl⟩
    have hpop : c₁.ehPop = { c₁ with handlers := c.handlers } := by
      unfold Ctx.ehPop
      rw [hm.handlers]
      rfl
    show Moved 0 0 _ _ c₁.ehPop _
    rw [hpop]
    exact (hm.handler hf).setHandlers c.handlers
  | @tryCatches _ c c₁ l _ ih =>
    obtain ⟨-, hland, hl⟩ := ih hf.ehPrepare hd.ehPrepare trivial
    obtain ⟨x, xs, hx, -, hmove⟩ := hland _ rfl
    obtain ⟨rfl, rfl⟩ : _ = x ∧ _ = xs := by simpa [Ctx.ehPrepare] using hx
    -- it recorded the depths of the stacks as they were
    have hm : Moved 0 0 c.handlers c c₁ l := by
      have hm : Moved (c.frames.length - c.frames.length) (c.cleanups.length - c.cleanups.length)
          c.handlers c c₁ l := hmove.handler hf
      rw [Nat.sub_self, Nat.sub_self] at hm
      exact hm
    refine ⟨fun _ => ?_, nofun, forall_mem_append.mpr ⟨hl, forall_mem_singleton.mpr
      ⟨hm.frames, hm.cleanups, hm.handlers⟩⟩⟩
    refine ⟨hm.le, hm.fresh, hm.frames, hm.cleanups, hm.handlers, hm.defers, ?_, ?_⟩
    · rw [rans_append, ← hm.ran]
      exact congrArg _ (append_nil _)
    · rw [cleaneds_append, ← hm.cleaned]
      exact congrArg _ (append_nil _)
  | tryOut _ hne hne' ih =>
    obtain ⟨-, hland, hl⟩ := ih hf.ehPrepare hd.ehPrepare trivial
    refine ⟨fun ho => absurd ho hne, fun id ho => ?_, hl⟩
    -- a throw out of the code goes to the handler that was installed for it
    obtain ⟨x, xs, hx, hid, -⟩ := hland id ho
    cases hx
    exact absurd (ho.trans (congrArg _ hid.symm)) hne'
  | @throw _ h hs c c₁ _ _ l' hh _ hcl ih =>
    obtain ⟨hm, -, hl⟩ := ih hf hd (hd.head hh)
    have hm : Moved _ 0 _ _ _ _ := hm rfl
    have hall := hm.trans hf (Moved.cleanup hm.fresh hcl hs)
    rw [hm.cleanups, drop_zero, Nat.zero_add] at hall
    have hland : Landed h.id c _ _ := ⟨h, hs, hh, rfl, hall⟩
    refine ⟨nofun, fun id ho => ?_, ?_⟩
    · cases ho
      exact hland.seen
    · refine forall_mem_append.mpr ⟨forall_mem_append.mpr ⟨hl, fun ev hev => ?_⟩,
        forall_mem_singleton.mpr (hland.unwound hf hd)⟩
      have hl' : l' = _ := (congrArg Prod.snd hcl).symm.trans (cleanupUnwind_eq ..).2
      rw [hl'] at hev
      obtain ⟨k, -, rfl⟩ := mem_map.mp hev
      trivial
  | throwOver hh _ ih =>
    obtain ⟨-, hland, hl⟩ := ih hf hd (hd.head hh)
    have hland := hland _ rfl
    refine ⟨nofun, fun id ho => ?_, forall_mem_append.mpr ⟨hl,
      forall_mem_singleton.mpr (hland.unwound hf hd)⟩⟩
    cases ho
    exact hland.seen
  | throwCut hh _ ih =>
    obtain ⟨-, -, hl⟩ := ih hf hd (hd.head hh)
    exact ⟨nofun, nofun, hl⟩

/-- In every run of a task, every throw is delivered to the handler installed last of those that
still are, after the defers and the cleanups above it have run, once, the newest first, and no
others. Control is then where that handler was installed, with the stacks as they were, and no
exception leaves the task. -/
theorem throws_delivered (hx : Exec (.user none) .start o c' l) :
    (∀ ev ∈ l, ev.delivered) ∧ (o = .next ∨ o = .cut) := by
  have hd : Depths .start := ⟨.nil, nofun, nofun⟩
  obtain ⟨-, hland, hl⟩ := hx.moves Fresh.start hd trivial
  refine ⟨hl, ?_⟩
  cases o with
  | next => exact .inl rfl
  | cut => exact .inr rfl
  | caught id =>
    obtain ⟨x, xs, hx, -⟩ := hland id rfl
    cases hx

/-- A function that defers, and throws while it holds a cleanup, called under a handler. -/
theorem throws_delivered_once : ∃ (c' : Ctx) (l : List Event),
    Exec (.user none) .start .next c' l ∧ (rans l = [2] ∧ cleaneds l = [3]) ∧
      c'.frames = [] ∧ ∀ ev ∈ l, ev.delivered := by
  have hcall : Exec .called
      ((Ctx.start.ehPrepare.framePush.defer 1).cleanupPush.deferTake 1).cleanupPush .next _ _ :=
    .calledNative .userEnd
  have hdefers : Exec (.runDefers 1) (Ctx.start.ehPrepare.framePush.defer 1).cleanupPush .next _ _ :=
    .runDefersCons rfl hcall (.runDefersNil rfl)
  have hthrow : Exec (.op (some 1) .throw) (Ctx.start.ehPrepare.framePush.defer 1).cleanupPush
      (.caught 0) _ _ :=
    .throw (h := ⟨0, 0, 0⟩) rfl (.unwindFrame rfl Nat.zero_lt_one hdefers (.unwindDone Nat.le.refl)) rfl
  have hnative : Exec (.op (some 1) .native) (Ctx.start.ehPrepare.framePush.defer 1) (.caught 0) _ _ :=
    .nativeOut (.userOut hthrow nofun) nofun
  have hfunc : Exec .called Ctx.start.ehPrepare (.caught 0) _ _ :=
    .calledOut (.userThen .defer (.userOut hnative nofun)) nofun
  have htry : Exec (.op none .tryCatch) .start .next _ _ :=
    .tryCatches (.userOut (.call hfunc) nofun)
  have hx : Exec (.user none) .start .next _ _ := .userThen htry .userEnd
  exact ⟨_, _, hx, ⟨rfl, rfl⟩, rfl, (throws_delivered hx).1⟩

end Voila.Rt.Unwind
