import Voila.Rt.Judge
import Voila.Lib.Tally

/-!
# Voila.Rt.JudgeSound

What the judgement of a frame keeps, under any schedule.

The count word is told by what the threads have: `Counted` says that it is the references, calls,
holds and the judge's flag of all of them, packed. Each atomic operation changes the word as it
changes what its thread has, and that is shown once for each operation, as one thread sees it:
the others are numbers there (`Others`). It holds as long as each count fits into its field.
-/

namespace Voila.Rt.Judge

open Lib

/-! ### What the word counts -/

/-- A word with `r` references, `a` calls, `h` holds, and the flag of `j` judges. -/
def pack (r a h j : Nat) : Nat := r + 2 ^ 32 * a + 2 ^ 52 * h + 2 ^ 62 * j

namespace Pc

/-- The holds, the flag, the call it waits for and the end of the frame of a thread at a place. -/
@[simp] def holds : Pc → Nat
  | .idle | .entering | .releasing _ | .freeing => 0
  | _ => 1

@[simp] def flags : Pc → Nat
  | .unpending _ | .reading _ | .verdict .. | .voiding | .reaping | .lowering => 1
  | _ => 0

@[simp] def waits : Pc → Nat
  | .entering => 1
  | _ => 0

@[simp] def frees : Pc → Nat
  | .freeing => 1
  | _ => 0

end Pc

namespace Thread

variable (th : Thread)

/-- Its calls, and the one that it waits to enter. -/
def callsHeld : Nat := th.calls + th.pc.waits

def refsHeld : Nat := th.refs + th.callsHeld

def holdsHeld : Nat := th.todo + th.pc.holds + th.clearing.toNat

def flagsHeld : Nat := th.pc.flags + th.clearing.toNat

end Thread

/-- What the other threads contribute. -/
structure Others where
  refs : Nat
  calls : Nat
  past : Nat
  holds : Nat
  flags : Nat
  frees : Nat

/-- The counts fit into their fields. -/
structure Fit (o : Others) (sh : Shared) (th : Thread) : Prop where
  refs : sh.own + o.refs + th.refsHeld < 2 ^ 32
  calls : o.calls + th.callsHeld < 2 ^ 20
  holds : sh.deferred + o.holds + th.holdsHeld < 2 ^ 10

/-- The counts of all threads, as one of them sees them. -/
structure Counted (o : Others) (sh : Shared) (th : Thread) : Prop where
  word : sh.word = pack (sh.own + o.refs + th.refsHeld) (o.calls + th.callsHeld)
    (sh.deferred + o.holds + th.holdsHeld) (o.flags + th.flagsHeld)
  one : o.flags + th.flagsHeld ≤ 1
  alone : 0 < o.flags + th.flagsHeld → o.past + th.calls = 0
  freed : sh.freed + o.frees + th.pc.frees ≤ 1
  gone : 0 < sh.freed + o.frees + th.pc.frees →
    sh.own + o.refs + th.refsHeld = 0 ∧ sh.deferred + o.holds + th.holdsHeld = 0

variable {o : Others} {t : Nat} {sh sh' : Shared} {th th' : Thread} {ev : List Event} {n : Nat}
  {b : Bool}

theorem unpack {r a h j : Nat} (hr : r < 2 ^ 32) (ha : a < 2 ^ 20) (hh : h < 2 ^ 10) (hj : j ≤ 1) :
    frameRefs (pack r a h j) = r ∧ frameActs (pack r a h j) = a ∧
      frameJudging (pack r a h j) = decide (j = 1) := by
  unfold frameRefs frameActs frameJudging pack
  refine ⟨by omega, by omega, ?_⟩
  rw [Bool.eq_iff_iff, beq_iff_eq, decide_eq_true_iff]
  omega

theorem Counted.refs (hc : Counted o sh th) (hf : Fit o sh th) :
    frameRefs sh.word = sh.own + o.refs + th.refsHeld := by
  rw [hc.word]
  exact (unpack hf.refs hf.calls hf.holds hc.one).1

theorem Counted.acts (hc : Counted o sh th) (hf : Fit o sh th) :
    frameActs sh.word = o.calls + th.callsHeld := by
  rw [hc.word]
  exact (unpack hf.refs hf.calls hf.holds hc.one).2.1

theorem Counted.judging (hc : Counted o sh th) (hf : Fit o sh th) :
    frameJudging sh.word = decide (o.flags + th.flagsHeld = 1) := by
  rw [hc.word]
  exact (unpack hf.refs hf.calls hf.holds hc.one).2.2

/-! ### The operations -/

/-- Nothing is counted otherwise than before. -/
theorem Counted.same (hc : Counted o sh th) (hw : sh'.word = sh.word) (he : sh'.freed = sh.freed)
    (hr : sh'.own + th'.refsHeld = sh.own + th.refsHeld) (ha : th'.callsHeld = th.callsHeld)
    (hp : th'.calls = th.calls ∨ o.flags + th.flagsHeld = 0)
    (hh : sh'.deferred + th'.holdsHeld = sh.deferred + th.holdsHeld)
    (hj : th'.flagsHeld = th.flagsHeld) (hf : th'.pc.frees = th.pc.frees) :
    Counted o sh' th' := by
  obtain ⟨hword, hone, halone, hfreed, hgone⟩ := hc
  have hr' : sh'.own + o.refs + th'.refsHeld = sh.own + o.refs + th.refsHeld := by omega
  have hh' : sh'.deferred + o.holds + th'.holdsHeld = sh.deferred + o.holds + th.holdsHeld := by
    omega
  refine ⟨?_, ?_, ?_, ?_, ?_⟩
  · rw [hw, hr', ha, hh', hj]
    exact hword
  · rw [hj]
    exact hone
  · rw [hj]
    rcases hp with hp | hp
    · rw [hp]
      exact halone
    · omega
  · rw [he, hf]
    exact hfreed
  · rw [he, hf, hr', hh']
    exact hgone

/-- A thread goes from one place to another that counts for as much. -/
theorem Counted.goto {p : Pc} (hc : Counted o sh th) (hh : p.holds = th.pc.holds)
    (hf : p.flags = th.pc.flags) (hw : p.waits = th.pc.waits) (he : p.frees = th.pc.frees) :
    Counted o sh { th with pc := p } := by
  refine hc.same rfl rfl ?_ ?_ (.inl rfl) ?_ ?_ he
  · exact congrArg (fun k => sh.own + (th.refs + (th.calls + k))) hw
  · exact congrArg (th.calls + ·) hw
  · exact congrArg (fun k => sh.deferred + (th.todo + k + th.clearing.toNat)) hh
  · exact congrArg (· + th.clearing.toNat) hf

/-! The word is added to and taken from, field by field. -/

theorem fetchAdd_pack {r a h j r' a' h' : Nat} (hr : r + r' < 2 ^ 32) (ha : a + a' < 2 ^ 20) (hh : h + h' < 2 ^ 10)
    (hj : j ≤ 1) : fetchAdd (pack r a h j) (pack r' a' h' 0) = pack (r + r') (a + a') (h + h') j := by
  unfold fetchAdd pack
  omega

theorem fetchSub_pack {r a h j r' a' h' : Nat} (hr : r + r' < 2 ^ 32) (ha : a + a' < 2 ^ 20) (hh : h + h' < 2 ^ 10)
    (hj : j ≤ 1) : fetchSub (pack (r + r') (a + a') (h + h') j) (pack r' a' h' 0) = pack r a h j := by
  unfold fetchSub pack
  omega

/-- Where a thread goes on when it has taken from the word. -/
theorem pc_ends (w : Nat) : (if w = 0 then Pc.freeing else .idle) = .idle ∨
    (if w = 0 then Pc.freeing else .idle) = .freeing ∧ w = 0 := by
  by_cases h0 : w = 0
  · rw [if_pos h0]
    exact .inr ⟨rfl, h0⟩
  · rw [if_neg h0]
    exact .inl rfl

theorem Counted.unfreed (hc : Counted o sh th)
    (h : 0 < sh.own + o.refs + th.refsHeld + (sh.deferred + o.holds + th.holdsHeld)) :
    sh.freed + o.frees + th.pc.frees = 0 := by
  have hgone := hc.gone
  omega

/-- A thread has more, of a frame that is not freed. -/
theorem Counted.adds {r a h : Nat} (hc : Counted o sh th) (hf' : Fit o sh' th')
    (hlive : sh.freed + o.frees + th.pc.frees = 0) (hw : sh'.word = fetchAdd sh.word (pack r a h 0))
    (he : sh'.freed = sh.freed ∧ th'.pc.frees = th.pc.frees)
    (hr : sh'.own + th'.refsHeld = sh.own + th.refsHeld + r) (ha : th'.callsHeld = th.callsHeld + a)
    (hh : sh'.deferred + th'.holdsHeld = sh.deferred + th.holdsHeld + h) (hj : th'.flagsHeld = th.flagsHeld)
    (hp : th'.calls = th.calls ∨ o.flags + th.flagsHeld = 0) : Counted o sh' th' := by
  obtain ⟨hword, hone, halone, -, -⟩ := hc
  obtain ⟨hfr, hfa, hfh⟩ := hf'
  have hr' : sh'.own + o.refs + th'.refsHeld = sh.own + o.refs + th.refsHeld + r := by omega
  have ha' : o.calls + th'.callsHeld = o.calls + th.callsHeld + a := by omega
  have hh' : sh'.deferred + o.holds + th'.holdsHeld = sh.deferred + o.holds + th.holdsHeld + h := by omega
  rw [hr'] at hfr
  rw [ha'] at hfa
  rw [hh'] at hfh
  refine ⟨?_, by omega, by omega, by omega, by omega⟩
  rw [hw, hword, fetchAdd_pack hfr hfa hfh hone, hr', ha', hh', hj]

/-- A thread has less, and frees the frame when that was all. -/
theorem Counted.subs {r a h : Nat} (hc : Counted o sh th) (hf : Fit o sh th)
    (hlive : sh.freed + o.frees + th.pc.frees = 0) (hw : sh'.word = fetchSub sh.word (pack r a h 0))
    (he : sh'.freed = sh.freed) (hlast : th'.pc.frees = 0 ∨ th'.pc.frees = 1 ∧ sh'.word = 0)
    (hr : sh'.own + th'.refsHeld + r = sh.own + th.refsHeld) (ha : th'.callsHeld + a = th.callsHeld)
    (hh : sh'.deferred + th'.holdsHeld + h = sh.deferred + th.holdsHeld) (hj : th'.flagsHeld = th.flagsHeld)
    (hp : th'.calls ≤ th.calls) : Counted o sh' th' := by
  obtain ⟨hword, hone, halone, -, -⟩ := hc
  obtain ⟨hfr, hfa, hfh⟩ := hf
  have hr' : sh.own + o.refs + th.refsHeld = sh'.own + o.refs + th'.refsHeld + r := by omega
  have ha' : o.calls + th.callsHeld = o.calls + th'.callsHeld + a := by omega
  have hh' : sh.deferred + o.holds + th.holdsHeld = sh'.deferred + o.holds + th'.holdsHeld + h := by omega
  rw [hr'] at hfr
  rw [ha'] at hfa
  rw [hh'] at hfh
  have hsub : sh'.word = pack (sh'.own + o.refs + th'.refsHeld) (o.calls + th'.callsHeld)
      (sh'.deferred + o.holds + th'.holdsHeld) (o.flags + th'.flagsHeld) := by
    rw [hw, hword, hr', ha', hh', fetchSub_pack hfr hfa hfh hone, hj]
  refine ⟨hsub, by omega, by omega, by omega, fun hfreed => ?_⟩
  have hnone : sh'.word = 0 := by omega
  rw [hsub, pack] at hnone
  omega

section

attribute [local simp] Thread.refsHeld Thread.callsHeld Thread.holdsHeld Thread.flagsHeld

/-- A call enters, and waits for the judge. -/
theorem Counted.enterWaits (hc : Counted o sh th) (hpc : th.pc = .idle) (hin : 0 < th.refs + th.calls)
    (hf' : Fit o { sh with word := fetchAdd sh.word (1 + frameAct) } { th with pc := .entering }) :
    Counted o { sh with word := fetchAdd sh.word (1 + frameAct) } { th with pc := .entering } := by
  refine @adds _ _ _ _ _ 1 1 0 hc hf' (hc.unfreed ?_) rfl ⟨rfl, by simp [hpc]⟩ ?_ ?_ ?_ ?_ (.inl rfl)
  all_goals
    simp [hpc]
    try omega

theorem Counted.enterPasses (hc : Counted o sh th) (hin : 0 < th.refs + th.calls) (hj : o.flags + th.flagsHeld = 0)
    (hf' : Fit o { sh with word := fetchAdd sh.word (1 + frameAct) } { th with calls := th.calls + 1 }) :
    Counted o { sh with word := fetchAdd sh.word (1 + frameAct) } { th with calls := th.calls + 1 } := by
  refine @adds _ _ _ _ _ 1 1 0 hc hf' (hc.unfreed ?_) rfl ⟨rfl, rfl⟩ ?_ ?_ rfl rfl (.inr hj)
  all_goals
    simp
    omega

/-- The judge that a call waited for is done. -/
theorem Counted.passes (hc : Counted o sh th) (hpc : th.pc = .entering) (hj : o.flags + th.flagsHeld = 0) :
    Counted o sh { th with calls := th.calls + 1, pc := .idle } := by
  refine hc.same rfl rfl ?_ ?_ (.inr hj) ?_ ?_ ?_ <;> simp [hpc]

theorem Counted.retain (hc : Counted o sh th) (hin : 0 < th.refs + th.calls)
    (hf' : Fit o { sh with word := fetchAdd sh.word 1 } { th with refs := th.refs + 1 }) :
    Counted o { sh with word := fetchAdd sh.word 1 } { th with refs := th.refs + 1 } := by
  refine @adds _ _ _ _ _ 1 0 0 hc hf' (hc.unfreed ?_) rfl ⟨rfl, rfl⟩ ?_ rfl rfl rfl (.inl rfl)
  all_goals
    simp
    omega

theorem Counted.drop (hc : Counted o sh th) (hpc : th.pc = .idle) (hin : 0 < th.refs)
    (hf' : Fit o { sh with word := fetchAdd sh.word frameHold } { th with pc := .dropping }) :
    Counted o { sh with word := fetchAdd sh.word frameHold } { th with pc := .dropping } := by
  refine @adds _ _ _ _ _ 0 0 1 hc hf' (hc.unfreed ?_) rfl ⟨rfl, by simp [hpc]⟩ ?_ ?_ ?_ ?_ (.inl rfl)
  all_goals
    simp [hpc]
    try omega

variable {p : Pc} {c : Nat}

/-- A reference of a thread goes, and with the last one the frame. -/
theorem Counted.release (hc : Counted o sh th) (hf : Fit o sh th) (hpc : th.pc = .releasing c)
    (hin : 0 < th.refs) (hp : p = .idle ∨ p = .freeing ∧ fetchSub sh.word 1 = 0) :
    Counted o { sh with word := fetchSub sh.word 1 } { th with refs := th.refs - 1, pc := p } := by
  refine @subs _ _ _ _ _ 1 0 0 hc hf (hc.unfreed ?_) rfl rfl (hp.imp (congrArg Pc.frees) fun h => ⟨congrArg Pc.frees h.1, h.2⟩) ?_ ?_ ?_ ?_
    (Nat.le_refl _)
  all_goals
    obtain rfl | ⟨rfl, -⟩ := hp <;> simp [hpc] <;> omega

/-- The reference of a thread becomes a hold. -/
theorem Counted.releaseJudged (hc : Counted o sh th) (hf : Fit o sh th) (hpc : th.pc = .releasing c)
    (hin : 0 < th.refs) (hf' : Fit o { sh with word := fetchAdd (fetchSub sh.word 1) frameHold }
      { th with refs := th.refs - 1, pc := .judging }) :
    Counted o { sh with word := fetchAdd (fetchSub sh.word 1) frameHold }
      { th with refs := th.refs - 1, pc := .judging } := by
  have hlive := hc.unfreed (by simp; omega)
  rw [hpc] at hlive
  have hless := hc.release hf hpc hin (.inl rfl)
  refine @adds _ _ _ _ _ 0 0 1 hless hf' hlive rfl ⟨rfl, rfl⟩ rfl rfl ?_ rfl (.inl rfl)
  simp
  omega

theorem Counted.exit (hc : Counted o sh th) (hf : Fit o sh th) (hpc : th.pc = .idle) (hin : 0 < th.calls)
    (hp : p = .idle ∨ p = .freeing ∧ fetchSub sh.word (1 + frameAct) = 0) :
    Counted o { sh with word := fetchSub sh.word (1 + frameAct) } { th with calls := th.calls - 1, pc := p } := by
  refine @subs _ _ _ _ _ 1 1 0 hc hf (hc.unfreed ?_) rfl rfl (hp.imp (congrArg Pc.frees) fun h => ⟨congrArg Pc.frees h.1, h.2⟩) ?_ ?_ ?_ ?_
    (Nat.sub_le ..)
  all_goals
    obtain rfl | ⟨rfl, -⟩ := hp <;> simp [hpc] <;> omega

theorem Counted.unhold (hc : Counted o sh th) (hf : Fit o sh th) (hpc : th.pc = .unholding)
    (hp : p = .idle ∨ p = .freeing ∧ fetchSub sh.word frameHold = 0) :
    Counted o { sh with word := fetchSub sh.word frameHold } { th with pc := p } := by
  refine @subs _ _ _ _ _ 0 0 1 hc hf (hc.unfreed ?_) rfl rfl (hp.imp (congrArg Pc.frees) fun h => ⟨congrArg Pc.frees h.1, h.2⟩) ?_ ?_ ?_ ?_
    (Nat.le_refl _)
  all_goals
    obtain rfl | ⟨rfl, -⟩ := hp <;> simp [hpc] <;> omega

/-- A judge raises the flag, when there are no calls and no judge. -/
theorem Counted.raise (hc : Counted o sh th) {c : Nat} (hpc : th.pc = .raising c) (hj : o.flags + th.flagsHeld = 0)
    (hp : o.past + th.calls = 0) :
    Counted o { sh with word := sh.word + 2 ^ 62 } { th with pc := .unpending c } := by
  obtain ⟨hword, hone, halone, hfreed, hgone⟩ := hc
  simp only [Thread.refsHeld, Thread.callsHeld, Thread.holdsHeld, Thread.flagsHeld, hpc, Pc.holds, Pc.flags, Pc.waits,
    Pc.frees, pack] at hword hone halone hfreed hgone hj
  constructor
  all_goals
    simp only [Thread.refsHeld, Thread.callsHeld, Thread.holdsHeld, Thread.flagsHeld, Pc.holds, Pc.flags, Pc.waits,
      Pc.frees, pack]
    omega

/-- A judge lowers the flag. -/
theorem Counted.lower (hc : Counted o sh th)
    (hpc : th.pc.holds = 1 ∧ th.pc.flags = 1 ∧ th.pc.waits = 0 ∧ th.pc.frees = 0)
    (hp : p.holds = 1 ∧ p.flags = 0 ∧ p.waits = 0 ∧ p.frees = 0) :
    Counted o { sh with word := sh.word - 2 ^ 62 } { th with pc := p } := by
  obtain ⟨hword, hone, halone, hfreed, hgone⟩ := hc
  obtain ⟨hh, hf, hw, he⟩ := hpc
  obtain ⟨hh', hf', hw', he'⟩ := hp
  simp only [Thread.refsHeld, Thread.callsHeld, Thread.holdsHeld, Thread.flagsHeld, hh, hf, hw, he,
    pack] at hword hone halone hfreed hgone
  constructor
  all_goals
    simp only [Thread.refsHeld, Thread.callsHeld, Thread.holdsHeld, Thread.flagsHeld, hh', hf', hw',
      he', pack]
    omega

theorem Counted.free (hc : Counted o sh th) (hpc : th.pc = .freeing) :
    Counted o { sh with freed := sh.freed + 1 } { th with pc := .idle } := by
  obtain ⟨hword, hone, halone, hfreed, hgone⟩ := hc
  simp only [Thread.refsHeld, Thread.callsHeld, Thread.holdsHeld, Thread.flagsHeld, hpc, Pc.holds, Pc.flags, Pc.waits,
    Pc.frees] at hword hone halone hfreed hgone
  refine ⟨hword, hone, halone, ?_, fun _ => hgone ?_⟩
  · simp only [Pc.frees]
    omega
  · omega

/-! ### One thread -/

namespace Thread

variable (th : Thread)

/-- It is in `self_cycle_only`, before the result of its judgement, or has that to do. -/
def judges : Bool :=
  th.clearing || decide (0 < th.todo) ||
    match th.pc with
    | .idle | .entering | .releasing _ | .dropping | .again | .unholding | .freeing => false
    | _ => true

/-- It has found the frame to be garbage. -/
def reaps : Bool := th.clearing || decide (th.pc = .reaping) || decide (th.pc = .lowering)

/-- What a thread knows at a place, when `own` references are the frame's own. While it drops the
registers of the frame it does nothing but release what they held. -/
def Knows (own : Nat) (th : Thread) : Prop :=
  match th.pc with
  | .idle | .judging | .unholding | .freeing => True
  | .releasing _ => 0 < th.refs
  | .raising c => frameJudging c = false ∧ th.clearing = false ∧ frameActs c = 0
  | .unpending c | .reading c => frameJudging c = false ∧ th.clearing = false
  | .verdict c garbage => frameJudging c = false ∧ th.clearing = false ∧
      (garbage = true → frameRefs c ≤ own)
  | _ => th.clearing = false

end Thread

attribute [local simp] Thread.reaps Thread.judges

/-- The invariant, as thread `t` sees it. -/
structure Good (o : Others) (t : Nat) (sh : Shared) (th : Thread) : Prop where
  counted : Counted o sh th
  reaper : th.clearing = true ↔ sh.reaper = some t
  knows : th.Knows sh.own
  reaps : th.reaps = true → o.refs = 0

/-- What a step of thread `t` does to the others. -/
structure Aside (o : Others) (t : Nat) (sh : Shared) (th : Thread) (ev : List Event) (sh' : Shared)
    (th' : Thread) : Prop where
  own : sh.own ≤ sh'.own ∨ o.flags = 0
  reaper : ∀ u, u ≠ t → (sh'.reaper = some u ↔ sh.reaper = some u)
  refs : th.refsHeld = 0 → th.clearing = false → th'.refsHeld = 0
  dropped : .dropped t ∈ ev → th'.judges = true
  judged : th.judges = true → th'.judges = true ∨ .judged t ∈ ev ∨ .reaped t ∈ ev ∨
    0 < sh'.deferred ∨ 0 < o.flags
  deferred : 0 < sh.deferred → 0 < sh'.deferred ∨ th'.judges = true

/-- The step changes nothing that the others see, and does not end a judgement. -/
theorem Aside.quiet (ho : sh'.own = sh.own) (hr : sh'.reaper = sh.reaper)
    (hd : sh'.deferred = sh.deferred)
    (hh : th.refsHeld = 0 → th'.refsHeld = 0)
    (hj : th.judges = true → th'.judges = true) : Aside o t sh th [] sh' th' where
  own := .inl (Nat.le_of_eq ho.symm)
  reaper u _ := by rw [hr]
  refs h _ := hh h
  dropped := nofun
  judged h := .inl (hj h)
  deferred h := .inl (hd ▸ h)

/-- A thread that has the flag up finds it there. -/
theorem Counted.lowered (hc : Counted o sh th) (hf : Fit o sh th) (hpc : th.pc.flags = 1) :
    lowered sh.word = sh.word - 2 ^ 62 := by
  have hone := hc.one
  have hj : frameJudging sh.word = true := by
    rw [hc.judging hf, decide_eq_true_iff]
    rw [Thread.flagsHeld, hpc] at hone ⊢
    omega
  rw [Judge.lowered, if_pos hj]

/-- A thread goes from one place to another that counts for as much. -/
theorem Good.goto (hg : Good o t sh th) (pending : Bool)
    (hp : p.holds = th.pc.holds ∧ p.flags = th.pc.flags ∧ p.waits = th.pc.waits ∧ p.frees = th.pc.frees)
    (hk : { th with pc := p }.Knows sh.own) (hr : p ≠ .reaping ∧ p ≠ .lowering) :
    Good o t { sh with pending := pending } { th with pc := p } where
  counted := (hg.counted.goto hp.1 hp.2.1 hp.2.2.1 hp.2.2.2).same rfl rfl rfl rfl (.inl rfl) rfl rfl rfl
  reaper := hg.reaper
  knows := hk
  reaps h := hg.reaps (by
    simp [hr] at h
    simp [h])

/-- The others see nothing of it. -/
theorem Good.steps (hg : Good o t sh th) (pending : Bool)
    (hp : p.holds = th.pc.holds ∧ p.flags = th.pc.flags ∧ p.waits = th.pc.waits ∧ p.frees = th.pc.frees)
    (hk : { th with pc := p }.Knows sh.own) (hr : p ≠ .reaping ∧ p ≠ .lowering)
    (hj : th.judges = true → { th with pc := p }.judges = true) :
    Good o t { sh with pending := pending } { th with pc := p } ∧
      Aside o t sh th [] { sh with pending := pending } { th with pc := p } := by
  refine ⟨hg.goto pending hp hk hr, .quiet rfl rfl rfl ?_ hj⟩
  intro h
  have hp' := congrArg (fun k => th.refs + (th.calls + k)) hp.2.2.1
  exact hp'.trans h

theorem goes_keeps (h : goes t sh th n b th.pc = some (ev, sh', th')) (hg : Good o t sh th)
    (hf : Fit o sh th) (hf' : Fit o sh' th') (hpast : o.past ≤ o.calls)
    (hother : ∀ u, sh.reaper = some u → u ≠ t → 0 < o.flags) :
    Good o t sh' th' ∧ Aside o t sh th ev sh' th' := by
  obtain ⟨hc, hreaper, hknows, hreaps⟩ := id hg
  have hone := hc.one
  cases hpc : th.pc with
  | idle =>
    rw [hpc] at h
    cases h
  | entering =>
    simp only [hpc, goes] at h
    split at h
    · cases h
      exact ⟨hg, .quiet rfl rfl rfl id id⟩
    next hj =>
      cases h
      rw [hc.judging hf, decide_eq_true_iff] at hj
      refine ⟨⟨hc.passes hpc (by omega), hreaper, trivial, ?_⟩, .quiet rfl rfl rfl ?_ ?_⟩
      · simpa [hpc] using hreaps
      · simp [hpc]
      · simp [hpc]
  | releasing c =>
    simp only [hpc, goes] at h
    have hin : 0 < th.refs := by simpa [Thread.Knows, hpc] using hknows
    split at h
    next hw =>
      obtain rfl := hw.2
      split at h
      next hmany =>
        simp only [Option.some.injEq, Prod.mk.injEq] at h
        obtain ⟨rfl, rfl, rfl⟩ := h
        refine ⟨⟨hc.releaseJudged hf hpc hin hf', hreaper, trivial, ?_⟩,
          ⟨.inl (Nat.le_refl _), fun _ _ => .rfl, ?_, fun _ => ?_, fun _ => ?_, .inl⟩⟩
        · simpa [hpc] using hreaps
        · intro hnone
          simp at hnone
          omega
        · simp
        · simp
      next hlast =>
        simp only [Option.some.injEq, Prod.mk.injEq] at h
        obtain ⟨rfl, rfl, rfl⟩ := h
        have hp := pc_ends (fetchSub sh.word 1)
        generalize (if fetchSub sh.word 1 = 0 then Pc.freeing else .idle) = p at hp
        refine ⟨⟨hc.release hf hpc hin hp, hreaper, ?_, ?_⟩, .quiet rfl rfl rfl ?_ ?_⟩
        · obtain rfl | ⟨rfl, -⟩ := hp <;> exact True.intro
        · obtain rfl | ⟨rfl, -⟩ := hp <;> simpa [hpc] using hreaps
        · obtain rfl | ⟨rfl, -⟩ := hp <;> simp <;> omega
        · obtain rfl | ⟨rfl, -⟩ := hp <;> simp [hpc]
    · cases h
      exact hg.steps sh.pending (hpc ▸ ⟨rfl, rfl, rfl, rfl⟩) hin ⟨nofun, nofun⟩ (by simp [hpc])
  | dropping =>
    have hk : th.clearing = false := by simpa [Thread.Knows, hpc] using hknows
    simp only [hpc, goes] at h
    split at h
    next hlast =>
      cases h
      refine ⟨⟨hc.same rfl rfl ?_ ?_ (.inl rfl) ?_ ?_ ?_, hreaper, trivial, ?_⟩,
        ⟨.inl (Nat.le_succ _), fun _ _ => .rfl, ?_, nofun, fun _ => .inl ?_, .inl⟩⟩
      · simp [hpc]
        omega
      · simp [hpc]
      · simp [hpc]
      · simp [hpc]
      · simp [hpc]
      · simp [hk]
      · simp
        omega
      · simp
    · cases h
      refine hg.steps sh.pending ?_ ?_ ?_ ?_ <;> cases b <;> first | trivial | simp [hpc]
  | judging =>
    simp only [hpc, goes] at h
    cases h
    split
    next hme =>
      have hcl := hreaper.mpr hme
      exact hg.steps sh.pending (hpc ▸ ⟨rfl, rfl, rfl, rfl⟩) trivial ⟨nofun, nofun⟩ (by simp [hcl])
    next hme =>
      have hcl : th.clearing = false := Bool.eq_false_iff.mpr fun h => hme (hreaper.mp h)
      exact hg.steps sh.pending (hpc ▸ ⟨rfl, rfl, rfl, rfl⟩) hcl ⟨nofun, nofun⟩ (by simp)
  | deferCheck =>
    have hk : th.clearing = false := by simpa [Thread.Knows, hpc] using hknows
    simp only [hpc, goes] at h
    cases h
    split <;> exact hg.steps sh.pending (hpc ▸ ⟨rfl, rfl, rfl, rfl⟩) hk ⟨nofun, nofun⟩ (by simp)
  | deferring =>
    have hk : th.clearing = false := by simpa [Thread.Knows, hpc] using hknows
    simp only [hpc, goes] at h
    cases h
    refine ⟨⟨hc.same rfl rfl ?_ ?_ (.inl rfl) ?_ ?_ ?_, hreaper, trivial, ?_⟩,
      ⟨.inl (Nat.le_refl _), fun _ _ => .rfl, ?_, nofun, ?_, fun h => .inl (Nat.succ_pos _)⟩⟩
    · simp [hpc]
    · simp [hpc]
    · simp [hpc]
      omega
    · simp [hpc]
    · simp [hpc]
    · simp [hk]
    · intro h _
      simpa [hpc] using h
    · exact fun _ => .inr (.inr (.inr (.inl (Nat.succ_pos _))))
  | loading =>
    have hk : th.clearing = false := by simpa [Thread.Knows, hpc] using hknows
    simp only [hpc, goes] at h
    cases h
    refine hg.steps sh.pending ?_ ?_ ?_ ?_
    · split <;> [skip; split] <;> simp [hpc]
    · split <;> [exact hk; skip]
      next hacts =>
        split
        · exact hk
        next hj => exact ⟨Bool.eq_false_iff.mpr hj, hk, not_not.mp hacts⟩
    · split <;> [skip; split] <;> exact ⟨nofun, nofun⟩
    · split <;> [skip; split] <;> simp
  | pending =>
    have hk : th.clearing = false := by simpa [Thread.Knows, hpc] using hknows
    simp only [hpc, goes] at h
    cases h
    exact hg.steps true (hpc ▸ ⟨rfl, rfl, rfl, rfl⟩) hk ⟨nofun, nofun⟩ (by simp)
  | recheck =>
    have hk : th.clearing = false := by simpa [Thread.Knows, hpc] using hknows
    simp only [hpc, goes] at h
    cases h
    split
    next hj =>
      -- the flag is up, and it is not this thread's
      have hflags : 0 < o.flags := by
        rw [hc.judging hf, decide_eq_true_iff, Thread.flagsHeld, hpc, hk] at hj
        simp [Pc.flags] at hj
        omega
      refine ⟨hg.goto sh.pending (hpc ▸ ⟨rfl, rfl, rfl, rfl⟩) trivial ⟨nofun, nofun⟩,
        ⟨.inl (Nat.le_refl _), fun _ _ => .rfl, ?_, nofun,
          fun _ => .inr (.inr (.inr (.inr hflags))), .inl⟩⟩
      intro h _
      simpa [hpc] using h
    next =>
      exact hg.steps sh.pending (hpc ▸ ⟨rfl, rfl, rfl, rfl⟩) hk ⟨nofun, nofun⟩ (by simp)
  | raising c =>
    have hk : frameJudging c = false ∧ th.clearing = false ∧ frameActs c = 0 := by
      simpa [Thread.Knows, hpc] using hknows
    simp only [hpc, goes] at h
    split at h
    next hw =>
      cases h
      have hacts := hc.acts hf
      have hjudging := hc.judging hf
      rw [hw, hk.2.2, Thread.callsHeld] at hacts
      rw [hw, hk.1, eq_comm, decide_eq_false_iff_not] at hjudging
      have hraise := hc.raise hpc (by omega) (by omega)
      have hword : raised c = sh.word + 2 ^ 62 := by
        rw [hw, raised, if_neg (Bool.eq_false_iff.mp hk.1)]
      rw [hword]
      refine ⟨⟨hraise, hreaper, ⟨hk.1, hk.2.1⟩, ?_⟩, .quiet rfl rfl rfl ?_ ?_⟩
      · simp [hk.2.1]
      · simp [hpc]
      · simp
    · cases h
      exact hg.steps sh.pending (hpc ▸ ⟨rfl, rfl, rfl, rfl⟩) hk.2.1 ⟨nofun, nofun⟩ (by simp)
  | unpending c =>
    have hk : frameJudging c = false ∧ th.clearing = false := by
      simpa [Thread.Knows, hpc] using hknows
    simp only [hpc, goes] at h
    cases h
    exact hg.steps false (hpc ▸ ⟨rfl, rfl, rfl, rfl⟩) hk ⟨nofun, nofun⟩ (by simp)
  | reading c =>
    have hk : frameJudging c = false ∧ th.clearing = false := by
      simpa [Thread.Knows, hpc] using hknows
    simp only [hpc, goes] at h
    split at h
    next hn =>
      cases h
      refine hg.steps sh.pending (hpc ▸ ⟨rfl, rfl, rfl, rfl⟩) ⟨hk.1, hk.2, fun hgar => ?_⟩ ⟨nofun, nofun⟩ (by simp)
      exact (of_decide_eq_true hgar).2 ▸ hn
    · cases h
  | verdict c garbage =>
    have hk : frameJudging c = false ∧ th.clearing = false ∧
        (garbage = true → frameRefs c ≤ sh.own) := by
      simpa [Thread.Knows, hpc] using hknows
    have hraised : raised c = c + 2 ^ 62 := by
      unfold raised
      rw [if_neg (Bool.eq_false_iff.mp hk.1)]
    simp only [hpc, goes] at h
    split at h
    next hw =>
      split at h
      next hgar =>
        cases h
        have hrefs := hc.refs hf
        have hown := hk.2.2 hgar
        -- the flag is not among the references
        have hsame : frameRefs (raised c) = frameRefs c := by
          rw [hraised, frameRefs, frameRefs]
          omega
        rw [hw, hsame] at hrefs
        refine ⟨⟨hc.goto ?_ ?_ ?_ ?_, hreaper, hk.2.1, fun _ => by omega⟩,
          ⟨.inl (Nat.le_refl _), fun _ _ => .rfl, ?_, nofun,
            fun _ => .inr (.inl (List.mem_singleton_self _)), .inl⟩⟩
        · simp [Pc.holds, hpc]
        · simp [Pc.flags, hpc]
        · simp [Pc.waits, hpc]
        · simp [hpc]
        · intro h _
          simpa [hpc] using h
      next =>
        cases h
        have hword : sh.word - 2 ^ 62 = c := by omega
        have hlower := hc.lower (p := .again) (hpc ▸ ⟨rfl, rfl, rfl, rfl⟩) ⟨rfl, rfl, rfl, rfl⟩
        rw [hword] at hlower
        refine ⟨⟨hlower, hreaper, hk.2.1, ?_⟩, ⟨.inl (Nat.le_refl _), fun _ _ => .rfl, ?_, nofun,
          fun _ => .inr (.inl (List.mem_singleton_self _)), .inl⟩⟩
        · simp [hk.2.1]
        · intro h _
          simpa [hpc] using h
    · cases h
      exact hg.steps sh.pending (hpc ▸ ⟨rfl, rfl, rfl, rfl⟩) hk.2.1 ⟨nofun, nofun⟩ (by simp)
  | voiding =>
    have hk : th.clearing = false := by simpa [Thread.Knows, hpc] using hknows
    simp only [hpc, goes] at h
    cases h
    rw [hc.lowered hf (hpc ▸ rfl)]
    refine ⟨⟨hc.lower (hpc ▸ ⟨rfl, rfl, rfl, rfl⟩) ⟨rfl, rfl, rfl, rfl⟩, hreaper, hk, ?_⟩,
      .quiet rfl rfl rfl ?_ ?_⟩
    · simp [hk]
    · simp [hpc]
    · simp
  | reaping =>
    have hk : th.clearing = false := by simpa [Thread.Knows, hpc] using hknows
    simp only [hpc, goes] at h
    cases h
    have hnone : o.flags = 0 := by
      rw [Thread.flagsHeld, hpc] at hone
      simp [Pc.flags] at hone
      omega
    refine ⟨⟨hc.same rfl rfl ?_ ?_ (.inl rfl) ?_ ?_ ?_, by simp, trivial, ?_⟩,
      ⟨.inl (Nat.le_refl _), fun u hu => ?_, ?_, nofun, fun _ => .inl ?_, .inl⟩⟩
    · simp [hpc]
    · simp [hpc]
    · simp [hpc, hk]
    · simp [hpc, hk]
    · simp [hpc]
    · exact fun _ => hreaps (by simp [hpc])
    · refine ⟨fun heq => absurd (Option.some.inj heq).symm hu, fun heq => ?_⟩
      exact absurd (hother u heq hu) (by omega)
    · intro h _
      simpa [hpc] using h
    · simp
  | lowering =>
    have hk : th.clearing = false := by simpa [Thread.Knows, hpc] using hknows
    simp only [hpc, goes] at h
    cases h
    rw [hc.lowered hf (hpc ▸ rfl)]
    refine ⟨⟨hc.lower (hpc ▸ ⟨rfl, rfl, rfl, rfl⟩) ⟨rfl, rfl, rfl, rfl⟩, hreaper, trivial, ?_⟩,
      ⟨.inl (Nat.le_refl _), fun _ _ => .rfl, ?_, nofun,
        fun _ => .inr (.inr (.inl (List.mem_singleton_self _))), .inl⟩⟩
    · simp [hk]
    · intro h _
      simpa [hpc] using h
  | again =>
    have hk : th.clearing = false := by simpa [Thread.Knows, hpc] using hknows
    simp only [hpc, goes] at h
    cases h
    split
    · exact hg.steps false (hpc ▸ ⟨rfl, rfl, rfl, rfl⟩) hk ⟨nofun, nofun⟩ (by simp)
    · exact hg.steps false (hpc ▸ ⟨rfl, rfl, rfl, rfl⟩) trivial ⟨nofun, nofun⟩ (by simp [hpc])
  | unholding =>
    simp only [hpc, goes, Option.some.injEq, Prod.mk.injEq] at h
    obtain ⟨rfl, rfl, rfl⟩ := h
    have hp := pc_ends (fetchSub sh.word frameHold)
    generalize (if fetchSub sh.word frameHold = 0 then Pc.freeing else .idle) = p at hp
    refine ⟨⟨hc.unhold hf hpc hp, hreaper, ?_, ?_⟩, .quiet rfl rfl rfl ?_ ?_⟩
    · obtain rfl | ⟨rfl, -⟩ := hp <;> exact True.intro
    · obtain rfl | ⟨rfl, -⟩ := hp <;> simpa [hpc] using hreaps
    · obtain rfl | ⟨rfl, -⟩ := hp <;> simp [hpc]
    · obtain rfl | ⟨rfl, -⟩ := hp <;> simp [hpc]
  | freeing =>
    simp only [hpc, goes] at h
    cases h
    refine ⟨⟨hc.free hpc, hreaper, trivial, ?_⟩, .quiet rfl rfl rfl ?_ ?_⟩
    · simpa [hpc] using hreaps
    · simp [hpc]
    · simp [hpc]

theorem begins_keeps {a : Act} (h : a.begins t sh th = some (sh', th')) (hpc : th.pc = .idle)
    (hg : Good o t sh th) (hf : Fit o sh th) (hf' : Fit o sh' th') :
    Good o t sh' th' ∧ Aside o t sh th [] sh' th' := by
  obtain ⟨hc, hreaper, -, hreaps⟩ := id hg
  have hone := hc.one
  cases a with
  | enter =>
    simp only [Act.begins] at h
    split at h
    next hin =>
      split at h
      · simp only [Option.some.injEq, Prod.mk.injEq] at h
        obtain ⟨rfl, rfl⟩ := h
        refine ⟨⟨hc.enterWaits hpc hin.2 hf', hreaper, hin.1, ?_⟩, .quiet rfl rfl rfl ?_ ?_⟩
        · simp [hin.1]
        · simp
          omega
        · simp [hpc]
      next hj =>
        simp only [Option.some.injEq, Prod.mk.injEq] at h
        obtain ⟨rfl, rfl⟩ := h
        -- it is not the reaper itself
        have hflag : frameJudging sh.word = false := by
          refine Bool.eq_false_iff.mpr fun hflag => hj ⟨hflag, fun hme => ?_⟩
          exact Bool.false_ne_true (hin.1.symm.trans (hreaper.mpr hme))
        rw [hc.judging hf, decide_eq_false_iff_not] at hflag
        refine ⟨⟨hc.enterPasses hin.2 (by omega) hf', hreaper, ?_, ?_⟩,
          .quiet rfl rfl rfl ?_ ?_⟩
        · simp [Thread.Knows, hpc]
        · simp [hin.1, hpc]
        · simp
          omega
        · simp [hpc]
    · cases h
  | exit =>
    simp only [Act.begins] at h
    split at h
    next hin =>
      simp only [Option.some.injEq, Prod.mk.injEq] at h
      obtain ⟨rfl, rfl⟩ := h
      refine ⟨⟨hc.exit hf hpc hin.2 ?_, hreaper, ?_, ?_⟩, .quiet rfl rfl rfl ?_ ?_⟩
      · split
        next h0 => exact .inr ⟨rfl, by rw [h0]; rfl⟩
        next => exact .inl rfl
      · split <;> exact True.intro
      · split <;> simp [hin.1]
      · simp
        omega
      · split <;> simp [hpc]
    · cases h
  | release =>
    simp only [Act.begins] at h
    split at h
    next hin =>
      cases h
      exact hg.steps sh.pending (hpc ▸ ⟨rfl, rfl, rfl, rfl⟩) hin ⟨nofun, nofun⟩ (by simp [hpc])
    · cases h
  | drop =>
    simp only [Act.begins] at h
    split at h
    next hin =>
      simp only [Option.some.injEq, Prod.mk.injEq] at h
      obtain ⟨rfl, rfl⟩ := h
      refine ⟨⟨hc.drop hpc hin.2 hf', hreaper, hin.1, ?_⟩, .quiet rfl rfl rfl ?_ ?_⟩
      · simp [hin.1]
      · simp [hpc]
      · simp [hpc]
    · cases h
  | retain =>
    simp only [Act.begins] at h
    split at h
    next hin =>
      cases h
      refine ⟨⟨hc.retain hin.2 hf', hreaper, ?_, ?_⟩, .quiet rfl rfl rfl ?_ ?_⟩
      · simp [Thread.Knows, hpc]
      · simp [hin.1, hpc]
      · simp
        omega
      · simp [hpc]
    · cases h
  | put =>
    simp only [Act.begins] at h
    split at h
    next hin =>
      cases h
      refine ⟨⟨hc.same rfl rfl ?_ rfl (.inl rfl) rfl rfl rfl, hreaper, ?_, hreaps⟩,
        ⟨.inl (Nat.le_succ _), fun _ _ => .rfl, ?_, nofun, .inl, .inl⟩⟩
      · simp
        omega
      · simp [Thread.Knows, hpc]
      · simp
        omega
    · cases h
  | take =>
    simp only [Act.begins] at h
    split at h
    next hin =>
      cases h
      have halone := hc.alone
      refine ⟨⟨hc.same rfl rfl ?_ rfl (.inl rfl) rfl rfl rfl, hreaper, ?_, hreaps⟩,
        ⟨.inr (by omega), fun _ _ => .rfl, ?_, nofun, .inl, .inl⟩⟩
      · simp
        omega
      · simp [Thread.Knows, hpc]
      · simp
        omega
    · cases h
  | judgeDeferred =>
    simp only [Act.begins] at h
    split at h
    next hin =>
      cases h
      refine ⟨⟨hc.same rfl rfl rfl rfl (.inl rfl) ?_ rfl rfl, hreaper, ?_, ?_⟩,
        ⟨.inl (Nat.le_refl _), fun _ _ => .rfl, ?_, nofun, ?_, ?_⟩⟩
      · simp [Thread.holdsHeld, hin.2]
        omega
      · simp [Thread.Knows, hpc]
      · simp [hin.1, hpc]
      · intro h _
        simpa [Thread.refsHeld, Thread.callsHeld] using h
      · simp [hin, hpc]
      · intro h
        simp [h]
    · cases h
  | judgeNext =>
    simp only [Act.begins] at h
    split at h
    next hin =>
      cases h
      refine ⟨⟨hc.same rfl rfl ?_ ?_ (.inl rfl) ?_ ?_ ?_, hreaper, trivial, ?_⟩, .quiet rfl rfl rfl ?_ ?_⟩
      · simp [hpc]
      · simp [hpc]
      · simp [hpc]
        omega
      · simp [hpc]
      · simp [hpc]
      · simp [hin.1]
      · simp [hpc]
      · simp
    · cases h
  | clear n =>
    simp only [Act.begins] at h
    split at h
    next hin =>
      cases h
      have hnone : o.flags = 0 := by
        rw [Thread.flagsHeld, hin.1] at hone
        simp at hone
        omega
      refine ⟨⟨hc.same rfl rfl ?_ rfl (.inl rfl) rfl rfl rfl, hreaper, ?_, hreaps⟩,
        ⟨.inr hnone, fun _ _ => .rfl, fun _ hcl => ?_, nofun, .inl, .inl⟩⟩
      · simp
        omega
      · simp [Thread.Knows, hpc]
      · exact absurd (hcl.symm.trans hin.1) Bool.false_ne_true
    · cases h
  | cleared =>
    simp only [Act.begins] at h
    split at h
    next hin =>
      cases h
      refine ⟨⟨hc.same rfl rfl ?_ ?_ (.inl rfl) ?_ ?_ ?_, by simp, rfl, ?_⟩,
        ⟨.inl (Nat.le_refl _), fun u hu => ?_, ?_, nofun, ?_, .inl⟩⟩
      · simp [hpc]
      · simp [hpc]
      · simp [hpc, hin]
      · simp [hpc, hin]
      · simp [hpc]
      · exact fun _ => hreaps (by simp [hin])
      · refine ⟨nofun, fun heq => absurd ?_ hu⟩
        exact Option.some.inj (heq.symm.trans (hreaper.mp hin))
      · intro h _
        simpa [hpc] using h
      · simp
    · cases h
  | go n b => cases h

end

theorem run_keeps {a : Act} (h : a.run t sh th = some (ev, sh', th')) (hg : Good o t sh th)
    (hf : Fit o sh th) (hf' : Fit o sh' th') (hpast : o.past ≤ o.calls)
    (hother : ∀ u, sh.reaper = some u → u ≠ t → 0 < o.flags) :
    Good o t sh' th' ∧ Aside o t sh th ev sh' th' := by
  unfold Act.run at h
  split at h
  · exact goes_keeps h hg hf hf' hpast hother
  · split at h
    next hpc =>
      obtain ⟨⟨sh₁, th₁⟩, hb, heq⟩ := Option.map_eq_some_iff.mp h
      cases heq
      exact begins_keeps hb hpc hg hf hf'
    · cases h

end Voila.Rt.Judge
