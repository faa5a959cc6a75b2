import Voila.Low.Kill
import Voila.Ir.Cfg

/-!
# Voila.Low.KillLive

The liveness analysis is sound: from behind a `KILL r` it places, no path reads `r` before
overwriting it (`killLive_sound`).

`live` is closed under the predecessors the pass builds from the text. A select is where
the text and the code differ: its cases are buffered, and the `SELEND` reads and jumps
for them. So a point also counts as live behind a live case of a select (`LiveAt`).
-/

namespace Voila.Low

open Ir Lib List

/-- What lowering promises about the code the pass reads as text. -/
structure Lowered (f : Func) : Prop where
  spelled : WellSpelled f
  /-- A destination is spelled as `new_reg` spells registers. -/
  dest : ∀ b ∈ f.bodies, pureDef b.op = true → ∀ n ∈ regExact (b.arg 0), b.arg 0 = newReg n
  /-- A label stands once. -/
  labels : (f.instrs.flatMap Instr.labels).Nodup
  /-- The cases of a select and its `SELEND` follow each other, with no label between. -/
  select : ∀ k < f.bodies.length, ∀ b ∈ f.bodies[k]?, b.op.isCase = true →
    labelsAt f (k + 1) = [] ∧ ∃ c ∈ f.bodies[k + 1]?, c.op.isCase = true ∨ c.op = .selend
  /-- The registers a pattern binds are listed in its instruction's arguments. -/
  binds : ∀ b ∈ f.bodies, ∀ s ∈ (b.pat.map Pat.regs).getD [], ∀ r ∈ regSlot s, r ∈ tokens b

instance (f : Func) : Decidable (Lowered f) :=
  decidable_of_iff
    (WellSpelled f ∧
      (∀ b ∈ f.bodies, pureDef b.op = true → ∀ n ∈ regExact (b.arg 0), b.arg 0 = newReg n) ∧
      (f.instrs.flatMap Instr.labels).Nodup ∧
      (∀ k < f.bodies.length, ∀ b ∈ f.bodies[k]?, b.op.isCase = true →
        labelsAt f (k + 1) = [] ∧ ∃ c ∈ f.bodies[k + 1]?, c.op.isCase = true ∨ c.op = .selend) ∧
      ∀ b ∈ f.bodies, ∀ s ∈ (b.pat.map Pat.regs).getD [], ∀ r ∈ regSlot s, r ∈ tokens b)
    ⟨fun h => ⟨h.1, h.2.1, h.2.2.1, h.2.2.2.1, h.2.2.2.2⟩,
      fun h => ⟨h.spelled, h.dest, h.labels, h.select, h.binds⟩⟩

/-! ### Labels -/

section

variable {f : Func}

variable {i j k r : Nat} {l : Str} {b : Body}

theorem mem_labelsAt : l ∈ labelsAt f i ↔ ∃ x, f.instrs[i]? = some x ∧ l ∈ x.labels := by
  unfold labelsAt
  cases f.instrs[i]? <;> simp

/-- A label that stands once stands at one instruction. -/
theorem labelsAt_unique (h : (f.instrs.flatMap Instr.labels).Nodup)
    (hi : l ∈ labelsAt f i) (hj : l ∈ labelsAt f j) : i = j := by
  have key {i j : Nat} (hij : i < j) (hi : l ∈ labelsAt f i) (hj : l ∈ labelsAt f j) : False := by
    obtain ⟨x, hx, hlx⟩ := mem_labelsAt.mp hi
    obtain ⟨y, hy, hly⟩ := mem_labelsAt.mp hj
    obtain ⟨hilt, rfl⟩ := List.getElem?_eq_some_iff.mp hx
    obtain ⟨hjlt, rfl⟩ := List.getElem?_eq_some_iff.mp hy
    have hpair := (nodup_flatMap.mp h).2
    exact pairwise_iff_getElem.mp hpair i j hilt hjlt hij hlx hly
  rcases Nat.lt_trichotomy i j with hij | hij | hij
  · exact (key hij hi hj).elim
  · exact hij
  · exact (key hij hj hi).elim

theorem atLabel_of_labelIdx (h : (f.instrs.flatMap Instr.labels).Nodup)
    (hj : f.labelIdx l = some j) : atLabel f l = some j := by
  obtain ⟨x, hx, hl⟩ := Func.labelIdx_spec hj
  have hmem : l ∈ labelsAt f j := mem_labelsAt.mpr ⟨x, hx, hl⟩
  have hlt : j < f.instrs.length := (List.getElem?_eq_some_iff.mp hx).1
  unfold atLabel
  have hin : j ∈ (List.range f.instrs.length).filter fun i => decide (l ∈ labelsAt f i) := by
    simp [hlt, hmem]
  cases hlast : ((List.range f.instrs.length).filter fun i => decide (l ∈ labelsAt f i)).getLast? with
  | none =>
    rw [getLast?_eq_none_iff.mp hlast] at hin
    simp at hin
  | some i =>
    have hi := (mem_filter.mp (mem_of_getLast? hlast)).2
    rw [labelsAt_unique h (of_decide_eq_true hi) hmem]

theorem length_bodies : f.bodies.length = f.instrs.length := by simp [Func.bodies]

theorem labelsAt_of_labelIdx (hj : f.labelIdx l = some j) : labelsAt f j ≠ [] := by
  obtain ⟨x, hx, hl⟩ := Func.labelIdx_spec hj
  intro hnil
  have := mem_labelsAt.mpr ⟨x, hx, hl⟩
  rw [hnil] at this
  simp at this

/-! ### The cases of a select -/

/-- The cases buffered at a select's `SELEND` follow each other up to it. -/
theorem Lowered.cases_block (hf : Lowered f) {c : Body} (hc : c ∈ f.cases k) :
    ∃ j < k, f.bodies[j]? = some c ∧ c.op.isCase = true ∧
      ∀ i, j ≤ i → i < k → (∃ b, f.bodies[i]? = some b ∧ b.op.isCase = true) ∧
        labelsAt f (i + 1) = [] := by
  obtain ⟨j, hj, hbj, hcase, hsel⟩ := Func.cases_between hc
  refine ⟨j, hj, hbj, hcase, fun i hji hik => ?_⟩
  -- one case after the other, from `j` on
  have hblock : ∃ b, f.bodies[i]? = some b ∧ b.op.isCase = true := by
    induction i, hji using Nat.le_induction with
    | base => exact ⟨c, hbj, hcase⟩
    | succ i hji ih =>
      obtain ⟨b, hb, hbc⟩ := ih (Nat.lt_of_succ_lt hik)
      obtain ⟨-, d, hd, hnext⟩ := hf.select i (List.getElem?_eq_some_iff.mp hb).1 b hb hbc
      refine ⟨d, hd, ?_⟩
      rcases hnext with h | h
      · exact h
      · exact hsel (i + 1) (Nat.le_succ_of_le hji) hik d hd (by simp [Op.isSel, h])
  obtain ⟨b, hb, hbc⟩ := hblock
  exact ⟨⟨b, hb, hbc⟩, (hf.select i (List.getElem?_eq_some_iff.mp hb).1 b hb hbc).1⟩

/-! ### What the analysis computes -/

theorem wordByte_digit : ∀ c, isDigit c = true → wordByte c = true := fun _ => isDigit_wordByte

theorem wordByte_punct : ∀ c, isPunct c → wordByte c = false := fun _ => isPunct.not_wordByte

/-- The live instructions hold the readers, and the predecessors that do not only write. -/
theorem live_spec (f : Func) (r : Nat) :
    (∀ i ∈ seeds f r, i ∈ live f r) ∧
      (∀ k ∈ live f r, k < f.bodies.length) ∧
      ∀ k ∈ live f r, ∀ i ∈ preds f k, i ∈ live f r ∨ defines f r i = true := by
  have hpred (k : Nat) : ∀ i ∈ preds f k, i ∈ List.range f.bodies.length :=
    fun i hi => (mem_filter.mp hi).1
  have hseed : seeds f r ⊆ List.range f.bodies.length := fun i hi => (mem_filter.mp hi).1
  have hnodup : (seeds f r).Nodup := nodup_range.filter _
  have hsome : ∃ marked, drain (preds f) (defines f r) f.bodies.length (seeds f r)
      (seeds f r).reverse = some marked :=
    drain_some hpred hnodup hseed (by simp; omega)
  obtain ⟨marked, hm⟩ := hsome
  have hlive : live f r = marked := by simp [live, hm]
  obtain ⟨hsub, hclosed⟩ := drain_closed (fun i hi => Or.inl (mem_reverse.mpr hi)) hm
  rw [hlive]
  refine ⟨fun i hi => hsub hi, fun k hk => ?_, hclosed⟩
  exact mem_range.mp (drain_within hpred hseed hm k hk)

theorem mem_preds {k t : Nat} (hk : k < f.bodies.length) (ht : t ∈ succs f k) : k ∈ preds f t := by
  simp [preds, hk, ht]

theorem mem_succs_fall (hb : f.bodies[k]? = some b)
    (he : b.op.ends = false) (hlt : k + 1 < f.bodies.length) : k + 1 ∈ succs f k := by
  have he' : endsFlow b.op = false := by
    cases hop : b.op <;> rw [hop] at he <;> first | rfl | exact absurd he (by decide)
  simp [succs, hb, he', hlt]

/-- An argument spelled as a label is a jump. -/
theorem mem_succs_label (hf : Lowered f) (hb : f.bodies[k]? = some b)
    (hlab : isLabel (b.arg i) = true) (hj : f.labelIdx (b.arg i) = some j) : j ∈ succs f k := by
  have hmem : b.arg i ∈ b.args := by
    cases hi : b.args[i]? with
    | none =>
      have hnil : b.arg i = [] := by simp [Body.arg, getD_eq_getElem?_getD, hi]
      rw [hnil] at hlab
      exact absurd hlab (by decide)
    | some a =>
      have ha : b.arg i = a := by simp [Body.arg, getD_eq_getElem?_getD, hi]
      rw [ha]
      exact mem_of_getElem? hi
  simp only [succs, hb, mem_append, mem_filterMap, mem_filter]
  exact Or.inr ⟨b.arg i, ⟨hmem, hlab⟩, atLabel_of_labelIdx hf.labels hj⟩

/-! ### Live points -/

/-- `r` is live into `k`, or into a case of the select `k` stands in. -/
def LiveAt (f : Func) (r k : Nat) : Prop :=
  k ∈ live f r ∨ ∃ j ∈ live f r, j < k ∧ ∀ i, j ≤ i → i < k →
    (∃ b, f.bodies[i]? = some b ∧ b.op.isCase = true) ∧ labelsAt f (i + 1) = []

theorem pureDef_of_defines (h : defines f r i = true) :
    ∃ b, f.bodies[i]? = some b ∧ pureDef b.op = true ∧ regExact (b.arg 0) = some r := by
  unfold defines at h
  cases hb : f.bodies[i]? with
  | none => simp [hb] at h
  | some b =>
    simp only [hb, Bool.and_eq_true, decide_eq_true_eq] at h
    exact ⟨b, rfl, h⟩

/-- The instructions that only write their argument 0 write it, read the others, and do not
jump. -/
theorem pureDef_shape {o : Op} (h : pureDef o = true) :
    o.dsts = [.arg 0] ∧ (∀ a ∈ o.srcs, 1 ≤ a.index) ∧ o.targets = [] ∧ o ≠ .selend ∧
      o ≠ .pmatch ∧ o ≠ .parse ∧ o.isCase = false := by
  cases o <;> first | exact absurd h (by decide) | decide

/-- An instruction that only writes `r` does overwrite it. -/
theorem writes_of_defines (hf : Lowered f) (hb : f.bodies[k]? = some b)
    (h : defines f r k = true) : r ∈ f.writes k b := by
  obtain ⟨b', hb', hpure, hreg⟩ := pureDef_of_defines h
  obtain rfl := Option.some.inj (hb.symm.trans hb')
  obtain ⟨hd, -, -, hsel, hpm, hpa, -⟩ := pureDef_shape hpure
  have hname := hf.dest b (mem_of_getElem? hb) hpure r hreg
  have hslot : cgSlot (b.arg 0) = some r := by
    rw [hname]
    exact cgSlot_of_regSlot (regSlot_newReg r)
  simp [Func.writes, Func.dstsAt, Body.dsts, hsel, hpm, hpa, hd, Body.resolve, hslot]

/-- An instruction with a token of `r` that is not only a write of it is a seed. -/
theorem live_of_token (hb : f.bodies[k]? = some b) (hkill : b.op ≠ .kill) (hr : r ∈ tokens b)
    (hread : defines f r k = true → readsAlso b r = true) : k ∈ live f r := by
  refine (live_spec f r).1 k ?_
  have hlt := (List.getElem?_eq_some_iff.mp hb).1
  have hocc : occursAt f r k = true := by simp [occursAt, hb, hkill, hr]
  simp only [seeds, mem_filter, mem_range, hlt, hocc, hb, Option.map_some,
    Option.getD_some, Bool.true_and, Bool.or_eq_true, Bool.not_eq_true', true_and]
  cases hd : defines f r k with
  | false => exact Or.inl rfl
  | true => exact Or.inr (hread hd)

/-- Where an instruction reads `r`, `r` is live. -/
theorem liveAt_of_reads (hf : Lowered f) (hb : f.bodies[k]? = some b)
    (hr : r ∈ f.reads k b) : LiveAt f r k := by
  rcases Func.mem_reads wordByte_digit wordByte_punct hr with ⟨-, t, ht, hn⟩ | ⟨hop, c, hc, hn⟩
  · obtain ⟨a, ha, hta⟩ := mem_flatMap.mp ht
    have htok := Body.mem_tokens_of_resolve wordByte_digit wordByte_punct hta hn
    refine Or.inl (live_of_token hb ?_ (Body.tokens_mono (Nat.zero_le _) htok) fun hd => ?_)
    · intro hop
      simp [hop, Op.srcs] at ha
    · -- a pure write reads its other arguments only
      obtain ⟨b', hb', hpure, -⟩ := pureDef_of_defines hd
      obtain rfl := Option.some.inj (hb.symm.trans hb')
      have hone := Body.tokens_mono ((pureDef_shape hpure).2.1 a ha) htok
      exact decide_eq_true hone
  · -- a `SELEND` reads for its cases
    obtain ⟨j, hj, hbj, hcase, hblock⟩ := hf.cases_block hc
    refine Or.inr ⟨j, live_of_token hbj ?_ hn fun hd => ?_, hj, hblock⟩
    · intro h
      simp [h, Op.isCase] at hcase
    · obtain ⟨b', hb', hpure, -⟩ := pureDef_of_defines hd
      obtain rfl := Option.some.inj (hbj.symm.trans hb')
      rw [(pureDef_shape hpure).2.2.2.2.2.2] at hcase
      exact absurd hcase (by simp)

/-- A case is live where its target is. -/
theorem live_of_case (hf : Lowered f) (hb : f.bodies[k]? = some b)
    (hcase : b.op.isCase = true) (hj : f.labelIdx (b.arg 0) = some j)
    (hlive : j ∈ live f r) : k ∈ live f r := by
  have hlab : isLabel (b.arg 0) = true :=
    (hf.spelled b (mem_of_getElem? hb)).label _ (by simp [Body.caseTargets, hcase])
  have hpred := mem_preds (List.getElem?_eq_some_iff.mp hb).1 (mem_succs_label hf hb hlab hj)
  rcases (live_spec f r).2.2 j hlive k hpred with h | h
  · exact h
  · obtain ⟨b', hb', hpure, -⟩ := pureDef_of_defines h
    obtain rfl := Option.some.inj (hb.symm.trans hb')
    rw [(pureDef_shape hpure).2.2.2.2.2.2] at hcase
    exact absurd hcase (by simp)

/-- Liveness goes back along an edge that does not overwrite the register. -/
theorem LiveAt.back (hf : Lowered f) (hno : ∀ b ∈ f.bodies, b.op ≠ .ehpush)
    {c : Bool} (he : Edge f c k j)
    (hkeep : c = true → ∀ b, f.bodies[k]? = some b → r ∉ f.writes k b) (hj : LiveAt f r j) :
    LiveAt f r k := by
  rcases hj with hlive | ⟨i, hi, hij, hblock⟩
  · cases he with
    | @fall _ b hb hend =>
      have hsucc := mem_succs_fall hb hend ((live_spec f r).2.1 _ hlive)
      have hpred := mem_preds (List.getElem?_eq_some_iff.mp hb).1 hsucc
      rcases (live_spec f r).2.2 _ hlive k hpred with h | h
      · exact Or.inl h
      · exact absurd (writes_of_defines hf hb h) (hkeep rfl b hb)
    | @jump _ _ b l hb hl hidx =>
      unfold Func.targetsAt at hl
      split at hl
      · -- the `SELEND` jumps where a case points
        obtain ⟨d, hd, rfl⟩ := mem_map.mp hl
        obtain ⟨i, hi, hbi, hcase, hblock⟩ := hf.cases_block hd
        exact Or.inr ⟨i, live_of_case hf hbi hcase hidx hlive, hi, hblock⟩
      · obtain ⟨a, ha, hla⟩ := mem_flatMap.mp hl
        obtain ⟨i, rfl⟩ := Op.targets_arg ha
        obtain rfl := mem_singleton.mp hla
        have hlab : isLabel (b.arg i) = true :=
          (hf.spelled b (mem_of_getElem? hb)).label _ (mem_append_left _ hl)
        have hpred := mem_preds (List.getElem?_eq_some_iff.mp hb).1
          (mem_succs_label hf hb hlab hidx)
        rcases (live_spec f r).2.2 _ hlive k hpred with h | h
        · exact Or.inl h
        · obtain ⟨b', hb', hpure, -⟩ := pureDef_of_defines h
          obtain rfl := Option.some.inj (hb.symm.trans hb')
          rw [(pureDef_shape hpure).2.2.1] at ha
          exact absurd ha (by simp)
    | raise _ _ hc hop _ => exact absurd hop (hno _ hc)
  · -- inside a select control only falls through
    obtain ⟨j, rfl⟩ : ∃ n, j = n + 1 := ⟨j - 1, by omega⟩
    have hnolab := (hblock j (by omega) (Nat.lt_succ_self j)).2
    cases he with
    | fall hb hend =>
      rcases Nat.lt_succ_iff_lt_or_eq.mp hij with hij | rfl
      · exact Or.inr ⟨i, hi, hij, fun q hiq hqk => hblock q hiq (Nat.lt_succ_of_lt hqk)⟩
      · exact Or.inl hi
    | jump _ _ hidx => exact absurd hnolab (labelsAt_of_labelIdx hidx)
    | raise _ _ _ _ hidx => exact absurd hnolab (labelsAt_of_labelIdx hidx)

theorem LiveAt.flow (hf : Lowered f) (hno : ∀ b ∈ f.bodies, b.op ≠ .ehpush) {r k q : Nat}
    (h : Flow f r k q) (hq : LiveAt f r q) : LiveAt f r k := by
  induction h with
  | refl k => exact hq
  | step he hkeep _ ih => exact (ih hq).back hf hno he hkeep

/-- Behind a `KILL r` of the analysis no path reads `r` before overwriting it. -/
theorem killLive_sound (hf : Lowered f) (hno : ∀ b ∈ f.bodies, b.op ≠ .ehpush) {m : Module}
    (hr : r ∈ killLive m f i) : ¬ReadsFirst f r (i + 1) ∧ r ∉ pinned m f := by
  unfold killLive at hr
  cases hb : f.bodies[i]? with
  | none => simp [hb] at hr
  | some b =>
    simp only [hb, mem_filter, Bool.and_eq_true, Bool.not_eq_true', all_eq_true,
      decide_eq_false_iff_not] at hr
    obtain ⟨-, ⟨⟨⟨hkeep, -⟩, hdead⟩, hend⟩, hbranch⟩ := hr
    constructor
    · rintro ⟨q, c, hflow, hc, hread⟩
      have hlive := (liveAt_of_reads hf hc hread).flow hf hno hflow
      have hends : b.op.ends = false := by
        cases hop : b.op <;> rw [hop] at hend <;> first | rfl | exact absurd hend (by decide)
      rcases hlive with h | ⟨j, hj, hji, hblock⟩
      · exact hdead _ (mem_succs_fall hb hends ((live_spec f r).2.1 _ h)) h
      · -- no `KILL` stands behind a case
        obtain ⟨b', hb', hcase⟩ := (hblock i (Nat.le_of_lt_succ hji) (Nat.lt_succ_self i)).1
        obtain rfl := Option.some.inj (hb.symm.trans hb')
        cases hop : b.op <;> rw [hop] at hcase hbranch <;>
          first | exact absurd hcase (by decide) | exact absurd hbranch (by decide)
    · simp only [keepLive, Bool.or_eq_false_iff, decide_eq_false_iff_not] at hkeep
      exact hkeep.1

end

end Voila.Low
