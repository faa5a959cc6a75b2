import Voila.Low.KillLocal

/-!
# Voila.Low.KillSound

`insert_kills` drops only dead values: behind every `KILL r` it inserts, no path of the
control-flow graph reads `r` before overwriting it, and no descendant closure captures `r`
(`insertKills_sound`).

The inserted `KILL`s only fall through, so a path of the new code is a path of the old one
with pauses (`flow_old`).
-/

namespace Voila.Low

open Ir Lib List

/-! ### The code with `KILL`s inserted -/

/-- Where instruction `i` stands after `addKills`. -/
def pos (ks : Nat → List Nat) (i : Nat) : Nat := place (fun i => (ks i).map killInstr) i

section

variable {f : Func} {ks : Nat → List Nat}

theorem pos_succ (i : Nat) : pos ks (i + 1) = pos ks i + 1 + (ks i).length := by
  simp [pos, place_succ]

theorem pos_lt {i j : Nat} (h : i < j) : pos ks i < pos ks j := place_lt h

theorem addKills_bodies :
    (addKills f ks).bodies = weave (fun i => (ks i).map fun r => (killInstr r).toBody) f.bodies := by
  simp only [Func.bodies, addKills, weave_map, map_map]
  rfl

theorem addKills_at (i : Nat) : (addKills f ks).bodies[pos ks i]? = f.bodies[i]? := by
  have hpos : pos ks i = place (fun i => (ks i).map fun r => (killInstr r).toBody) i := by
    rw [pos, ← place_map Instr.toBody]
    simp only [map_map]
    rfl
  rw [addKills_bodies, hpos, weave_place]

variable {b : Body}

/-- An instruction of the new code is one of the old code or a `KILL`. -/
theorem addKills_cases {p : Nat} (h : (addKills f ks).bodies[p]? = some b) :
    ∃ i, (p = pos ks i ∧ f.bodies[i]? = some b) ∨
      ∃ j < (ks i).length, p = pos ks i + 1 + j ∧ b.op = .kill ∧ ∃ r ∈ ks i, b.arg 0 = newReg r := by
  have hlt := (List.getElem?_eq_some_iff.mp h).1
  rw [length_bodies] at hlt
  obtain ⟨i, hi, hp | ⟨j, hj, hp⟩⟩ := weave_cases hlt
  · have hp : p = pos ks i := hp
    refine ⟨i, Or.inl ⟨hp, ?_⟩⟩
    rw [← addKills_at, ← hp, h]
  · refine ⟨i, Or.inr ⟨j, by simpa using hj, hp, ?_⟩⟩
    have hins := weave_inserted (fun i => (ks i).map killInstr) hi hj
    rw [← hp, List.getElem?_map] at hins
    have hb : (addKills f ks).bodies[p]? =
        ((weave (fun i => (ks i).map killInstr) f.instrs)[p]?).map Instr.toBody := by
      simp [Func.bodies, addKills]
    rw [h, hins] at hb
    cases hr : (ks i)[j]? with
    | none => simp [hr] at hb
    | some r =>
      simp only [hr, Option.map_some, Option.some.injEq] at hb
      rw [hb]
      exact ⟨rfl, r, mem_of_getElem? hr, rfl⟩

theorem addKills_labelIdx (l : Str) : (addKills f ks).labelIdx l = (f.labelIdx l).map (pos ks) := by
  refine weave_findIdx? (fun i x hx => ?_) f.instrs
  obtain ⟨r, -, rfl⟩ := mem_map.mp hx
  simp [killInstr]

/-- A `KILL` is no select instruction: the buffered cases stay the same. -/
theorem addKills_selCases (i : Nat) : (addKills f ks).cases (pos ks i) = f.cases i := by
  have htake : (addKills f ks).bodies.take (pos ks i) =
      (weave (fun i => (ks i).map killInstr) (f.instrs.take i)).map Instr.toBody := by
    simp only [Func.bodies, addKills, ← map_take, pos, weave_take]
  have hsel : ((addKills f ks).bodies.take (pos ks i)).filter (·.op.isSel) =
      (f.bodies.take i).filter (·.op.isSel) := by
    rw [htake, filter_map, weave_filter, Func.bodies, ← map_take, filter_map]
    intro i x hx
    obtain ⟨r, -, rfl⟩ := mem_map.mp hx
    rfl
  unfold Func.cases
  rw [hsel]

/-! ### Paths -/

/-- Instruction `k` of the old code is the next one at or behind position `p`. -/
def Ahead (ks : Nat → List Nat) (p k : Nat) : Prop := p ≤ pos ks k ∧ ∀ i < k, pos ks i < p

theorem ahead_pos (k : Nat) : Ahead ks (pos ks k) k := ⟨le_refl _, fun _ hi => pos_lt hi⟩

/-- Behind `i` and its `KILL`s comes `i + 1`. -/
theorem ahead_behind {i j : Nat} (hj : j ≤ (ks i).length) : Ahead ks (pos ks i + 1 + j) (i + 1) := by
  refine ⟨by rw [pos_succ]; omega, fun q hq => ?_⟩
  rcases Nat.lt_succ_iff_lt_or_eq.mp hq with hq | rfl
  · have hlt : pos ks q < pos ks i := pos_lt hq
    omega
  · omega

theorem Ahead.unique {p k k' : Nat} (h : Ahead ks p k) (h' : Ahead ks p k') : k = k' := by
  rcases Nat.lt_trichotomy k k' with hlt | rfl | hlt
  · have := h'.2 k hlt
    have := h.1
    omega
  · rfl
  · have := h.2 k' hlt
    have := h'.1
    omega

/-- A path of the new code to a reader is a path of the old code to the same reader. -/
theorem flow_old {r p q k : Nat} (h : Flow (addKills f ks) r p q) (hk : Ahead ks p k)
    (hb : (addKills f ks).bodies[q]? = some b) (hr : r ∈ (addKills f ks).reads q b) :
    ReadsFirst f r k := by
  induction h generalizing k with
  | refl p =>
    obtain ⟨i, ⟨rfl, hi⟩ | ⟨j, -, -, hop, -⟩⟩ := addKills_cases hb
    · obtain rfl := hk.unique (ahead_pos i)
      refine ⟨k, b, .refl k, hi, ?_⟩
      simpa [Func.reads, Func.srcsAt, addKills_selCases] using hr
    · simp [Func.reads, Func.srcsAt, Body.srcs, hop, Op.srcs] at hr
  | @step c p j q he hkeep _ ih =>
    -- the instruction the edge leaves
    have hsome : ∃ b, (addKills f ks).bodies[p]? = some b := by
      cases he with
      | fall hb _ => exact ⟨_, hb⟩
      | jump hb _ _ => exact ⟨_, hb⟩
      | raise hb _ _ _ _ => exact ⟨_, hb⟩
    obtain ⟨b₀, hb₀⟩ := hsome
    obtain ⟨i, ⟨rfl, hi⟩ | ⟨n, hn, rfl, hop, -⟩⟩ := addKills_cases hb₀
    · obtain rfl := hk.unique (ahead_pos i)
      have hstep {c : Bool} {k' : Nat} (he : Edge f c k k')
          (hkeep : c = true → ∀ b, f.bodies[k]? = some b → r ∉ f.writes k b)
          (hrest : ReadsFirst f r k') : ReadsFirst f r k := by
        obtain ⟨q', b', hflow, hb', hr'⟩ := hrest
        exact ⟨q', b', .step he hkeep hflow, hb', hr'⟩
      cases he with
      | @fall _ b₁ hb₁ hend =>
        obtain rfl := Option.some.inj (hb₁.symm.trans hb₀)
        refine hstep (.fall hi hend) (fun _ b' hb' => ?_) (ih (ahead_behind (Nat.zero_le _)) hb hr)
        obtain rfl := Option.some.inj (hi.symm.trans hb')
        have := hkeep rfl b₁ hb₁
        simpa [Func.writes, Func.dstsAt, addKills_selCases] using this
      | @jump _ _ b₁ l hb₁ hl hidx =>
        obtain rfl := Option.some.inj (hb₁.symm.trans hb₀)
        rw [addKills_labelIdx, Option.map_eq_some_iff] at hidx
        obtain ⟨k', hidx, rfl⟩ := hidx
        have hl' : l ∈ f.targetsAt k b₁ := by
          simpa [Func.targetsAt, addKills_selCases] using hl
        exact hstep (.jump hi hl' hidx) (by simp) (ih (ahead_pos k') hb hr)
      | @raise _ _ b₁ d hb₁ hcls hd hop hidx =>
        obtain rfl := Option.some.inj (hb₁.symm.trans hb₀)
        rw [addKills_labelIdx, Option.map_eq_some_iff] at hidx
        obtain ⟨k', hidx, rfl⟩ := hidx
        obtain ⟨n, hn⟩ := mem_iff_getElem?.mp hd
        obtain ⟨i', ⟨-, hi'⟩ | ⟨-, -, -, hkill, -⟩⟩ := addKills_cases hn
        · exact hstep (.raise hi hcls (mem_of_getElem? hi') hop hidx) (by simp)
            (ih (ahead_pos k') hb hr)
        · exact absurd (hkill.symm.trans hop) (by decide)
    · -- a `KILL` only falls through
      cases he with
      | fall _ _ =>
        obtain rfl := hk.unique (ahead_behind (Nat.le_of_lt hn))
        exact ih (ahead_behind hn) hb hr
      | @jump _ _ b₁ l hb₁ hl _ =>
        obtain rfl := Option.some.inj (hb₁.symm.trans hb₀)
        simp [Func.targetsAt, Body.targets, hop, Op.targets] at hl
      | @raise _ _ b₁ d hb₁ hcls _ _ _ =>
        obtain rfl := Option.some.inj (hb₁.symm.trans hb₀)
        rw [hop] at hcls
        exact absurd hcls (by decide)

end

/-! ### The pass -/

/-- Position `p` of the new code holds a `KILL r` that the pass inserted. -/
def KilledAt (m : Module) (f : Func) (p r : Nat) : Prop :=
  ∃ i j, i < (killBase f).instrs.length ∧ (kills m f i)[j]? = some r ∧
    p = pos (kills m f) i + 1 + j

variable {m : Module}

/-- Both rules kill dead registers only. -/
theorem kills_sound {f : Func} (hf : Lowered (killBase f))
    (hdef : hasHandler f = true → Defined f) {i r : Nat} (hr : r ∈ kills m f i) :
    ¬ReadsFirst (killBase f) r (i + 1) ∧ r ∉ pinned m (killBase f) := by
  unfold kills at hr
  unfold killBase at hf ⊢
  split at hr
  · rename_i hh
    rw [if_pos hh] at hf ⊢
    exact killLocal_sound hf (hdef hh) hr
  · rename_i hh
    rw [if_neg hh] at hf ⊢
    refine killLive_sound hf (fun b hb hop => hh ?_) hr
    obtain ⟨x, hx, rfl⟩ := mem_map.mp hb
    have hmem : x.toBody ∈ f.bodies := mem_map_of_mem (mem_of_mem_filter hx)
    exact any_eq_true.mpr ⟨x.toBody, hmem, by simp [hop]⟩

/-! ### Captured registers -/

/-- The name of the `seq`-th closure written in a function (`lower_closure`). -/
def closureName (outer : Str) (seq : Nat) : Str := outer ++ ['$', 'f', 'n'] ++ Nat.toDigits 10 seq

/-- The names of the closures inside a function, at any depth. -/
inductive Inside (outer : Str) : Str → Prop
  | closure (seq : Nat) : Inside outer (closureName outer seq)
  | deeper {name : Str} (seq : Nat) : Inside outer name → Inside outer (closureName name seq)

/-- A closure's name starts with the name of every function around it. -/
theorem Inside.startsWith {outer name : Str} (h : Inside outer name) :
    name.startsWith (outer ++ ['$', 'f', 'n']) = true := by
  have hpre : outer ++ ['$', 'f', 'n'] <+: name := by
    induction h with
    | closure seq => exact prefix_append _ _
    | deeper seq _ ih =>
      rw [closureName, append_assoc]
      exact ih.trans (prefix_append _ _)
  obtain ⟨rest, rfl⟩ := hpre
  exact decide_eq_true take_left

/-- The slots the closures inside a function capture are among its `upSlots`. -/
theorem mem_upSlots {f g : Func} (hg : g ∈ m.funcs) (hin : Inside f.name g.name)
    {u : UpRef} (hu : u ∈ g.ups) {r : Nat} (hr : u.slot = some r) : r ∈ m.upSlots f := by
  refine mem_flatMap.mpr ⟨g, mem_filter.mpr ⟨hg, hin.startsWith⟩, ?_⟩
  exact mem_filterMap.mpr ⟨u, hu, hr⟩

/-- Behind every inserted `KILL r`, no path reads `r` before an instruction that overwrites
it, and no closure inside the function captures `r`. -/
theorem insertKills_sound (m : Module) {f : Func} (hf : Lowered (killBase f))
    (hdef : hasHandler f = true → Defined f) {p r : Nat} (h : KilledAt m f p r) :
    ¬ReadsFirst (insertKills m f) r (p + 1) ∧
      ∀ g ∈ m.funcs, Inside f.name g.name → ∀ u ∈ g.ups, u.slot ≠ some r := by
  obtain ⟨i, j, -, hj, rfl⟩ := h
  obtain ⟨hdead, hpin⟩ := kills_sound hf hdef (mem_of_getElem? hj)
  have hlt := (List.getElem?_eq_some_iff.mp hj).1
  constructor
  · rintro ⟨q, b, hflow, hb, hr⟩
    exact hdead (flow_old hflow (ahead_behind hlt) hb hr)
  · intro g hg hin u hu hslot
    have hname : (killBase f).name = f.name := by
      unfold killBase
      split <;> rfl
    have hup : r ∈ m.upSlots (killBase f) := mem_upSlots hg (hname.symm ▸ hin) hu hslot
    exact hpin (mem_append_left _ hup)

/-- `LOADK r1,K0; TYPEOF r2,r1` under a handler that returns the parameter. -/
def guarded : Func where
  name := ['f']
  nregs := 3
  nparams := 1
  instrs :=
    [{ op := .ehpush, args := [newLabel 0] },
     { op := .loadk, args := [newReg 1, constName 0] },
     { op := .typeof, args := [newReg 2, newReg 1] },
     { op := .ehpop, args := [] },
     { op := .ret, args := [newReg 2] },
     { op := .ret, args := [newReg 0], labels := [newLabel 0] }]

theorem guarded_defined : Defined guarded := by
  intro k b r hb hr _
  have hall : ∀ k < 6, ∀ b ∈ guarded.bodies[k]?, ∀ r ∈ guarded.reads k b,
      r < 1 ∨ r ∈ guarded.writes 1 guarded.bodies[1] ∨ r ∈ guarded.writes 2 guarded.bodies[2] := by
    decide
  rcases hall k (List.getElem?_eq_some_iff.mp hb).1 b hb r hr with h | h | h
  · exact Or.inl h
  · exact Or.inr ⟨1, _, rfl, h⟩
  · exact Or.inr ⟨2, _, rfl, h⟩

/-- `r1` is dropped behind the `TYPEOF`. -/
theorem guarded_killed :
    ¬ReadsFirst (insertKills ⟨[], [guarded]⟩ guarded) 1 4 ∧
      ∀ g ∈ [guarded], Inside guarded.name g.name → ∀ u ∈ g.ups, u.slot ≠ some 1 :=
  insertKills_sound ⟨[], [guarded]⟩ (by decide) (fun _ => guarded_defined)
    ⟨2, 0, by decide, by decide, by decide⟩

end Voila.Low
