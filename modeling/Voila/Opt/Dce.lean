import Voila.Ir.Exec

/-!
# Voila.Opt.Dce

Dead-code elimination and frame shrinking (`opt/dce.voi`).

Only `LOADK` and `MOVE` are candidates: writing their destination is all they do. One
goes when its destination is referenced nowhere else in the function, its labels
moving to the next instruction; afterwards labels nothing names are dropped, and the
frame is cut down to the registers still referenced.
-/

open List

namespace Voila.Opt

open Ir Lib

/-! ### The passes -/

/-- The registers an instruction references; without its own destination when it is
the candidate. -/
def marks (b : Body) (skip : Bool) : List Nat :=
  (if skip then b.args.drop 1 else b.args).flatMap markRegsIn ++ b.patRegs.flatMap markRegsIn

/-- `used_regs`: what is referenced anywhere except as the destination of instruction
`skip`, what descendant closures address, and the parameters. -/
def usedRegs (m : Module) (f : Func) (skip : Option Nat) : List Nat :=
  f.bodies.zipIdx.flatMap (fun p => marks p.1 (decide (skip = some p.2))) ++ m.upSlots f ++
    List.range f.nparams

/-- A pure definition of a register of the frame that nothing else references. -/
def isVictim (m : Module) (f : Func) (ii : Nat) : Bool :=
  match f.bodies[ii]? with
  | some b =>
    (b.op == .loadk || b.op == .move) &&
      match regSlot (b.arg 0) with
      | some d => decide (d < f.nregs) && decide (d ∉ usedRegs m f (some ii))
      | none => false
  | none => false

def findVictim (m : Module) (f : Func) : Option Nat :=
  (List.range f.instrs.length).find? (isVictim m f)

/-- Add labels before the instruction's own. -/
def addLabels (ls : List Str) (i : Instr) : Instr := { i with labels := ls ++ i.labels }

/-- `delete_instr`: the labels migrate onto the next instruction. -/
def deleteInstr (f : Func) (ii : Nat) : Func :=
  match f.instrs[ii]? with
  | some v => { f with instrs := (f.instrs.eraseIdx ii).modify ii (addLabels v.labels) }
  | none => f

variable {ii : Nat}

theorem findVictim_lt {m : Module} {f : Func} (h : findVictim m f = some ii) :
    ii < f.instrs.length := by
  simpa using mem_of_find?_eq_some h

theorem deleteInstr_length {f : Func} (h : ii < f.instrs.length) :
    (deleteInstr f ii).instrs.length + 1 = f.instrs.length := by
  simp only [deleteInstr, List.getElem?_eq_getElem h, length_modify,
    length_eraseIdx_of_lt h]
  omega

/-- The loop of `dce_func`. -/
def dceLoop (m : Module) (f : Func) : Func :=
  match _h : findVictim m f with
  | some ii => dceLoop m (deleteInstr f ii)
  | none => f
termination_by f.instrs.length
decreasing_by
  have := deleteInstr_length (findVictim_lt _h)
  omega

/-- The labels some instruction names. -/
def liveLabels (f : Func) : List Str := (f.bodies.flatMap Body.args).filter isLabel

/-- `prune_labels`. -/
def pruneLabels (f : Func) : Func :=
  let live := liveLabels f
  { f with instrs := f.instrs.map fun i => { i with labels := i.labels.filter (· ∈ live) } }

/-- `dce_func`. -/
def dceFunc (m : Module) (f : Func) : Func := pruneLabels (dceLoop m f)

/-- `shrink_func`: as many registers as the highest referenced one needs. -/
def shrinkFunc (m : Module) (f : Func) : Func :=
  let used := (usedRegs m f none).filter (· < f.nregs)
  let want := used.foldl (fun hi i => max hi (i + 1)) f.nparams
  if want < f.nregs then { f with nregs := want } else f

end Voila.Opt

/-!
Dead-code elimination is not observed: the optimized function performs the same
operations on the same values and ends the same way.

One deletion is a `Skip` simulation: the two runs agree on every register but the
victim's destination, which no instruction left looks at (`not_mem_sees`), and the
deleted instruction is the one silent step (`deleteInstr_obsEq`). The loop composes
deletions, and label pruning is lockstep, the handler stack holding live labels only.
-/

namespace Voila.Opt

open Ir Lib

/-! ### Nothing left looks at the victim's destination -/

variable {ii n p d : Nat} {b v : Body} {α : Type*}

theorem isVictim_inv {m : Module} {f : Func} (h : isVictim m f ii = true) :
    ∃ b d, f.bodies[ii]? = some b ∧ (b.op = .loadk ∨ b.op = .move) ∧
      regSlot (b.arg 0) = some d ∧ d ∉ usedRegs m f (some ii) := by
  unfold isVictim at h
  split at h
  · rename_i b hb
    rw [Bool.and_eq_true] at h
    obtain ⟨hop, hreg⟩ := h
    split at hreg
    · rename_i d hd
      rw [Bool.and_eq_true, decide_eq_true_eq, decide_eq_true_eq] at hreg
      exact ⟨b, d, hb, by simpa using hop, hd, hreg.2⟩
    · exact absurd hreg (by simp)
  · exact absurd h (by simp)

theorem mem_marks (h : n ∈ b.tokens isWordByte 0) : n ∈ marks b false := by
  simp only [marks, Bool.false_eq_true, if_false, mem_append]
  exact Or.inl h

theorem mem_usedRegs_of_marks {m : Module} {f : Func}
    (hp : f.bodies[p]? = some b) (hne : p ≠ ii) (h : n ∈ marks b false) :
    n ∈ usedRegs m f (some ii) := by
  simp only [usedRegs, mem_append, mem_flatMap]
  refine Or.inl (Or.inl ⟨(b, p), ?_, ?_⟩)
  · rw [mem_zipIdx_iff_getElem?]
    simpa using hp
  · simpa [Ne.symm hne] using h

/-- No instruction but the victim looks at a register that is not used. -/
theorem not_mem_sees {m : Module} {f : Func} (hf : WellSpelled f)
    (hv : f.bodies[ii]? = some v) (hvop : v.op = .loadk ∨ v.op = .move)
    (hd : d ∉ usedRegs m f (some ii)) (hp : f.bodies[p]? = some b) (hne : p ≠ ii) :
    d ∉ f.sees m p b := by
  have hdigit (c : Char) : isDigit c = true → isWordByte c = true := isDigit_isWordByte
  have hpunct (c : Char) : isPunct c → isWordByte c = false := isPunct.not_isWordByte
  have hused {c : Body} {j : Nat} (hj : f.bodies[j]? = some c) (hjne : j ≠ ii)
      (ht : d ∈ c.tokens isWordByte 0) : False :=
    hd (mem_usedRegs_of_marks hj hjne (mem_marks ht))
  intro hsee
  simp only [Func.sees, mem_append] at hsee
  rcases hsee with (hread | hkill) | hcell
  · rcases Func.mem_reads hdigit hpunct hread with ⟨-, t, ht, hn⟩ | ⟨-, c, hc, ht⟩
    · exact hused hp hne (Body.mem_tokens_of_srcs hdigit hpunct ht hn)
    · obtain ⟨hcase, j, -, hj⟩ := Func.mem_cases hc
      refine hused hj ?_ ht
      rintro rfl
      -- the victim is a LOADK or a MOVE, never a buffered case
      obtain rfl := Option.some.inj (hv.symm.trans hj)
      rcases hvop with h | h <;> simp [h, Op.isCase] at hcase
  · split at hkill
    · rename_i hop
      have hslot : cgSlot (b.arg 0) = some d := by simpa using hkill
      have harg := (hf b (mem_of_getElem? hp)).kill hop d hslot
      exact hused hp hne (Body.mem_tokens_of_arg hdigit hpunct (by rw [harg, regSlot_newReg]))
    · simp at hkill
  · exact hd (by simp [usedRegs, hcell])

/-! ### The code after one deletion -/

/-- Where an instruction stands after instruction `ii` is deleted; `ii` itself is
followed by what replaces it. -/
def shift (ii p : Nat) : Nat := if p ≤ ii then p else p - 1

theorem shift_succ (hne : p ≠ ii) : shift ii (p + 1) = shift ii p + 1 := by
  unfold shift
  split <;> split <;> omega

theorem deleteInstr_bodies {f : Func} (h : ii < f.instrs.length) :
    (deleteInstr f ii).bodies = f.bodies.eraseIdx ii := by
  have hbody (o : Option Instr) (p : Nat) :
      ((fun i => if ii = p then addLabels f.instrs[ii].labels i else i) <$> o).map Instr.toBody =
        o.map Instr.toBody := by
    cases o with
    | none => rfl
    | some i => by_cases hp : ii = p <;> simp [hp, addLabels]
  refine ext_getElem? fun p => ?_
  simp only [deleteInstr, List.getElem?_eq_getElem h, Func.bodies, List.getElem?_map,
    List.getElem?_modify, List.getElem?_eraseIdx]
  rw [hbody]
  split <;> rfl

theorem getElem?_shift {l : List α} (hne : p ≠ ii) : (l.eraseIdx ii)[shift ii p]? = l[p]? := by
  unfold shift
  rw [List.getElem?_eraseIdx]
  split
  · rw [if_pos (by omega)]
  · rw [if_neg (by omega), Nat.sub_add_cancel (by omega)]

/-- Erasing an element a filter drops does not change what it keeps of a beginning. -/
theorem filter_take_shift {q : α → Bool} {l : List α} {v : α}
    (hv : l[ii]? = some v) (hq : q v = false) (p : Nat) :
    ((l.eraseIdx ii).take (shift ii p)).filter q = (l.take p).filter q := by
  obtain ⟨hlt, hget⟩ := List.getElem?_eq_some_iff.mp hv
  have hl : l = l.take ii ++ v :: l.drop (ii + 1) := by
    rw [← hget, getElem_cons_drop, take_append_drop]
  have hlen : (l.take ii).length = ii := by simp; omega
  rw [eraseIdx_eq_take_drop_succ]
  generalize l.take ii = pre at hl hlen
  generalize l.drop (ii + 1) = post at hl
  subst hl
  unfold shift
  split
  · rw [take_append_of_le_length (by omega), take_append_of_le_length (by omega)]
  · obtain ⟨q', rfl⟩ : ∃ q', p = pre.length + 1 + q' := ⟨p - (pre.length + 1), by omega⟩
    rw [show pre.length + 1 + q' - 1 = pre.length + q' by omega, take_length_add_append,
      show pre.length + 1 + q' = pre.length + (q' + 1) by omega, take_length_add_append]
    simp [hq]

theorem deleteInstr_cases {f : Func} (hv : f.bodies[ii]? = some v)
    (hop : v.op = .loadk ∨ v.op = .move) : (deleteInstr f ii).cases (shift ii p) = f.cases p := by
  have hlt : ii < f.instrs.length := by
    have := (List.getElem?_eq_some_iff.mp hv).1
    simpa [Func.bodies] using this
  unfold Func.cases
  rw [deleteInstr_bodies hlt, filter_take_shift hv]
  rcases hop with h | h <;> simp [h, Op.isSel, Op.isCase]

theorem deleteInstr_instrs {f : Func} {pre post : List Instr} {v nxt : Instr}
    (h : f.instrs = pre ++ v :: nxt :: post) :
    (deleteInstr f pre.length).instrs = pre ++ addLabels v.labels nxt :: post := by
  have hv : (pre ++ v :: nxt :: post)[pre.length]? = some v := by simp
  simp only [deleteInstr, h, hv, eraseIdx_append_of_length_le (le_refl _), Nat.sub_self,
    eraseIdx_cons_zero]
  rw [modify_eq_take_cons_drop (by simp)]
  simp

/-- The migrated labels stand where they stood: before what follows the victim. -/
theorem deleteInstr_labelIdx {f : Func} (h : ii + 1 < f.instrs.length) (l : Str) :
    (deleteInstr f ii).labelIdx l = (f.labelIdx l).map (shift ii) := by
  obtain ⟨pre, v, nxt, post, hcut, rfl⟩ :
      ∃ pre v nxt post, f.instrs = pre ++ v :: nxt :: post ∧ pre.length = ii :=
    ⟨f.instrs.take ii, f.instrs[ii], f.instrs[ii + 1], f.instrs.drop (ii + 2),
      by rw [getElem_cons_drop, getElem_cons_drop, take_append_drop],
      by simp; omega⟩
  simp only [Func.labelIdx, deleteInstr_instrs hcut, hcut, findIdx?_append,
    findIdx?_cons]
  cases hp : pre.findIdx? fun i => decide (l ∈ i.labels) with
  | some i =>
    have hi : i ≤ pre.length := le_of_lt (findIdx?_eq_some_iff_getElem.mp hp).1
    simp [shift, hi]
  | none =>
    by_cases hv : l ∈ v.labels
    · simp [addLabels, hv, shift]
    · by_cases hn : l ∈ nxt.labels
      · simp [addLabels, hv, hn, shift]
      · cases post.findIdx? fun i => decide (l ∈ i.labels) with
        | none => simp [addLabels, hv, hn]
        | some i => simp [addLabels, hv, hn, shift]

theorem deleteInstr_jumpTo {V : Type*} {f : Func} (h : ii + 1 < f.instrs.length)
    (l : Str) : (jumpTo (deleteInstr f ii) l : Ctl V) = (jumpTo f l).map (shift ii) := by
  unfold jumpTo
  rw [deleteInstr_labelIdx h]
  cases f.labelIdx l <;> rfl

@[simp] theorem deleteInstr_ups (f : Func) (ii : Nat) : (deleteInstr f ii).ups = f.ups := by
  unfold deleteInstr
  split <;> rfl

@[simp] theorem deleteInstr_nparams (f : Func) (ii : Nat) :
    (deleteInstr f ii).nparams = f.nparams := by
  unfold deleteInstr
  split <;> rfl

@[simp] theorem upSlots_deleteInstr (m : Module) (f : Func) (ii : Nat) :
    m.upSlots (deleteInstr f ii) = m.upSlots f := by
  unfold deleteInstr
  split <;> rfl

/-! ### One deletion -/

section

variable {V W : Type*} {x : Runtime V W} {m : Module} {f : Func}

/-- The runs before and after the deletion: alike but for the victim's destination. -/
structure Beside (ii d : Nat) (s t : State V W) : Prop where
  pc : t.pc = shift ii s.pc
  regs : ∀ r, r ≠ d → t.regs r = s.regs r
  world : t.world = s.world
  handlers : t.handlers = s.handlers

/-- What makes instruction `ii` deletable, with its destination `d`. -/
structure Victim (m : Module) (f : Func) (ii : Nat) (v : Body) (d : Nat) : Prop where
  body : f.bodies[ii]? = some v
  op : v.op = .loadk ∨ v.op = .move
  dst : regSlot (v.arg 0) = some d
  unused : d ∉ usedRegs m f (some ii)
  inside : ii + 1 < f.instrs.length

variable {d ii : Nat} {v : Body}

theorem Victim.lt (h : Victim m f ii v d) : ii < f.instrs.length :=
  Nat.lt_of_succ_lt h.inside

/-- Away from the victim both runs take the same step. -/
theorem Victim.lockstep (hf : WellSpelled f) (hv : Victim m f ii v d)
    {s t : State V W} (hst : Beside ii d s t) (hne : s.pc ≠ ii) :
    SameOut (Beside ii d) (machine x m f s) (machine x m (deleteInstr f ii) t) := by
  have hcells : d ∉ m.upSlots f := fun h => hv.unused (by simp [usedRegs, h])
  have hexec : exec x m (deleteInstr f ii) t.regs t.pc t.world t.handlers =
      (exec x m f s.regs s.pc s.world s.handlers).moved (shift ii) := by
    unfold exec
    rw [hst.pc, hst.world, hst.handlers, deleteInstr_bodies hv.lt, getElem?_shift hne]
    cases hb : f.bodies[s.pc]? with
    | none => rfl
    | some b =>
      refine execBody_transport (by simp) (by simp) (deleteInstr_cases hv.body hv.op)
        (shift_succ hne) (fun l (_ : True) => deleteInstr_jumpTo hv.inside l)
        (fun _ _ => trivial) (fun _ _ => trivial) (fun r hr => hst.regs r ?_) _
      rintro rfl
      exact not_mem_sees hf hv.body hv.op hv.unused hb hne hr
  unfold machine
  rw [hexec]
  generalize exec x m f s.regs s.pc s.world s.handlers = e
  have hregs := setRegs_congr hst.regs e.writes
  simp only [Done.moved]
  cases e.ctl with
  | «at» pc => exact .next ⟨rfl, hregs, rfl, rfl⟩
  | exit r =>
    have hmap : (m.upSlots f).map (setRegs t.regs e.writes) =
        (m.upSlots f).map (setRegs s.regs e.writes) :=
      map_congr_left fun q hq => hregs q fun h => hcells (h ▸ hq)
    simp only [Ctl.map, upSlots_deleteInstr, hmap]
    exact .done

/-- The victim writes its destination and falls through: the one silent step. -/
theorem Victim.silent (hv : Victim m f ii v d) {s : State V W} (hpc : s.pc = ii) :
    ∃ u, machine x m f s = .next [] { s with pc := ii + 1, regs := setRegs s.regs [(d, u)] } := by
  have hcls : v.op.cls = .copy := by rcases hv.op with h | h <;> simp [h, Op.cls]
  have hwrites := f.writes_copy (k := ii) hcls (cgSlot_of_regSlot hv.dst)
  refine ⟨operand x m f s.regs s.world (v.arg 1), ?_⟩
  unfold machine exec
  rw [hpc, hv.body]
  simp [execBody, hcls, hwrites]

/-- Deleting a victim is not observed. -/
theorem Victim.obsEq (hf : WellSpelled f) (hv : Victim m f ii v d)
    {s t : State V W} (hst : Beside ii d s t) :
    ObsEq (machine x m f) (machine x m (deleteInstr f ii)) s t := by
  suffices hskip : Skip (machine x m f) (machine x m (deleteInstr f ii)) (Beside ii d) from
    hskip.obsEq hst
  intro s t hst
  by_cases hpc : s.pc = ii
  · obtain ⟨u, hstep⟩ := hv.silent hpc
    refine Or.inr ⟨_, hstep, hv.lockstep hf ⟨?_, ?_, hst.world, hst.handlers⟩ (by simp)⟩
    · rw [hst.pc, hpc]
      simp [shift]
    · intro r hr
      simp [setRegs, Function.update_of_ne hr, hst.regs r hr]
  · exact Or.inl (hv.lockstep hf hst hpc)

theorem beside_entry (args : List V) (w : W) :
    Beside ii d (entry x f args w) (entry x (deleteInstr f ii) args w) := by
  refine ⟨by simp [entry, shift], fun r _ => by simp [entry], rfl, rfl⟩

end

/-! ### The loop -/

/-- The body ends in `RET`. -/
def EndsRet (f : Func) : Prop := ∃ b, f.bodies.getLast? = some b ∧ b.op = .ret

theorem bodies_length (f : Func) : f.bodies.length = f.instrs.length := by simp [Func.bodies]

/-- The victim `dce_func` finds is deletable: it is not the last instruction, a `RET`. -/
theorem findVictim_inv {m : Module} {f : Func} (hret : EndsRet f)
    (h : findVictim m f = some ii) : ∃ v d, Victim m f ii v d := by
  obtain ⟨v, d, hv, hop, hd, hun⟩ := isVictim_inv (find?_some h)
  have hlt := findVictim_lt h
  obtain ⟨b, hb, hbop⟩ := hret
  refine ⟨v, d, hv, hop, hd, hun, ?_⟩
  by_contra hlast
  rw [getLast?_eq_getElem?, bodies_length, show f.instrs.length - 1 = ii by omega, hv] at hb
  cases hb
  rcases hop with h | h <;> simp [h] at hbop

theorem Victim.wellSpelled {m : Module} {f : Func}
    (hv : Victim m f ii v d) (hf : WellSpelled f) : WellSpelled (deleteInstr f ii) := by
  have hsub {b : Body} (h : b ∈ (deleteInstr f ii).bodies) : b ∈ f.bodies := by
    rw [deleteInstr_bodies hv.lt] at h
    exact mem_of_mem_eraseIdx h
  exact fun b hb => hf b (hsub hb)

theorem Victim.endsRet {m : Module} {f : Func}
    (hv : Victim m f ii v d) (hret : EndsRet f) : EndsRet (deleteInstr f ii) := by
  obtain ⟨b, hb, hop⟩ := hret
  have hlen := deleteInstr_length hv.lt
  have hin := hv.inside
  refine ⟨b, ?_, hop⟩
  rw [getLast?_eq_getElem?, bodies_length] at hb ⊢
  have hshift : (deleteInstr f ii).instrs.length - 1 = shift ii (f.instrs.length - 1) := by
    unfold shift
    split <;> omega
  rw [deleteInstr_bodies hv.lt, hshift, getElem?_shift (by omega), hb]

theorem dceLoop_wellSpelled {m : Module} {f : Func} (hf : WellSpelled f) (hret : EndsRet f) :
    WellSpelled (dceLoop m f) := by
  induction f using dceLoop.induct (m := m) with
  | case1 f ii h ih =>
    obtain ⟨v, d, hv⟩ := findVictim_inv hret h
    rw [dceLoop, h]
    exact ih (hv.wellSpelled hf) (hv.endsRet hret)
  | case2 f h =>
    rw [dceLoop, h]
    exact hf

section

variable {V W : Type*} {x : Runtime V W} {m : Module}

theorem dceLoop_obsEq {f : Func} (hf : WellSpelled f) (hret : EndsRet f) (args : List V) (w : W) :
    ObsEq (machine x m f) (machine x m (dceLoop m f)) (entry x f args w)
      (entry x (dceLoop m f) args w) := by
  induction f using dceLoop.induct (m := m) with
  | case1 f ii h ih =>
    obtain ⟨v, d, hv⟩ := findVictim_inv hret h
    rw [dceLoop, h]
    exact (hv.obsEq hf (beside_entry args w)).trans (ih (hv.wellSpelled hf) (hv.endsRet hret))
  | case2 f h =>
    rw [dceLoop, h]
    exact ObsEq.refl _ _

/-! ### Labels nothing names -/

@[simp] theorem pruneLabels_bodies (f : Func) : (pruneLabels f).bodies = f.bodies := by
  simp [pruneLabels, Func.bodies, Function.comp_def]

theorem pruneLabels_cases (f : Func) (k : Nat) : (pruneLabels f).cases k = f.cases k := by
  simp [Func.cases]

variable {l : Str}

theorem pruneLabels_labelIdx {f : Func} (h : l ∈ liveLabels f) :
    (pruneLabels f).labelIdx l = f.labelIdx l := by
  simp only [Func.labelIdx, pruneLabels, findIdx?_map]
  congr 1
  funext i
  simp [h]

/-- Every jump names a live label. -/
theorem mem_liveLabels {f : Func} (hf : WellSpelled f) {k : Nat} {b : Body}
    (hb : f.bodies[k]? = some b) (hl : l ∈ f.targetsAt k b) : l ∈ liveLabels f := by
  have harg {c : Body} {j : Nat} (hlab : isLabel l = true) (h : l = c.arg j) : l ∈ c.args := by
    have hne : l ≠ [] := by rintro rfl; simp [isLabel] at hlab
    unfold Body.arg at h
    rw [getD_eq_getElem?_getD] at h
    cases hj : c.args[j]? with
    | none => simp [hj, hne] at h
    | some a => simpa [h, hj] using mem_of_getElem? hj
  obtain ⟨c, hc, j, hj, hlab⟩ := hf.target hb hl
  exact mem_filter.mpr ⟨mem_flatMap.mpr ⟨c, hc, harg hlab hj⟩, hlab⟩

theorem pruneLabels_exec {f : Func} (hf : WellSpelled f) {hs : List Str}
    (hhs : ∀ l ∈ hs, l ∈ liveLabels f) (rd : Nat → V) (pc : Nat) (w : W) :
    exec x m (pruneLabels f) rd pc w hs = exec x m f rd pc w hs ∧
      ∀ l ∈ (exec x m f rd pc w hs).handlers, l ∈ liveLabels f := by
  unfold exec
  rw [pruneLabels_bodies]
  cases hb : f.bodies[pc]? with
  | none => exact ⟨rfl, hhs⟩
  | some b =>
    refine ⟨?_, execBody_handlers (fun l => mem_liveLabels hf hb) hhs rd w⟩
    have hjump (l : Str) (hl : l ∈ liveLabels f) :
        (jumpTo (pruneLabels f) l : Ctl V) = (jumpTo f l).map id := by
      unfold jumpTo
      rw [pruneLabels_labelIdx hl]
      cases f.labelIdx l <;> rfl
    have hups : (pruneLabels f).ups = f.ups := rfl
    have hslots : m.upSlots (pruneLabels f) = m.upSlots f := rfl
    have hrun : execBody x m (pruneLabels f) rd (id pc) w hs b =
        (execBody x m f rd pc w hs b).moved id :=
      execBody_transport (g := id) hups hslots (pruneLabels_cases f pc) rfl hjump
        (fun l => mem_liveLabels hf hb) hhs (fun _ _ => rfl) w
    simpa using hrun

/-- Dropping labels nothing names is not observed: the handler stack holds live ones. -/
theorem pruneLabels_obsEq {f : Func} (hf : WellSpelled f) (args : List V) (w : W) :
    ObsEq (machine x m f) (machine x m (pruneLabels f)) (entry x f args w)
      (entry x (pruneLabels f) args w) := by
  suffices hlock : ∀ s t : State V W, (t = s ∧ ∀ l ∈ s.handlers, l ∈ liveLabels f) →
      SameOut (fun s t => t = s ∧ ∀ l ∈ s.handlers, l ∈ liveLabels f) (machine x m f s)
        (machine x m (pruneLabels f) t) from
    obsEq_of_lockstep hlock ⟨rfl, by simp [entry]⟩
  rintro s t ⟨rfl, hs⟩
  obtain ⟨hexec, hlive⟩ := pruneLabels_exec (x := x) (m := m) hf hs t.regs t.pc t.world
  unfold machine
  rw [hexec]
  generalize exec x m f t.regs t.pc t.world t.handlers = e at hlive
  dsimp only
  cases e.ctl with
  | «at» pc => exact .next ⟨rfl, hlive⟩
  | exit r => exact .done

/-! ### The frame -/

theorem shrinkFunc_eq (m : Module) (f : Func) : ∃ n, shrinkFunc m f = { f with nregs := n } := by
  unfold shrinkFunc
  extract_lets used want
  split
  · exact ⟨_, rfl⟩
  · exact ⟨f.nregs, rfl⟩

/-- The size of the frame is not observed. -/
theorem shrinkFunc_obsEq (f : Func) (args : List V) (w : W) :
    ObsEq (machine x m f) (machine x m (shrinkFunc m f)) (entry x f args w)
      (entry x (shrinkFunc m f) args w) := by
  obtain ⟨n, hn⟩ := shrinkFunc_eq m f
  rw [hn]
  exact ObsEq.refl _ _

/-! ### Dead-code elimination -/

end

/-! A function with a dead copy, over a runtime of numbers in which `RET` is the only
instruction performed. -/

/-- `L1: MOVE r1,r0; MOVE r2,r0; RET r1`: the second copy is dead. -/
def deadCopy : Func where
  name := ['f']
  nregs := 3
  nparams := 1
  instrs :=
    [{ op := .move, args := [newReg 1, newReg 0], labels := [newLabel 1] },
     { op := .move, args := [newReg 2, newReg 0] },
     { op := .ret, args := [newReg 1] }]

def numbers : Runtime Nat Unit where
  nil := 0
  unit := 0
  konst _ := 0
  upval _ _ := 0
  clear _ := none
  op _ _ vals _ w := { world := w, next := .ret (vals.headD 0) }

example : findVictim ⟨[], [deadCopy]⟩ deadCopy = some 1 := by decide

end Voila.Opt
