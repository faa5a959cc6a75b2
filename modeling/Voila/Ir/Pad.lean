import Voila.Ir.Cfg

/-!
# Voila.Ir.Pad

Instructions a pass adds and no run notices: notes for the listing, and `KILL`s of dead registers.

`Padded` lays the padded code over the plain code. A run of the padded code is the run of the plain code with
silent steps between (`Stutter`), and all but the dead registers hold the same (`Under`).
-/

namespace Voila.Ir

open Lib List

/-- From `k` on nothing looks at `r` before it is overwritten; the `kept` registers are looked at elsewhere, too. -/
def Dead (kept : Nat → Prop) (f : Func) (k r : Nat) : Prop := ¬kept r ∧ ¬ReadsFirst f r k

/-- The instruction does nothing, or clears a register that is dead. -/
def Idle (kept : Nat → Prop) (f : Func) (k : Nat) (b : Body) : Prop :=
  b.op.cls = .silent ∨ b.op.cls = .kill ∧ ∀ r, cgSlot (b.arg 0) = some r → Dead kept f k r

/-- `F` is `f` with idle instructions in it: at `p` the next instruction of `f` is the one at `g p`. -/
structure Padded (m : Module) (kept : Nat → Prop) (f F : Func) (g : Nat → Nat) : Prop where
  ups : f.ups = F.ups
  slots : m.upSlots f = m.upSlots F
  params : F.nparams = f.nparams
  start : g 0 = 0
  label : ∀ l, f.labelIdx l = (F.labelIdx l).map g
  ended : ∀ p, F.bodies[p]? = none → f.bodies[g p]? = none
  code : ∀ p b, F.bodies[p]? = some b →
    f.bodies[g p]? = some b ∧ f.cases (g p) = F.cases p ∧ g (p + 1) = g p + 1 ∨
      Idle kept f (g p) b ∧ g (p + 1) = g p

/-- The state of the padded code and that of the plain code. -/
structure Under {V W : Type*} (kept : Nat → Prop) (f : Func) (g : Nat → Nat) (s t : State V W) : Prop where
  pc : t.pc = g s.pc
  world : t.world = s.world
  handlers : t.handlers = s.handlers
  pushed : ∀ l ∈ t.handlers, Pushed f l
  regs : ∀ r, t.regs r = s.regs r ∨ Dead kept f t.pc r

section

variable {V W : Type*} {x : Runtime V W} {m : Module} {kept : Nat → Prop} {f F : Func} {g : Nat → Nat}

variable {s t : State V W} {b : Body} {k j r : Nat}

/-- A dead register stays dead, unless it is written. -/
theorem Dead.edge {c : Bool} (hd : Dead kept f k r) (he : Edge f c k j)
    (hkeep : c = true → ∀ b, f.bodies[k]? = some b → r ∉ f.writes k b) : Dead kept f j r := by
  refine ⟨hd.1, ?_⟩
  rintro ⟨q, b, hflow, hb, hr⟩
  exact hd.2 ⟨q, b, .step he hkeep hflow, hb, hr⟩

/-! ### The steps that write nothing another instruction reads -/

theorem exec_at {rd : Nat → V} {w : W} {hs : List Str} (hb : f.bodies[k]? = some b) :
    exec x m f rd k w hs = execBody x m f rd k w hs b := by
  rw [exec, hb]

theorem machine_silent (hb : f.bodies[s.pc]? = some b) (hc : b.op.cls = .silent) :
    machine x m f s = .next [] { s with pc := s.pc + 1 } := by
  simp [machine, exec, hb, execBody, hc, setRegs]

/-- A `KILL` steps on, and changes at most the register it names. -/
theorem machine_kill (hb : f.bodies[s.pc]? = some b) (hc : b.op.cls = .kill) :
    ∃ regs, machine x m f s = .next [] { s with pc := s.pc + 1, regs := regs } ∧ ∀ r, regs r =
      if cgSlot (b.arg 0) = some r then (x.clear (s.regs r)).getD (s.regs r) else s.regs r := by
  refine ⟨_, by simp only [machine, exec, hb, execBody, hc]; rfl, fun r => ?_⟩
  cases cgSlot (b.arg 0) with
  | none => simp [setRegs]
  | some q =>
    by_cases hq : q = r
    · subst hq
      cases hv : x.clear (s.regs q) <;> simp [setRegs, hv]
    · cases hv : x.clear (s.regs q) <;> simp [setRegs, hv, hq, Function.update_of_ne (Ne.symm hq)]

/-! ### One step -/

/-- An instruction of the plain code that is no `KILL` does the same in the padded code. -/
theorem Padded.lockstep (hP : Padded m kept f F g) (hkept : ∀ r ∈ m.upSlots f, kept r)
    (hx : ∀ r, ¬kept r → Fills x f kept) (h : Under kept f g s t) (hB : F.bodies[s.pc]? = some b)
    (hb : f.bodies[g s.pc]? = some b) (hcases : f.cases (g s.pc) = F.cases s.pc) (hnext : g (s.pc + 1) = g s.pc + 1)
    (hkill : b.op.cls ≠ .kill) : SameOut (Under kept f g) (machine x m F s) (machine x m f t) := by
  have same (r : Nat) (hr : kept r) : t.regs r = s.regs r := (h.regs r).resolve_right fun hd => hd.1 hr
  have sees : ∀ r ∈ F.sees m s.pc b, t.regs r = s.regs r := by
    intro r hr
    have hop : b.op ≠ .kill := fun hop => hkill (by rw [hop]; rfl)
    rw [Func.sees, if_neg hop, append_nil, mem_append, ← hP.slots] at hr
    rcases hr with hr | hr
    · refine (h.regs r).resolve_right fun hd => hd.2 ⟨t.pc, b, .refl _, h.pc ▸ hb, ?_⟩
      rw [h.pc]
      simpa [Func.reads, Func.srcsAt, hcases] using hr
    · exact same r (hkept r hr)
  have jumps (l : Str) : (jumpTo f l : Ctl V) = (jumpTo F l).map g := by
    unfold jumpTo
    rw [hP.label l]
    cases F.labelIdx l <;> rfl
  have hb' : f.bodies[t.pc]? = some b := h.pc ▸ hb
  have run : execBody x m f t.regs t.pc t.world t.handlers b =
      (execBody x m F s.regs s.pc s.world s.handlers b).moved g := by
    rw [h.pc, h.world, h.handlers]
    exact execBody_transport hP.ups hP.slots hcases hnext (fun l (_ : True) => jumps l)
      (fun _ _ => trivial) (fun _ _ => trivial) sees _
  have pushed : ∀ l ∈ (exec x m f t.regs t.pc t.world t.handlers).handlers, Pushed f l := exec_pushed h.pushed
  have edge {r p : Nat} (hr : ¬kept r) (hp : (execBody x m f t.regs t.pc t.world t.handlers b).ctl = .at p) :=
    execBody_edge (hx r hr) hb' h.pushed hp
  rw [exec_at hb', run] at pushed
  rw [run] at edge
  unfold machine
  rw [exec_at hB, exec_at hb', run]
  generalize execBody x m F s.regs s.pc s.world s.handlers b = d at pushed edge
  unfold Done.moved at pushed edge ⊢
  dsimp only at pushed edge ⊢
  -- a register the step has not written holds what it held, or is dead still
  cases hc : d.ctl with
  | «at» pc =>
    refine .next ⟨rfl, rfl, rfl, pushed, fun r => ?_⟩
    by_cases hw : r ∈ d.writes.map Prod.fst
    · exact Or.inl (setRegs_agree d.writes (Or.inl hw))
    · refine (h.regs r).imp (fun heq => setRegs_agree d.writes (Or.inr heq)) fun hd => ?_
      obtain ⟨c, he, hfall⟩ := edge hd.1 (by rw [hc]; rfl)
      refine hd.edge he fun hc c hc' hr => ?_
      obtain rfl := Option.some.inj (hb'.symm.trans hc')
      exact (hfall hc r hr).elim hd.1 hw
  | exit e =>
    have cells : (m.upSlots F).map (setRegs s.regs d.writes) = (m.upSlots f).map (setRegs t.regs d.writes) := by
      rw [hP.slots]
      exact map_congr_left fun r hr => (setRegs_agree d.writes (Or.inr (same r (hkept r (hP.slots ▸ hr))))).symm
    dsimp only [Ctl.map]
    rw [cells]
    exact .done

/-- What a `KILL` of the plain code leaves unlike in the two files was dead, and is still. -/
theorem Padded.kill (h : Under kept f g s t) (hB : F.bodies[s.pc]? = some b) (hb : f.bodies[g s.pc]? = some b)
    (hnext : g (s.pc + 1) = g s.pc + 1) (hkill : b.op.cls = .kill) :
    SameOut (Under kept f g) (machine x m F s) (machine x m f t) := by
  rw [← h.pc] at hb
  obtain ⟨regs, here, hregs⟩ := machine_kill (x := x) (m := m) hB hkill
  obtain ⟨regs', there, hregs'⟩ := machine_kill (x := x) (m := m) hb hkill
  rw [here, there]
  refine .next ⟨by rw [hnext, h.pc], h.world, h.handlers, h.pushed, fun r => ?_⟩
  obtain heq | hd := h.regs r
  · left
    dsimp only
    rw [hregs, hregs', heq]
  right
  have falls : b.op.ends = false := by
    rw [Op.cls_kill hkill]
    rfl
  refine hd.edge (.fall hb falls) fun _ c hc => ?_
  obtain rfl := Option.some.inj (hb.symm.trans hc)
  simp [Func.writes_none (f := f) (k := t.pc) (b := b) (by simp [hkill]) (by simp [hkill])]

/-- An idle instruction is a silent step on the way to the next instruction of the plain code. -/
theorem Padded.idle (h : Under kept f g s t) (hB : F.bodies[s.pc]? = some b) (hidle : Idle kept f (g s.pc) b)
    (hnext : g (s.pc + 1) = g s.pc) :
    ∃ s', machine x m F s = .next [] s' ∧ Under kept f g s' t ∧ s'.pc = s.pc + 1 := by
  obtain hc | ⟨hc, hdead⟩ := hidle
  · exact ⟨_, machine_silent hB hc, ⟨hnext ▸ h.pc, h.world, h.handlers, h.pushed, h.regs⟩, rfl⟩
  · obtain ⟨regs, here, hregs⟩ := machine_kill (x := x) (m := m) hB hc
    refine ⟨_, here, ⟨hnext ▸ h.pc, h.world, h.handlers, h.pushed, fun r => ?_⟩, rfl⟩
    by_cases hr : cgSlot (b.arg 0) = some r
    · exact Or.inr (h.pc ▸ hdead r hr)
    · dsimp only
      rw [hregs, if_neg hr]
      exact h.regs r

theorem Padded.stutter (hP : Padded m kept f F g) (hkept : ∀ r ∈ m.upSlots f, kept r)
    (hx : ∀ r, ¬kept r → Fills x f kept) :
    Stutter (machine x m F) (machine x m f) (Under kept f g) fun s _ => F.bodies.length - s.pc := by
  intro s t h
  cases hB : F.bodies[s.pc]? with
  | none =>
    -- behind the last instruction both leave with the unit value
    have hb : f.bodies[t.pc]? = none := h.pc ▸ hP.ended _ hB
    have cells : (m.upSlots F).map s.regs = (m.upSlots f).map t.regs := by
      rw [hP.slots]
      exact map_congr_left fun r hr => ((h.regs r).resolve_right fun hd => hd.1 (hkept r (hP.slots ▸ hr))).symm
    left
    simp only [machine, exec, hB, hb, setRegs, cells, h.world]
    exact .done
  | some b =>
    obtain ⟨hb, hcases, hnext⟩ | ⟨hidle, hnext⟩ := hP.code _ b hB
    · left
      by_cases hkill : b.op.cls = .kill
      · exact Padded.kill h hB hb hnext hkill
      · exact hP.lockstep hkept hx h hB hb hcases hnext hkill
    · right
      obtain ⟨s', hs, hrel, hpc⟩ := Padded.idle (x := x) (m := m) h hB hidle hnext
      have hlt := (List.getElem?_eq_some_iff.mp hB).1
      refine ⟨s', hs, hrel, ?_⟩
      dsimp only
      omega

/-- Idle instructions are not observed. -/
theorem Padded.obsEq (hP : Padded m kept f F g) (hkept : ∀ r ∈ m.upSlots f, kept r)
    (hx : ∀ r, ¬kept r → Fills x f kept) (args : List V) (w : W) :
    ObsEq (machine x m F) (machine x m f) (entry x F args w) (entry x f args w) := by
  refine (hP.stutter hkept hx).obsEq ⟨hP.start.symm, rfl, rfl, by simp [entry], fun r => Or.inl ?_⟩
  simp [entry, hP.params]

end

end Voila.Ir
