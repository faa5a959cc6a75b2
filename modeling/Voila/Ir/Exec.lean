import Voila.Ir.Shape
import Voila.Lib.Machine

/-!
# Voila.Ir.Exec

Running a function of the IR, as the emitted C runs it: registers in the frame,
handlers pushed and popped, one instruction after another.

What the instructions do with their operands is a parameter (`Runtime`): it says for
every instruction, from the operand values, the captured cells and the world (heap,
globals, channels, the call's arguments), which destinations get which values, which
captured cells another closure wrote meanwhile, and where control goes. Fixed here are
the parts no runtime function decides: `LOADK` and `MOVE`, `KILL`, `JUMP`, the
handler stack, and the instructions that emit nothing.

A register's value does not depend on which other registers hold the same object:
reference counts and the lifetimes that follow from them are not modelled.
-/

namespace Voila.Ir

open Lib List

/-- Where control goes after an instruction. -/
inductive Next (V : Type*)
  /-- On to the next instruction. -/
  | fall
  /-- To the `k`-th target. -/
  | goto (k : Nat)
  /-- Out of the function with a value. -/
  | ret (v : V)
  /-- An exception or a fault, to the innermost handler. -/
  | raise
  /-- The program stops. -/
  | halt

/-- What an instruction did. A missing value writes nothing. -/
structure Effect (V W : Type*) where
  writes : List (Option V) := []
  pokes : List (Option V) := []
  world : W
  next : Next V := .fall

/-- The runtime the emitted C calls. -/
structure Runtime (V W : Type*) where
  nil : V
  unit : V
  konst : Const → V
  /-- `vl_up`: a cell of an enclosing frame. -/
  upval : W → UpRef → V
  /-- What `KILL` writes over a value, if anything. -/
  clear : V → Option V
  /-- An instruction with its buffered select cases, on operand values and cells. -/
  op : Body → List Body → List V → List V → W → Effect V W

/-- An instruction performed, with the operand values it read. -/
structure Event (V : Type*) where
  body : Body
  vals : List V

structure State (V W : Type*) where
  pc : Nat
  regs : Nat → V
  world : W
  handlers : List Str

/-- How a run of a function ends. -/
inductive Exit (V : Type*)
  | ret (v : V)
  | raised
  | halted
  /-- A jump to a label that is not there (the C compiler refuses it). -/
  | lost

/-- The end of a run: how, and what it left in the world and the captured cells. -/
structure Result (V W : Type*) where
  exit : Exit V
  world : W
  cells : List V

/-- Where one instruction leaves control. -/
inductive Ctl (V : Type*)
  | at (pc : Nat)
  | exit (e : Exit V)

/-- One instruction executed. -/
structure Done (V W : Type*) where
  events : List (Event V) := []
  writes : List (Nat × V) := []
  world : W
  handlers : List Str
  ctl : Ctl V

/-- How the machine treats an opcode. -/
inductive OpClass
  /-- Nothing is emitted. -/
  | silent
  /-- `LOADK`, `MOVE`. -/
  | copy
  | kill
  | jump
  /-- `EHPUSH`. -/
  | push
  /-- `EHPOP`. -/
  | pop
  /-- The runtime decides. -/
  | perform
  deriving DecidableEq

def Op.cls : Op → OpClass
  | .comment | .drop | .selbeg | .selrecv | .selsend | .seldef => .silent
  | .loadk | .move => .copy
  | .kill => .kill
  | .jump => .jump
  | .ehpush => .push
  | .ehpop => .pop
  | _ => .perform

variable {V W : Type*}

/-- The `i`-th value goes to the `i`-th place, where there is one. -/
def paired : List Nat → List (Option V) → List (Nat × V)
  | r :: rs, some v :: vs => (r, v) :: paired rs vs
  | _ :: rs, none :: vs => paired rs vs
  | _, _ => []

theorem mem_of_mem_paired {rs : List Nat} {vs : List (Option V)} {p : Nat × V}
    (h : p ∈ paired rs vs) : p.1 ∈ rs ∧ some p.2 ∈ vs := by
  induction rs, vs using paired.induct with
  | case1 r rs v vs ih =>
    rcases mem_cons.mp h with rfl | h
    · exact ⟨mem_cons_self, mem_cons_self⟩
    · exact ⟨mem_cons_of_mem _ (ih h).1, mem_cons_of_mem _ (ih h).2⟩
  | case2 r rs vs ih =>
    exact ⟨mem_cons_of_mem _ (ih h).1, mem_cons_of_mem _ (ih h).2⟩
  | case3 rs vs h₁ h₂ =>
    unfold paired at h
    split at h
    · exact absurd rfl (h₁ _ _ _ _ rfl)
    · exact absurd rfl (h₂ _ _ _ rfl)
    · simp at h

/-- Writing registers in order. -/
def setRegs (regs : Nat → V) : List (Nat × V) → Nat → V
  | [] => regs
  | p :: ps => setRegs (Function.update regs p.1 p.2) ps

theorem setRegs_congr {g g' : Nat → V} {d : Nat} (h : ∀ r, r ≠ d → g' r = g r)
    (ws : List (Nat × V)) : ∀ r, r ≠ d → setRegs g' ws r = setRegs g ws r := by
  induction ws generalizing g g' with
  | nil => exact h
  | cons p ps ih =>
    refine ih fun r hr => ?_
    by_cases hp : r = p.1
    · simp [hp]
    · simp [Function.update_of_ne hp, h r hr]

/-- Writing over registers that differ. -/
theorem setRegs_agree {rd regs : Nat → V} {r : Nat} (ws : List (Nat × V))
    (h : r ∈ ws.map Prod.fst ∨ rd r = regs r) : setRegs rd ws r = setRegs regs ws r := by
  induction ws generalizing rd regs with
  | nil => simpa [setRegs] using h
  | cons p ws ih =>
    refine ih ?_
    by_cases hp : r = p.1
    · right
      rw [hp, Function.update_self, Function.update_self]
    · rw [Function.update_of_ne hp, Function.update_of_ne hp]
      simpa [hp] using h

section

variable (x : Runtime V W) (m : Module) (f : Func)

/-- `cg.operand`: the value of an operand text. -/
def operand (rd : Nat → V) (w : W) (s : Str) : V :=
  match regSlot s with
  | some n => rd n
  | none =>
    match constSlot s with
    | some k => (m.consts[k]?.map x.konst).getD x.nil
    | none =>
      match s with
      | '^' :: name => ((f.ups.find? (·.name = name)).map (x.upval w)).getD x.nil
      | _ => x.nil

/-- Jumping to a label. -/
def jumpTo (l : Str) : Ctl V :=
  match f.labelIdx l with
  | some k => .at k
  | none => .exit .lost

/-- Where an effect leaves control, and the handler stack after it: a raise goes to the
innermost handler and pops it. -/
def follow (pc : Nat) (b : Body) (hs : List Str) : Next V → Ctl V × List Str
  | .fall => (.at (pc + 1), hs)
  | .goto k =>
    match (f.targetsAt pc b)[k]? with
    | some l => (jumpTo f l, hs)
    | none => (.exit .lost, hs)
  | .ret v => (.exit (.ret v), hs)
  | .raise =>
    match hs with
    | [] => (.exit .raised, [])
    | l :: hs => (jumpTo f l, hs)
  | .halt => (.exit .halted, hs)

/-- The instruction `b` at `pc`, over a register file read by `rd`. -/
def execBody (rd : Nat → V) (pc : Nat) (w : W) (hs : List Str) (b : Body) : Done V W :=
  match b.op.cls with
  | .silent =>
    { world := w, handlers := hs, ctl := .at (pc + 1) }
  | .copy =>
    { writes := (f.writes pc b).map fun r => (r, operand x m f rd w (b.arg 1))
      world := w, handlers := hs, ctl := .at (pc + 1) }
  | .kill =>
    { writes := ((cgSlot (b.arg 0)).bind fun r => (x.clear (rd r)).map (r, ·)).toList
      world := w, handlers := hs, ctl := .at (pc + 1) }
  | .jump => { world := w, handlers := hs, ctl := jumpTo f (b.arg 0) }
  | .push => { world := w, handlers := b.arg 0 :: hs, ctl := .at (pc + 1) }
  | .pop => { world := w, handlers := hs.tail, ctl := .at (pc + 1) }
  | .perform =>
    let vals := (f.srcsAt pc b).map (operand x m f rd w)
    let e := x.op b (f.cases pc) vals ((m.upSlots f).map rd) w
    let c := follow f pc b hs e.next
    { events := [{ body := b, vals := vals }]
      writes := paired (f.writes pc b) e.writes ++ paired (m.upSlots f) e.pokes
      world := e.world, handlers := c.2, ctl := c.1 }

/-- The instruction at `pc`; past the last one control leaves with the unit value. -/
def exec (rd : Nat → V) (pc : Nat) (w : W) (hs : List Str) : Done V W :=
  match f.bodies[pc]? with
  | some b => execBody x m f rd pc w hs b
  | none => { world := w, handlers := hs, ctl := .exit (.ret x.unit) }

/-- The machine of a function whose registers are all boxed. -/
def machine : Machine (State V W) (Event V) (Result V W) := fun s =>
  let d := exec x m f s.regs s.pc s.world s.handlers
  let regs := setRegs s.regs d.writes
  match d.ctl with
  | .at pc => .next d.events { pc := pc, regs := regs, world := d.world, handlers := d.handlers }
  | .exit e =>
    .done d.events { exit := e, world := d.world, cells := (m.upSlots f).map regs }

/-- Entering the function: the declared parameters are spilled into the lowest
registers, the others are clear. -/
def entry (args : List V) (w : W) : State V W where
  pc := 0
  regs := fun r => if r < f.nparams then args.getD r x.nil else x.nil
  world := w
  handlers := []

end

/-! ### Running one function like another

A pass that moves, renames or relabels instructions keeps what each instruction does.
`execBody_transport` says so once: the instruction at `p` in `f` and the same instruction
at `g p` in `f'` do the same, and leave control at corresponding places, as soon as
the two functions agree on what the instruction looks at. -/

/-- The same outcome, with control moved along `g`. -/
def Ctl.map (g : Nat → Nat) : Ctl V → Ctl V
  | .at pc => .at (g pc)
  | .exit e => .exit e

def Done.moved (g : Nat → Nat) (d : Done V W) : Done V W := { d with ctl := d.ctl.map g }

@[simp] theorem Done.moved_id (d : Done V W) : d.moved id = d := by
  unfold Done.moved
  cases hc : d.ctl <;> simp [Ctl.map, ← hc]

/-- The registers an instruction looks at: its operands, the register a `KILL` clears,
and the captured cells. -/
def Func.sees (m : Module) (f : Func) (k : Nat) (b : Body) : List Nat :=
  f.reads k b ++ (if b.op = .kill then (cgSlot (b.arg 0)).toList else []) ++ m.upSlots f

section

variable {x : Runtime V W} {m : Module} {f f' : Func}

theorem operand_congr (hups : f'.ups = f.ups) {rd rd' : Nat → V} {w : W} {s : Str}
    (h : ∀ r, regSlot s = some r → rd' r = rd r) :
    operand x m f' rd' w s = operand x m f rd w s := by
  unfold operand
  cases hs : regSlot s with
  | none => simp only [hups]
  | some r => exact h r hs

variable {b : Body} {g : Nat → Nat} {good : Str → Prop} {hs : List Str} {p k : Nat} {o : Op}

theorem follow_transport
    (htargets : f'.targetsAt (g p) b = f.targetsAt p b) (hnext : g (p + 1) = g p + 1)
    (hjump : ∀ l, good l → (jumpTo f' l : Ctl V) = (jumpTo f l).map g)
    (hgood : ∀ l ∈ f.targetsAt p b, good l) (hhs : ∀ l ∈ hs, good l) (n : Next V) :
    follow f' (g p) b hs n = (((follow f p b hs n).1).map g, (follow f p b hs n).2) := by
  cases n with
  | fall => simp [follow, Ctl.map, hnext]
  | goto k =>
    simp only [follow, htargets]
    cases hl : (f.targetsAt p b)[k]? with
    | none => rfl
    | some l => simp [hjump l (hgood l (mem_of_getElem? hl))]
  | ret v => rfl
  | raise =>
    cases hs with
    | nil => rfl
    | cons l hs => simp [follow, hjump l (hhs l mem_cons_self)]
  | halt => rfl

theorem Op.cls_copy (h : o.cls = .copy) :
    o.srcs = [.arg 1] ∧ o.dsts = [.arg 0] ∧ o ≠ .selend ∧ ¬(o = .pmatch ∨ o = .parse) := by
  cases o <;> simp_all [Op.cls, Op.srcs, Op.dsts]

theorem Op.cls_kill (h : o.cls = .kill) : o = .kill := by
  cases o <;> simp_all [Op.cls]

theorem Op.cls_jump (h : o.cls = .jump ∨ o.cls = .push) : o.targets = [.arg 0] ∧ o ≠ .selend := by
  cases o <;> simp_all [Op.cls, Op.targets]

theorem Func.targetsAt_jump (h : b.op.cls = .jump ∨ b.op.cls = .push) :
    f.targetsAt k b = [b.arg 0] := by
  obtain ⟨ht, hs⟩ := Op.cls_jump h
  simp [Func.targetsAt, Body.targets, hs, ht, Body.resolve]

theorem Func.srcsAt_copy (h : b.op.cls = .copy) : f.srcsAt k b = [b.arg 1] := by
  obtain ⟨hr, -, hs, -⟩ := Op.cls_copy h
  simp [Func.srcsAt, Body.srcs, hs, hr, Body.resolve]

theorem Func.writes_copy {k d : Nat} (h : b.op.cls = .copy)
    (hd : cgSlot (b.arg 0) = some d) : f.writes k b = [d] := by
  obtain ⟨-, hw, hs, hp⟩ := Op.cls_copy h
  simp [Func.writes, Func.dstsAt, Body.dsts, hs, hp, hw, Body.resolve, hd]

/-- The instruction at `p` of `f` does the same at `g p` in `f'`. -/
theorem execBody_transport (hups : f'.ups = f.ups) (hslots : m.upSlots f' = m.upSlots f)
    (hcases : f'.cases (g p) = f.cases p) (hnext : g (p + 1) = g p + 1)
    (hjump : ∀ l, good l → (jumpTo f' l : Ctl V) = (jumpTo f l).map g)
    (hgood : ∀ l ∈ f.targetsAt p b, good l) (hhs : ∀ l ∈ hs, good l)
    {rd rd' : Nat → V} (hrd : ∀ r ∈ f.sees m p b, rd' r = rd r) (w : W) :
    execBody x m f' rd' (g p) w hs b = (execBody x m f rd p w hs b).moved g := by
  have hsrcs : f'.srcsAt (g p) b = f.srcsAt p b := by simp [Func.srcsAt, hcases]
  have htargets : f'.targetsAt (g p) b = f.targetsAt p b := by simp [Func.targetsAt, hcases]
  have hwrites : f'.writes (g p) b = f.writes p b := by
    simp [Func.writes, Func.dstsAt, hcases]
  have hcells : (m.upSlots f).map rd' = (m.upSlots f).map rd :=
    map_congr_left fun r hr => hrd r (by simp [Func.sees, hr])
  have hvals : ∀ s ∈ f.srcsAt p b, operand x m f' rd' w s = operand x m f rd w s := by
    refine fun s hs => operand_congr hups fun r hr => hrd r ?_
    simp only [Func.sees, Func.reads, mem_append, mem_filterMap]
    exact Or.inl (Or.inl ⟨s, hs, hr⟩)
  unfold execBody
  cases hc : b.op.cls with
  | silent => simp [Done.moved, Ctl.map, hnext]
  | copy =>
    have hv := hvals (b.arg 1) (by simp [f.srcsAt_copy hc])
    simp [Done.moved, Ctl.map, hnext, hwrites, hv]
  | kill =>
    have hr : ∀ r ∈ cgSlot (b.arg 0), rd' r = rd r := by
      refine fun r hr => hrd r ?_
      simp [Func.sees, Op.cls_kill hc, Option.mem_def.mp hr]
    simp only [Done.moved, Ctl.map, hnext]
    cases hd : cgSlot (b.arg 0) with
    | none => rfl
    | some r => simp [hr r hd]
  | jump =>
    have hl := hgood (b.arg 0) (by simp [f.targetsAt_jump (Or.inl hc)])
    simp [Done.moved, hjump _ hl]
  | push => simp [Done.moved, Ctl.map, hnext]
  | pop => simp [Done.moved, Ctl.map, hnext]
  | perform =>
    have hlist := map_congr_left hvals
    simp only [hsrcs, hlist, hcases, hslots, hcells, hwrites,
      follow_transport htargets hnext hjump hgood hhs, Done.moved]

/-- Only labels an `EHPUSH` names get onto the handler stack. -/
theorem execBody_handlers (hgood : ∀ l ∈ f.targetsAt p b, good l) (hhs : ∀ l ∈ hs, good l)
    (rd : Nat → V) (w : W) : ∀ l ∈ (execBody x m f rd p w hs b).handlers, good l := by
  unfold execBody
  cases hc : b.op.cls with
  | silent | copy | kill | jump => simpa using hhs
  | push =>
    have hl := hgood (b.arg 0) (by simp [f.targetsAt_jump (Or.inr hc)])
    simpa using ⟨hl, hhs⟩
  | pop => exact fun l hl => hhs l (mem_of_mem_tail hl)
  | perform =>
    dsimp only
    generalize (x.op b (f.cases p) _ _ w).next = n
    cases n with
    | fall | ret v | halt => simpa [follow] using hhs
    | goto k =>
      simp only [follow]
      split <;> simpa using hhs
    | raise =>
      cases hs with
      | nil => simp [follow]
      | cons l hs => exact fun l' hl' => hhs l' (mem_cons_of_mem _ hl')

end

/-! ### Runs -/

section

variable (x : Runtime V W) (m : Module) (f : Func)

/-- The states a run from `s₀` reaches, with the registers written so far (the parameters
are from the start), as long as every state it leaves is `ok`. -/
inductive Run (ok : State V W → List Nat → Prop) (s₀ : State V W) : State V W → List Nat → Prop
  | start : Run ok s₀ s₀ (List.range f.nparams)
  | step {s s' : State V W} {written : List Nat} {ev : List (Event V)} :
      Run ok s₀ s written → ok s written → machine x m f s = .next ev s' →
      Run ok s₀ s' (written ++ (exec x m f s.regs s.pc s.world s.handlers).writes.map Prod.fst)

/-- A step goes where the executed instruction says, with its writes done. -/
theorem machine_next {s s' : State V W} {ev : List (Event V)}
    (h : machine x m f s = .next ev s') :
    s'.regs = setRegs s.regs (exec x m f s.regs s.pc s.world s.handlers).writes := by
  unfold machine at h
  dsimp only at h
  split at h
  · simp only [Out.next.injEq] at h
    rw [← h.2]
  · exact absurd h (by simp)

end

/-- A register after writes holds one of the values written to it, or its old one. -/
theorem setRegs_cases (ws : List (Nat × V)) (regs : Nat → V) (r : Nat) :
    (r, setRegs regs ws r) ∈ ws ∨ (r ∉ ws.map Prod.fst ∧ setRegs regs ws r = regs r) := by
  induction ws generalizing regs with
  | nil => exact Or.inr ⟨by simp, rfl⟩
  | cons p ws ih =>
    rcases ih (Function.update regs p.1 p.2) with h | ⟨hn, h⟩
    · exact Or.inl (mem_cons_of_mem _ h)
    · by_cases hp : r = p.1
      · refine Or.inl (mem_cons.mpr (Or.inl ?_))
        have hv : setRegs regs (p :: ws) r = p.2 := by
          rw [setRegs, h, hp, Function.update_self]
        rw [hv, hp]
      · refine Or.inr ⟨by simpa [hp] using hn, ?_⟩
        rw [setRegs, h, Function.update_of_ne hp]

end Voila.Ir
