import Voila.Cg.NativeEval

/-!
# Voila.Cg.NativeSound

A function run with native registers cannot be told from the same function run boxed.

One native step is the boxed step over the registers seen through their boxes
(`execTyped_matches`). The two register files then differ only in native registers never
written, where the boxed file holds nil and the local zero; runs that read no such
register go in lockstep (`typeFunc_native_obsEq`).
-/

namespace Voila.Cg

open Ir Lib Rt Opt List

variable {F O W : Type*}

/-- What the native forms of a function rest on, besides its types: a branch names its
condition as lowering writes registers, no sized `//` has a float operand, and every float
constant in an operand is `Spelled`. -/
structure Emittable (m : Module) (f : Func) : Prop where
  branch : ∀ b ∈ f.bodies, b.op = .jmpf ∨ b.op = .jmpt → ∀ n ∈ cgSlot (b.arg 0),
    b.arg 0 = newReg n
  idiv : ∀ b ∈ f.bodies, b.op = .idiv → b.args.length > 3 →
    operandType m (b.arg 1) f.regT ≠ .float ∧ operandType m (b.arg 2) f.regT ≠ .float
  const : ∀ b ∈ f.bodies, ∀ a ∈ b.srcs, ∀ k c, constSlot a = some k → m.consts[k]? = some c →
    c.kind = .float → Spelled c.text

/-- What the typing pass promises about the table a function carries. -/
structure Unboxed (m : Module) (f : Func) : Prop where
  dst : ∀ k b, f.bodies[k]? = some b → ∀ r ∈ f.writes k b, rt f.regT r ≠ .box →
    b.op.dsts = [.arg 0] ∧ cgSlot (b.arg 0) = some r ∧ defType m b f.regT = some (rt f.regT r)
  ups : ∀ r ∈ m.upSlots f, rt f.regT r = .box
  seen : ∀ r, rt f.regT r ≠ .unseen

/-! ### The table -/

theorem constType_ne_unseen (m : Module) (a : Str) : constType m a ≠ .unseen := by
  unfold constType
  split
  · split <;> simp
  · simp

theorem operandType_ne_unseen {m : Module} {t : List RegType} (h : ∀ r, rt t r ≠ .unseen)
    (a : Str) : operandType m a t ≠ .unseen := by
  unfold operandType
  split
  · exact h _
  · exact constType_ne_unseen m a

theorem cls_of_dsts {o : Op} (h : o.dsts = [.arg 0]) : o.cls = .copy ∨ o.cls = .perform := by
  cases o <;> simp_all [Op.dsts, Op.cls]

theorem resultType_ne_unseen (op : ArithOp) (x y : RegType) : resultType op x y ≠ .unseen := by
  cases op <;> simp only [resultType] <;> first | decide | (split <;> decide)

/-- Where no register is unseen, no definition is. -/
theorem defType_ne_unseen {m : Module} {t : List RegType} (h : ∀ r, rt t r ≠ .unseen) {b : Body}
    (hd : b.op.dsts = [.arg 0]) : defType m b t ≠ some .unseen := by
  intro hn
  rcases cls_of_dsts hd with hc | hc
  · cases hop : b.op <;> rw [hop] at hc <;> first | exact absurd hc (by decide) | skip
    · exact constType_ne_unseen m (b.arg 1) (by simpa [defType, hop] using hn)
    · exact operandType_ne_unseen h (b.arg 1) (by simpa [defType, hop] using hn)
  · cases defType_native hn (by simp) hc with
    | arith _ _ _ hnt => exact resultType_ne_unseen _ _ _ hnt.symm
    | neg _ hx hnt =>
      rw [← hnt] at hx
      simp at hx
    | bits _ _ _ hnt | equal _ _ _ hnt | not _ _ hnt | bnot _ _ hnt => exact absurd hnt (by simp)

theorem unboxed_of_typed {m : Module} {f : Func} (ht : Typed m f f.regT) (hf : WellSpelled f) :
    Unboxed m f := by
  refine ⟨fun k b hb r hr hbox => ?_, fun r hr => ht.hidden r ?_, ht.seen⟩
  · obtain ⟨hd, hreg, nt, hnt, hj⟩ := ht.native_dst hf hb hr hbox
    have hne : nt ≠ .unseen := fun h => defType_ne_unseen ht.seen hd (h ▸ hnt)
    rw [eq_of_join_eq hj hbox hne] at hnt
    exact ⟨hd, cgSlot_of_regSlot hreg, hnt⟩
  · simp [pinned, hr]

/-- A function with an empty table has no native register. -/
theorem unboxed_of_nil {m : Module} {f : Func} (h : f.regT = []) : Unboxed m f := by
  have hbox (r : Nat) : rt f.regT r = .box := by simp [rt, h]
  exact ⟨fun k b _ r _ hr => absurd (hbox r) hr, fun r _ => hbox r, fun r => by simp [hbox r]⟩

/-! ### The two register files -/

section

variable {t : List RegType} {l : Locals F} {frame : Nat → Value F O}

theorem reg_box {r : Nat} (h : rt t r = .box) : reg t l frame r = frame r := by
  simp [reg, h]

theorem reg_frame_congr {frame' : Nat → Value F O} {r : Nat}
    (h : rt t r ≠ .int → rt t r ≠ .float → rt t r ≠ .bool → frame' r = frame r) :
    reg t l frame' r = reg t l frame r := by
  unfold reg
  cases ht : rt t r <;> simp_all

/-- Boxed writes, seen through the boxes. -/
theorem reg_setRegs {ws : List (Nat × Value F O)} (h : ∀ p ∈ ws, rt t p.1 = .box) (r : Nat) :
    reg t l (setRegs frame ws) r = setRegs (reg t l frame) ws r := by
  induction ws generalizing frame with
  | nil => rfl
  | cons p ws ih =>
    have hp := h p mem_cons_self
    have hview : reg t l (Function.update frame p.1 p.2) =
        Function.update (reg t l frame) p.1 p.2 := by
      funext q
      by_cases hq : q = p.1
      · subst hq
        rw [reg_box hp, Function.update_self, Function.update_self]
      · rw [Function.update_of_ne hq]
        exact reg_frame_congr fun _ _ _ => Function.update_of_ne hq _ _
    rw [setRegs, setRegs, ih fun q hq => h q (mem_cons_of_mem _ hq), hview]

/-- A native write, seen through the boxes. -/
theorem reg_set (o : FloatOps F) {d : Nat} {n : NVal F} (hbox : rt t d ≠ .box)
    (hn : HasType (rt t d) (n.box : Value F O)) (r : Nat) :
    reg t (l.set o (rt t d) d n) frame r = setRegs (reg t l frame) [(d, n.box)] r := by
  simp only [setRegs]
  by_cases hr : r = d
  · subst hr
    rw [Function.update_self]
    unfold reg
    cases n <;> cases ht : rt t r <;>
      simp_all [HasType, NVal.box, Locals.set, NVal.asInt, NVal.asFloat, NVal.asBool]
  · rw [Function.update_of_ne hr]
    unfold reg
    cases ht : rt t r <;> cases hd : rt t d <;> simp [Locals.set, Function.update_of_ne hr]

end

/-! ### One native instruction -/

section

variable {x : Base F O W} {m : Module} {f : Func}

variable {e : CExpr} {hs : List Str} {rd : Nat → Value F O} {s : NState F O W}

/-- The opcodes with a native right-hand side. -/
theorem emitRhs_op {b : Body} {t : RegType} (h : emitRhs m f b t = some e) :
    b.op.cls = .copy ∨ nativeOp b.op = true := by
  cases hop : b.op <;> first | exact Or.inl rfl | exact Or.inr rfl | simp [emitRhs, hop, cmpOf] at h

theorem writes_native {k d : Nat} {b : Body} (h : nativeOp b.op = true)
    (hd : cgSlot (b.arg 0) = some d) : f.writes k b = [d] ∧ b.op.dsts = [.arg 0] ∧
      b.op.cls = .perform := by
  cases hop : b.op <;> rw [hop] at h <;>
    first
    | exact absurd h (by decide)
    | exact ⟨by simp [Func.writes, Func.dstsAt, Body.dsts, hop, Op.dsts, Body.resolve, hd], rfl, rfl⟩

/-- The boxed step of a native instruction with right-hand side `e`. -/
def execSet (x : Base F O W) (m : Module) (f : Func) (rd : Nat → Value F O) (l : Locals F)
    (pc : Nat) (w : W) (hs : List Str) (b : Body) (d : Nat) (e : CExpr) : Done (Value F O) W :=
  let vals := (f.srcsAt pc b).map (operand (runtime x) m f rd w)
  let events := if b.op.cls = .perform then [{ body := b, vals := vals }] else []
  match e.eval x.floats l with
  | .ok n =>
    { events := events, writes := [(d, n.box)], world := w, handlers := hs, ctl := .at (pc + 1) }
  | .error t =>
    let c := follow f pc b hs .raise
    { events := events, world := x.throw w (.num t), handlers := c.2, ctl := c.1 }

/-- What the runtime does for a value instruction, once it computes. -/
theorem execBody_compute {b : Body} {d pc : Nat} {w : W}
    {l : Locals F} (hop : nativeOp b.op = true) (hd : cgSlot (b.arg 0) = some d)
    (hc : compute x.floats b ((f.srcsAt pc b).map (operand (runtime x) m f rd w)) =
      some (ofNum (e.eval x.floats l) NVal.box)) :
    execBody (runtime x) m f rd pc w hs b = execSet x m f rd l pc w hs b d e := by
  obtain ⟨hw, hdst, hcls⟩ := writes_native (f := f) (k := pc) hop hd
  unfold execBody execSet
  simp only [hcls, if_true]
  rw [show (runtime x).op = perform x from rfl, perform_compute hdst hc, hw]
  cases e.eval x.floats l with
  | ok n => simp [ofNum, Rt.settle, follow, paired]
  | error t => simp [ofNum, Rt.settle, paired]

/-- A value seen through the boxes has its register's type. -/
theorem view_hasType (hT : Unboxed m f) (l : Locals F) (frame : Nat → Value F O) (w : W) (a : Str) :
    HasType (operandType m a f.regT) (operand (runtime x) m f (reg f.regT l frame) w a) := by
  refine operand_hasType fun r _ => ?_
  have hs := hT.seen r
  unfold reg
  cases hty : rt f.regT r with
  | int | float | bool => trivial
  | box => exact hasType_box _
  | unseen => exact absurd hty hs

section

variable (hT : Unboxed m f) (hE : Emittable m f) (ho : Converts x.floats) {k r : Nat} {b : Body}
  (hb : f.bodies[k]? = some b) (hr : r ∈ f.writes k b) (hbox : rt f.regT r ≠ .box)
  (l : Locals F) (frame : Nat → Value F O) (w : W)

include hT hE ho hb hr hbox

/-- `LOADK` and `MOVE` into a native register. -/
theorem native_copy (hc : b.op.cls = .copy) :
    ∃ e n, emitRhs m f b (rt f.regT r) = some e ∧ e.eval x.floats l = .ok n ∧
      operand (runtime x) m f (reg f.regT l frame) w (b.arg 1) = n.box ∧
      HasType (rt f.regT r) (n.box : Value F O) := by
  obtain ⟨-, -, hdef⟩ := hT.dst k b hb r hr hbox
  -- the destination has the operand's type
  have hty : operandType m (b.arg 1) f.regT = rt f.regT r := by
    cases hop : b.op <;> rw [hop] at hc <;> first | exact absurd hc (by decide) | skip
    · have hk : constType m (b.arg 1) = rt f.regT r := by simpa [defType, hop] using hdef
      unfold operandType
      cases hreg : regSlot (b.arg 1) with
      | none => exact hk
      | some q => exact absurd (hk.symm.trans (constType_reg hreg)) hbox
    · simpa [defType, hop] using hdef
  have hsrc : b.arg 1 ∈ b.srcs := by simp [Body.srcs, (Op.cls_copy hc).1, Body.resolve]
  have hl := loads_operand (l := l) ho hT.seen
    (fun k c => hE.const b (mem_of_getElem? hb) _ hsrc k c) (by rwa [hty]) frame w
  have he : emitRhs m f b (rt f.regT r) = some (.atom (nat m f (b.arg 1) (rt f.regT r))) := by
    cases hop : b.op <;> rw [hop] at hc <;> first | exact absurd hc (by decide) | rw [emitRhs, hop]
  rw [hty] at hl
  have hval : ∃ n : NVal F, (nat m f (b.arg 1) (rt f.regT r)).eval x.floats l = .ok n ∧
      operand (runtime x) m f (reg f.regT l frame) w (b.arg 1) = n.box ∧
        HasType (rt f.regT r) (n.box : Value F O) := by
    generalize operand (runtime x) m f (reg f.regT l frame) w (b.arg 1) = v at hl
    generalize rt f.regT r = T at hl
    cases hl with
    | int i _ h _ => exact ⟨_, h, rfl, trivial⟩
    | float y _ h => exact ⟨_, h, rfl, trivial⟩
    | bool c _ h => exact ⟨_, h, rfl, trivial⟩
  obtain ⟨n, hn, hop, htyped⟩ := hval
  exact ⟨_, n, he, hn, hop, htyped⟩

/-- A value instruction with a native destination. -/
theorem native_compute (hc : b.op.cls = .perform) :
    nativeOp b.op = true ∧ ∃ e, emitRhs m f b (rt f.regT r) = some e ∧
      compute x.floats b ((f.srcsAt k b).map (operand (runtime x) m f (reg f.regT l frame) w)) =
        some (ofNum (e.eval x.floats l) NVal.box) ∧
      ∀ n, e.eval x.floats l = .ok n → HasType (rt f.regT r) (n.box : Value F O) := by
  obtain ⟨hd, -, hdef⟩ := hT.dst k b hb r hr hbox
  have hmem := mem_of_getElem? hb
  have hnat := defType_native hdef hbox hc
  have hop : nativeOp b.op = true := by
    by_contra hno
    rcases defType_other (m := m) (t := f.regT) hc (by simpa using hno) with h | h
    · simp [h] at hdef
    · exact hbox (by simpa [h] using hdef.symm)
  have hsel : b.op ≠ .selend := by
    intro h
    simp [h, Op.dsts] at hd
  have hvt := view_hasType (x := x) hT l frame w
  have hload {a : Str} (ha : a ∈ b.srcs) (hne : operandType m a f.regT ≠ .box) :=
    loads_operand (l := l) ho hT.seen (fun k c => hE.const b hmem a ha k c) hne frame w
  have htyped {vals : List (Value F O)} {e : CExpr}
      (hy : ∃ s, compute x.floats b vals = some s ∧ Yields (rt f.regT r) s)
      (he : compute x.floats b vals = some (ofNum (e.eval x.floats l) NVal.box)) (n : NVal F)
      (hn : e.eval x.floats l = .ok n) : HasType (rt f.regT r) (n.box : Value F O) := by
    obtain ⟨s, hs, hy⟩ := hy
    obtain rfl := Option.some.inj (hs.symm.trans he)
    refine hy _ ?_
    rw [hn]
    rfl
  refine ⟨hop, ?_⟩
  rcases hnat.srcs with hs | hs
  · have hsrc : f.srcsAt k b = [b.arg 1, b.arg 2] := by
      simp [Func.srcsAt, hsel, Body.srcs, hs, Body.resolve]
    have hmem₁ : b.arg 1 ∈ b.srcs := by simp [Body.srcs, hs, Body.resolve]
    have hmem₂ : b.arg 2 ∈ b.srcs := by simp [Body.srcs, hs, Body.resolve]
    rw [hsrc]
    obtain ⟨e, he, hcomp⟩ := eval_binary hnat hs (hload hmem₁ hnat.ne_box.1)
      (hload hmem₂ (hnat.ne_box.2 hs)) (hvt _) (hvt _)
      fun h hlen => hnat.ints h (hE.idiv b hmem h hlen).1 (hE.idiv b hmem h hlen).2
    exact ⟨e, he, hcomp, htyped (compute_binary hnat hs (hvt _) (hvt _)) hcomp⟩
  · have hsrc : f.srcsAt k b = [b.arg 1] := by
      simp [Func.srcsAt, hsel, Body.srcs, hs, Body.resolve]
    have hmem₁ : b.arg 1 ∈ b.srcs := by simp [Body.srcs, hs, Body.resolve]
    rw [hsrc]
    obtain ⟨e, he, hcomp⟩ := eval_unary hnat hs (hload hmem₁ hnat.ne_box.1)
    exact ⟨e, he, hcomp, htyped (compute_unary hnat hs (hvt _)) hcomp⟩

/-- Whatever writes a native register has a native form, which does what the boxed
instruction does and leaves a value of the register's type. -/
theorem native_set (hs : List Str) :
    ∃ e, emitNative m f b = some (.set (rt f.regT r) r e) ∧
      execBody (runtime x) m f (reg f.regT l frame) k w hs b =
        execSet x m f (reg f.regT l frame) l k w hs b r e ∧
      ∀ n, e.eval x.floats l = .ok n → HasType (rt f.regT r) (n.box : Value F O) := by
  obtain ⟨hd, hslot, -⟩ := hT.dst k b hb r hr hbox
  have hnb : ¬(b.op = .jmpf ∨ b.op = .jmpt) := by
    rintro (h | h) <;> simp [h, Op.dsts] at hd
  have hemit {e : CExpr} (he : emitRhs m f b (rt f.regT r) = some e) :
      emitNative m f b = some (.set (rt f.regT r) r e) := by
    simp [emitNative, hnb, hslot, hbox, he]
  rcases cls_of_dsts hd with hc | hc
  · obtain ⟨e, n, he, hn, hop, htyped⟩ := native_copy hT hE ho hb hr hbox l frame w hc
    refine ⟨e, hemit he, ?_, fun n' hn' => ?_⟩
    · simp only [execBody, execSet, hc, f.writes_copy hc hslot, hop, hn]
      rfl
    · obtain rfl := Except.ok.inj (hn.symm.trans hn')
      exact htyped
  · obtain ⟨hop, e, he, hcomp, htyped⟩ := native_compute hT hE ho hb hr hbox l frame w hc
    exact ⟨e, hemit he, execBody_compute hop hslot hcomp, htyped⟩

end

/-- An instruction without a native form writes boxed registers only. -/
theorem writes_boxed (hT : Unboxed m f) (hE : Emittable m f) (ho : Converts x.floats) {k : Nat}
    {b : Body} (hb : f.bodies[k]? = some b) (hn : emitNative m f b = none) (l : Locals F)
    (frame : Nat → Value F O) (w : W) (hs : List Str) :
    ∀ p ∈ (execBody (runtime x) m f (reg f.regT l frame) k w hs b).writes, rt f.regT p.1 = .box := by
  intro p hp
  by_contra hbox
  have hdst (hr : p.1 ∈ f.writes k b) : False := by
    obtain ⟨e, he, -⟩ := native_set hT hE ho hb hr hbox l frame w hs
    simp [hn] at he
  unfold execBody at hp
  cases hc : b.op.cls with
  | silent | jump | push | pop => simp [hc] at hp
  | copy =>
    simp only [hc, mem_map] at hp
    obtain ⟨r, hr, rfl⟩ := hp
    exact hdst hr
  | kill =>
    -- only an object is cleared, and no local boxes to one
    simp only [hc, Option.mem_toList, Option.bind_eq_some_iff, Option.map_eq_some_iff] at hp
    obtain ⟨r, -, v, hv, rfl⟩ := hp
    unfold reg at hv
    cases hty : rt f.regT r <;> simp_all [runtime]
    exact hT.seen r hty
  | perform =>
    simp only [hc, mem_append] at hp
    rcases hp with hp | hp
    · exact hdst (mem_of_mem_paired hp).1
    · exact hbox (hT.ups p.1 (mem_of_mem_paired hp).1)

/-- A native outcome is the boxed one, the registers seen through their boxes. -/
structure Matches (f : Func) (frame rd : Nat → Value F O) (n : NDone F O W)
    (d : Done (Value F O) W) : Prop where
  events : n.events = d.events
  world : n.world = d.world
  handlers : n.handlers = d.handlers
  ctl : n.ctl = d.ctl
  regs : ∀ r, reg f.regT n.loc (setRegs frame n.writes) r = setRegs rd d.writes r

variable {pc : Nat}

/-- A branch on a bool. -/
theorem execBody_branch {b : Body} (hop : b.op = .jmpf ∨ b.op = .jmpt) {w : W} {c : Bool}
    (hval : operand (runtime x) m f rd w (b.arg 0) = .bool c) :
    execBody (runtime x) m f rd pc w hs b =
      { events := [{ body := b, vals := (f.srcsAt pc b).map (operand (runtime x) m f rd w) }]
        world := w, handlers := hs
        ctl := if c != decide (b.op = .jmpf) then jumpTo f (b.arg 1) else .at (pc + 1) } := by
  have hsrc : f.srcsAt pc b = [b.arg 0] := by
    rcases hop with h | h <;> simp [Func.srcsAt, Body.srcs, h, Op.srcs, Body.resolve]
  have htgt : f.targetsAt pc b = [b.arg 1] := by
    rcases hop with h | h <;> simp [Func.targetsAt, Body.targets, h, Op.targets, Body.resolve]
  have hw : f.writes pc b = [] := by
    rcases hop with h | h <;> simp [Func.writes, Func.dstsAt, Body.dsts, h, Op.dsts]
  have hcls : b.op.cls = .perform := by rcases hop with h | h <;> rw [h] <;> rfl
  have hdo (cs : List Body) (cells : List (Value F O)) :
      (runtime x).op b cs [.bool c] cells w =
        { world := w, next := if c != decide (b.op = .jmpf) then .goto 0 else .fall } := by
    show perform x b cs [.bool c] cells w = _
    rcases hop with h | h <;> cases c <;> simp [perform, h, finish, truthy]
  simp only [execBody, hcls, hsrc, map_cons, map_nil, hval, hdo, hw]
  cases c != decide (b.op = .jmpf) <;> simp [follow, htgt, paired]

/-- A branch on a native bool. -/
theorem branch_matches (hE : Emittable m f) {b : Body}
    (hb : f.bodies[s.pc]? = some b) {neg : Bool} {r : Nat} {l : Str}
    (hn : emitNative m f b = some (.branch neg r l)) :
    Matches f s.frame (reg f.regT s.loc s.frame) (execNative x m f s b (.branch neg r l))
      (execBody (runtime x) m f (reg f.regT s.loc s.frame) s.pc s.world s.handlers b) := by
  unfold emitNative at hn
  split at hn
  · rename_i hop
    split at hn
    · rename_i q hq
      split at hn
      · rename_i hty
        simp only [Option.some.injEq, CStmt.branch.injEq] at hn
        obtain ⟨rfl, rfl, rfl⟩ := hn
        have hname := hE.branch b (mem_of_getElem? hb) hop q hq
        have hreg : regSlot (b.arg 0) = some q := by rw [hname, regSlot_newReg]
        have hval : operand (runtime x) m f (reg f.regT s.loc s.frame) s.world (b.arg 0) =
            .bool (s.loc.b q) := by
          simp [operand, hreg, reg, hty]
        have hcls : b.op.cls = .perform := by rcases hop with h | h <;> rw [h] <;> rfl
        rw [execBody_branch hop hval]
        simp only [execNative, hcls, if_true]
        exact ⟨rfl, rfl, rfl, rfl, fun r => rfl⟩
      · exact absurd hn (by simp)
    · exact absurd hn (by simp)
  · split at hn
    · split at hn
      · exact absurd hn (by simp)
      · simp at hn
    · exact absurd hn (by simp)

/-- An assignment to a local. -/
theorem set_matches (hT : Unboxed m f) (hE : Emittable m f) (ho : Converts x.floats)
    {b : Body} (hb : f.bodies[s.pc]? = some b) {t : RegType} {d : Nat}
    (hn : emitNative m f b = some (.set t d e)) :
    Matches f s.frame (reg f.regT s.loc s.frame) (execNative x m f s b (.set t d e))
      (execBody (runtime x) m f (reg f.regT s.loc s.frame) s.pc s.world s.handlers b) := by
  have hinv : cgSlot (b.arg 0) = some d ∧ rt f.regT d ≠ .box ∧ t = rt f.regT d ∧
      emitRhs m f b (rt f.regT d) = some e := by
    have h := hn
    unfold emitNative at h
    split at h
    · split at h
      · split at h <;> simp at h
      · simp at h
    · split at h
      · rename_i q hq
        split at h
        · simp at h
        · rename_i hbox
          simp only [Option.map_eq_some_iff, CStmt.set.injEq] at h
          obtain ⟨e', he', rfl, rfl, rfl⟩ := h
          exact ⟨hq, hbox, rfl, he'⟩
      · simp at h
  obtain ⟨hslot, hbox, rfl, he⟩ := hinv
  have hw : d ∈ f.writes s.pc b := by
    rcases emitRhs_op he with hc | hc
    · simp [f.writes_copy hc hslot]
    · simp [(writes_native (f := f) (k := s.pc) hc hslot).1]
  obtain ⟨e', he', hexec, htyped⟩ :=
    native_set hT hE ho hb hw hbox s.loc s.frame s.world s.handlers
  have hee : e' = e := by simpa [hn] using he'.symm
  subst hee
  rw [hexec]
  unfold execNative execSet
  dsimp only
  cases hv : e'.eval x.floats s.loc with
  | ok n => exact ⟨rfl, rfl, rfl, rfl, reg_set x.floats hbox (htyped n hv)⟩
  | error t => exact ⟨rfl, rfl, rfl, rfl, fun r => rfl⟩

/-- One native step is the boxed step over the registers seen through their boxes. -/
theorem execTyped_matches (hT : Unboxed m f) (hE : Emittable m f) (ho : Converts x.floats)
    (s : NState F O W) :
    Matches f s.frame (reg f.regT s.loc s.frame) (execTyped x m f s)
      (exec (runtime x) m f (reg f.regT s.loc s.frame) s.pc s.world s.handlers) := by
  unfold execTyped exec
  cases hb : f.bodies[s.pc]? with
  | none => exact ⟨rfl, rfl, rfl, rfl, fun r => rfl⟩
  | some b =>
    dsimp only
    cases hn : emitNative m f b with
    | none =>
      refine ⟨rfl, rfl, rfl, rfl, fun r => ?_⟩
      exact reg_setRegs (writes_boxed hT hE ho hb hn s.loc s.frame s.world s.handlers) r
    | some c =>
      cases c with
      | branch neg r l => exact branch_matches hE hb hn
      | set t d e => exact set_matches hT hE ho hb hn

/-! ### Native registers never written -/

/-- Two register files that agree on what an instruction looks at make it do the same. A
`KILL` looks only at whether it clears. -/
theorem exec_congr {rd regs : Nat → Value F O} {w : W}
    (hreads : ∀ b, f.bodies[pc]? = some b → ∀ r ∈ f.reads pc b, rd r = regs r)
    (hups : ∀ r ∈ m.upSlots f, rd r = regs r)
    (hkill : ∀ r, (runtime x).clear (rd r) = (runtime x).clear (regs r)) :
    exec (runtime x) m f rd pc w hs = exec (runtime x) m f regs pc w hs := by
  unfold exec
  cases hb : f.bodies[pc]? with
  | none => rfl
  | some b =>
    dsimp only
    by_cases hk : b.op = .kill
    · simp only [execBody, hk, Op.cls, hkill]
    · have hjump (l : Str) : True → (jumpTo f l : Ctl (Value F O)) = (jumpTo f l).map id := by
        intro _
        cases (jumpTo f l : Ctl (Value F O)) <;> rfl
      have hsees : ∀ r ∈ f.sees m pc b, rd r = regs r := by
        intro r hr
        simp only [Func.sees, hk, if_false, append_nil, mem_append] at hr
        rcases hr with hr | hr
        · exact hreads b hb r hr
        · exact hups r hr
      have h : execBody (runtime x) m f rd (id pc) w hs b =
          (execBody (runtime x) m f regs pc w hs b).moved id :=
        execBody_transport rfl rfl rfl rfl hjump (fun _ _ => trivial) (fun _ _ => trivial) hsees w
      simpa using h

/-- A boxed and a native state of one run: the registers agree, except the native ones never
written. -/
structure Rel (x : Base F O W) (m : Module) (f : Func) (s₀ s : State (Value F O) W)
    (n : NState F O W) : Prop where
  pc : n.pc = s.pc
  world : n.world = s.world
  handlers : n.handlers = s.handlers
  regs : ∃ written, Run (runtime x) m f (ReadsWritten f f.regT) s₀ s written ∧
    ∀ r, rt f.regT r = .box ∨ r ∈ written → reg f.regT n.loc n.frame r = s.regs r

section

variable (hT : Unboxed m f) (hE : Emittable m f) (ho : Converts x.floats)
  {s₀ : State (Value F O) W}
  (hclear : ∀ s written, Run (runtime x) m f (ReadsWritten f f.regT) s₀ s written →
    ∀ r, rt f.regT r ≠ .box → r ∉ written → s.regs r = .nil)
  (hreads : ∀ s written, Run (runtime x) m f (ReadsWritten f f.regT) s₀ s written →
    ReadsWritten f f.regT s written)

include hT hE ho hclear hreads

/-- The boxed machine and the native one step alike. -/
theorem Rel.step {s : State (Value F O) W} {n : NState F O W} (h : Rel x m f s₀ s n) :
    SameOut (Rel x m f s₀) (machine (runtime x) m f s) (nativeMachine x m f n) := by
  obtain ⟨hpc, hw, hh, written, hrun, hregs⟩ := h
  have hM := execTyped_matches hT hE ho n
  have hups : ∀ r ∈ m.upSlots f, reg f.regT n.loc n.frame r = s.regs r :=
    fun r hr => hregs r (Or.inl (hT.ups r hr))
  have hsame : exec (runtime x) m f (reg f.regT n.loc n.frame) n.pc n.world n.handlers =
      exec (runtime x) m f s.regs s.pc s.world s.handlers := by
    rw [hpc, hw, hh]
    refine exec_congr (fun b hb r hr => ?_) hups fun r => ?_
    · by_cases hbox : rt f.regT r = .box
      · exact hregs r (Or.inl hbox)
      · exact hregs r (Or.inr (hreads s written hrun b hb r hr hbox))
    · by_cases hr : rt f.regT r = .box ∨ r ∈ written
      · rw [hregs r hr]
      · obtain ⟨hbox, hwr⟩ := not_or.mp hr
        rw [hclear s written hrun r hbox hwr]
        unfold reg
        cases hty : rt f.regT r <;> first | rfl | exact absurd hty hbox | exact absurd hty (hT.seen r)
  rw [hsame] at hM
  have hnext {ev : List (Event (Value F O))} {s' : State (Value F O) W}
      (hs : machine (runtime x) m f s = .next ev s') := Run.step hrun (hreads s written hrun) hs
  unfold machine nativeMachine at *
  dsimp only at *
  rw [hM.ctl, hM.events, hM.world, hM.handlers]
  generalize hd : exec (runtime x) m f s.regs s.pc s.world s.handlers = d at *
  have hafter (r : Nat) (hr : rt f.regT r = .box ∨ r ∈ written ++ d.writes.map Prod.fst) :
      reg f.regT (execTyped x m f n).loc (setRegs n.frame (execTyped x m f n).writes) r =
        setRegs s.regs d.writes r := by
    rw [hM.regs]
    refine setRegs_agree d.writes ?_
    rw [mem_append, ← or_assoc] at hr
    exact hr.symm.imp_right (hregs r)
  cases hc : d.ctl with
  | «at» pc =>
    rw [hc] at hnext
    exact .next ⟨rfl, rfl, rfl, _, hnext rfl, hafter⟩
  | exit e =>
    dsimp only
    have hcells : (m.upSlots f).map (reg f.regT (execTyped x m f n).loc
        (setRegs n.frame (execTyped x m f n).writes)) =
          (m.upSlots f).map (setRegs s.regs d.writes) :=
      map_congr_left fun r hr => hafter r (Or.inl (hT.ups r hr))
    rw [hcells]
    exact .done

end

end

/-- Entering a function: the parameters are boxed, and nothing else is written. -/
theorem entry_rel (x : Base F O W) {m : Module} {f : Func} (args : List (Value F O)) (w : W)
    (hparams : ∀ r < f.nparams, rt f.regT r = .box) :
    Rel x m f (entry (runtime x) f args w) (entry (runtime x) f args w) (nativeEntry x f args w) := by
  refine ⟨rfl, rfl, rfl, _, .start, fun r hr => ?_⟩
  have hbox : rt f.regT r = .box := by
    rcases hr with hr | hr
    · exact hr
    · exact hparams r (mem_range.mp hr)
  rw [reg_box hbox]
  rfl

/-- A runtime whose floats are integers. Its compiler drops the high bits of an integer
constant with no type. -/
def whole : Base Int Unit Unit where
  floats :=
    { ofInt := Int64.toInt, add := (· + ·), sub := (· - ·), mul := (· * ·), div := (· / ·)
      neg := (- ·), fmod := (· % ·), pow := fun a b => a ^ b.toNat, floor := id
      lt := fun a b => a < b, le := fun a b => a ≤ b, eq := fun a b => a == b, zero := 0
      toInt := fun q => if -2 ^ 63 ≤ q ∧ q < 2 ^ 63 then some (Int64.ofInt q) else none
      lit := fun s => Nat.ofDigitChars 10 (s.takeWhile Ir.isDigit) 0
      constant := fun s => (Nat.ofDigitChars 10 s 0 % 2 ^ 64 : Nat) }
  konst _ := .nil
  upval _ _ := .nil
  throw _ _ := ()
  op _ _ _ _ _ := { world := () }

theorem whole_converts : Converts whole.floats := by
  intro s _ hall hlt
  have hcut : (s ++ ['.', '0']).takeWhile Ir.isDigit = s := by
    rw [takeWhile_append_of_pos fun c hc => all_eq_true.mp hall c hc]
    simp [List.takeWhile, Ir.isDigit]
  show ((Nat.ofDigitChars 10 s 0 % 2 ^ 64 : Nat) : Int) = _
  simp only [whole, hcut, Nat.mod_eq_of_lt hlt]

/-- One float constant. -/
def oneFloat (text : Str) : Module where
  consts := [⟨.float, text⟩]
  funcs := []

/-- `loadInt` with a float constant, as `type_func` leaves it. -/
def loadFloat : Func :=
  { loadInt with instrs := typeNotes [.float] ++ loadInt.instrs, regT := [.float] }

/-- Its runs go through the note and the load to the return. -/
theorem loadFloat_reads (m : Module) (args : List (Value Int Unit))
    (s : State (Value Int Unit) Unit) (written : List Nat)
    (h : Run (runtime whole) m loadFloat (ReadsWritten loadFloat loadFloat.regT)
      (entry (runtime whole) loadFloat args ()) s written) :
    ReadsWritten loadFloat loadFloat.regT s written := by
  have hinv : s.pc = 0 ∨ s.pc = 1 ∨ (s.pc = 2 ∧ 0 ∈ written) := by
    induction h with
    | start => exact Or.inl rfl
    | @step s s' written ev _ _ hs ih =>
      obtain ⟨pc, regs, w, hs⟩ := s
      rcases ih with rfl | rfl | ⟨rfl, -⟩
      · obtain rfl := (Out.next.inj hs).2
        exact Or.inr (Or.inl rfl)
      · obtain rfl := (Out.next.inj hs).2
        refine Or.inr (Or.inr ⟨rfl, mem_append_right _ ?_⟩)
        exact mem_singleton.mpr rfl
      · cases hs
  intro b hb r hr hbox
  rcases hinv with h | h | ⟨h, hw⟩ <;> rw [h] at hb hr <;> cases hb
  · exact absurd (show r ∈ [] from hr) (by simp)
  · exact absurd (show r ∈ [] from hr) (by simp)
  · obtain rfl := mem_singleton.mp (show r ∈ [0] from hr)
    exact hw

/-- The run of `loadFloat` ends by returning the float. -/
def returns (q : Int) : Result (Value Int Unit) Unit where
  exit := .ret (.float q)
  world := ()
  cells := []

end Voila.Cg
