import Voila.Opt.TypingTable
import Voila.Rt.OpsTyped

/-!
# Voila.Opt.TypingSound

Typed unboxing is sound: a register the pass declares native only ever receives values
of that kind.

An instruction that writes a native register writes nothing else, and the transfer
function types it (`Typed.native_dst`); what it computes from operands of their types
has the type it is given (`compute_yields`). Runs carry the registers written so far,
because the pass leaves a register native that is read before it is written and then
holds nil.
-/

namespace Voila.Opt

open Ir Lib Rt List

/-! ### The writers of a native register -/

theorem Op.dsts_cases (o : Op) :
    o.dsts = [] ∨ multiDef o = true ∨ (o.dsts = [.arg 0] ∧ noDef o = false) := by
  cases o <;> simp [Op.dsts, multiDef, noDef]

variable {b : Body} {r : Nat} {s : Str}

/-- An instruction whose destination is its first argument is typed by the transfer
function. -/
theorem defType_some {m : Module} {t : List RegType}
    (hd : b.op.dsts = [.arg 0]) (hr : regSlot (b.arg 0) = some r) :
    ∃ nt, defType m b t = some nt := by
  have hargs : b.args ≠ [] := by
    intro h
    exact regSlot_ne_nil hr (by simp [Body.arg, h])
  cases hop : b.op <;> simp [hop, Op.dsts] at hd <;> simp [defType, hop, hargs, hr, noDef]

/-- The registers of an opcode with several destinations are boxed. -/
theorem pinned_of_multiDef {m : Module} {f : Func} (hb : b ∈ f.bodies)
    (hm : multiDef b.op = true) (hr : r ∈ b.tokens isWordByte 0) : r ∈ pinned m f := by
  simp only [pinned, mem_append, mem_flatMap]
  refine Or.inl (Or.inr ⟨b, hb, Or.inr ?_⟩)
  rw [if_pos hm]
  exact hr

theorem pinned_of_patRegs {m : Module} {f : Func} (hb : b ∈ f.bodies)
    (hs : s ∈ b.patRegs) (hr : regSlot s = some r) : r ∈ pinned m f := by
  have htok : r ∈ markRegsIn s :=
    mem_regTokens (fun _ => isDigit_isWordByte) (Delimited.refl _ _) hr
  simp only [pinned, mem_append, mem_flatMap]
  exact Or.inl (Or.inr ⟨b, hb, Or.inl ⟨s, hs, htok⟩⟩)

/-- The registers a select binds are boxed. -/
theorem pinned_of_caseDsts {m : Module} {f : Func} {c : Body} (hc : c ∈ f.bodies)
    (hs : s ∈ c.caseDsts) (hr : regSlot s = some r) : r ∈ pinned m f := by
  unfold Body.caseDsts at hs
  split at hs
  · rename_i hop
    obtain ⟨a, ha, has⟩ := mem_filterMap.mp hs
    obtain ⟨k, hk⟩ := mem_iff_getElem?.mp (mem_of_mem_drop (mem_of_mem_take ha))
    refine pinned_of_multiDef hc (by simp [hop, multiDef]) ?_
    exact Body.Within.mem_tokens (fun _ => isDigit_isWordByte) (fun _ => isPunct.not_isWordByte)
      ⟨k, a, Nat.zero_le _, hk, delimited_afterEq has⟩ hr
  · simp at hs

/-- Whatever writes a native register has it as its one destination, `a[0]`, and the
transfer function gives it that register's type. -/
theorem Typed.native_dst {m : Module} {f : Func} {t : List RegType} (h : Typed m f t)
    (hf : WellSpelled f) {k : Nat} (hb : f.bodies[k]? = some b)
    (hr : r ∈ f.writes k b) (hbox : rt t r ≠ .box) :
    b.op.dsts = [.arg 0] ∧ regSlot (b.arg 0) = some r ∧ ∃ nt, defType m b t = some nt ∧
      join (rt t r) nt = rt t r := by
  have hmem := mem_of_getElem? hb
  have hpin : r ∉ pinned m f := fun hp => hbox (h.hidden r hp)
  obtain ⟨s, hs, hn⟩ := mem_filterMap.mp hr
  have hslot {c : Body} (hc : c ∈ f.bodies) (hs : s ∈ c.dsts ++ c.caseDsts) :
      regSlot s = some r := by
    rw [(hf c hc).dst s hs r hn, regSlot_newReg]
  unfold Func.dstsAt at hs
  split at hs
  · -- a select: its registers are hidden writers
    obtain ⟨c, hc, hsc⟩ := mem_flatMap.mp hs
    obtain ⟨-, j, -, hj⟩ := Func.mem_cases hc
    have hcm := mem_of_getElem? hj
    exact absurd (pinned_of_caseDsts hcm hsc (hslot hcm (mem_append_right _ hsc))) hpin
  have hreg := hslot hmem (mem_append_left _ hs)
  rcases mem_append.mp hs with hs | hs
  · obtain ⟨a, ha, hsa⟩ := mem_flatMap.mp hs
    rcases Op.dsts_cases b.op with hd | hd | ⟨hd, -⟩
    · simp [hd] at ha
    · have htok := Body.mem_tokens_of_resolve (fun _ => isDigit_isWordByte)
        (fun _ => isPunct.not_isWordByte) hsa hreg
      exact absurd (pinned_of_multiDef hmem hd (Body.tokens_mono (Nat.zero_le _) htok)) hpin
    · rw [hd, mem_singleton] at ha
      subst ha
      rw [mem_singleton.mp hsa] at hreg
      obtain ⟨nt, hnt⟩ := defType_some (m := m) (t := t) hd hreg
      have hlt : r < t.length := by
        by_contra hge
        exact hbox (by simp [rt, getD_eq_getElem?_getD, List.getElem?_eq_none (not_lt.mp hge)])
      exact ⟨hd, hreg, nt, hnt, h.closed b hmem nt r hnt hreg hlt⟩
  · split at hs
    · exact absurd (pinned_of_patRegs hmem hs hreg) hpin
    · simp at hs

/-! ### The transfer function types what is computed -/

section

variable {F O W : Type*} {o : FloatOps F}

/-- The native types of the transfer function, by the kind of opcode. -/
inductive NativeDef (b : Body) (x y nt : RegType) : Prop
  | arith {op : ArithOp} : arithOp b.op = some op → (x = .int ∨ x = .float) →
      (y = .int ∨ y = .float) → nt = resultType op x y → NativeDef b x y nt
  | bits : b.op ∈ [Op.shl, .shr, .band, .bor, .bxor] → x = .int → y = .int → nt = .int →
      NativeDef b x y nt
  | equal : b.op ∈ [Op.cmpeq, .cmpne] → x = y → (x = .int ∨ x = .float ∨ x = .bool) →
      nt = .bool → NativeDef b x y nt
  | neg : b.op = .neg → (x = .int ∨ x = .float) → nt = x → NativeDef b x y nt
  | not : b.op = .not → x = .bool → nt = .bool → NativeDef b x y nt
  | bnot : b.op = .bnot → x = .int → nt = .int → NativeDef b x y nt

theorem isNum_iff {x : RegType} : isNum x = true ↔ x = .int ∨ x = .float := by
  cases x <;> decide

theorem arithType_eq (op : ArithOp) (h : op ∈ [ArithOp.add, .sub, .mul, .mod, .pow])
    (x y : RegType) :
    arithType x y = if isNum x && isNum y then resultType op x y else .box := by
  cases x <;> cases y <;> cases op <;> first | rfl | exact absurd h (by decide)

variable {b : Body} {nt X Y : RegType} {v : Value F O} {a : Str} {r : Nat}

/-- The arithmetic rows of the transfer function, in one. -/
theorem defType_arith {m : Module} {t : List RegType} {op : ArithOp} (ha : arithOp b.op = some op) :
    defType m b t = some (if isNum (operandType m (b.arg 1) t) && isNum (operandType m (b.arg 2) t)
      then resultType op (operandType m (b.arg 1) t) (operandType m (b.arg 2) t) else .box) := by
  cases hop : b.op <;> rw [hop] at ha <;> simp only [arithOp, Option.some.injEq, reduceCtorEq] at ha
  all_goals
    subst ha
    simp only [defType, hop]
  all_goals first | rfl | exact congrArg some (arithType_eq _ (by decide) _ _)

/-- A choice between a native type and a box that is no box made the choice. -/
theorem of_ite_ne_box {c : Prop} [Decidable c] {a nt : RegType}
    (h : some (if c then a else .box) = some nt) (hbox : nt ≠ .box) : c ∧ nt = a := by
  by_cases hc : c
  · exact ⟨hc, by simpa [hc] using h.symm⟩
  · exact absurd (by simpa [hc] using h.symm) hbox

/-- The opcodes that can define a native register, besides `LOADK` and `MOVE`. -/
def nativeOp (o : Op) : Bool :=
  (arithOp o).isSome || o ∈ [Op.shl, .shr, .band, .bor, .bxor, .cmpeq, .cmpne, .neg, .not, .bnot]

theorem defType_other {m : Module} {t : List RegType} (hc : b.op.cls = .perform)
    (ho : nativeOp b.op = false) : defType m b t = none ∨ defType m b t = some .box := by
  cases hop : b.op <;> rw [hop] at hc ho <;>
    first
    | exact absurd hc (by decide)
    | exact absurd ho (by decide)
    | (simp only [defType, hop, noDef]; split <;> simp <;> exact em _)
    | (simp only [defType, hop]; simp)

theorem defType_native {m : Module} {t : List RegType}
    (hn : defType m b t = some nt) (hbox : nt ≠ .box) (hc : b.op.cls = .perform) :
    NativeDef b (operandType m (b.arg 1) t) (operandType m (b.arg 2) t) nt := by
  cases ho : nativeOp b.op with
  | false =>
    rcases defType_other (m := m) (t := t) hc ho with h | h
    · simp [h] at hn
    · exact absurd (by simpa [h] using hn.symm) hbox
  | true =>
    cases ha : arithOp b.op with
    | some op =>
      rw [defType_arith ha] at hn
      obtain ⟨hnum, rfl⟩ := of_ite_ne_box hn hbox
      rw [Bool.and_eq_true, isNum_iff, isNum_iff] at hnum
      exact .arith ha hnum.1 hnum.2 rfl
    | none =>
      have hops : b.op ∈ [Op.shl, .shr, .band, .bor, .bxor] ∨ b.op ∈ [Op.cmpeq, .cmpne] ∨
          b.op = .neg ∨ b.op = .not ∨ b.op = .bnot := by
        simp only [nativeOp, ha, Option.isSome_none, Bool.false_or, decide_eq_true_eq,
          mem_cons, not_mem_nil, or_false] at ho ⊢
        tauto
      rcases hops with h | h | h | h | h
      · have hd : defType m b t = some (if operandType m (b.arg 1) t = .int ∧
            operandType m (b.arg 2) t = .int then .int else .box) := by
          simp only [mem_cons, not_mem_nil, or_false] at h
          rcases h with h | h | h | h | h <;> simp only [defType, h]
        obtain ⟨⟨hx, hy⟩, rfl⟩ := of_ite_ne_box (hd.symm.trans hn) hbox
        exact .bits h hx hy rfl
      · have hd : defType m b t = some (if operandType m (b.arg 1) t = operandType m (b.arg 2) t ∧
            (operandType m (b.arg 1) t = .int ∨ operandType m (b.arg 1) t = .float ∨
              operandType m (b.arg 1) t = .bool) then .bool else .box) := by
          simp only [mem_cons, not_mem_nil, or_false] at h
          rcases h with h | h <;> simp only [defType, h]
        obtain ⟨⟨hxy, hx⟩, rfl⟩ := of_ite_ne_box (hd.symm.trans hn) hbox
        exact .equal h hxy hx rfl
      · simp only [defType, h] at hn
        by_cases hx : operandType m (b.arg 1) t = .int
        · exact .neg h (Or.inl hx) (by simpa [hx] using hn.symm)
        · rw [if_neg hx] at hn
          obtain ⟨hx, rfl⟩ := of_ite_ne_box hn hbox
          exact .neg h (Or.inr hx) hx.symm
      · simp only [defType, h] at hn
        obtain ⟨hx, rfl⟩ := of_ite_ne_box hn hbox
        exact .not h hx rfl
      · simp only [defType, h] at hn
        obtain ⟨hx, rfl⟩ := of_ite_ne_box hn hbox
        exact .bnot h hx rfl

/-- A native value instruction has two operands or one. -/
theorem NativeDef.srcs (h : NativeDef b X Y nt) :
    b.op.srcs = [.arg 1, .arg 2] ∨ b.op.srcs = [.arg 1] := by
  cases h with
  | arith ha => cases hop : b.op <;> rw [hop] at ha <;> simp [arithOp, Op.srcs] at ha ⊢
  | bits h =>
    simp only [mem_cons, not_mem_nil, or_false] at h
    rcases h with h | h | h | h | h <;> simp [h, Op.srcs]
  | equal h =>
    rcases mem_pair.mp h with h | h <;> simp [h, Op.srcs]
  | neg h | not h | bnot h => simp [h, Op.srcs]

/-- The operands of a native value instruction are native. -/
theorem NativeDef.ne_box (h : NativeDef b X Y nt) :
    X ≠ .box ∧ (b.op.srcs = [.arg 1, .arg 2] → Y ≠ .box) := by
  cases h with
  | arith _ hx hy _ => exact ⟨by rcases hx with rfl | rfl <;> simp,
      fun _ => by rcases hy with rfl | rfl <;> simp⟩
  | bits _ hx hy _ =>
    subst hx hy
    simp
  | equal _ hxy hx _ =>
    subst hxy
    rcases hx with rfl | rfl | rfl <;> simp
  | neg hop hx _ => exact ⟨by rcases hx with rfl | rfl <;> simp, by simp [hop, Op.srcs]⟩
  | not hop hx _ | bnot hop hx _ =>
    subst hx
    simp [hop, Op.srcs]

theorem NativeDef.ints (h : NativeDef b X Y nt) (hop : b.op = .idiv)
    (hX : X ≠ .float) (hY : Y ≠ .float) : X = .int ∧ Y = .int := by
  cases h with
  | arith _ hx hy _ => exact ⟨hx.resolve_right hX, hy.resolve_right hY⟩
  | bits h | equal h | neg h | not h | bnot h => simp [hop] at h

/-- What an instruction of native type computes from two operands of their types is of
that type, unless it traps; the base runtime is not asked. -/
theorem compute_binary (h : NativeDef b X Y nt)
    (hs : b.op.srcs = [.arg 1, .arg 2]) {v u : Value F O} (hv : HasType X v) (hu : HasType Y u) :
    ∃ r, compute o b [v, u] = some r ∧ Yields nt r := by
  cases h with
  | @arith op ha hx hy hnt =>
    unfold compute
    simp only [ha, hnt]
    split
    · rename_i hsz
      exact arithSz_yields (by simp at hsz; exact hsz.1) (hv.num hx) (hu.num hy) _
    · exact arith_yields op (hv.num hx) (hu.num hy)
  | bits h hx hy hnt =>
    obtain ⟨i, rfl⟩ := (hx ▸ hv).int
    obtain ⟨j, rfl⟩ := (hy ▸ hu).int
    subst hnt
    simp only [mem_cons, not_mem_nil, or_false] at h
    rcases h with h | h | h | h | h <;> simp only [compute, h, arithOp]
    · exact shift_yields _ i j
    · exact shift_yields _ i j
    all_goals exact ⟨_, rfl, yields_ok trivial⟩
  | equal h hxy hx hnt =>
    subst hxy hnt
    have heq : ∃ c, equal o v u = some c := by
      rcases hx with rfl | rfl | rfl
      · obtain ⟨i, rfl⟩ := hv.int
        obtain ⟨j, rfl⟩ := hu.int
        exact ⟨_, rfl⟩
      · obtain ⟨i, rfl⟩ := hv.float
        obtain ⟨j, rfl⟩ := hu.float
        exact ⟨_, rfl⟩
      · obtain ⟨i, rfl⟩ := hv.bool
        obtain ⟨j, rfl⟩ := hu.bool
        exact ⟨_, rfl⟩
    obtain ⟨c, hc⟩ := heq
    rcases mem_pair.mp h with h | h <;>
      simp only [compute, h, arithOp, hc, Option.map_some] <;>
      exact ⟨_, rfl, yields_ok trivial⟩
  | neg h | not h | bnot h => simp [h, Op.srcs] at hs

/-- The same for one operand. -/
theorem compute_unary (h : NativeDef b X Y nt) (hs : b.op.srcs = [.arg 1]) (hv : HasType X v) :
    ∃ r, compute o b [v] = some r ∧ Yields nt r := by
  cases h with
  | arith ha => cases hop : b.op <;> rw [hop] at ha hs <;> simp [arithOp, Op.srcs] at ha hs
  | bits h =>
    simp only [mem_cons, not_mem_nil, or_false] at h
    rcases h with h | h | h | h | h <;> simp [h, Op.srcs] at hs
  | equal h => rcases mem_pair.mp h with h | h <;> simp [h, Op.srcs] at hs
  | neg h hx hnt =>
    simp only [compute, h, hnt]
    split
    · exact negSz_yields (hv.num hx) _
    · exact neg_yields (hv.num hx)
  | not h hx hnt =>
    obtain ⟨c, rfl⟩ := (hx ▸ hv).bool
    subst hnt
    simp only [compute, h]
    exact ⟨_, rfl, yields_ok trivial⟩
  | bnot h hx hnt =>
    obtain ⟨i, rfl⟩ := (hx ▸ hv).int
    subst hnt
    simp only [compute, h]
    exact ⟨_, rfl, yields_ok trivial⟩

/-! ### One step -/

/-- Native registers hold values of their kind once written, and nil before. -/
def Holds (t : List RegType) (regs : Nat → Value F O) (written : List Nat) : Prop :=
  ∀ r, rt t r ≠ .box → (r ∈ written ∧ HasType (rt t r) (regs r)) ∨ (r ∉ written ∧ regs r = .nil)

/-- The instruction about to run reads no native register that was never written. -/
def ReadsWritten (f : Func) (t : List RegType) (s : State (Value F O) W) (written : List Nat) :
    Prop :=
  ∀ b, f.bodies[s.pc]? = some b → ∀ r ∈ f.reads s.pc b, rt t r ≠ .box → r ∈ written

variable {x : Base F O W} {m : Module} {f : Func} {t : List RegType}

theorem hasType_box (v : Value F O) : HasType .box v := by cases v <;> trivial

theorem poolValue_hasType (a : Str) :
    HasType (constType m a)
      (((constSlot a).bind fun k => m.consts[k]?.map (poolValue x)).getD .nil) := by
  unfold constType
  cases constSlot a with
  | none => exact hasType_box _
  | some k =>
    dsimp only [Option.bind_some]
    cases m.consts[k]? with
    | none => exact hasType_box _
    | some c => cases hk : c.kind <;> simp [hk, poolValue, HasType]

variable {w : W} {s : State (Value F O) W} {written : List Nat}

/-- An operand has its type, where the register it names has. -/
theorem operand_hasType {rd : Nat → Value F O} {s : Str}
    (h : ∀ r, regSlot s = some r → HasType (rt t r) (rd r)) :
    HasType (operandType m s t) (operand (runtime x) m f rd w s) := by
  unfold operandType operand
  cases hr : regSlot s with
  | some r => exact h r hr
  | none =>
    have hpool := poolValue_hasType (x := x) (m := m) s
    dsimp only
    unfold constType at hpool ⊢
    cases hc : constSlot s with
    | some k => simpa [hc, runtime] using hpool
    | none => exact hasType_box _

theorem constType_reg (h : regSlot a = some r) : constType m a = .box := by
  unfold regSlot at h
  split at h
  · rfl
  · exact absurd h (by simp)

/-- A pool constant or a copied operand has the type the transfer function gives it. -/
theorem copy_hasType (hc : b.op.cls = .copy)
    (hv : HasType (operandType m (b.arg 1) t) v) (hnt : defType m b t = some nt) :
    HasType nt v := by
  cases hop : b.op <;> rw [hop] at hc <;> first | exact absurd hc (by decide) | skip
  · simp only [defType, hop, Option.some.injEq] at hnt
    subst hnt
    unfold operandType at hv
    cases hr : regSlot (b.arg 1) with
    | some r =>
      rw [constType_reg hr]
      exact hasType_box v
    | none => simpa [hr] using hv
  · simp only [defType, hop, Option.some.injEq] at hnt
    rwa [← hnt]

/-- A value instruction leaves its operands to `compute`. -/
theorem perform_compute (hd : b.op.dsts = [.arg 0]) {vals : List (Value F O)}
    {r : Except (Trap F O) (Value F O)} (hr : compute x.floats b vals = some r)
    (cases : List Body) (cells : List (Value F O)) (w : W) :
    perform x b cases vals cells w = settle x w r := by
  unfold perform
  split
  · rename_i hop; simp [hop, Op.dsts] at hd
  · rename_i hop; simp [hop, Op.dsts] at hd
  · rename_i hop; simp [hop, Op.dsts] at hd
  · rename_i hop; simp [hop, Op.dsts] at hd
  · simp [hr]

/-- Every operand of an instruction has its type, when it reads written registers. -/
theorem srcs_hasType (hold : Holds t s.regs written)
    (hdef : ReadsWritten f t s written) (hb : f.bodies[s.pc]? = some b) (ha : a ∈ f.srcsAt s.pc b) :
    HasType (operandType m a t) (operand (runtime x) m f s.regs s.world a) := by
  refine operand_hasType fun r hr => ?_
  by_cases hbox : rt t r = .box
  · rw [hbox]
    exact hasType_box _
  · have hread : r ∈ f.reads s.pc b := mem_filterMap.mpr ⟨a, ha, hr⟩
    rcases hold r hbox with h | h
    · exact h.2
    · exact absurd (hdef b hb r hread hbox) h.1

/-- What one step writes into a native register is of its kind. -/
theorem Typed.writes_hasType (ht : Typed m f t) (hf : WellSpelled f)
    (hold : Holds t s.regs written) (hdef : ReadsWritten f t s written) :
    ∀ p ∈ (exec (runtime x) m f s.regs s.pc s.world s.handlers).writes, HasType (rt t p.1) p.2 := by
  intro p hp
  by_cases hbox : rt t p.1 = .box
  · rw [hbox]
    exact hasType_box _
  unfold exec at hp
  cases hb : f.bodies[s.pc]? with
  | none => simp [hb] at hp
  | some b =>
    rw [hb] at hp
    dsimp only at hp
    -- a destination that takes a value of the type the transfer function gives
    have hdst (hw : p.1 ∈ f.writes s.pc b)
        (hv : ∀ nt, defType m b t = some nt → HasType nt p.2) : HasType (rt t p.1) p.2 := by
      obtain ⟨-, -, nt, hnt, hj⟩ := ht.native_dst hf hb hw hbox
      have htyped := hv nt hnt
      have hne : nt ≠ .unseen := fun h => not_hasType_unseen (h ▸ htyped)
      rwa [eq_of_join_eq hj hbox hne] at htyped
    unfold execBody at hp
    cases hc : b.op.cls with
    | silent | jump | push | pop => simp [hc] at hp
    | copy =>
      simp only [hc, mem_map] at hp
      obtain ⟨r, hr, rfl⟩ := hp
      have hsrc : b.arg 1 ∈ f.srcsAt s.pc b := by simp [f.srcsAt_copy hc]
      exact hdst hr fun nt => copy_hasType hc (srcs_hasType hold hdef hb hsrc)
    | kill =>
      -- only an object is cleared, and a native register never holds one
      simp only [hc, Option.mem_toList, Option.bind_eq_some_iff, Option.map_eq_some_iff] at hp
      obtain ⟨r, -, v, hv, rfl⟩ := hp
      cases hval : s.regs r <;> simp [runtime, hval] at hv
      rcases hold r hbox with h | h
      · cases hty : rt t r <;> simp_all [HasType]
      · simp [h.2] at hval
    | perform =>
      simp only [hc, mem_append] at hp
      rcases hp with hp | hp
      · obtain ⟨hw, hval⟩ := mem_of_mem_paired hp
        obtain ⟨hd, -, nt, hnt, hj⟩ := ht.native_dst hf hb hw hbox
        have hntbox : nt ≠ .box := fun h => hbox (by rw [← hj, h, join_box_right])
        have hnat := defType_native hnt hntbox hc
        have hsel : b.op ≠ .selend := by rintro h; simp [h, Op.dsts] at hd
        obtain ⟨r, hr, hy⟩ : ∃ r, compute x.floats b
            ((f.srcsAt s.pc b).map (operand (runtime x) m f s.regs s.world)) = some r ∧
              Yields nt r := by
          have hop {a : Str} (ha : a ∈ f.srcsAt s.pc b) :=
            srcs_hasType (x := x) (m := m) hold hdef hb ha
          rcases hnat.srcs with hs | hs
          · have hsrc : f.srcsAt s.pc b = [b.arg 1, b.arg 2] := by
              simp [Func.srcsAt, hsel, Body.srcs, hs, Body.resolve]
            rw [hsrc] at hop ⊢
            exact compute_binary hnat hs (hop (by simp)) (hop (by simp))
          · have hsrc : f.srcsAt s.pc b = [b.arg 1] := by
              simp [Func.srcsAt, hsel, Body.srcs, hs, Body.resolve]
            rw [hsrc] at hop ⊢
            exact compute_unary hnat hs (hop (by simp))
        refine hdst hw fun nt' hnt' => ?_
        obtain rfl := Option.some.inj (hnt.symm.trans hnt')
        rw [show (runtime x).op = perform x from rfl, perform_compute hd hr] at hval
        cases r with
        | ok v =>
          obtain rfl : p.2 = v := by simpa [Rt.settle] using hval
          exact hy _ rfl
        | error e => simp [Rt.settle] at hval
      · have hslot := (mem_of_mem_paired hp).1
        exact absurd (ht.hidden p.1 (by simp [pinned, hslot])) hbox

/-! ### Runs -/

/-- Along a run that reads no native register before it is written, native registers
hold values of their kind. -/
theorem Typed.run_holds (ht : Typed m f t) (hf : WellSpelled f) {args : List (Value F O)}
    (hrun : Run (runtime x) m f (ReadsWritten f t) (entry (runtime x) f args w) s written) :
    Holds t s.regs written := by
  induction hrun with
  | start =>
    intro r hbox
    have hr : ¬r < f.nparams := fun h => hbox (ht.hidden r (by simp [pinned, h]))
    exact Or.inr ⟨by simpa using hr, by simp [entry, hr, runtime]⟩
  | @step s s' written ev _ hok hstep ih =>
    intro r hbox
    rw [machine_next _ _ _ hstep]
    rcases setRegs_cases (exec (runtime x) m f s.regs s.pc s.world s.handlers).writes s.regs r
      with h | ⟨hn, h⟩
    · refine Or.inl ⟨mem_append_right _ (mem_map_of_mem h), ?_⟩
      exact ht.writes_hasType hf ih hok _ h
    · rw [h]
      rcases ih r hbox with ⟨hr, hv⟩ | ⟨hr, hv⟩
      · exact Or.inl ⟨mem_append_left _ hr, hv⟩
      · exact Or.inr ⟨by simp [hr, hn], hv⟩

/-! ### The pass -/

/-- A comment of the listing. -/
def IsNote (i : Instr) : Prop := i.op = .comment ∧ i.labels = [] ∧ i.pat = none ∧ i.terms = []

theorem isNote_typeNotes : ∀ i ∈ typeNotes t, IsNote i := by
  intro i hi
  obtain ⟨p, -, rfl⟩ := mem_map.mp hi
  exact ⟨rfl, rfl, rfl, rfl⟩

section

variable {ns : List Instr} (hns : ∀ i ∈ ns, IsNote i)

include hns

theorem mem_bodies_notes (hb : b ∈ (Func.bodies { f with instrs := ns ++ f.instrs, regT := t })) :
    b ∈ f.bodies ∨ (b.op = .comment ∧ b.pat = none ∧ b.terms = []) := by
  simp only [Func.bodies, map_append, mem_append] at hb
  rcases hb with hb | hb
  · obtain ⟨i, hi, rfl⟩ := mem_map.mp hb
    obtain ⟨hop, -, hrest⟩ := hns i hi
    exact Or.inr ⟨hop, hrest⟩
  · exact Or.inl hb

theorem wellSpelled_notes (hf : WellSpelled f) : WellSpelled { f with instrs := ns ++ f.instrs, regT := t } := by
  intro b hb
  rcases mem_bodies_notes hns hb with h | ⟨hop, -, -⟩
  · exact hf b h
  · constructor
    · simp [Body.dsts, Body.caseDsts, hop, Op.dsts]
    · simp [hop]
    · simp [Body.targets, Body.caseTargets, hop, Op.targets, Op.isCase]

theorem pinned_notes (hr : r ∈ pinned m { f with instrs := ns ++ f.instrs, regT := t }) : r ∈ pinned m f := by
  simp only [pinned, mem_append, mem_flatMap] at hr ⊢
  rcases hr with (hr | ⟨b, hb, hr⟩) | hr
  · exact Or.inl (Or.inl hr)
  · rcases mem_bodies_notes hns hb with h | ⟨hop, hpat, hterms⟩
    · exact Or.inl (Or.inr ⟨b, h, hr⟩)
    · simp [hop, multiDef, Body.patRegs, hpat, hterms] at hr
  · exact Or.inr hr

/-- Notes at the head change nothing for the table. -/
theorem Typed.notes (ht : Typed m f t) : Typed m { f with instrs := ns ++ f.instrs, regT := t } t := by
  refine ⟨fun b hb => ?_, fun r hr => ht.hidden r (pinned_notes hns hr), ht.seen⟩
  rcases mem_bodies_notes hns hb with h | ⟨hop, -, -⟩
  · exact ht.closed b h
  · intro nt d hnt
    simp [defType, hop, noDef] at hnt

end

/-- What `type_func` makes of a function is typed by the table it stores. -/
theorem typeFunc_inv {fuel : Nat} {f' : Func} (hf : WellSpelled f) (hT : f.regT = [])
    (h : typeFunc fuel m f = some f') :
    f'.regT = [] ∨ (Typed m f' f'.regT ∧ WellSpelled f') := by
  unfold typeFunc at h
  split at h
  · cases h
    exact Or.inl hT
  · obtain ⟨t, ht, hf'⟩ := Option.map_eq_some_iff.mp h
    split at hf'
    · subst hf'
      exact Or.inl hT
    · subst hf'
      exact Or.inr ⟨(typeTable_typed ht).notes isNote_typeNotes, wellSpelled_notes isNote_typeNotes hf⟩

/-- `type_func` stops, and in every run of the function it makes in which no instruction
reads a native register before it is written, every value in a written native register
and every value written to one is of the register's kind. -/
theorem typeFunc_sound {fuel : Nat} (m : Module) {f : Func} (hf : WellSpelled f)
    (hT : f.regT = []) (hfuel : 2 * f.nregs < fuel) :
    ∃ f', typeFunc fuel m f = some f' ∧
      ∀ (x : Base F O W) (args : List (Value F O)) (w : W) (s : State (Value F O) W)
        (written : List Nat),
        Run (runtime x) m f' (ReadsWritten f' f'.regT) (entry (runtime x) f' args w) s written →
        ReadsWritten f' f'.regT s written →
        (∀ r ∈ written, HasType (rt f'.regT r) (s.regs r)) ∧
          ∀ p ∈ (exec (runtime x) m f' s.regs s.pc s.world s.handlers).writes,
            HasType (rt f'.regT p.1) p.2 := by
  have hsome : ∃ f', typeFunc fuel m f = some f' := by
    obtain ⟨t, ht⟩ := typeTable_some m f hfuel
    unfold typeFunc
    split
    · exact ⟨f, rfl⟩
    · exact ⟨_, by rw [ht]; rfl⟩
  obtain ⟨f', h⟩ := hsome
  refine ⟨f', h, fun x args w s written hrun hok => ?_⟩
  rcases typeFunc_inv hf hT h with hnil | ⟨ht, hf'⟩
  · have hbox (r : Nat) : rt f'.regT r = .box := by simp [rt, hnil]
    exact ⟨fun r _ => hbox r ▸ hasType_box _, fun p _ => hbox p.1 ▸ hasType_box _⟩
  · have hold := ht.run_holds hf' hrun
    refine ⟨fun r hr => ?_, ht.writes_hasType hf' hold hok⟩
    by_cases hbox : rt f'.regT r = .box
    · exact hbox ▸ hasType_box _
    · rcases hold r hbox with h | h
      · exact h.2
      · exact absurd hr h.1

end

/-! A register read before it is written, and one that is not. -/

/-- `LOADK r0,K0; RET r0`. -/
def loadInt : Func where
  name := ['f']
  nregs := 1
  nparams := 0
  instrs := [{ op := .loadk, args := [newReg 0, constName 0] }, { op := .ret, args := [newReg 0] }]

/-- `MOVE r1,r0; LOADK r0,K0; RET r1`: both registers type as ints, and `r1` gets the nil
`r0` starts with. -/
def moveFirst : Func where
  name := ['g']
  nregs := 2
  nparams := 0
  instrs :=
    [{ op := .move, args := [newReg 1, newReg 0] },
     { op := .loadk, args := [newReg 0, constName 0] },
     { op := .ret, args := [newReg 1] }]

/-- One int constant. -/
def oneInt : Module where
  consts := [⟨.int, ['7']⟩]
  funcs := []

/-- A base runtime that has nothing to do. -/
def idle : Base Unit Unit Unit where
  floats :=
    { ofInt := fun _ => (), add := fun _ _ => (), sub := fun _ _ => (), mul := fun _ _ => ()
      div := fun _ _ => (), neg := fun _ => (), fmod := fun _ _ => (), pow := fun _ _ => ()
      floor := fun _ => (), lt := fun _ _ => false, le := fun _ _ => true, eq := fun _ _ => true
      zero := (), toInt := fun _ => none, lit := fun _ => (), constant := fun _ => () }
  konst _ := .nil
  upval _ _ := .nil
  throw _ _ := ()
  op _ _ _ _ _ := { world := () }

example : (typeFunc 3 oneInt loadInt).map Func.regT = some [.int] := by decide

theorem typeFunc_loadInt :
    ∃ f', typeFunc 3 oneInt loadInt = some f' ∧
      ∀ (x : Base Unit Unit Unit) (args : List (Value Unit Unit)) (w : Unit)
        (s : State (Value Unit Unit) Unit) (written : List Nat),
        Run (runtime x) oneInt f' (ReadsWritten f' f'.regT) (entry (runtime x) f' args w) s
          written →
        ReadsWritten f' f'.regT s written →
        (∀ r ∈ written, HasType (rt f'.regT r) (s.regs r)) ∧
          ∀ p ∈ (exec (runtime x) oneInt f' s.regs s.pc s.world s.handlers).writes,
            HasType (rt f'.regT p.1) p.2 :=
  typeFunc_sound oneInt (by decide) rfl (by decide)

/-- An initial clear that is read: `r1` is declared an int and a run writes nil to it. -/
theorem typeFunc_moveFirst :
    ∃ f' s written, typeFunc 5 oneInt moveFirst = some f' ∧
      Run (runtime idle) oneInt f' (fun _ _ => True) (entry (runtime idle) f' [] ()) s written ∧
      rt f'.regT 1 = .int ∧
      (1, .nil) ∈ (exec (runtime idle) oneInt f' s.regs s.pc s.world s.handlers).writes ∧
      ¬HasType (rt f'.regT 1) (.nil : Value Unit Unit) := by
  exact ⟨_, _, _, rfl, .step (.step .start trivial rfl) trivial rfl, rfl,
    mem_singleton.mpr rfl, id⟩

end Voila.Opt
