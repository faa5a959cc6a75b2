import Voila.Cg.Native
import Voila.Opt.TypingSound

/-!
# Voila.Cg.NativeEval

The C expressions of the native forms evaluate to what the boxed operations compute.

An operand of native type is read from its local, or from its text, as the value the
boxed operand has (`Loads`). On such operands every right-hand side `emit_native` prints
gives the boxed result, or the same trap (`emitRhs_eval`).

One constant form is left out: a float constant whose text is an integer too large for
any C integer type (`Spelled`).
-/

namespace Voila.Cg

open Ir Rt Opt List

variable {F O W : Type*}

/-! ### What C makes of a float constant -/

/-- A float constant's text that C reads as the same number with and without `.0`: it has a
point or an exponent, or it is an integer with a C type. -/
def Spelled (s : Str) : Prop :=
  isFloatText s = true ∧
    (s.any (· ∈ ['.', 'e', 'E']) = true ∨
      s.all Ir.isDigit = true ∧ Nat.ofDigitChars 10 s 0 < 2 ^ 64)

instance (s : Str) : Decidable (Spelled s) := inferInstanceAs (Decidable (_ ∧ _))

/-- An integer constant of C that has a type converts to the `double` its decimal form with
`.0` denotes. -/
def Converts (o : FloatOps F) : Prop :=
  ∀ s, s ≠ [] → s.all Ir.isDigit = true → Nat.ofDigitChars 10 s 0 < 2 ^ 64 →
    o.constant s = o.lit (s ++ ['.', '0'])

theorem cDouble_eq {o : FloatOps F} (ho : Converts o) {s : Str} (hs : Spelled s) :
    cDouble o s = o.lit (cFloat s) := by
  obtain ⟨htext, hs⟩ := hs
  unfold cDouble cFloat
  rw [htext]
  by_cases hdot : s.any (· ∈ ['.', 'e', 'E']) = true
  · simp only [hdot, if_true, Bool.true_eq_false, if_false]
  · obtain ⟨hall, hlt⟩ := hs.resolve_left hdot
    have hne : s ≠ [] := by
      rintro rfl
      exact absurd htext (by decide)
    simp only [hdot, Bool.true_eq_false, if_false]
    exact ho s hne hall hlt

/-! ### Operands -/

/-- Operand `a`, of native type `t`, loads the boxed value `v`. An int also widens. -/
inductive Loads (o : FloatOps F) (l : Locals F) (m : Module) (f : Func) (a : Str) :
    RegType → Value F O → Prop
  | int (i : Int64) : xty m f a = .int → (nat m f a .int).eval o l = .ok (.int i) →
      (nat m f a .float).eval o l = (itofCk o i).map .float → Loads o l m f a .int (.int i)
  | float (x : F) : xty m f a = .float → (nat m f a .float).eval o l = .ok (.float x) →
      Loads o l m f a .float (.float x)
  | bool (b : Bool) : xty m f a = .bool → (nat m f a .bool).eval o l = .ok (.bool b) →
      Loads o l m f a .bool (.bool b)

section

variable {o : FloatOps F} {l : Locals F} {m : Module} {f : Func}

variable {a : Str} {t : RegType} {k : Nat} {x : Base F O W} {v u : Value F O} {b : Body}
  {op : ArithOp}

/-- The three ways to load an atom of a type, by the type. -/
theorem Loads.of_atom {n : NVal F} (ht : t ≠ .box)
    (hxty : xty m f a = t) (hbad : atom m f a ≠ .bad) (he : (atom m f a).eval o l = .ok n)
    (hn : HasType t (n.box : Value F O)) : Loads o l m f a t (n.box : Value F O) := by
  have hnat (want : RegType) (hw : ¬(want = .float ∧ t = .int)) :
      (nat m f a want).eval o l = .ok n := by
    unfold nat
    rw [if_neg hbad, hxty, if_neg hw]
    exact he
  cases n with
  | int i =>
    cases t <;> simp only [NVal.box, HasType, ne_eq, not_true_eq_false] at hn ht
    refine .int i hxty (hnat .int (by simp)) ?_
    unfold nat
    rw [if_neg hbad, hxty, if_pos ⟨rfl, rfl⟩]
    simp only [CAtom.eval, he]
    rfl
  | float x =>
    cases t <;> simp only [NVal.box, HasType, ne_eq, not_true_eq_false] at hn ht
    exact .float x hxty (hnat .float (by simp))
  | bool b =>
    cases t <;> simp only [NVal.box, HasType, ne_eq, not_true_eq_false] at hn ht
    exact .bool b hxty (hnat .bool (by simp))

theorem cgSlot_of_constSlot (h : constSlot a = some k) : cgSlot a = none ∧ regSlot a = none := by
  unfold constSlot at h
  split at h
  · refine ⟨?_, rfl⟩
    simp [cgSlot, atoi, Ir.isDigit]
  · exact absurd h (by simp)

/-- A register of native type holds its local, boxed. -/
theorem loads_reg {r : Nat} (hr : regSlot a = some r) (hbox : rt f.regT r ≠ .box)
    (hseen : rt f.regT r ≠ .unseen) (frame : Nat → Value F O) :
    Loads o l m f a (rt f.regT r) (reg f.regT l frame r) := by
  have hc := cgSlot_of_regSlot hr
  have hxty : xty m f a = rt f.regT r := by simp only [xty, hc]
  have hatom : atom m f a = .loc (rt f.regT r) r := by
    unfold atom
    rw [hc]
    dsimp only
    cases ht : rt f.regT r with
    | int | float | bool => rfl
    | box => exact absurd ht hbox
    | unseen => exact absurd ht hseen
  have hbad : atom m f a ≠ .bad := by
    rw [hatom]
    simp
  unfold reg
  cases ht : rt f.regT r with
  | int =>
    rw [ht] at hatom hxty
    exact .of_atom (n := .int (l.i r)) (by simp) hxty hbad (by rw [hatom]; rfl) trivial
  | float =>
    rw [ht] at hatom hxty
    exact .of_atom (n := .float (l.f r)) (by simp) hxty hbad (by rw [hatom]; rfl) trivial
  | bool =>
    rw [ht] at hatom hxty
    exact .of_atom (n := .bool (l.b r)) (by simp) hxty hbad (by rw [hatom]; rfl) trivial
  | box => exact absurd ht hbox
  | unseen => exact absurd ht hseen

/-- A constant of native type is its text. -/
theorem loads_const (ho : Converts x.floats) {c : Const}
    (hk : constSlot a = some k) (hc : m.consts[k]? = some c)
    (hspell : c.kind = .float → Spelled c.text) (hbox : constType m a ≠ .box) :
    Loads x.floats l m f a (constType m a) (poolValue x c) := by
  have hcg := (cgSlot_of_constSlot hk).1
  have hxty : xty m f a = constType m a := by simp only [xty, hcg]
  cases hkind : c.kind with
  | int =>
    have hty : constType m a = .int := by simp [constType, hk, hc, hkind]
    have hatom : atom m f a = .int c.text := by simp [atom, hcg, hk, hc, hkind]
    have hval : poolValue x c = (NVal.int (intLit c.text)).box := by
      simp [poolValue, hkind, NVal.box]
    rw [hval, hty]
    exact .of_atom (by simp) (hxty.trans hty) (by simp [hatom]) (by rw [hatom]; rfl) trivial
  | float =>
    have hty : constType m a = .float := by simp [constType, hk, hc, hkind]
    have hatom : atom m f a = .float c.text := by simp [atom, hcg, hk, hc, hkind]
    have hval : poolValue x c = (NVal.float (cDouble x.floats c.text)).box := by
      simp [poolValue, hkind, NVal.box, cDouble_eq ho (hspell hkind)]
    rw [hval, hty]
    exact .of_atom (by simp) (hxty.trans hty) (by simp [hatom]) (by rw [hatom]; rfl) trivial
  | bool =>
    have hty : constType m a = .bool := by simp [constType, hk, hc, hkind]
    have hatom : atom m f a = .bool c.text := by simp [atom, hcg, hk, hc, hkind]
    have hval : poolValue x c = (NVal.bool (c.text = ['t', 'r', 'u', 'e'])).box := by
      simp [poolValue, hkind, NVal.box]
    rw [hval, hty]
    exact .of_atom (by simp) (hxty.trans hty) (by simp [hatom]) (by rw [hatom]; rfl) trivial
  | dec | str | rune | nil | unit =>
    exact absurd (by simp [constType, hk, hc, hkind]) hbox

/-- The operands of native type load as their boxed values. -/
theorem loads_operand (ho : Converts x.floats) (hseen : ∀ r, rt f.regT r ≠ .unseen)
    (hconst : ∀ k c, constSlot a = some k → m.consts[k]? = some c → c.kind = .float →
      Spelled c.text) (hbox : operandType m a f.regT ≠ .box) (frame : Nat → Value F O) (w : W) :
    Loads x.floats l m f a (operandType m a f.regT)
      (operand (runtime x) m f (reg f.regT l frame) w a) := by
  cases hr : regSlot a with
  | some r =>
    have hty : operandType m a f.regT = rt f.regT r := by simp [operandType, hr]
    rw [hty] at hbox ⊢
    have hop : operand (runtime x) m f (reg f.regT l frame) w a = reg f.regT l frame r := by
      simp [operand, hr]
    rw [hop]
    exact loads_reg hr hbox (hseen r) frame
  | none =>
    have hty : operandType m a f.regT = constType m a := by simp [operandType, hr]
    rw [hty] at hbox ⊢
    cases hk : constSlot a with
    | none => exact absurd (by simp [constType, hk]) hbox
    | some k =>
      cases hc : m.consts[k]? with
      | none => exact absurd (by simp [constType, hk, hc]) hbox
      | some c =>
        have hop : operand (runtime x) m f (reg f.regT l frame) w a = poolValue x c := by
          simp [operand, hr, hk, hc, runtime]
        rw [hop]
        exact loads_const ho hk hc (hconst k c hk hc) hbox

theorem Loads.xty_eq (h : Loads o l m f a t v) : xty m f a = t := by
  cases h <;> assumption

/-- A numeric operand widens as `int_to_float` widens the boxed one. -/
theorem Loads.widen {a : Str} {t : RegType} {v : Value F O} (h : Loads o l m f a t v)
    (ht : t = .int ∨ t = .float) :
    ∃ r, widen o v = some r ∧ (nat m f a .float).eval o l = r.map .float := by
  cases h with
  | int i _ _ hw => exact ⟨itofCk o i, rfl, hw⟩
  | float x _ he => exact ⟨.ok x, rfl, he⟩
  | bool b => exact absurd ht (by simp)

theorem Loads.int_eval (h : Loads o l m f a .int v) :
    ∃ i, v = .int i ∧ (nat m f a .int).eval o l = .ok (.int i) := by
  cases h with
  | int i _ he _ => exact ⟨i, rfl, he⟩

/-! ### Arithmetic -/

/-- The core an arithmetic operator prints on two ints. -/
def intFn : ArithOp → CFn
  | .add => .iadd
  | .sub => .isub
  | .mul => .imul
  | .div => .idivf
  | .idiv => .idiv
  | .mod => .imod
  | .pow => .ipow
  | .lt => .cmp .lt .int
  | .le => .cmp .le .int
  | .gt => .cmp .gt .int
  | .ge => .cmp .ge .int

/-- The same where a float takes part. -/
def floatFn : ArithOp → CFn
  | .add => .fadd
  | .sub => .fsub
  | .mul => .fmul
  | .div => .fdiv
  | .idiv => .idivF
  | .mod => .fmod
  | .pow => .fpow
  | .lt => .cmp .lt .float
  | .le => .cmp .le .float
  | .gt => .cmp .gt .float
  | .ge => .cmp .ge .float

/-- The same on ints of a sized type. -/
def sizedFn (t : SzTy) : ArithOp → CFn
  | .add => .iaddSz t
  | .sub => .isubSz t
  | .mul => .imulSz t
  | .pow => .ipowSz t
  | _ => .idivSz t

/-- The arithmetic rows of `emit_native`, in one. -/
theorem emitRhs_arith (ha : arithOp b.op = some op)
    (hx : xty m f (b.arg 1) = .int ∨ xty m f (b.arg 1) = .float)
    (hy : xty m f (b.arg 2) = .int ∨ xty m f (b.arg 2) = .float) :
    emitRhs m f b (resultType op (xty m f (b.arg 1)) (xty m f (b.arg 2))) =
      some (if xty m f (b.arg 1) = .int ∧ xty m f (b.arg 2) = .int then
        .bin (if op.hasSized && b.args.length > 3 then sizedFn (szCode (b.arg 3)) op else intFn op)
          (nat m f (b.arg 1) .int) (nat m f (b.arg 2) .int)
      else .bin (floatFn op) (nat m f (b.arg 1) .float) (nat m f (b.arg 2) .float)) := by
  by_cases hlen : b.args.length > 3 <;> rcases hx with hx | hx <;> rcases hy with hy | hy <;>
    cases hop : b.op <;> rw [hop] at ha <;>
      simp only [arithOp, Option.some.injEq, reduceCtorEq] at ha <;> subst ha <;>
      simp [emitRhs, hop, hx, hy, hlen, resultType, cmpOf, ArithOp.hasSized, intFn, floatFn, sizedFn]

theorem ofNum_map {A B : Type*} (r : Except (NumTrap F) A) (g : A → B) (box : B → Value F O) :
    ofNum (r.map g) box = ofNum r (box ∘ g) := by
  cases r <;> rfl

theorem intFn_eval (op : ArithOp) (i j : Int64) :
    ofNum ((intFn op).eval o (.int i) (.int j)) (NVal.box (O := O)) = intArith o op i j := by
  cases op <;> simp only [intFn, CFn.eval, NVal.asInt, ofNum_map, intArith] <;> rfl

theorem floatFn_eval (op : ArithOp) (x y : F) :
    ofNum ((floatFn op).eval o (.float x) (.float y)) (NVal.box (O := O)) = floatArith o op x y := by
  cases op <;> simp only [floatFn, CFn.eval, NVal.asFloat, ofNum_map, floatArith] <;> rfl

theorem sizedFn_eval (h : op.hasSized = true) (t : SzTy) (i j : Int64) :
    ofNum ((sizedFn t op).eval o (.int i) (.int j)) (NVal.box (O := O)) =
      ofNum (sizedCore op i j t) .int := by
  cases op <;>
    first
    | exact absurd h (by decide)
    | (simp only [sizedFn, CFn.eval, NVal.asInt, ofNum_map, sizedCore]; rfl)

/-- Two operands that widen, left first, under a float core. -/
theorem eval_floats {fn : CFn}
    (hfn : ∀ x y, ofNum (fn.eval o (.float x) (.float y)) NVal.box = floatArith (O := O) o op x y)
    {A B : CAtom} {a b : Value F O} {r s : Except (NumTrap F) F} (ha : widen o a = some r)
    (hb : widen o b = some s) (hA : A.eval o l = r.map .float) (hB : B.eval o l = s.map .float) :
    ofNum ((CExpr.bin fn A B).eval o l) NVal.box = mixArith o op a b := by
  simp only [CExpr.eval, mixArith, ha, hb, hA, hB]
  cases r with
  | error t => rfl
  | ok x =>
    cases s with
    | error t => rfl
    | ok y => exact hfn x y

/-- A float result is not range-checked. -/
theorem recheck_mixArith (h : op.hasSized = true) (hdiv : op ≠ .idiv)
    (i j : Int64) (t : SzTy) (a b : Value F O) :
    recheck op i j t (some (mixArith o op a b)) = some (mixArith o op a b) := by
  have hfloat (x y : F) : (∃ z, floatArith (O := O) o op x y = .ok (.float z)) := by
    cases op <;> first | exact absurd h (by decide) | exact absurd rfl hdiv | exact ⟨_, rfl⟩
  have hmix : (∃ t, mixArith o op a b = .error t) ∨ ∃ z, mixArith o op a b = .ok (.float z) := by
    unfold mixArith
    split
    · exact Or.inl ⟨_, rfl⟩
    · exact Or.inl ⟨_, rfl⟩
    · exact Or.inr (hfloat _ _)
    · exact Or.inl ⟨_, rfl⟩
  rcases hmix with ⟨t, ht⟩ | ⟨z, hz⟩
  · rw [ht]
    rfl
  · rw [hz]
    rfl

/-- What the boxed operator does when an operand is a float. -/
theorem compute_mix (ha : arithOp b.op = some op) {X Y : RegType}
    (hv : Num X v) (hu : Num Y u) (hXY : ¬(X = .int ∧ Y = .int))
    (hidiv : b.op = .idiv → ¬b.args.length > 3) :
    compute o b [v, u] = some (mixArith o op v u) := by
  have harith : arith o op v u = some (mixArith o op v u) := by
    cases hv <;> cases hu <;> first | exact absurd ⟨rfl, rfl⟩ hXY | rfl
  unfold compute
  simp only [ha]
  split
  · rename_i hsz
    simp only [Bool.and_eq_true, decide_eq_true_eq] at hsz
    have hdiv : op ≠ .idiv := by
      rintro rfl
      refine hidiv ?_ hsz.2
      cases hop : b.op <;> rw [hop] at ha <;> simp_all [arithOp]
    have hre (i j : Int64) := recheck_mixArith (o := o) hsz.1 hdiv i j (szCode (b.arg 3)) v u
    rw [← harith] at hre ⊢
    cases hv <;> cases hu <;> first | exact absurd ⟨rfl, rfl⟩ hXY | exact hre _ _
  · exact harith

/-- The arithmetic and ordering operators agree. -/
theorem eval_arith (ha : arithOp b.op = some op) {X Y : RegType}
    (hx : X = .int ∨ X = .float) (hy : Y = .int ∨ Y = .float)
    (hv : Loads o l m f (b.arg 1) X v) (hu : Loads o l m f (b.arg 2) Y u)
    (hvt : HasType X v) (hut : HasType Y u)
    (hidiv : b.op = .idiv → b.args.length > 3 → X = .int ∧ Y = .int) :
    ∃ e, emitRhs m f b (resultType op X Y) = some e ∧
      compute o b [v, u] = some (ofNum (e.eval o l) NVal.box) := by
  have hemit := emitRhs_arith (m := m) (f := f) ha (hv.xty_eq ▸ hx) (hu.xty_eq ▸ hy)
  rw [hv.xty_eq, hu.xty_eq] at hemit
  refine ⟨_, hemit, ?_⟩
  by_cases hXY : X = .int ∧ Y = .int
  · obtain ⟨rfl, rfl⟩ := hXY
    obtain ⟨i, rfl, hi⟩ := hv.int_eval
    obtain ⟨j, rfl, hj⟩ := hu.int_eval
    rw [if_pos ⟨rfl, rfl⟩]
    unfold compute
    simp only [ha, CExpr.eval, hi, hj]
    split
    · rename_i hsz
      simp only [Bool.and_eq_true] at hsz
      rw [sizedFn_eval hsz.1]
      rfl
    · rw [intFn_eval]
      rfl
  · rw [if_neg hXY, compute_mix ha (hvt.num hx) (hut.num hy) hXY fun h hl => hXY (hidiv h hl)]
    obtain ⟨r, hr, hA⟩ := hv.widen hx
    obtain ⟨s, hs, hB⟩ := hu.widen hy
    rw [eval_floats (floatFn_eval op) hr hs hA hB]

/-! ### The other operators -/

theorem eval_bits (hop : b.op ∈ [Op.shl, .shr, .band, .bor, .bxor])
    (hv : Loads o l m f (b.arg 1) .int v) (hu : Loads o l m f (b.arg 2) .int u) :
    ∃ e, emitRhs m f b .int = some e ∧
      compute o b [v, u] = some (ofNum (e.eval o l) NVal.box) := by
  obtain ⟨i, rfl, hi⟩ := hv.int_eval
  obtain ⟨j, rfl, hj⟩ := hu.int_eval
  have hshift (g : Int64 → Int64 → Except (NumTrap F) Int64)
      (hg : ∀ i n, n < 0 ∨ n > 63 → g i n = .error (.shift n)) :
      shift (O := O) g (.int i) (.int j) = some (ofNum (g i j) .int) := by
    by_cases h : j < 0 ∨ j > 63
    · simp [Rt.shift, wantI, derune, h, hg i j h, ofNum]
    · simp [Rt.shift, wantI, derune, h]
  simp only [mem_cons, not_mem_nil, or_false] at hop
  rcases hop with hop | hop | hop | hop | hop <;> refine ⟨_, by simp only [emitRhs, hop]; rfl, ?_⟩ <;>
    simp only [compute, hop, arithOp, CExpr.eval, hi, hj, CFn.eval, NVal.asInt]
  · rw [hshift ishlCk (fun i n h => if_pos h), ofNum_map]
    rfl
  · rw [hshift ishrCk (fun i n h => if_pos h), ofNum_map]
    rfl
  all_goals rfl

theorem eval_equal (hop : b.op ∈ [Op.cmpeq, .cmpne]) {X : RegType}
    (hX : X = .int ∨ X = .float ∨ X = .bool)
    (hv : Loads o l m f (b.arg 1) X v) (hu : Loads o l m f (b.arg 2) X u) :
    ∃ e, emitRhs m f b .bool = some e ∧
      compute o b [v, u] = some (ofNum (e.eval o l) NVal.box) := by
  rcases mem_pair.mp hop with hop | hop <;>
    refine ⟨_, by simp only [emitRhs, hop, cmpOf]; rfl, ?_⟩ <;>
    cases hv <;> cases hu <;>
    simp_all [compute, arithOp, CExpr.eval, CFn.eval, NVal.asInt, NVal.asFloat, NVal.asBool,
      equal, CCmp.int, CCmp.float, CCmp.bool, ofNum, NVal.box]

theorem eval_unary {X Y nt : RegType} (h : NativeDef b X Y nt)
    (hs : b.op.srcs = [.arg 1]) (hv : Loads o l m f (b.arg 1) X v) :
    ∃ e, emitRhs m f b nt = some e ∧ compute o b [v] = some (ofNum (e.eval o l) NVal.box) := by
  cases h with
  | arith ha => cases hop : b.op <;> rw [hop] at ha hs <;> simp [arithOp, Op.srcs] at ha hs
  | bits h =>
    simp only [mem_cons, not_mem_nil, or_false] at h
    rcases h with h | h | h | h | h <;> simp [h, Op.srcs] at hs
  | equal h => rcases mem_pair.mp h with h | h <;> simp [h, Op.srcs] at hs
  | neg hop hx hnt =>
    subst hnt
    cases hv with
    | int i _ he _ =>
      by_cases hlen : b.args.length > 2
      · refine ⟨_, by simp only [emitRhs, hop, hlen]; rfl, ?_⟩
        simp only [compute, hop, hlen, if_true, CExpr.eval, he, CFn1.eval, ofNum_map]
        rfl
      · refine ⟨_, by simp only [emitRhs, hop, hlen]; rfl, ?_⟩
        simp only [compute, hop, hlen, if_false, CExpr.eval, he, CFn1.eval, ofNum_map]
        rfl
    | float x _ he =>
      refine ⟨_, by simp only [emitRhs, hop]; rfl, ?_⟩
      simp only [compute, hop, CExpr.eval, he, CFn1.eval]
      split <;> rfl
    | bool c => exact absurd hx (by simp)
  | not hop hx hnt =>
    subst hx hnt
    cases hv with
    | bool c _ he =>
      refine ⟨_, by simp only [emitRhs, hop]; rfl, ?_⟩
      simp only [compute, hop, CExpr.eval, he]
      rfl
  | bnot hop hx hnt =>
    subst hx hnt
    obtain ⟨i, rfl, hi⟩ := hv.int_eval
    refine ⟨_, by simp only [emitRhs, hop]; rfl, ?_⟩
    simp only [compute, hop, CExpr.eval, hi]
    rfl

theorem eval_binary {X Y nt : RegType} (h : NativeDef b X Y nt)
    (hs : b.op.srcs = [.arg 1, .arg 2]) (hv : Loads o l m f (b.arg 1) X v)
    (hu : Loads o l m f (b.arg 2) Y u) (hvt : HasType X v) (hut : HasType Y u)
    (hidiv : b.op = .idiv → b.args.length > 3 → X = .int ∧ Y = .int) :
    ∃ e, emitRhs m f b nt = some e ∧
      compute o b [v, u] = some (ofNum (e.eval o l) NVal.box) := by
  cases h with
  | arith ha hx hy hnt =>
    subst hnt
    exact eval_arith ha hx hy hv hu hvt hut hidiv
  | bits h hx hy hnt =>
    subst hx hy hnt
    exact eval_bits h hv hu
  | equal h hxy hx hnt =>
    subst hxy hnt
    exact eval_equal h hx hv hu
  | neg h | not h | bnot h => simp [h, Op.srcs] at hs

end

end Voila.Cg
