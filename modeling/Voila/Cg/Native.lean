import Voila.Opt.Typing
import Voila.Rt.Ops

/-!
# Voila.Cg.Native

The native instruction forms of the C backend (`emit_native` in `cg/instr.voi`): an
instruction whose destination the typing pass unboxed becomes an assignment to a C
local, with the runtime's inline cores; everything else goes the boxed way, typed
operands being boxed on demand.

The C text is modelled by the statements it parses to (`CStmt`), and a native function
runs on a frame of boxed registers beside three files of locals.
-/

namespace Voila.Cg

open Ir Rt Opt

/-! ### The emitted C -/

/-- A native operand (`nat`): a local, a constant's text, or either widened. -/
inductive CAtom
  /-- `r5_i`, `r5_f`, `r5_b`. -/
  | loc (t : RegType) (r : Nat)
  /-- `textLL`. -/
  | int (text : Str)
  | float (text : Str)
  | bool (text : Str)
  /-- `vl_itof_ck(e)`. -/
  | itof (e : CAtom)
  /-- The `0` after a `cgen` failure. -/
  | bad
  deriving DecidableEq

/-- The comparison operators of C. -/
inductive CCmp
  | lt | le | gt | ge | eq | ne
  deriving DecidableEq

/-- The binary cores and operators the backend prints. -/
inductive CFn
  | iadd | isub | imul
  | iaddSz (t : SzTy) | isubSz (t : SzTy) | imulSz (t : SzTy)
  | fadd | fsub | fmul
  | idivf | fdiv
  | idiv | idivSz (t : SzTy) | idivF
  | imod | fmod
  | ipow | ipowSz (t : SzTy) | fpow
  | shl | shr | band | bor | bxor
  | cmp (c : CCmp) (t : RegType)
  deriving DecidableEq

/-- The unary cores and operators. -/
inductive CFn1
  | bnot | ineg | inegSz (t : SzTy) | fneg | lnot
  deriving DecidableEq

inductive CExpr
  | atom (a : CAtom)
  | un (f : CFn1) (a : CAtom)
  | bin (f : CFn) (a b : CAtom)
  deriving DecidableEq

/-- A native statement. -/
inductive CStmt
  /-- `if (r5_b) goto L;`, or with `!`. -/
  | branch (neg : Bool) (r : Nat) (l : Str)
  /-- `r5_i = e;` -/
  | set (t : RegType) (d : Nat) (e : CExpr)
  deriving DecidableEq

/-! ### Emission -/

section

variable (m : Module) (f : Func)

/-- `xty`: an operand's type, from the table or the pool (`const_rt` is `const_type`). -/
def xty (a : Str) : RegType :=
  match cgSlot a with
  | some r => rt f.regT r
  | none => constType m a

/-- The operand in native form before any widening; a box has none. -/
def atom (a : Str) : CAtom :=
  match cgSlot a with
  | some r =>
    match rt f.regT r with
    | .int => .loc .int r
    | .float => .loc .float r
    | .bool => .loc .bool r
    | _ => .bad
  | none =>
    match (constSlot a).bind (m.consts[·]?) with
    | some c =>
      match c.kind with
      | .int => .int c.text
      | .float => .float c.text
      | .bool => .bool c.text
      | _ => .bad
    | none => .bad

/-- `nat`. -/
def nat (a : Str) (want : RegType) : CAtom :=
  if atom m f a = .bad then .bad
  else if want = .float ∧ xty m f a = .int then .itof (atom m f a)
  else atom m f a

/-- The C comparison of a `CMP*` opcode. -/
def cmpOf : Op → Option CCmp
  | .cmplt => some .lt
  | .cmple => some .le
  | .cmpgt => some .gt
  | .cmpge => some .ge
  | .cmpeq => some .eq
  | .cmpne => some .ne
  | _ => none

/-- The right-hand side `emit_native` prints for a destination of type `dt`; none where
the boxed paths take over. -/
def emitRhs (b : Body) (dt : RegType) : Option CExpr :=
  let a1 := b.arg 1
  let a2 := b.arg 2
  let ints (fn : CFn) : Option CExpr := some (.bin fn (nat m f a1 .int) (nat m f a2 .int))
  let floats (fn : CFn) : Option CExpr := some (.bin fn (nat m f a1 .float) (nat m f a2 .float))
  let sized := b.args.length > 3
  let bothInt := xty m f a1 = .int ∧ xty m f a2 = .int
  match b.op with
  | .loadk | .move => some (.atom (nat m f a1 dt))
  | .add =>
    if dt = .int ∧ sized then ints (.iaddSz (szCode (b.arg 3)))
    else if dt = .int then ints .iadd
    else floats .fadd
  | .sub =>
    if dt = .int ∧ sized then ints (.isubSz (szCode (b.arg 3)))
    else if dt = .int then ints .isub
    else floats .fsub
  | .mul =>
    if dt = .int ∧ sized then ints (.imulSz (szCode (b.arg 3)))
    else if dt = .int then ints .imul
    else floats .fmul
  | .div => if bothInt then ints .idivf else floats .fdiv
  | .idiv =>
    if bothInt ∧ sized then ints (.idivSz (szCode (b.arg 3)))
    else if bothInt then ints .idiv
    else floats .idivF
  | .mod => if dt = .int then ints .imod else floats .fmod
  | .pow =>
    if dt = .int ∧ sized then ints (.ipowSz (szCode (b.arg 3)))
    else if dt = .int then ints .ipow
    else floats .fpow
  | .shl => ints .shl
  | .shr => ints .shr
  | .band => ints .band
  | .bor => ints .bor
  | .bxor => ints .bxor
  | .bnot => some (.un .bnot (nat m f a1 .int))
  | .neg =>
    if dt = .int ∧ b.args.length > 2 then
      some (.un (.inegSz (szCode (b.arg 2))) (nat m f a1 .int))
    else if dt = .int then some (.un .ineg (nat m f a1 .int))
    else some (.un .fneg (nat m f a1 .float))
  | .not => some (.un .lnot (nat m f a1 .bool))
  | op =>
    match cmpOf op with
    | some c =>
      let w := if xty m f a1 = .bool ∧ xty m f a2 = .bool then RegType.bool
        else if bothInt then .int else .float
      some (.bin (.cmp c w) (nat m f a1 w) (nat m f a2 w))
    | none => none

/-- `emit_native`. -/
def emitNative (b : Body) : Option CStmt :=
  if b.op = .jmpf ∨ b.op = .jmpt then
    match cgSlot (b.arg 0) with
    | some r =>
      if rt f.regT r = .bool then some (.branch (b.op = .jmpf) r (b.arg 1)) else none
    | none => none
  else
    match cgSlot (b.arg 0) with
    | some d =>
      if rt f.regT d = .box then none
      else (emitRhs m f b (rt f.regT d)).map (.set (rt f.regT d) d)
    | none => none

end

/-! ### Running it -/

/-- The C locals: `int64_t rN_i`, `double rN_f`, `bool rN_b`. -/
structure Locals (F : Type*) where
  i : Nat → Int64
  f : Nat → F
  b : Nat → Bool

/-- The value of a native expression. -/
inductive NVal (F : Type*)
  | int (i : Int64)
  | float (x : F)
  | bool (b : Bool)

variable {F O W : Type*}

/-- `vl_int(…)`, `vl_float(…)`, `vl_bool(…)`. -/
def NVal.box : NVal F → Value F O
  | .int i => .int i
  | .float x => .float x
  | .bool b => .bool b

/-- The int of an int expression; the backend prints no other where C wants one. -/
def NVal.asInt : NVal F → Int64
  | .int i => i
  | _ => 0

def NVal.asFloat (o : FloatOps F) : NVal F → F
  | .float x => x
  | _ => o.zero

def NVal.asBool : NVal F → Bool
  | .bool b => b
  | _ => false

/-- A float constant's text as it stands: without a point or an exponent it is an integer
literal to C. -/
def cDouble (o : FloatOps F) (s : Str) : F :=
  if s.any (· ∈ ['.', 'e', 'E']) then o.lit s else o.constant s

section

variable (o : FloatOps F) (l : Locals F)

def CAtom.eval : CAtom → Except (NumTrap F) (NVal F)
  | .loc .int r => .ok (.int (l.i r))
  | .loc .float r => .ok (.float (l.f r))
  | .loc .bool r => .ok (.bool (l.b r))
  | .loc _ _ => .ok (.int 0)
  | .int text => .ok (.int (intLit text))
  | .float text => .ok (.float (cDouble o text))
  | .bool text => .ok (.bool (text = ['t', 'r', 'u', 'e']))
  | .itof e =>
    match e.eval with
    | .ok v => (itofCk o v.asInt).map .float
    | .error t => .error t
  | .bad => .ok (.int 0)

def CCmp.int (c : CCmp) (a b : Int64) : Bool :=
  match c with
  | .lt => a < b
  | .le => a ≤ b
  | .gt => a > b
  | .ge => a ≥ b
  | .eq => a == b
  | .ne => !(a == b)

def CCmp.float (c : CCmp) (x y : F) : Bool :=
  match c with
  | .lt => o.lt x y
  | .le => o.le x y
  | .gt => o.lt y x
  | .ge => o.le y x
  | .eq => o.eq x y
  | .ne => !(o.eq x y)

/-- Bools compare as the ints 0 and 1. -/
def CCmp.bool (c : CCmp) (a b : Bool) : Bool :=
  match c with
  | .lt => !a && b
  | .le => !a || b
  | .gt => a && !b
  | .ge => a || !b
  | .eq => a == b
  | .ne => !(a == b)

def CFn.eval (fn : CFn) (x y : NVal F) : Except (NumTrap F) (NVal F) :=
  let a := x.asInt
  let b := y.asInt
  let u := x.asFloat o
  let v := y.asFloat o
  match fn with
  | .iadd => (iaddCk a b).map .int
  | .isub => (isubCk a b).map .int
  | .imul => (imulCk a b).map .int
  | .iaddSz t => (Rt.iaddSz a b t).map .int
  | .isubSz t => (Rt.isubSz a b t).map .int
  | .imulSz t => (Rt.imulSz a b t).map .int
  | .fadd => .ok (.float (o.add u v))
  | .fsub => .ok (.float (o.sub u v))
  | .fmul => .ok (.float (o.mul u v))
  | .idivf => (idivfCk o a b).map .float
  | .fdiv => (fdivCk o u v).map .float
  | .idiv => (ifloordiv a b).map .int
  | .idivSz t => (Rt.idivSz a b t).map .int
  | .idivF => (ifloordivF o u v).map .int
  | .imod => (ifloormod a b).map .int
  | .fmod => (ffloormod o u v).map .float
  | .ipow => (ipowI a b).map .int
  | .ipowSz t => (Rt.ipowSz a b t).map .int
  | .fpow => .ok (.float (o.pow u v))
  | .shl => (ishlCk a b).map .int
  | .shr => (ishrCk a b).map .int
  | .band => .ok (.int (a &&& b))
  | .bor => .ok (.int (a ||| b))
  | .bxor => .ok (.int (a ^^^ b))
  | .cmp c .float => .ok (.bool (c.float o u v))
  | .cmp c .bool => .ok (.bool (c.bool x.asBool y.asBool))
  | .cmp c _ => .ok (.bool (c.int a b))

def CFn1.eval (fn : CFn1) (x : NVal F) : Except (NumTrap F) (NVal F) :=
  match fn with
  | .bnot => .ok (.int (~~~x.asInt))
  | .ineg => (inegCk x.asInt).map .int
  | .inegSz t => (Rt.inegSz x.asInt t).map .int
  | .fneg => .ok (.float (o.neg (x.asFloat o)))
  | .lnot => .ok (.bool (!x.asBool))

/-- Operands are evaluated left first. -/
def CExpr.eval : CExpr → Except (NumTrap F) (NVal F)
  | .atom a => a.eval o l
  | .un fn a =>
    match a.eval o l with
    | .ok x => fn.eval o x
    | .error t => .error t
  | .bin fn a b =>
    match a.eval o l with
    | .error t => .error t
    | .ok x =>
      match b.eval o l with
      | .error t => .error t
      | .ok y => fn.eval o x y

end

/-- Assignment to a local. -/
def Locals.set (o : FloatOps F) (l : Locals F) (t : RegType) (d : Nat) (v : NVal F) : Locals F :=
  match t with
  | .int => { l with i := Function.update l.i d v.asInt }
  | .float => { l with f := Function.update l.f d (v.asFloat o) }
  | .bool => { l with b := Function.update l.b d v.asBool }
  | _ => l

structure NState (F O W : Type*) where
  pc : Nat
  frame : Nat → Value F O
  loc : Locals F
  world : W
  handlers : List Str

/-- `operand` on a register: a typed one is boxed on demand. -/
def reg (t : List RegType) (l : Locals F) (frame : Nat → Value F O) (r : Nat) : Value F O :=
  match rt t r with
  | .int => .int (l.i r)
  | .float => .float (l.f r)
  | .bool => .bool (l.b r)
  | _ => frame r

/-- What a native instruction did, with the locals after it. -/
structure NDone (F O W : Type*) extends Done (Value F O) W where
  loc : Locals F

section

variable (x : Base F O W) (m : Module) (f : Func)

/-- A native statement for instruction `b` at `pc`. -/
def execNative (s : NState F O W) (b : Body) (c : CStmt) : NDone F O W :=
  let rd := reg f.regT s.loc s.frame
  let vals := (f.srcsAt s.pc b).map (operand (runtime x) m f rd s.world)
  let events := if b.op.cls = .perform then [{ body := b, vals := vals }] else []
  match c with
  | .branch neg r l =>
    { events := events, world := s.world, handlers := s.handlers, loc := s.loc
      ctl := if s.loc.b r != neg then jumpTo f l else .at (s.pc + 1) }
  | .set t d e =>
    match e.eval x.floats s.loc with
    | .ok v =>
      { events := events, world := s.world, handlers := s.handlers
        loc := s.loc.set x.floats t d v, ctl := .at (s.pc + 1) }
    | .error t =>
      let c := follow f s.pc b s.handlers .raise
      { events := events, world := x.throw s.world (.num t), handlers := c.2, loc := s.loc
        ctl := c.1 }

/-- The instruction at the native program counter. -/
def execTyped (s : NState F O W) : NDone F O W :=
  let boxed : NDone F O W :=
    { exec (runtime x) m f (reg f.regT s.loc s.frame) s.pc s.world s.handlers with loc := s.loc }
  match f.bodies[s.pc]? with
  | some b =>
    match emitNative m f b with
    | some c => execNative x m f s b c
    | none => boxed
  | none => boxed

/-- The machine of a function with typed registers. -/
def nativeMachine :
    Lib.Machine (NState F O W) (Event (Value F O)) (Result (Value F O) W) := fun s =>
  let d := execTyped x m f s
  let frame := setRegs s.frame d.writes
  match d.ctl with
  | .at pc =>
    .next d.events
      { pc := pc, frame := frame, loc := d.loc, world := d.world, handlers := d.handlers }
  | .exit e =>
    .done d.events
      { exit := e, world := d.world, cells := (m.upSlots f).map (reg f.regT d.loc frame) }

/-- Entering: the locals start at zero, the parameters go to the frame. -/
def nativeEntry (args : List (Value F O)) (w : W) : NState F O W where
  pc := 0
  frame := (entry (runtime x) f args w).regs
  loc := { i := fun _ => 0, f := fun _ => x.floats.zero, b := fun _ => false }
  world := w
  handlers := []

end

end Voila.Cg
