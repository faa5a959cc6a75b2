import Voila.Rt.Num
import Voila.Ir.Exec

/-!
# Voila.Rt.Ops

The boxed runtime operations (`ops.c`, `vl_equal`) on immediate values, and the
runtime of the IR machine they make up.

Durations and heap objects (decimals, strings, containers, structs with a `cmp` of
their own, Boxes, newtypes) are dealt with elsewhere in the runtime, which is a
parameter here (`Base`): an operation with such an operand, and every instruction
that is not arithmetic, a comparison, a conversion to a condition or a range check,
is the base's.
-/

namespace Voila.Rt

open Ir

/-- A boxed value (`Value`, by its tag). -/
inductive Value (F O : Type*)
  | nil
  | unit
  | bool (b : Bool)
  | int (i : Int64)
  | float (x : F)
  | rune (c : UInt32)
  | dur (ns : Int64)
  | instant (ns : Int64)
  | obj (o : O)

variable {F O W : Type*}

/-- Values of a kind the typing pass unboxes; `box` is any value. -/
def HasType : RegType → Value F O → Prop
  | .int, .int _ => True
  | .float, .float _ => True
  | .bool, .bool _ => True
  | .box, _ => True
  | _, _ => False

/-- Durations and objects: their operations are the base runtime's. -/
def Value.foreign : Value F O → Bool
  | .dur _ | .obj _ => true
  | _ => false

/-- `derune`. -/
def derune : Value F O → Value F O
  | .rune c => .int (Int64.ofNat c.toNat)
  | v => v

/-- Why an operation stopped: a numeric trap, or the fault of a wrong operand kind. -/
inductive Trap (F O : Type*)
  | num (t : NumTrap F)
  /-- `invalid operands: %s and %s`. -/
  | operands (a b : Value F O)
  /-- `cannot negate %s`. -/
  | negate (a : Value F O)
  /-- `expected int, got %s`. -/
  | wantInt (a : Value F O)
  /-- `not requires bool, got %s`. -/
  | wantBool (a : Value F O)
  /-- `condition must be bool, got %s`. -/
  | condition (a : Value F O)

/-- The outcome of an operation: `none` where the base runtime decides. -/
abbrev Outcome (F O A : Type*) := Option (Except (Trap F O) A)

def ofNum {A : Type*} (r : Except (NumTrap F) A) (box : A → Value F O) :
    Except (Trap F O) (Value F O) :=
  match r with
  | .ok a => .ok (box a)
  | .error t => .error (.num t)

/-! ### Arithmetic -/

section

variable (o : FloatOps F)

/-- `arith` on two ints. -/
def intArith (op : ArithOp) (a b : Int64) : Except (Trap F O) (Value F O) :=
  match op with
  | .add => ofNum (iaddCk a b) .int
  | .sub => ofNum (isubCk a b) .int
  | .mul => ofNum (imulCk a b) .int
  | .div => ofNum (idivfCk o a b) .float
  | .idiv => ofNum (ifloordiv a b) .int
  | .mod => ofNum (ifloormod a b) .int
  | .pow => ofNum (ipowI a b) .int
  | .lt => .ok (.bool (a < b))
  | .le => .ok (.bool (a ≤ b))
  | .gt => .ok (.bool (a > b))
  | .ge => .ok (.bool (a ≥ b))

/-- `arith` on two floats. -/
def floatArith (op : ArithOp) (x y : F) : Except (Trap F O) (Value F O) :=
  match op with
  | .add => .ok (.float (o.add x y))
  | .sub => .ok (.float (o.sub x y))
  | .mul => .ok (.float (o.mul x y))
  | .div => ofNum (fdivCk o x y) .float
  | .idiv => ofNum (ifloordivF o x y) .int
  | .mod => ofNum (ffloormod o x y) .float
  | .pow => .ok (.float (o.pow x y))
  | .lt => .ok (.bool (o.lt x y))
  | .le => .ok (.bool (o.le x y))
  | .gt => .ok (.bool (o.lt y x))
  | .ge => .ok (.bool (o.le y x))

/-- `int_to_float` on a numeric operand. -/
def widen : Value F O → Option (Except (NumTrap F) F)
  | .int i => some (itofCk o i)
  | .float x => some (.ok x)
  | _ => none

/-- `arith` where at least one operand is a float: the left one widens first. -/
def mixArith (op : ArithOp) (a b : Value F O) : Except (Trap F O) (Value F O) :=
  match widen o a, widen o b with
  | some (.error t), some _ => .error (.num t)
  | some (.ok _), some (.error t) => .error (.num t)
  | some (.ok x), some (.ok y) => floatArith o op x y
  | _, _ => .error (.operands a b)

/-- `arith`. -/
def arith (op : ArithOp) (a b : Value F O) : Outcome F O (Value F O) :=
  if a.foreign || b.foreign then none
  else
    match derune a, derune b with
    | .int a, .int b => some (intArith o op a b)
    | a, b => some (mixArith o op a b)

/-- `vl_iadd_sz` and its siblings, by the operator code of `vl_arith_sz`. -/
def sizedCore (op : ArithOp) (a b : Int64) (t : SzTy) : Except (NumTrap F) Int64 :=
  match op with
  | .add => iaddSz a b t
  | .sub => isubSz a b t
  | .mul => imulSz a b t
  | .pow => ipowSz a b t
  | _ => idivSz a b t

/-- The int of an int, else 0 (what `vl_arith_sz` prints). -/
def intOr0 : Value F O → Int64
  | .int i => i
  | _ => 0

/-- The range check of an ordinary operator's result, if it is an int. -/
def recheck (op : ArithOp) (x y : Int64) (t : SzTy) :
    Outcome F O (Value F O) → Outcome F O (Value F O)
  | some (.ok (.int r)) =>
    if t.outside r then some (.error (.num (.szovf op x y t))) else some (.ok (.int r))
  | r => r

/-- `vl_arith_sz`: two ints go to the sized core; any other pairing is the ordinary
operator, whose result is range-checked if it is an int. -/
def arithSz (op : ArithOp) (a b : Value F O) (t : SzTy) : Outcome F O (Value F O) :=
  if a.foreign || b.foreign then none
  else
    match derune a, derune b with
    | .int a, .int b => some (ofNum (sizedCore op a b t) .int)
    | x, y => recheck op (intOr0 x) (intOr0 y) t (arith o op a b)

/-- `vl_neg`. -/
def neg (a : Value F O) : Outcome F O (Value F O) :=
  if a.foreign then none
  else
    match derune a with
    | .int i => some (ofNum (inegCk i) .int)
    | .float x => some (.ok (.float (o.neg x)))
    | a => some (.error (.negate a))

/-- `vl_neg_sz`. -/
def negSz (a : Value F O) (t : SzTy) : Outcome F O (Value F O) :=
  if a.foreign then none
  else
    match derune a with
    | .int i => some (ofNum (inegSz i t) .int)
    | _ => neg o a

/-- `vl_not`. -/
def not (a : Value F O) : Outcome F O (Value F O) :=
  match a with
  | .bool b => some (.ok (.bool (!b)))
  | .obj _ => none
  | a => some (.error (.wantBool a))

/-- `want_i`. -/
def wantI (a : Value F O) : Outcome F O Int64 :=
  match derune a with
  | .int i => some (.ok i)
  | .obj _ => none
  | a => some (.error (.wantInt a))

/-- Both operands of a bit operation, left first. -/
def bitwise (f : Int64 → Int64 → Int64) (a b : Value F O) : Outcome F O (Value F O) :=
  match wantI a, wantI b with
  | some (.ok i), some (.ok j) => some (.ok (.int (f i j)))
  | some (.error t), _ => some (.error t)
  | some (.ok _), some (.error t) => some (.error t)
  | _, _ => none

/-- `vl_shl` and `vl_shr`: the count is looked at, and checked, before the operand. -/
def shift (f : Int64 → Int64 → Except (NumTrap F) Int64) (a b : Value F O) :
    Outcome F O (Value F O) :=
  match wantI b with
  | some (.ok n) =>
    if n < 0 ∨ n > 63 then some (.error (.num (.shift n)))
    else
      match wantI a with
      | some (.ok i) => some (ofNum (f i n) .int)
      | some (.error t) => some (.error t)
      | none => none
  | some (.error t) => some (.error t)
  | none => none

/-- `vl_equal` on immediates (`num_eq` across ints and floats). -/
def equal (a b : Value F O) : Option Bool :=
  match a, b with
  | .obj _, _ | _, .obj _ => none
  | .nil, .nil | .unit, .unit => some true
  | .bool a, .bool b => some (a == b)
  | .int a, .int b | .dur a, .dur b | .instant a, .instant b => some (a == b)
  | .float x, .float y => some (o.eq x y)
  | .rune c, .rune d => some (c == d)
  | .rune c, .int i | .int i, .rune c => some (Int64.ofNat c.toNat == i)
  | .int i, .float x => some (o.eq (o.ofInt i) x)
  | .float x, .int i => some (o.eq x (o.ofInt i))
  | _, _ => some false

/-- `vl_truthy`. -/
def truthy (a : Value F O) : Outcome F O Bool :=
  match a with
  | .bool b => some (.ok b)
  | .obj _ => none
  | a => some (.error (.condition a))

/-- `vl_cksz`: only an int is checked. -/
def cksz (a : Value F O) (t : SzTy) : Outcome F O Unit :=
  match a with
  | .int i =>
    match ckszI i t with
    | .ok _ => some (.ok ())
    | .error e => some (.error (.num e))
  | .obj _ => none
  | _ => some (.ok ())

end

/-! ### Instructions -/

/-- The arithmetic and ordering opcodes. -/
def arithOp : Op → Option ArithOp
  | .add => some .add
  | .sub => some .sub
  | .mul => some .mul
  | .div => some .div
  | .idiv => some .idiv
  | .mod => some .mod
  | .pow => some .pow
  | .cmplt => some .lt
  | .cmple => some .le
  | .cmpgt => some .gt
  | .cmpge => some .ge
  | _ => none

/-- The operator has a sized form (`sz_op_code`). -/
def ArithOp.hasSized : ArithOp → Bool
  | .add | .sub | .mul | .pow | .idiv => true
  | _ => false

/-- The value a value instruction computes from its operands (`binOp`, `unOp` and the
sized forms). -/
def compute (o : FloatOps F) (b : Body) (vals : List (Value F O)) : Outcome F O (Value F O) :=
  match vals with
  | [x, y] =>
    match arithOp b.op with
    | some op =>
      if op.hasSized && b.args.length > 3 then arithSz o op x y (szCode (b.arg 3))
      else arith o op x y
    | none =>
      match b.op with
      | .shl => shift ishlCk x y
      | .shr => shift ishrCk x y
      | .band => bitwise (· &&& ·) x y
      | .bor => bitwise (· ||| ·) x y
      | .bxor => bitwise (· ^^^ ·) x y
      | .cmpeq => (equal o x y).map fun c => .ok (.bool c)
      | .cmpne => (equal o x y).map fun c => .ok (.bool (!c))
      | _ => none
  | [x] =>
    match b.op with
    | .neg => if b.args.length > 2 then negSz o x (szCode (b.arg 2)) else neg o x
    | .not => not x
    | .bnot => (wantI x).map fun r => r.map fun i => .int (~~~i)
    | _ => none
  | _ => none

/-- The rest of the runtime. -/
structure Base (F O W : Type*) where
  floats : FloatOps F
  /-- Decimal, string and rune constants. -/
  konst : Const → Value F O
  upval : W → UpRef → Value F O
  /-- The world with the exception of a trap in flight. -/
  throw : W → Trap F O → W
  op : Body → List Body → List (Value F O) → List (Value F O) → W → Effect (Value F O) W

/-- `c.Text || "LL"` read as a C integer. -/
def intLit : Str → Int64
  | '-' :: ds => Int64.ofInt (-(Nat.ofDigitChars 10 ds 0 : Nat))
  | ds => Int64.ofNat (Nat.ofDigitChars 10 ds 0)

/-- `is_float_text`. -/
def isFloatText (s : Str) : Bool :=
  s.all (fun c => Ir.isDigit c || c ∈ ['.', 'e', 'E', '+', '-']) && s.any Ir.isDigit

/-- `c_float`. -/
def cFloat (s : Str) : Str :=
  if isFloatText s = false then ['0']
  else if s.any (· ∈ ['.', 'e', 'E']) then s
  else s ++ ['.', '0']

/-- An entry of the constant pool (`init_consts`). -/
def poolValue (x : Base F O W) (c : Const) : Value F O :=
  match c.kind with
  | .int => .int (intLit c.text)
  | .float => .float (x.floats.lit (cFloat c.text))
  | .bool => .bool (c.text = ['t', 'r', 'u', 'e'])
  | .nil => .nil
  | .unit => .unit
  | .dec | .str | .rune => x.konst c

/-- Carry on with the result of an operation, raise its trap, or leave it to the base. -/
def finish {A : Type*} (x : Base F O W) (w : W) (r : Outcome F O A)
    (ok : A → Effect (Value F O) W) (base : Effect (Value F O) W) : Effect (Value F O) W :=
  match r with
  | some (.ok a) => ok a
  | some (.error t) => { world := x.throw w t, next := .raise }
  | none => base

/-- Store the value a value instruction computed, or raise its trap. -/
def settle (x : Base F O W) (w : W) : Except (Trap F O) (Value F O) → Effect (Value F O) W
  | .ok v => { writes := [some v], world := w }
  | .error t => { world := x.throw w t, next := .raise }

/-- What an instruction does to its operands. -/
def perform (x : Base F O W) (b : Body) (cases : List Body) (vals cells : List (Value F O)) (w : W) :
    Effect (Value F O) W :=
  let base := x.op b cases vals cells w
  match b.op, vals with
  | .jmpf, [v] =>
    finish x w (truthy v) (fun c => { world := w, next := if c then .fall else .goto 0 }) base
  | .jmpt, [v] =>
    finish x w (truthy v) (fun c => { world := w, next := if c then .goto 0 else .fall }) base
  | .cksz, [v] => finish x w (cksz v (szCode (b.arg 1))) (fun _ => { world := w }) base
  | .ret, _ => { world := w, next := .ret (vals.headD .unit) }
  | _, _ => ((compute x.floats b vals).map (settle x w)).getD base

/-- The boxed runtime. A `KILL` clears a register that holds an object. -/
def runtime (x : Base F O W) : Runtime (Value F O) W where
  nil := .nil
  unit := .unit
  konst := poolValue x
  upval := x.upval
  clear
    | .obj _ => some .nil
    | _ => none
  op := perform x

end Voila.Rt
