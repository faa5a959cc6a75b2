import Voila.Ir.Ir

/-!
# Voila.Rt.Num

The numeric cores of the runtime (`voila.h`, `ops.c`): checked arithmetic on `int64`,
its forms over the sized integer types, and the float operations.

Boxed and native code share every one of them, down to the trap each ends in; that is
what lets two code generators agree. Floating point itself is abstract (`FloatOps`).
-/

namespace Voila.Rt

open Ir

/-! ### Sized integer types -/

/-- The sized integer types (`VL_SZ_*`). -/
inductive SzTy
  | i8 | i16 | i32 | u8 | u16 | u32 | u64
  deriving DecidableEq, Repr

/-- `cg.sz_code`; a name it does not know is a `u64`. -/
def szCode (t : Str) : SzTy :=
  if t = ['i', '8'] then .i8
  else if t = ['i', '1', '6'] then .i16
  else if t = ['i', '3', '2'] then .i32
  else if t = ['u', '8'] then .u8
  else if t = ['u', '1', '6'] then .u16
  else if t = ['u', '3', '2'] then .u32
  else .u64

/-- `vl_sz_lo`. -/
def SzTy.lo : SzTy → Int64
  | .i8 => -128
  | .i16 => -32768
  | .i32 => -2147483648
  | _ => 0

/-- `vl_sz_hi`; a `u64` goes up to `INT64_MAX`. -/
def SzTy.hi : SzTy → Int64
  | .i8 => 127
  | .i16 => 32767
  | .i32 => 2147483647
  | .u8 => 255
  | .u16 => 65535
  | .u32 => 4294967295
  | .u64 => Int64.maxValue

/-- `v < vl_sz_lo(t) || v > vl_sz_hi(t)`. -/
def SzTy.outside (t : SzTy) (v : Int64) : Bool := v < t.lo || v > t.hi

/-! ### Traps -/

/-- The operators of `arith` (`OP_*`). -/
inductive ArithOp
  | add | sub | mul | div | idiv | mod | pow | lt | le | gt | ge
  deriving DecidableEq, Repr

/-- The cold traps, with what their message prints; `F` is the type of floats. -/
inductive NumTrap (F : Type*)
  | iovf (op : ArithOp) (a b : Int64)
  | div0
  | itof (n : Int64)
  | shift (n : Int64)
  | inegovf
  | szovf (op : ArithOp) (a b : Int64) (t : SzTy)
  | szneg (a : Int64) (t : SzTy)
  | szval (v : Int64) (t : SzTy)
  | negExponent (b : Int64)
  | floorRange (q : F)

/-! ### Integers -/

section

variable {F : Type*}

/-- The mathematical result `c`, wrapped to `w`, or the overflow trap
(`__builtin_*_overflow`). -/
def checked (op : ArithOp) (a b : Int64) (c : Int) (w : Int64) : Except (NumTrap F) Int64 :=
  if w.toInt = c then .ok w else .error (.iovf op a b)

/-- `vl_iadd_ck`. -/
def iaddCk (a b : Int64) : Except (NumTrap F) Int64 := checked .add a b (a.toInt + b.toInt) (a + b)

/-- `vl_isub_ck`. -/
def isubCk (a b : Int64) : Except (NumTrap F) Int64 := checked .sub a b (a.toInt - b.toInt) (a - b)

/-- `vl_imul_ck`. -/
def imulCk (a b : Int64) : Except (NumTrap F) Int64 := checked .mul a b (a.toInt * b.toInt) (a * b)

/-- `vl_ifloordiv`: C's truncating quotient, corrected to the floor. -/
def ifloordiv (a b : Int64) : Except (NumTrap F) Int64 :=
  if b = 0 then .error .div0
  else if b = -1 ∧ a = Int64.minValue then .error (.iovf .idiv a (-1))
  else
    let q := a / b
    .ok (if a % b ≠ 0 ∧ (decide (a < 0) ≠ decide (b < 0)) then q - 1 else q)

/-- `vl_ifloormod`. -/
def ifloormod (a b : Int64) : Except (NumTrap F) Int64 :=
  if b = 0 then .error .div0
  else if b = -1 then .ok 0
  else
    let m := a % b
    .ok (if m ≠ 0 ∧ (decide (a < 0) ≠ decide (b < 0)) then m + b else m)

/-- The loop of `vl_ipow_i`, `e` halving; an overflow names the original operands. -/
def ipowLoop (a b : Int64) (result base : Int64) (e : Nat) : Except (NumTrap F) Int64 :=
  if _he : e = 0 then .ok result
  else
    match if e % 2 = 1 then checked .pow a b (result.toInt * base.toInt) (result * base)
      else .ok result with
    | .error t => .error t
    | .ok result =>
      match if e > 1 then checked .pow a b (base.toInt * base.toInt) (base * base)
        else .ok base with
      | .error t => .error t
      | .ok base => ipowLoop a b result base (e / 2)
termination_by e

/-- `vl_ipow_i`. -/
def ipowI (a b : Int64) : Except (NumTrap F) Int64 :=
  if b < 0 then .error (.negExponent b) else ipowLoop a b 1 a b.toInt.toNat

/-- `vl_ishl_ck`. -/
def ishlCk (a n : Int64) : Except (NumTrap F) Int64 :=
  if n < 0 ∨ n > 63 then .error (.shift n) else .ok (a <<< n)

/-- `vl_ishr_ck`, an arithmetic shift. -/
def ishrCk (a n : Int64) : Except (NumTrap F) Int64 :=
  if n < 0 ∨ n > 63 then .error (.shift n) else .ok (a >>> n)

/-- `vl_ineg_ck`. -/
def inegCk (a : Int64) : Except (NumTrap F) Int64 :=
  if a = Int64.minValue then .error .inegovf else .ok (-a)

/-! ### Sized integers -/

/-- The range check after a core. -/
def inSz (op : ArithOp) (a b : Int64) (t : SzTy) (c : Int64) : Except (NumTrap F) Int64 :=
  if t.outside c then .error (.szovf op a b t) else .ok c

/-- `vl_iadd_sz`, `vl_isub_sz`, `vl_imul_sz`: an `int64` overflow is out of range too. -/
def wrapSz (op : ArithOp) (a b : Int64) (t : SzTy) (c : Int) (w : Int64) :
    Except (NumTrap F) Int64 :=
  if w.toInt ≠ c ∨ t.outside w = true then .error (.szovf op a b t) else .ok w

def iaddSz (a b : Int64) (t : SzTy) : Except (NumTrap F) Int64 :=
  wrapSz .add a b t (a.toInt + b.toInt) (a + b)

def isubSz (a b : Int64) (t : SzTy) : Except (NumTrap F) Int64 :=
  wrapSz .sub a b t (a.toInt - b.toInt) (a - b)

def imulSz (a b : Int64) (t : SzTy) : Except (NumTrap F) Int64 :=
  wrapSz .mul a b t (a.toInt * b.toInt) (a * b)

/-- `vl_ineg_sz`. -/
def inegSz (a : Int64) (t : SzTy) : Except (NumTrap F) Int64 :=
  if a = Int64.minValue ∨ t.outside (-a) = true then .error (.szneg a t) else .ok (-a)

/-- `vl_ipow_sz`: the core's own traps come first. -/
def ipowSz (a b : Int64) (t : SzTy) : Except (NumTrap F) Int64 := do
  inSz .pow a b t (← ipowI a b)

/-- `vl_idiv_sz`. -/
def idivSz (a b : Int64) (t : SzTy) : Except (NumTrap F) Int64 := do
  inSz .idiv a b t (← ifloordiv a b)

/-- `vl_cksz_i`. -/
def ckszI (v : Int64) (t : SzTy) : Except (NumTrap F) Int64 :=
  if t.outside v then .error (.szval v t) else .ok v

end

/-! ### Floats -/

/-- Floating point, taken as it is: C's `double` operations. -/
structure FloatOps (F : Type*) where
  /-- `(double)n`. -/
  ofInt : Int64 → F
  add : F → F → F
  sub : F → F → F
  mul : F → F → F
  div : F → F → F
  neg : F → F
  fmod : F → F → F
  pow : F → F → F
  floor : F → F
  lt : F → F → Bool
  le : F → F → Bool
  eq : F → F → Bool
  zero : F
  /-- `(int64_t)q`, where `q` is within the range of `int64`. -/
  toInt : F → Option Int64
  /-- The value of a C floating literal. -/
  lit : Str → F
  /-- The value of a C integer literal where a `double` is wanted. -/
  constant : Str → F

section

variable {F : Type*} (o : FloatOps F)

/-- `vl_itof_ck`: only when exactly representable, up to `2^53` either way. -/
def itofCk (n : Int64) : Except (NumTrap F) F :=
  if n > 9007199254740992 ∨ n < -9007199254740992 then .error (.itof n) else .ok (o.ofInt n)

/-- `vl_fdiv_ck`. -/
def fdivCk (x y : F) : Except (NumTrap F) F :=
  if o.eq y o.zero then .error .div0 else .ok (o.div x y)

/-- `vl_idivf_ck`: division by zero is found before the operands widen, left first. -/
def idivfCk (a b : Int64) : Except (NumTrap F) F := do
  if b = 0 then throw .div0
  let x ← itofCk o a
  return o.div x (← itofCk o b)

/-- `vl_ffloormod`. -/
def ffloormod (x y : F) : Except (NumTrap F) F :=
  if o.eq y o.zero then .error .div0
  else
    let m := o.fmod x y
    .ok (if !o.eq m o.zero && (o.lt m o.zero != o.lt y o.zero) then o.add m y else m)

/-- `vl_ifloordiv_f`. -/
def ifloordivF (x y : F) : Except (NumTrap F) Int64 :=
  if o.eq y o.zero then .error .div0
  else
    let q := o.floor (o.div x y)
    match o.toInt q with
    | some i => .ok i
    | none => .error (.floorRange q)

end

end Voila.Rt
