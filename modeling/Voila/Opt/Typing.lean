import Voila.Ir.Shape
import Voila.Lib.Fixpoint

/-!
# Voila.Opt.Typing

Typed unboxing (`opt/typing.voi`): one type per register, joined over all its
definitions by sweeping the code until nothing changes.
-/

namespace Voila.Opt

open Ir Lib

/-! ### The lattice -/

/-- `t_join`. -/
def join (a b : RegType) : RegType :=
  if a = .unseen then b
  else if b = .unseen then a
  else if a = b then a
  else .box

/-- `is_num`. -/
def isNum (t : RegType) : Bool := t == .int || t == .float

/-- The type of register `r`; a slot outside the table is boxed (`cg.rt`). -/
def rt (t : List RegType) (r : Nat) : RegType := t.getD r .box

/-! ### The transfer function -/

/-- `const_type`. -/
def constType (m : Module) (a : Str) : RegType :=
  match constSlot a with
  | some v =>
    match m.consts[v]?.map Const.kind with
    | some .int => .int
    | some .float => .float
    | some .bool => .bool
    | _ => .box
  | none => .box

/-- `operand_type`. -/
def operandType (m : Module) (a : Str) (t : List RegType) : RegType :=
  match regSlot a with
  | some r => rt t r
  | none => constType m a

/-- The opcodes whose first argument is no register destination. -/
def noDef : Op → Bool
  | .jump | .jmpf | .jmpt | .ret | .abort | .ckcanc | .say | .send | .setglb | .setidx | .setfld
  | .upset | .throw | .rethrow | .ehpop | .drop | .defer | .grpbeg | .grpend | .grpendt | .numdig
  | .argdef | .selbeg | .selend | .selsend | .seldef | .comment | .ndsave | .ndrest | .ehpush
  | .cksz => true
  | _ => false

/-- The result of `+ - * % **` on operands of types `x` and `y`. -/
def arithType (x y : RegType) : RegType :=
  if x = .int ∧ y = .int then .int else if isNum x && isNum y then .float else .box

/-- `def_type`: the type an instruction gives its destination `a[0]`; none where it has
no destination. -/
def defType (m : Module) (b : Body) (t : List RegType) : Option RegType :=
  let x := operandType m (b.arg 1) t
  let y := operandType m (b.arg 2) t
  match b.op with
  | .kill | .varlock | .varunlock | .escape => none
  | .varread | .sharedthr => some .box
  | .loadk => some (constType m (b.arg 1))
  | .move => some x
  | .add | .sub | .mul | .mod | .pow => some (arithType x y)
  | .div => some (if isNum x && isNum y then .float else .box)
  | .idiv => some (if isNum x && isNum y then .int else .box)
  | .shl | .shr | .band | .bor | .bxor => some (if x = .int ∧ y = .int then .int else .box)
  | .bnot => some (if x = .int then .int else .box)
  | .neg => some (if x = .int then .int else if x = .float then .float else .box)
  | .not => some (if x = .bool then .bool else .box)
  | .cmplt | .cmple | .cmpgt | .cmpge => some (if isNum x && isNum y then .bool else .box)
  | .cmpeq | .cmpne =>
    some (if x = y ∧ (x = .int ∨ x = .float ∨ x = .bool) then .bool else .box)
  | op =>
    if b.args = [] then none
    else if noDef op then none
    else if regSlot (b.arg 0) = none then none
    else some .box

/-! ### Hidden writers -/

/-- The opcodes with more than one destination. -/
def multiDef : Op → Bool
  | .untuple | .selrecv | .itnext | .vararg | .recvok => true
  | _ => false

/-- `pin_boxed`: parameters, registers of patterns and templates and of the opcodes that
write several, and the slots of descendant closures. -/
def pinned (m : Module) (f : Func) : List Nat :=
  List.range f.nparams ++
    f.bodies.flatMap (fun b =>
      b.patRegs.flatMap markRegsIn ++ if multiDef b.op then b.args.flatMap markRegsIn else []) ++
    m.upSlots f

def pinBoxed (m : Module) (f : Func) : List RegType :=
  (List.range f.nregs).map fun r => if r ∈ pinned m f then .box else .unseen

/-! ### The fixpoint -/

/-- One instruction of a sweep. -/
def visit (m : Module) (s : List RegType × Bool) (b : Body) : List RegType × Bool :=
  match defType m b s.1, regSlot (b.arg 0) with
  | some nt, some d =>
    if d < s.1.length ∧ join (rt s.1 d) nt ≠ rt s.1 d then (s.1.set d (join (rt s.1 d) nt), true)
    else s
  | _, _ => s

/-- A pass over the code, and whether it changed a type. -/
def sweep (m : Module) (f : Func) (t : List RegType) : List RegType × Bool :=
  f.bodies.foldl (visit m) (t, false)

/-- Registers nothing writes read as nil: they are boxed. -/
def boxUnseen (t : List RegType) : List RegType :=
  t.map fun x => if x = .unseen then .box else x

/-- The table `type_func` computes: a fixpoint, the unseen boxed, a fixpoint again. -/
def typeTable (fuel : Nat) (m : Module) (f : Func) : Option (List RegType) :=
  match untilSame (sweep m f) fuel (pinBoxed m f) with
  | some t => untilSame (sweep m f) fuel (boxUnseen t)
  | none => none

/-- `t_name`. -/
def typeName : RegType → Str
  | .int => ['i', 'n', 't']
  | .float => ['f', 'l', 'o', 'a', 't']
  | .bool => ['b', 'o', 'o', 'l']
  | _ => ['b', 'o', 'x']

/-- The listing note of a typed slot. -/
def typeNote (r : Nat) (t : RegType) : Instr where
  op := .comment
  args := [['o', 'p', 't', ':', ' '] ++ newReg r ++ [':'] ++ typeName t]

def typeNotes (t : List RegType) : List Instr :=
  (t.zipIdx.filter fun p => decide (p.1 ≠ .box)).map fun p => typeNote p.2 p.1

/-- `type_func`. -/
def typeFunc (fuel : Nat) (m : Module) (f : Func) : Option Func :=
  if f.bodies.any (·.op == .ehpush) ∨ f.nregs = 0 then some f
  else
    (typeTable fuel m f).map fun t =>
      if t.all (· == .box) then f
      else { f with instrs := typeNotes t ++ f.instrs, regT := t }

end Voila.Opt
