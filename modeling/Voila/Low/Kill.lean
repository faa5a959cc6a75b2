import Voila.Ir.Shape
import Voila.Lib.Weave
import Voila.Lib.Worklist

/-!
# Voila.Low.Kill

Dropping temporaries early (`low/kill.voi`): a `KILL` behind the last instruction that
can read a register. A function without handlers is analysed for liveness (`killLive`),
one with handlers by a straight-line rule (`killLocal`).

The analysis works on text. Every register token of an instruction (`regs_of`) is an
occurrence, and every argument spelled as a label a jump.
-/

namespace Voila.Low

open Ir Lib

/-! ### The tables -/

/-- `ends_flow`. -/
def endsFlow : Op → Bool
  | .jump | .ret | .throw | .rethrow | .abort => true
  | _ => false

/-- `branches`; `SELFTY` starts with `SEL` too. -/
def branches : Op → Bool
  | .jmpf | .jmpt | .itnext | .ehpush | .argdef
  | .selbeg | .selrecv | .selsend | .seldef | .selend | .selfty => true
  | _ => false

/-- `pure_def`: argument 0 is a register the instruction only writes. -/
def pureDef : Op → Bool
  | .loadk | .move | .field | .index | .slice | .call | .callr | .callm | .callt | .newstruct
  | .newslice | .newmap | .newset | .newenum | .newrange | .newchan | .tuple | .tostr | .interp
  | .conv | .typeof | .rcount | .getglb | .loadfn | .mkclos | .zero | .selfty | .varread
  | .sharedthr => true
  | .add | .sub | .mul | .div | .idiv | .mod | .pow | .neg | .not | .band | .bor | .bxor | .bnot
  | .shl | .shr | .cat => true
  | .cmpeq | .cmpne | .cmplt | .cmple | .cmpgt | .cmpge | .cmpin => true
  | _ => false

/-- `reader_op`: the instruction only reads the operand, and falls through. -/
def readerOp : Op → Bool
  | .newstruct | .newslice | .newmap | .newset | .newenum | .tuple | .setfld | .setidx | .setglb
  | .upset | .send | .move => true
  | .call | .callr | .callm | .callt => true
  | .field | .index | .slice | .tostr | .interp | .conv | .typeof | .say => true
  | .cmpeq | .cmpne | .cmplt | .cmple | .cmpgt | .cmpge | .cmpin => true
  | _ => false

/-! ### Registers and labels in the text -/

/-- `to_int` on a text: blanks, a sign, digits. -/
def toInt (s : Str) : Option Int :=
  match s.dropWhile (· ∈ [' ', '\t']) with
  | '-' :: ds => (atoi ds).map fun n => -(n : Int)
  | '+' :: ds => (atoi ds).map fun n => (n : Int)
  | ds => (atoi ds).map fun n => (n : Int)

/-- `reg_exact`. -/
def regExact : Str → Option Nat
  | 'r' :: ds => (toInt ds).bind fun v => if 0 ≤ v then some v.toNat else none
  | _ => none

/-- The register tokens of an instruction's arguments. -/
def tokens (b : Body) : List Nat := b.args.flatMap regsOf

/-- The labels on an instruction. -/
def labelsAt (f : Func) (i : Nat) : List Str := (f.instrs[i]?.map Instr.labels).getD []

/-- `at`: the last instruction that carries the label. -/
def atLabel (f : Func) (l : Str) : Option Nat :=
  ((List.range f.instrs.length).filter fun i => decide (l ∈ labelsAt f i)).getLast?

/-- `pinned`: the registers no `KILL` may touch. -/
def pinned (m : Module) (f : Func) : List Nat :=
  m.upSlots f ++ f.bodies.flatMap fun b =>
    if b.pat.isSome ∨ b.terms ≠ [] then tokens b ++ b.terms.flatMap fun t => regsOf t.reg else []

/-! ### Liveness -/

/-- `succs`. -/
def succs (f : Func) (i : Nat) : List Nat :=
  match f.bodies[i]? with
  | some b =>
    (if endsFlow b.op = false ∧ i + 1 < f.bodies.length then [i + 1] else []) ++
      (b.args.filter (isLabel ·)).filterMap (atLabel f)
  | none => []

/-- `preds`. -/
def preds (f : Func) (t : Nat) : List Nat :=
  (List.range f.bodies.length).filter fun i => decide (t ∈ succs f i)

/-- `defs[i] == r`: the instruction only writes `r`, as its argument 0. -/
def defines (f : Func) (r i : Nat) : Bool :=
  match f.bodies[i]? with
  | some b => pureDef b.op && decide (regExact (b.arg 0) = some r)
  | none => false

/-- Instruction `i` is in `occ[r]`. -/
def occursAt (f : Func) (r i : Nat) : Bool :=
  match f.bodies[i]? with
  | some b => b.op ≠ .kill && decide (r ∈ tokens b)
  | none => false

/-- `reads_also`: a token of an argument other than 0. -/
def readsAlso (b : Body) (r : Nat) : Bool := decide (r ∈ (b.args.drop 1).flatMap regsOf)

/-- The occurrences that read `r`. -/
def seeds (f : Func) (r : Nat) : List Nat :=
  (List.range f.bodies.length).filter fun i =>
    occursAt f r i && (!defines f r i || (f.bodies[i]?.map fun b => readsAlso b r).getD false)

/-- The instructions `r` is live into: back from its readers, up to a pure write. -/
def live (f : Func) (r : Nat) : List Nat :=
  (drain (preds f) (defines f r) f.bodies.length (seeds f r) (seeds f r).reverse).getD []

/-- A named register is dropped early only when its type is plain. -/
def keepLive (m : Module) (f : Func) (r : Nat) : Bool :=
  decide (r ∈ pinned m f) || (decide (r ∈ f.named) && !decide (r ∈ f.plain))

/-- `kill_live`: the registers killed behind instruction `i`. -/
def killLive (m : Module) (f : Func) (i : Nat) : List Nat :=
  match f.bodies[i]? with
  | some b =>
    (List.range f.nregs).filter fun r =>
      !keepLive m f r && occursAt f r i && (succs f i).all (fun s => !decide (s ∈ live f r)) &&
        !endsFlow b.op && !branches b.op
  | none => []

/-! ### The straight-line rule -/

/-- How often a register is named. -/
def count (f : Func) (r : Nat) : Nat := (f.bodies.flatMap tokens).count r

/-- `defAt`: the last instruction whose argument 0 is the register. -/
def defAt (f : Func) (r : Nat) : Option Nat :=
  ((List.range f.bodies.length).filter fun i =>
    (f.bodies[i]?.map fun b => decide (b.arg 0 = newReg r)).getD false).getLast?

/-- Instruction `b` names `r` elsewhere than as its argument 0. -/
def uses (b : Body) (r : Nat) : Bool :=
  readsAlso b r || (decide (r ∈ regsOf (b.arg 0)) && decide (b.arg 0 ≠ newReg r))

/-- `useAt`. -/
def useAt (f : Func) (r : Nat) : Option Nat :=
  ((List.range f.bodies.length).filter fun i =>
    (f.bodies[i]?.map fun b => uses b r).getD false).getLast?

/-- `no_labels`, on the instructions behind `d` up to `u`. -/
def noLabels (f : Func) (d u : Nat) : Bool :=
  (List.range (u + 1)).all fun k => decide (k ≤ d) || decide (labelsAt f k = [])

def keepLocal (m : Module) (f : Func) (r : Nat) : Bool :=
  decide (r ∈ pinned m f) || decide (r < f.nparams) || decide (r ∈ f.named)

/-- `kill_local`: a register with one definition and one reader, in straight-line code. -/
def killLocal (m : Module) (f : Func) (i : Nat) : List Nat :=
  match f.bodies[i]? with
  | some b =>
    (List.range f.nregs).filter fun r =>
      !keepLocal m f r && count f r == 2 && useAt f r == some i && readerOp b.op &&
        match defAt f r with
        | some d => decide (d < i) && noLabels f d i
        | none => false
  | none => []

/-! ### The pass -/

/-- A function with an exception handler. -/
def hasHandler (f : Func) : Bool := f.bodies.any (·.op == .ehpush)

/-- The lowerer's own plain `KILL`s dropped: liveness places them again. -/
def dropPlain (f : Func) : Func :=
  { f with instrs := f.instrs.filter fun i =>
      !(i.op == .kill && i.args.length == 1 && i.labels.isEmpty) }

/-- The function `KILL`s are added to. -/
def killBase (f : Func) : Func := if hasHandler f then f else dropPlain f

/-- The registers killed behind each instruction of `killBase f`. -/
def kills (m : Module) (f : Func) : Nat → List Nat :=
  if hasHandler f then killLocal m f else killLive m (dropPlain f)

def killInstr (r : Nat) : Instr := { op := .kill, args := [newReg r] }

def addKills (f : Func) (ks : Nat → List Nat) : Func :=
  { f with instrs := weave (fun i => (ks i).map killInstr) f.instrs }

/-- `insert_kills`. -/
def insertKills (m : Module) (f : Func) : Func := addKills (killBase f) (kills m f)

end Voila.Low
