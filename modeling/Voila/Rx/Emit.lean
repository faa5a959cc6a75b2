import Voila.Rx.Pattern

/-!
# Voila.Rx.Emit

The compiler of `regex.c`: the tree of a pattern to the program of the machine.

An operand that is known when its instruction is emitted is given with it, the others are patched as in the source.
A program that outgrows `RX_MAX_PROG` is thrown away, so what is patched in it then does not matter.
-/

namespace Voila.Rx

open Voila.Rt (Bytes)
open Voila.Rt.Json (ch)

def rxMaxProg : Nat := 20000

structure Emit where
  prog : Prog
  overflow : Bool

def Emit.n (e : Emit) : Nat := e.prog.length

/-- `emit`: the place of the new instruction, or of the last one where there is no room. -/
def Emit.emit (e : Emit) (i : Inst) : Emit × Nat :=
  if e.n = rxMaxProg then (⟨e.prog, true⟩, e.n - 1) else (⟨e.prog ++ [i], e.overflow⟩, e.n)

/-- Setting the field `x` of an instruction. -/
def setX (x : Nat) : Inst → Inst
  | .jmp _ => .jmp x
  | .split _ y => .split x y
  | .save _ => .save x
  | i => i

/-- Setting the field `y` of an instruction. -/
def setY (y : Nat) : Inst → Inst
  | .split x _ => .split x y
  | i => i

def Emit.patch (e : Emit) (i : Nat) (set : Inst → Inst) : Emit := { e with prog := e.prog.modify i set }

/-! ### Whole characters -/

def contSet : ByteSet := setRange setNone 0x80 0xBF
def lead2Set : ByteSet := setRange setNone 0xC2 0xDF
def lead3Set : ByteSet := setRange setNone 0xE0 0xEF
def lead4Set : ByteSet := setRange setNone 0xF0 0xF4

/-- A row of classes. -/
def emitClasses (sets : List ByteSet) (e : Emit) : Emit := sets.foldl (fun e set => (e.emit (.cls set)).1) e

/-- A branch of `emit_utf8_class` behind a split, with the place of the jump at its end. -/
def emitBranch (sets : List ByteSet) (e : Emit) : Emit × Nat :=
  let (e, sp) := e.emit (.split 0 0)
  let e := e.patch sp (setX e.n)
  let e := emitClasses sets e
  let (e, j) := e.emit (.jmp 0)
  (e.patch sp (setY e.n), j)

/-- `emit_utf8_class`: one byte of `ascii`, or a sequence of two, three or four bytes. -/
def emitUtf8Class (ascii : ByteSet) (e : Emit) : Emit :=
  let (e, j0) := emitBranch [ascii] e
  let (e, j1) := emitBranch [lead2Set, contSet] e
  let (e, j2) := emitBranch [lead3Set, contSet, contSet] e
  let e := emitClasses [lead4Set, contSet, contSet, contSet] e
  ((e.patch j0 (setX e.n)).patch j1 (setX e.n)).patch j2 (setX e.n)

/-- The bytes that `.` takes below `0x80`. -/
def anySet : ByteSet := fun b => b ≤ 0x7F && b != 10

/-- The bytes that a negated class takes below `0x80`. -/
def outsideSet (set : ByteSet) : ByteSet := fun b => b < 0x80 && !set b

/-! ### Repetitions -/

/-- The mandatory copies of `emit_rep`. -/
def emitCopies (emitBody : Emit → Emit) : Nat → Emit → Emit
  | 0, e => e
  | k + 1, e =>
    let e := emitBody e
    if e.overflow then e else emitCopies emitBody k e

/-- `x*` after the mandatory copies. -/
def emitStar (emitBody : Emit → Emit) (greedy : Bool) (e : Emit) : Emit :=
  let (e, sp) := e.emit (.split 0 0)
  let start := e.n
  let e := emitBody e
  let (e, jp) := e.emit (.jmp 0)
  let e := e.patch jp (setX sp)
  if e.overflow then e
  else if greedy then (e.patch sp (setX start)).patch sp (setY e.n)
  else (e.patch sp (setX e.n)).patch sp (setY start)

/-- The optional copies of `emit_rep`, with the places of their splits. -/
def emitOptions (emitBody : Emit → Emit) (greedy : Bool) : Nat → List Nat → Emit → Emit × List Nat
  | 0, splits, e => (e, splits)
  | k + 1, splits, e =>
    let (e, sp) := e.emit (.split 0 0)
    let start := e.n
    let e := emitBody e
    if e.overflow then (e, splits)
    else emitOptions emitBody greedy k (splits ++ [sp])
      (e.patch sp (if greedy then setX start else setY start))

/-- `emit_rep`. -/
def emitRep (emitBody : Emit → Emit) (lo : Nat) (hi : Option Nat) (greedy : Bool) (e : Emit) : Emit :=
  let e := emitCopies emitBody lo e
  if e.overflow then e
  else
    match hi with
    | none => emitStar emitBody greedy e
    | some hi =>
      let (e, splits) := emitOptions emitBody greedy (hi - lo) [] e
      if e.overflow then e
      else splits.foldl (fun e' sp => e'.patch sp (if greedy then setY e.n else setX e.n)) e

/-- `emit_node`. -/
def emitNode (n : Node) (e : Emit) : Emit :=
  if e.overflow then e
  else
    match n with
    | .empty bol eol =>
      let e := if bol then (e.emit .bol).1 else e
      if eol then (e.emit .eol).1 else e
    | .char c => (e.emit (.char c)).1
    | .any => emitUtf8Class anySet e
    | .cls set negated => if negated then emitUtf8Class (outsideSet set) e else (e.emit (.cls set)).1
    | .cat l r => emitNode r (emitNode l e)
    | .alt l r =>
      let (e, sp) := e.emit (.split 0 0)
      let e := e.patch sp (setX e.n)
      let e := emitNode l e
      let (e, jp) := e.emit (.jmp 0)
      let e := e.patch sp (setY e.n)
      let e := emitNode r e
      e.patch jp (setX e.n)
    | .rep l min max greedy => emitRep (emitNode l) min max greedy e
    | .group l none => emitNode l e
    | .group l (some g) =>
      let (e, _) := e.emit (.save (2 * g))
      let e := emitNode l e
      (e.emit (.save (2 * g + 1))).1

/-! ### The whole -/

/-- `VlRegex`. -/
structure Regex where
  prog : Prog
  /-- Slot 0 is not counted. -/
  ngroups : Nat
  /-- The names of the groups from 1 on. -/
  names : List (Option Bytes)
  src : Bytes

/-- The program of a tree: it is bracketed in the slots 0 and 1. -/
def emitWhole (tree : Node) : Emit :=
  let (e, _) := Emit.emit ⟨[], false⟩ (.save 0)
  let e := emitNode tree e
  let (e, _) := e.emit (.save 1)
  (e.emit .done).1

/-- The bytes of an ASCII text. -/
def ascii (s : String) : Bytes := s.toList.map ch

/-- The text of `rx_error`, which is cut to its buffer. -/
def rxError (why : String) (pat : Bytes) : Bytes :=
  (ascii "regex: " ++ ascii why ++ ascii " in /" ++ pat.takeWhile (· != 0) ++ ascii "/").take 511

/-- `vl_regex_compile`: a regex, or the text of a `ValueError`. -/
def compile (pat : Bytes) : Except Bytes Regex :=
  match parse pat with
  | .error why => .error (rxError why pat)
  | .ok (tree, names) =>
    let e := emitWhole tree
    if e.overflow then .error (rxError "pattern is too large after expanding repetition" pat)
    else .ok ⟨e.prog, names.length, names, pat⟩

end Voila.Rx
