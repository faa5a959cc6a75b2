import Voila.Rt.Dec

/-!
# Voila.Rx.Machine

The machine of `regex.c`: `addthread`, which walks jumps, splits, saves and anchors, and
`rx_search`, which runs all threads abreast over the subject.

A class stands in its instruction instead of the table of classes, and the visit marks of a list
are the instructions that `addthread` has visited since it was cleared.
-/

namespace Voila.Rx

open Voila.Rt (Bytes)

/-- A set of bytes (`set_has`). -/
abbrev ByteSet := UInt8 → Bool

/-- `Inst`. -/
inductive Inst where
  | char (c : UInt8)
  | cls (set : ByteSet)
  | done
  | jmp (x : Nat)
  | split (x y : Nat)
  | save (slot : Nat)
  | bol
  | eol

abbrev Prog := List Inst

/-- A capture vector; `-1` where nothing was captured. -/
abbrev Caps := List Int

/-- A position as an `int`. -/
def toInt (sp : Nat) : Int := (sp + 2 ^ 31 : Int) % 2 ^ 32 - 2 ^ 31

/-- `TList`: the consuming threads in priority order, and the visit marks. -/
structure TList where
  dense : List (Nat × Caps)
  seen : List Nat

/-- `tl_clear`. -/
def TList.clear : TList := ⟨[], []⟩

/-- `addthread`; the marks bound how deep it goes. -/
def addThread (prog : Prog) (len sp : Nat) : Nat → TList → Nat → Caps → TList
  | 0, l, _, _ => l
  | n + 1, l, pc, cap =>
    if pc ∈ l.seen then l
    else
      let l := { l with seen := pc :: l.seen }
      match prog[pc]? with
      | none => l
      | some (.jmp x) => addThread prog len sp n l x cap
      | some (.split x y) => addThread prog len sp n (addThread prog len sp n l x cap) y cap
      | some (.save slot) => addThread prog len sp n l (pc + 1) (cap.set slot (toInt sp))
      | some .bol => if sp = 0 then addThread prog len sp n l (pc + 1) cap else l
      | some .eol => if sp = len then addThread prog len sp n l (pc + 1) cap else l
      | some _ => { l with dense := l.dense ++ [(pc, cap)] }

/-- `addthread` from the outside. -/
def TList.add (prog : Prog) (len sp : Nat) (l : TList) (pc : Nat) (cap : Caps) : TList :=
  addThread prog len sp (prog.length + 2) l pc cap

/-- Where a thread goes on the byte at its position. -/
def consume (prog : Prog) (pc : Nat) (byte : Option UInt8) : Bool :=
  match prog[pc]?, byte with
  | some (.char c), some b => b == c
  | some (.cls set), some b => set b
  | _, _ => false

/-- The threads of a list step over a byte; a thread that is done cuts those behind it. -/
def stepThreads (prog : Prog) (len sp : Nat) (byte : Option UInt8) :
    List (Nat × Caps) → TList → TList × Option Caps
  | [], nlist => (nlist, none)
  | (pc, cap) :: ts, nlist =>
    match prog[pc]? with
    | some .done => (nlist, some cap)
    | _ =>
      if consume prog pc byte then
        stepThreads prog len sp byte ts (nlist.add prog len (sp + 1) (pc + 1) cap)
      else stepThreads prog len sp byte ts nlist

/-- The loop of `rx_search` over what is left of the subject; `out` is the match so far. -/
def searchLoop (prog : Prog) (ncap len : Nat) :
    Nat → Bytes → TList → Option Caps → Option Caps
  | sp, rest, clist, out =>
    let clist :=
      if out = none then clist.add prog len sp 0 (List.replicate ncap (-1)) else clist
    if clist.dense = [] ∧ out ≠ none then out
    else
      let (nlist, found) := stepThreads prog len sp rest.head? clist.dense TList.clear
      let out := found.or out
      match rest with
      | [] => out
      | _ :: rest => searchLoop prog ncap len (sp + 1) rest nlist out

/-- `rx_search`: the captures of the leftmost match at or after `start`. -/
def rxSearch (prog : Prog) (ncap : Nat) (input : Bytes) (start : Nat) : Option Caps :=
  if start ≤ input.length then
    searchLoop prog ncap input.length start (input.drop start) TList.clear none
  else none

end Voila.Rx
