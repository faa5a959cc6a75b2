import Voila.Rt.CaseMap
import Voila.Rt.Dur
import Voila.Str.Order

/-!
# Voila.Str.Str

The functions of `str.c` on byte strings, and what `vl_cmpin` and `vl_iter_next` do with one (`coll.c`).

A loop over offsets is a recursion over the bytes from the offset on. Where a hit moves the offset past
several bytes, the recursion passes over them one by one (`skip`).
-/

namespace Voila.Str

open Rt List

/-! ### Runes -/

/-- `rune_len_n` at the byte `a`. -/
def runeLenN (a : UInt8) (remaining : Nat) : Nat :=
  let n := if a ≥ 0xF0 then 4 else if a ≥ 0xE0 then 3 else if a ≥ 0xC0 then 2 else 1
  if n > remaining then 1 else n

/-- `p[k] & 0x3F` of the bytes behind the lead byte. -/
def cont (b : UInt8) : Nat := (b &&& 0x3F).toNat

/-- The rune of `len` bytes that begins with `a`, as `runes` puts it together. -/
def runeOf (a : UInt8) (s : Bytes) (len : Nat) : Nat :=
  match len, s with
  | 2, b :: _ => (a.toNat &&& 31) <<< 6 ||| cont b
  | 3, b :: c :: _ => (a.toNat &&& 15) <<< 12 ||| cont b <<< 6 ||| cont c
  | 4, b :: c :: d :: _ => (a.toNat &&& 7) <<< 18 ||| cont b <<< 12 ||| cont c <<< 6 ||| cont d
  | _, _ => a.toNat

/-- The loop of `runes`. -/
def runesLoop : Nat → Bytes → List Nat
  | _, [] => []
  | skip + 1, _ :: s => runesLoop skip s
  | 0, a :: s =>
    let len := runeLenN a (s.length + 1)
    runeOf a s len :: runesLoop (len - 1) s

/-- `str.runes`. -/
def runes (s : Bytes) : List Nat := runesLoop 0 s

/-- The loop of `rune_len`. -/
def runeLenLoop : Nat → Bytes → Nat
  | _, [] => 0
  | skip + 1, _ :: s => runeLenLoop skip s
  | 0, a :: s => runeLenLoop (runeLenN a (s.length + 1) - 1) s + 1

/-- `str.rune_len`. -/
def runeLen (s : Bytes) : Nat := runeLenLoop 0 s

/-- `vl_iter_next` of a string of `len` bytes at `b` with the counter at `i`: the key, the rune and the counter
after it, or the end; `none` where it reads what is not in `b`. -/
def iterNext (b : Bytes) (len i : Nat) : Option (Option (Nat × Nat × Nat)) :=
  if i ≥ len then some none
  else do
    let p0 ← b[i]?
    if p0 ≥ 0xF0 then
      let p1 ← b[i + 1]?
      let p2 ← b[i + 2]?
      let p3 ← b[i + 3]?
      return some (i, (p0.toNat &&& 7) <<< 18 ||| cont p1 <<< 12 ||| cont p2 <<< 6 ||| cont p3, i + 4)
    else if p0 ≥ 0xE0 then
      let p1 ← b[i + 1]?
      let p2 ← b[i + 2]?
      return some (i, (p0.toNat &&& 15) <<< 12 ||| cont p1 <<< 6 ||| cont p2, i + 3)
    else if p0 ≥ 0xC0 then
      let p1 ← b[i + 1]?
      return some (i, (p0.toNat &&& 31) <<< 6 ||| cont p1, i + 2)
    else return some (i, p0.toNat, i + 1)

/-- The loop of `valid_utf8`. -/
def validLoop : Nat → Bytes → Bool
  | _, [] => true
  | skip + 1, _ :: s => validLoop skip s
  | 0, a :: s =>
    match utf8Next a s with
    | none => false
    | some (_, n) => validLoop (n - 1) s

/-- `str.valid_utf8`. -/
def validUtf8 (s : Bytes) : Bool := validLoop 0 s

/-! ### Words -/

/-- `is_space_c`. -/
def isSpaceC (c : UInt8) : Bool := c == 32 || c == 9 || c == 10 || c == 13 || c == 11 || c == 12

/-- `fields_of`. -/
def fieldsOf (s : Bytes) : List Bytes :=
  match _h : s.dropWhile isSpaceC with
  | [] => []
  | a :: t => (a :: t).takeWhile (!isSpaceC ·) :: fieldsOf ((a :: t).dropWhile (!isSpaceC ·))
termination_by s.length
decreasing_by
  have here : isSpaceC a = false := by
    have first := head_dropWhile_not isSpaceC (_h ▸ cons_ne_nil a t)
    simpa [_h] using first
  have shorter : (t.dropWhile (!isSpaceC ·)).length ≤ t.length := length_dropWhile_le ..
  have rest : (a :: t).length ≤ s.length := _h ▸ length_dropWhile_le ..
  rw [dropWhile_cons_of_pos (by simp [here])]
  exact Nat.lt_of_le_of_lt shorter rest

/-- `join` of strings. -/
def join (sep : Bytes) : List Bytes → Bytes
  | [] => []
  | [e] => e
  | e :: es => e ++ sep ++ join sep es

/-- `str.upper` with the table for it, `str.lower` with the other. -/
def upperLower (f : Nat → Nat) (s : Bytes) : Bytes := caseMap f f s

/-- `str.title`, with the tables for the first rune of a word and the others. -/
def title (ucTitle ucLower : Nat → Nat) (s : Bytes) : Bytes :=
  join [32] ((fieldsOf s).map (caseMap ucTitle ucLower))

/-! ### Scans -/

/-- The loop of `contains`. -/
def containsLoop (sub : Bytes) : Bytes → Bool
  | [] => sub.isPrefixOf []
  | a :: s =>
    if sub.length ≤ s.length + 1 then
      if sub.isPrefixOf (a :: s) then true else containsLoop sub s
    else false

/-- `str.contains`. -/
def contains (s sub : Bytes) : Bool := if sub = [] then true else containsLoop sub s

/-- The loop of `index`, which breaks at a hit. -/
def indexLoop (sub : Bytes) : Int → Bytes → Int
  | i, [] => if sub.isPrefixOf [] then i else -1
  | i, a :: s =>
    if sub.length ≤ s.length + 1 then
      if sub.isPrefixOf (a :: s) then i else indexLoop sub (i + 1) s
    else -1

/-- `str.index`. -/
def index (s sub : Bytes) : Int := indexLoop sub 0 s

/-- The loop of `last_index`, with what it has found. -/
def lastLoop (sub : Bytes) : Int → Int → Bytes → Int
  | i, found, [] => if sub.isPrefixOf [] then i else found
  | i, found, a :: s =>
    if sub.length ≤ s.length + 1 then
      lastLoop sub (i + 1) (if sub.isPrefixOf (a :: s) then i else found) s
    else found

/-- `str.last_index`. -/
def lastIndex (s sub : Bytes) : Int := lastLoop sub 0 (-1) s

/-- The loop of `count`. -/
def countLoop (sub : Bytes) : Nat → Bytes → Nat
  | _, [] => 0
  | skip + 1, _ :: s => countLoop sub skip s
  | 0, a :: s =>
    if sub.length ≤ s.length + 1 then
      if sub.isPrefixOf (a :: s) then countLoop sub (sub.length - 1) s + 1 else countLoop sub 0 s
    else 0

/-- `str.count`. -/
def count (s sub : Bytes) : Nat := if sub = [] then s.length + 1 else countLoop sub 0 s

/-- `strstr(hay, needle) != NULL`. -/
def strstr (hay needle : Bytes) : Bool := (cStr hay).tails.any (cStr needle).isPrefixOf

/-- `vl_cmpin` of two strings: `x in s`. -/
def cmpin (x s : Bytes) : Bool := strstr s x

/-! ### Pieces -/

/-- The loop of `split_str` for an empty separator. -/
def splitRunes : Nat → Bytes → List Bytes
  | _, [] => []
  | skip + 1, _ :: s => splitRunes skip s
  | 0, a :: s =>
    let len := runeLenN a (s.length + 1)
    (a :: s).take len :: splitRunes (len - 1) s

/-- The other loop, with `parts` pieces made and the bytes since `start`. -/
def splitLoop (sep : Bytes) (limit : Int) : Nat → Int → Bytes → Bytes → List Bytes
  | _, _, cur, [] => [cur]
  | skip + 1, parts, cur, _ :: s => splitLoop sep limit skip parts cur s
  | 0, parts, cur, a :: s =>
    if sep.length ≤ s.length + 1 then
      if (limit > 0 ∧ parts = limit - 1) ∨ ¬ sep.isPrefixOf (a :: s) then
        splitLoop sep limit 0 parts (cur ++ [a]) s
      else cur :: splitLoop sep limit (sep.length - 1) (parts + 1) [] s
    else [cur ++ a :: s]

/-- `split_str`. -/
def splitStr (s sep : Bytes) (limit : Int) : List Bytes :=
  if sep = [] then splitRunes 0 s else splitLoop sep limit 0 0 [] s

/-- `str.split`. -/
def split (s sep : Bytes) : List Bytes := splitStr s sep 0

/-- `str.split_n`. -/
def splitN (s sep : Bytes) (n : Int64) : List Bytes := splitStr s sep n.toInt

/-- `str.lines`. -/
def lines (s : Bytes) : List Bytes :=
  let m := if s.getLast? = some 10 then s.dropLast else s
  if m = [] then [] else splitStr m [10] 0

/-- The loop of `replace` and `replace_n`, with `done` replaced. -/
def replaceLoop (old new : Bytes) (limit : Int) : Nat → Int → Bytes → Bytes
  | _, _, [] => []
  | skip + 1, done, _ :: s => replaceLoop old new limit skip done s
  | 0, done, a :: s =>
    if old.length > 0 ∧ old.length ≤ s.length + 1 ∧ old.isPrefixOf (a :: s) ∧ (limit < 0 ∨ done < limit) then
      new ++ replaceLoop old new limit (old.length - 1) (done + 1) s
    else a :: replaceLoop old new limit 0 done s

/-- `str.replace`. -/
def replace (s old new : Bytes) : Bytes := replaceLoop old new (-1) 0 0 s

/-! ### Parts by offset -/

/-- The `int64_t` that a sum or a difference wraps to. -/
def wrapped (n : Int) : Int := n.bmod (2 ^ 64)

/-- `vl_str_n(s + off, len)`; `none` where that is not part of the string. -/
def strN (s : Bytes) (off len : Int) : Option Bytes :=
  if 0 ≤ off ∧ 0 ≤ len ∧ off + len ≤ s.length then some ((s.drop off.toNat).take len.toNat) else none

/-- The clamp of an offset: `if (at < 0) at = 0; if (at > n) at = n;`. -/
def clampAt (s : Bytes) (at_ : Int64) : Int :=
  let k := if at_.toInt < 0 then 0 else at_.toInt
  if k > s.length then s.length else k

/-- `str.substr`. -/
def substr (s : Bytes) (start : Int64) (len : Option Int64) : Option Bytes :=
  let start := clampAt s start
  let n : Int := s.length
  let end_ :=
    match len with
    | none => n
    | some k =>
      let k := if k.toInt < 0 then 0 else k.toInt
      if wrapped (start + k) < n then wrapped (start + k) else n
  strN s start (end_ - start)

/-- `str.left`. -/
def left (s : Bytes) (k : Int64) : Option Bytes := strN s 0 (clampAt s k)

/-- `str.right`. -/
def right (s : Bytes) (k : Int64) : Option Bytes := strN s (s.length - clampAt s k) (clampAt s k)

def spaces (k : Int) : Bytes := List.replicate k.toNat 32

/-- The three that pad. -/
inductive Pad
  | pad
  | padLeft
  | center

/-- `str.pad`, `str.pad_left` and `str.center`. -/
def padded (how : Pad) (s : Bytes) (w : Int64) : Option Bytes :=
  let n : Int := s.length
  let w := w.toInt
  if n ≥ w then
    match how with
    | .padLeft => strN s (wrapped (n - w)) w
    | .pad | .center => strN s 0 w
  else
    let fill := w - n
    match how with
    | .pad => some (s ++ spaces fill)
    | .padLeft => some (spaces fill ++ s)
    | .center =>
      let l := fill / 2
      let r := fill - l
      some (spaces l ++ s ++ spaces r)

/-- `str.insert`. -/
def insert (s new : Bytes) (at_ : Int64) : Option Bytes := do
  let at_ := clampAt s at_
  let before ← strN s 0 at_
  let after ← strN s at_ (s.length - at_)
  return before ++ new ++ after

/-- `str.delstr`, into a buffer of `n + 1` bytes. -/
def delstr (s : Bytes) (at_ k : Int64) : Option Bytes := do
  let n : Int := s.length
  let at_ := clampAt s at_
  let sum := wrapped (at_ + k.toInt)
  let end_ := if sum > n then n else sum
  let before ← strN s 0 at_
  let after ← strN s end_ (n - end_)
  if at_ + (n - end_) ≤ n + 1 then return before ++ after else none

/-- `str.subword`, or `str.delword`. -/
def subword (keep : Bool) (s : Bytes) (k : Int64) (cnt : Option Int64) : Bytes :=
  let w := fieldsOf s
  let k := if k.toInt < 1 then 1 else k.toInt
  let cnt : Int := match cnt with
    | none => w.length
    | some cnt => cnt.toInt
  let inRange (i : Nat) : Bool := i + 1 ≥ k && i + 1 < wrapped (k + cnt)
  join [32] ((w.zipIdx.filter fun e => inRange e.2 == keep).map Prod.fst)

end Voila.Str
