import Voila.Rx.Emit

/-!
# Voila.Rx.Natives

The natives of `regex.c` that go over a whole subject: `vl_regex_find_all`, `vl_regex_replace` and
`vl_regex_split`.

Captures are `int`s and offsets wider, so an offset may come out before the subject; what is read outside of the
subject is not modelled (`none`). A loop is given how many turns it may take.
-/

namespace Voila.Rx

open Voila.Rt (Bytes)
open Voila.Rt.Json (ch)

/-- A slot of a capture vector. -/
def Caps.slot (m : Caps) (i : Nat) : Int := m.getD i (-1)

/-- `vl_str_n` of the `n` bytes at `a`. -/
def strN (s : Bytes) (a n : Int) : Option Bytes :=
  if 0 ≤ a ∧ 0 ≤ n ∧ a + n ≤ s.length then some ((s.drop a.toNat).take n.toNat) else none

/-- `seqlen`: a sequence that the subject cuts off counts as one byte. -/
def seqlen (s : Bytes) (i : Int) : Option Int := do
  let c ← if i < 0 then none else s[i.toNat]?
  let n : Int := if c ≥ 0xF0 then 4 else if c ≥ 0xE0 then 3 else if c ≥ 0xC0 then 2 else 1
  return if i + n > s.length then 1 else n

/-- How wide the captures of a regex are. -/
def Regex.ncap (r : Regex) : Nat := 2 * (r.ngroups + 1)

/-- `rx_search` from an offset. -/
def Regex.search (r : Regex) (s : Bytes) (start : Int) : Option (Option Caps) :=
  if start < 0 then none else some (rxSearch r.prog r.ncap s start.toNat)

/-- The text of a group; a group that took no part has none. -/
def groupText (s : Bytes) (m : Caps) (g : Nat) : Option Bytes :=
  let a := m.slot (2 * g)
  let b := m.slot (2 * g + 1)
  if a < 0 ∨ b < 0 ∨ b < a then some [] else strN s a (b - a)

/-- `caps_slice`. -/
def capsSlice (r : Regex) (s : Bytes) (m : Caps) : Option (List Bytes) :=
  (List.range (r.ngroups + 1)).mapM (groupText s m)

/-- Where the search after a match starts: an empty match is passed by a character. -/
def nextStart (s : Bytes) (m : Caps) : Option Int :=
  if m.slot 1 > m.slot 0 then some (m.slot 1)
  else if m.slot 0 < s.length then do
    let k ← seqlen s (m.slot 0)
    return m.slot 0 + k
  else some (m.slot 0 + 1)

/-! ### `find_all` -/

/-- The loop of `vl_regex_find_all`, by the captures of its matches. -/
def findAllLoop (r : Regex) (s : Bytes) : Nat → Int → Option (List Caps)
  | 0, _ => none
  | n + 1, start =>
    if start ≤ s.length then do
      match ← r.search s start with
      | none => return []
      | some m =>
        let next ← nextStart s m
        let ms ← findAllLoop r s n next
        return m :: ms
    else some []

/-- `vl_regex_find_all`: the groups of each match. -/
def findAll (r : Regex) (s : Bytes) (n : Nat) : Option (List (List Bytes)) := do
  let ms ← findAllLoop r s n 0
  ms.mapM (capsSlice r s)

/-! ### `replace` -/

/-- The number that the digits of a `${…}` spell, as far as it is not past the last group. -/
def braceNumber (ngroups : Nat) : Nat → Bytes → Nat
  | g, [] => g
  | g, c :: p => if g ≤ ngroups then braceNumber ngroups (g * 10 + (c.toNat - 48)) p else g

/-- The group that a `${…}` names. -/
def braceGroup (r : Regex) (nm : Bytes) : Option Nat :=
  if nm ≠ [] ∧ nm.all digit then
    let g := braceNumber r.ngroups 0 nm
    if g ≤ r.ngroups then some g else none
  else (r.names.findIdx? (· = some nm)).map (· + 1)

/-- What a `$` with `p` behind it stands for, and what is left then; `none` where it stands for itself. -/
def dollar (r : Regex) (s : Bytes) (m : Caps) : Bytes → Option (Option Bytes × Bytes)
  | [] => none
  | n :: q =>
    let named : Option (Option Bytes × Bytes) :=
      if n = ch '{' then
        match q.dropWhile (· != ch '}') with
        | [] => none
        | _ :: rest => (braceGroup r (q.takeWhile (· != ch '}'))).map fun g => (groupText s m g, rest)
      else none
    if n = ch '$' then some (some [n], q)
    else
      named.or
        (if digit n ∧ n.toNat - 48 ≤ r.ngroups then some (groupText s m (n.toNat - 48), q) else none)

/-- `expand_repl`; each turn takes a byte of the replacement. -/
def expandRepl (r : Regex) (s : Bytes) (m : Caps) : Nat → Bytes → Option Bytes
  | n + 1, c :: p => do
    match if c = ch '$' then dollar r s m p else none with
    | some (text, rest) =>
      let text ← text
      let more ← expandRepl r s m n rest
      return text ++ more
    | none =>
      let more ← expandRepl r s m n p
      return c :: more
  | _, _ => some []

/-- What `vl_regex_replace` writes for a match found from `start`: the bytes before it, what replaces it, and the
character that an empty match sits before. -/
def replaceMatch (r : Regex) (s rep : Bytes) (start : Int) (m : Caps) : Option Bytes :=
  let before := if m.slot 0 > start then strN s start (m.slot 0 - start) else some []
  let kept :=
    if m.slot 1 = m.slot 0 ∧ m.slot 0 < s.length then (seqlen s (m.slot 0)).bind (strN s (m.slot 0)) else some []
  do return (← before) ++ (← expandRepl r s m rep.length rep) ++ (← kept)

/-- The loop of `vl_regex_replace`, with what is written after it. -/
def replaceLoop (r : Regex) (s rep : Bytes) : Nat → Int → Option Bytes
  | 0, _ => none
  | n + 1, start =>
    let tail := if start < s.length then strN s start (s.length - start) else some []
    if start ≤ s.length then do
      match ← r.search s start with
      | none => tail
      | some m =>
        let here ← replaceMatch r s rep start m
        let next ← nextStart s m
        let more ← replaceLoop r s rep n next
        return here ++ more
    else tail

/-- `vl_regex_replace`. -/
def replace (r : Regex) (s rep : Bytes) (n : Nat) : Option Bytes := replaceLoop r s rep n 0

/-! ### `split` -/

/-- The loop of `vl_regex_split`, with the piece after it. -/
def splitLoop (r : Regex) (s : Bytes) : Nat → Int → Int → Option (List Bytes)
  | 0, _, _ => none
  | n + 1, start, piece =>
    let last := (strN s piece (s.length - piece)).map ([·])
    if start ≤ s.length then do
      match ← r.search s start with
      | none => last
      | some m =>
        if m.slot 1 = m.slot 0 then
          if m.slot 0 ≥ s.length then last
          else do
            let k ← seqlen s (m.slot 0)
            splitLoop r s n (m.slot 0 + k) piece
        else do
          let first ← strN s piece (m.slot 0 - piece)
          let rest ← splitLoop r s n (m.slot 1) (m.slot 1)
          return first :: rest
    else last

/-- `vl_regex_split`. -/
def split (r : Regex) (s : Bytes) (n : Nat) : Option (List Bytes) := splitLoop r s n 0 0

end Voila.Rx
