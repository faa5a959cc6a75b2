import Voila.Rt.Json
import Voila.Rx.Machine

/-!
# Voila.Rx.Pattern

The parser of `regex.c`: a pattern to a tree.

The parser stops at its first error, as nothing that comes after one is kept. A loop counts the bytes that are left
when it starts; each of its turns takes at least one.
-/

namespace Voila.Rx

open Voila.Rt (Bytes)
open Voila.Rt.Json (ch)

def rxMaxRep : Nat := 1000
/-- Slot 0 is the whole match. -/
def rxMaxGroups : Nat := 20
def rxMaxDepth : Nat := 400

/-- The number of a capture group. -/
abbrev Group := {g : Nat // 0 < g}

/-- `Node`. -/
inductive Node where
  | empty (bol eol : Bool)
  | char (c : UInt8)
  | any
  | cls (set : ByteSet) (negated : Bool)
  | cat (l r : Node)
  | alt (l r : Node)
  /-- `max` is `none` where it is unbounded. -/
  | rep (l : Node) (min : Nat) (max : Option Nat) (greedy : Bool)
  /-- `group` is `none` where nothing is captured. -/
  | group (l : Node) (group : Option Group)

/-- The cursor of `Parser`, and the names of the groups so far. -/
structure Parser where
  p : Bytes
  names : List (Option Bytes)

def Parser.ngroups (ps : Parser) : Nat := ps.names.length

/-- What a function of the parser gives: a tree and the parser after it, or the first error. -/
abbrev Parsed := Except String (Node × Parser)

/-! ### Sets of bytes -/

def setNone : ByteSet := fun _ => false

def setAdd (set : ByteSet) (c : UInt8) : ByteSet := fun b => b == c || set b

def setRange (set : ByteSet) (lo hi : UInt8) : ByteSet := fun b => (lo ≤ b && b ≤ hi) || set b

def setUnion (set fam : ByteSet) : ByteSet := fun b => set b || fam b

/-- `class_escape`. -/
def classEscape (e : UInt8) : Option ByteSet :=
  if e = ch 'd' then some (setRange setNone (ch '0') (ch '9'))
  else if e = ch 'w' then
    some (setAdd (setRange (setRange (setRange setNone (ch 'a') (ch 'z')) (ch 'A') (ch 'Z')) (ch '0') (ch '9'))
      (ch '_'))
  else if e = ch 's' then
    some (setAdd (setAdd (setAdd (setAdd (setAdd (setAdd setNone (ch ' ')) 9) 10) 13) 12) 11)
  else none

/-- The families that `\D`, `\W` and `\S` leave out. -/
def negatedEscape (e : UInt8) : Option ByteSet :=
  if e = ch 'D' ∨ e = ch 'W' ∨ e = ch 'S' then classEscape (e + 32) else none

/-- `escape_byte`. -/
def escapeByte (e : UInt8) : UInt8 :=
  if e = ch 'n' then 10
  else if e = ch 't' then 9
  else if e = ch 'r' then 13
  else if e = ch 'f' then 12
  else if e = ch 'v' then 11
  else if e = ch '0' then 0
  else e

/-! ### Classes -/

/-- The end of a range, after its `-`. -/
def rangeEnd : Bytes → Except String (UInt8 × Bytes)
  | [] => .error "unterminated character class"
  | c :: p =>
    if c = ch '\\' then
      match p with
      | [] => .error "trailing backslash"
      | e :: p => .ok (escapeByte e, p)
    else .ok (c, p)

/-- What follows `lo` in a class: the rest of a range, or `lo` stands for itself. -/
def classRange (set : ByteSet) (lo : UInt8) (p : Bytes) : Except String (ByteSet × Bytes) :=
  match p with
  | m :: h :: p' =>
    if m = ch '-' ∧ h ≠ ch ']' then do
      let (hi, p) ← rangeEnd (h :: p')
      if hi < lo then .error "character class range is out of order"
      else .ok (setRange set lo hi, p)
    else .ok (setAdd set lo, p)
  | _ => .ok (setAdd set lo, p)

/-- One turn of the loop of `parse_class`, at the byte `c`. -/
def classItem (set : ByteSet) (c : UInt8) (p : Bytes) : Except String (ByteSet × Bytes) :=
  if c = ch '\\' then
    match p with
    | [] => .error "trailing backslash"
    | e :: p =>
      match classEscape e, negatedEscape e with
      | some fam, _ => .ok (setUnion set fam, p)
      | none, some pos => .ok (setUnion set (fun b => !pos b), p)
      | none, none => classRange set (escapeByte e) p
  else classRange set c p

/-- The loop of `parse_class`: a `]` that comes first is a literal one. -/
def classLoop : Nat → Bool → ByteSet → Bytes → Except String (ByteSet × Bytes)
  | n + 1, first, set, c :: p =>
    if c ≠ ch ']' ∨ first then do
      let (set, p) ← classItem set c p
      classLoop n false set p
    else .ok (set, p)
  | _, _, _, _ => .error "unterminated character class"

/-- `parse_class`, after the `[`. -/
def parseClass (ps : Parser) : Parsed := do
  let negated := ps.p.head? = some (ch '^')
  let inner := if negated then ps.p.tail else ps.p
  let (set, p) ← classLoop inner.length true setNone inner
  return (.cls set negated, { ps with p := p })

/-! ### Atoms -/

/-- A letter or `_`. -/
def nameStart (c : UInt8) : Bool :=
  c == ch '_' || (ch 'a' ≤ c && c ≤ ch 'z') || (ch 'A' ≤ c && c ≤ ch 'Z')

def digit (c : UInt8) : Bool := ch '0' ≤ c && c ≤ ch '9'

/-- The name at the start of a text. -/
def nameOf : Bytes → Bytes
  | [] => []
  | c :: p => if nameStart c then c :: p.takeWhile (fun b => nameStart b || digit b) else []

/-- Where the name of a group begins, after its `(`. -/
def namedAt : Bytes → Option Bytes
  | q :: b :: c :: p =>
    if q = ch '?' ∧ (b = ch '<' ∨ (b = ch 'P' ∧ c = ch '<')) ∧ ¬ (b = ch '<' ∧ (c = ch '=' ∨ c = ch '!')) then
      some (if b = ch 'P' then p else c :: p)
    else none
  | _ => none

/-- What a `(` opens: the group's number, and the parser in front of the body. -/
def openGroup (ps : Parser) : Except String (Option Group × Parser) :=
  let capture (name : Option Bytes) (p : Bytes) : Except String (Option Group × Parser) :=
    if ps.ngroups + 1 ≥ rxMaxGroups then .error "too many capture groups"
    else .ok (some ⟨ps.ngroups + 1, Nat.succ_pos _⟩, ⟨p, ps.names ++ [name]⟩)
  match namedAt ps.p with
  | some q =>
    let name := nameOf q
    let after := q.drop name.length
    if name = [] ∨ after.head? ≠ some (ch '>') then
      .error "a group name is letters, digits and `_`, closed by `>`"
    else if some name ∈ ps.names then .error "duplicate group name"
    else capture (some name) after.tail
  | none =>
    if ps.p.take 2 = [ch '?', ch ':'] then .ok (none, { ps with p := ps.p.drop 2 })
    else if ps.p.head? = some (ch '?') then
      .error "only the non-capturing group `(?:` is supported; lookaround is not"
    else capture none ps.p

/-- A backslash outside a class. -/
def escaped (e : UInt8) : Except String Node :=
  if ch '1' ≤ e ∧ e ≤ ch '9' then
    .error "backreferences are not supported: they cannot be matched in linear time"
  else
    match classEscape e, negatedEscape e with
    | some fam, _ => .ok (.cls fam false)
    | none, some pos => .ok (.cls pos true)
    | none, none =>
      if (ch 'a' ≤ e ∧ e ≤ ch 'z') ∨ (ch 'A' ≤ e ∧ e ≤ ch 'Z') then
        .error ("unknown escape; \\d \\w \\s and their negations are the supported letter escapes, " ++
          "and \\b is not a word boundary here")
      else .ok (.char (escapeByte e))

/-- `parse_atom`; `parseBody` is `parse_alt` one level deeper, where the pattern may nest that deep. -/
def parseAtom (parseBody : Option (Parser → Parsed)) (ps : Parser) : Parsed :=
  match ps.p with
  | [] => .ok (.empty false false, ps)
  | c :: p =>
    if c = ch '(' then
      match parseBody with
      | none => .error "pattern nests too deeply"
      | some parseBody => do
        let (group, ps) ← openGroup { ps with p := p }
        let (body, ps) ← parseBody ps
        match ps.p with
        | [] => .error "unbalanced `(`"
        | close :: p =>
          if close = ch ')' then return (.group body group, { ps with p := p })
          else .error "unbalanced `(`"
    else if c = ch '[' then parseClass { ps with p := p }
    else if c = ch '.' then .ok (.any, { ps with p := p })
    else if c = ch '^' then .ok (.empty true false, { ps with p := p })
    else if c = ch '$' then .ok (.empty false true, { ps with p := p })
    else if c = ch '\\' then
      match p with
      | [] => .error "trailing backslash"
      | e :: p => do
        let n ← escaped e
        return (n, { ps with p := p })
    else if c = ch ')' ∨ c = ch '|' then .ok (.empty false false, ps)
    else if c = ch '*' ∨ c = ch '+' ∨ c = ch '?' then .error "a quantifier has nothing to repeat"
    else .ok (.char c, { ps with p := p })

/-! ### Repetitions -/

/-- A loop of `parse_counted` over digits. -/
def countLoop : Nat → Bytes → Except String (Nat × Bytes)
  | a, [] => .ok (a, [])
  | a, c :: p =>
    if digit c then
      let a := a * 10 + (c.toNat - 48)
      if a > rxMaxRep then .error "repetition count is too large" else countLoop a p
    else .ok (a, c :: p)

/-- The second count of `parse_counted`, where there is a `,`. -/
def upperCount (a : Nat) : Bytes → Except String (Option Nat × Bytes)
  | [] => .ok (some a, [])
  | c :: p =>
    if c = ch ',' then
      if p.head? = some (ch '}') then .ok (none, p)
      else do
        let (b, p) ← countLoop 0 p
        return (some b, p)
    else .ok (some a, c :: p)

/-- `parse_counted`, after the `{`; `none` where the brace is a literal one. -/
def parseCounted (p : Bytes) : Except String (Option (Nat × Option Nat × Bytes)) :=
  if (p.head?.all (!digit ·)) then .ok none
  else do
    let (a, p) ← countLoop 0 p
    let (b, p) ← upperCount a p
    match p with
    | [] => return none
    | c :: p =>
      if c ≠ ch '}' then return none
      else if b.any (· < a) then .error "repetition range is out of order"
      else return some (a, b, p)

/-- The quantifier that a text starts with: the bounds, and what is left of the text. -/
def quantifier : Bytes → Except String (Option (Nat × Option Nat × Bytes))
  | [] => .ok none
  | c :: p =>
    if c = ch '*' then .ok (some (0, none, p))
    else if c = ch '+' then .ok (some (1, none, p))
    else if c = ch '?' then .ok (some (0, some 1, p))
    else if c = ch '{' then parseCounted p
    else .ok none

/-- The loop of `parse_repeat`. -/
def repeatLoop : Nat → Node → Parser → Parsed
  | 0, n, ps => .ok (n, ps)
  | k + 1, n, ps => do
    match ← quantifier ps.p with
    | none => return (n, ps)
    | some (lo, hi, p) =>
      if p.head? = some (ch '?') then repeatLoop k (.rep n lo hi false) { ps with p := p.tail }
      else repeatLoop k (.rep n lo hi true) { ps with p := p }

/-- `parse_repeat`. -/
def parseRepeat (atom : Parser → Parsed) (ps : Parser) : Parsed := do
  let (n, ps) ← atom ps
  repeatLoop ps.p.length n ps

/-- The loop of `parse_cat`. -/
def catLoop (repeated : Parser → Parsed) : Nat → Option Node → Parser → Parsed
  | k + 1, n, ps =>
    match ps.p with
    | [] => .ok (n.getD (.empty false false), ps)
    | c :: _ =>
      if c = ch '|' ∨ c = ch ')' then .ok (n.getD (.empty false false), ps)
      else do
        let (r, ps) ← repeated ps
        catLoop repeated k (some ((n.map (Node.cat · r)).getD r)) ps
  | 0, n, ps => .ok (n.getD (.empty false false), ps)

/-- `parse_cat`. -/
def parseCat (repeated : Parser → Parsed) (ps : Parser) : Parsed :=
  catLoop repeated ps.p.length none ps

/-- The loop of `parse_alt`. -/
def altLoop (cat : Parser → Parsed) : Nat → Node → Parser → Parsed
  | k + 1, n, ps =>
    if ps.p.head? = some (ch '|') then do
      let (r, ps) ← cat { ps with p := ps.p.tail }
      altLoop cat k (.alt n r) ps
    else .ok (n, ps)
  | 0, n, ps => .ok (n, ps)

/-- `parse_alt` over what it takes for atoms. -/
def altOf (atom : Parser → Parsed) (ps : Parser) : Parsed := do
  let cat := parseCat (parseRepeat atom)
  let (n, ps) ← cat ps
  altLoop cat ps.p.length n ps

/-- `parse_alt`, where the pattern may nest `d` levels deeper. -/
def parseAlt : Nat → Parser → Parsed
  | 0 => altOf (parseAtom none)
  | d + 1 => altOf (parseAtom (some (parseAlt d)))

/-- The tree of a pattern, and the names of its groups. -/
def parse (pat : Bytes) : Except String (Node × List (Option Bytes)) := do
  let (tree, ps) ← parseAlt rxMaxDepth ⟨pat, []⟩
  if ps.p = [] then return (tree, ps.names) else .error "unbalanced `)`"

end Voila.Rx
