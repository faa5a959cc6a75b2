import Voila.Rt.DecText

/-!
# Voila.Rt.Json

Reading JSON text (`json.c`): `jstring`, `jnumber`, `jobject`, `jarray`, `jvalue` and
`vl_json_decode` where no type is asked for.

A reader is given what is left of the text, and gives back a value with what is left then. Where it
fails, what is left gives the place.
-/

namespace Voila.Rt.Json

/-- The byte of a character in the source. -/
def ch (c : Char) : UInt8 := UInt8.ofNat c.toNat

/-- `JD_MAX_DEPTH`. -/
def jdMaxDepth : Nat := 512

/-- What `vl_json_decode` makes of JSON. A map is its lookup. -/
inductive JVal where
  | nil
  | bool (b : Bool)
  | int (n : Int)
  | dec (v : Dec)
  | str (s : Bytes)
  | slice (vs : List JVal)
  | map (m : Bytes → Option JVal)

/-- `jfail`: why, and what was left of the text. -/
structure JErr where
  why : String
  rest : Bytes
  deriving DecidableEq

/-- The blanks between tokens. -/
def isBlank (b : UInt8) : Bool := b == ch ' ' || b == ch '\n' || b == ch '\t' || b == ch '\r'

/-- `jskip`. -/
def jskip (s : Bytes) : Bytes := s.dropWhile isBlank

/-! ### Strings -/

/-- `hexv`. -/
def hexv (b : UInt8) : Option Nat :=
  if ch '0' ≤ b ∧ b ≤ ch '9' then some (b.toNat - 48)
  else if ch 'a' ≤ b ∧ b ≤ ch 'f' then some (b.toNat - 97 + 10)
  else if ch 'A' ≤ b ∧ b ≤ ch 'F' then some (b.toNat - 65 + 10)
  else none

/-- The loop of `read4`. -/
def hexNum : Nat → Bytes → Option Nat
  | v, [] => some v
  | v, b :: s => (hexv b).bind fun h => hexNum (v * 16 + h) s

/-- `read4`. -/
def read4 (s : Bytes) : Except JErr (Nat × Bytes) :=
  if s.length < 4 then .error ⟨"truncated \\u escape", s⟩
  else
    match hexNum 0 (s.take 4) with
    | none => .error ⟨"bad hex digit in a \\u escape", s⟩
    | some v => .ok (v, s.drop 4)

/-- `put_utf8`. -/
def putUtf8 (r : Nat) : Bytes :=
  if r < 0x80 then [.ofNat r]
  else if r < 0x800 then [.ofNat (0xC0 ||| r >>> 6), .ofNat (0x80 ||| r &&& 0x3F)]
  else if r < 0x10000 then
    [.ofNat (0xE0 ||| r >>> 12), .ofNat (0x80 ||| r >>> 6 &&& 0x3F), .ofNat (0x80 ||| r &&& 0x3F)]
  else
    [.ofNat (0xF0 ||| r >>> 18), .ofNat (0x80 ||| r >>> 12 &&& 0x3F),
      .ofNat (0x80 ||| r >>> 6 &&& 0x3F), .ofNat (0x80 ||| r &&& 0x3F)]

/-- A high surrogate. -/
def isHigh (r : Nat) : Bool := 0xD800 ≤ r && r ≤ 0xDBFF

/-- A low surrogate. -/
def isLow (r : Nat) : Bool := 0xDC00 ≤ r && r ≤ 0xDFFF

/-- A surrogate, which is no character. -/
def isSurrogate (r : Nat) : Bool := 0xD800 ≤ r && r ≤ 0xDFFF

/-- The one-letter escapes. -/
def escape (e : UInt8) : Option UInt8 :=
  if e = ch '"' then some (ch '"')
  else if e = ch '\\' then some (ch '\\')
  else if e = ch '/' then some (ch '/')
  else if e = ch 'b' then some 8
  else if e = ch 'f' then some 12
  else if e = ch 'n' then some 10
  else if e = ch 'r' then some 13
  else if e = ch 't' then some 9
  else none

/-- A `\u` escape after its `u`: the bytes it stands for, with those of the escape that follows it
when that is read along. -/
def jescape (s : Bytes) : Except JErr (Bytes × Bytes) := do
  let (r, s) ← read4 s
  if isHigh r ∧ 6 ≤ s.length ∧ s.take 2 = [ch '\\', ch 'u'] then
    let (lo, s) ← read4 (s.drop 2)
    if isLow lo then .ok (putUtf8 (0x10000 + ((r - 0xD800) <<< 10) + (lo - 0xDC00)), s)
    else .ok (putUtf8 0xFFFD ++ putUtf8 (if isSurrogate lo then 0xFFFD else lo), s)
  else if isSurrogate r then .ok (putUtf8 0xFFFD, s)
  else .ok (putUtf8 r, s)

/-- The loop of `jstring` over a string with escapes. -/
def jchars : Nat → Bytes → Except JErr (Bytes × Bytes)
  | 0, s => .error ⟨"unterminated string", s⟩
  | _ + 1, [] => .error ⟨"unterminated string", []⟩
  | n + 1, c :: s =>
    if c = ch '"' then .ok ([], s)
    else if c < 0x20 then .error ⟨"control character in a string", c :: s⟩
    else if c ≠ ch '\\' then (jchars n s).map fun (bs, s) => (c :: bs, s)
    else
      match s with
      | [] => .error ⟨"unterminated string", []⟩
      | e :: s =>
        match escape e with
        | some b => (jchars n s).map fun (bs, s) => (b :: bs, s)
        | none =>
          if e = ch 'u' then do
            let (us, s) ← jescape s
            let (bs, s) ← jchars n s
            .ok (us ++ bs, s)
          else .error ⟨"unknown escape in a string", e :: s⟩

/-- The search for the closing quote: what is left where it stops, and whether it passed an
escape. -/
def scanEnd : Bytes → Bytes × Bool
  | [] => ([], false)
  | c :: s =>
    if c = ch '"' ∨ c < 0x20 then (c :: s, false)
    else if c = ch '\\' then
      match s with
      | [] => ([], true)
      | _ :: s => ((scanEnd s).1, true)
    else scanEnd s

/-- `jstring`. -/
def jstring : Bytes → Except JErr (Bytes × Bytes)
  | [] => .error ⟨"expected a string", []⟩
  | c :: s =>
    if c ≠ ch '"' then .error ⟨"expected a string", c :: s⟩
    else
      let (close, escaped) := scanEnd s
      if ¬ escaped ∧ close.head? = some (ch '"') then
        .ok (s.take (s.length - close.length), close.tail)
      else jchars (s.length + 1) s

/-! ### Numbers -/

/-- A digit is next. -/
def digitNext (s : Bytes) : Bool := (s.head?.map isDigit).getD false

/-- The digits of a fraction. -/
def jfrac (s : Bytes) : Except JErr (Bool × Bytes) :=
  if s.head? = some (ch '.') then
    if digitNext s.tail then .ok (false, s.tail.dropWhile isDigit)
    else .error ⟨"a fraction needs a digit after the point", s.tail⟩
  else .ok (true, s)

/-- After the sign of the exponent. -/
def skipSign (s : Bytes) : Bytes :=
  if s.head? = some (ch '+') ∨ s.head? = some (ch '-') then s.tail else s

/-- The exponent. -/
def jexp (s : Bytes) : Except JErr (Bool × Bytes) :=
  if s.head? = some (ch 'e') ∨ s.head? = some (ch 'E') then
    if digitNext (skipSign s.tail) then .ok (false, (skipSign s.tail).dropWhile isDigit)
    else .error ⟨"an exponent needs a digit", skipSign s.tail⟩
  else .ok (true, s)

/-- The digits before the point. -/
def jwhole (s : Bytes) : Except JErr Bytes :=
  if ¬ digitNext s then .error ⟨"invalid value", s⟩
  else if s.head? = some (ch '0') then
    if digitNext s.tail then .error ⟨"a number may not have a leading zero", s.tail⟩ else .ok s.tail
  else .ok (s.dropWhile isDigit)

/-- The `int64` range. -/
def fitsInt64 (n : Int) : Bool := -2 ^ 63 ≤ n && n < 2 ^ 63

/-- What `jnumber` makes of the text of a number. `strtoll` reads all of it where there is no point
and no exponent. -/
def numVal (isint : Bool) (tmp : Bytes) : Option JVal :=
  match if isint then (strtoll tmp).filter (fun r => fitsInt64 r.1) else none with
  | some (n, _) => some (.int n)
  | none => (vlDecParse tmp).map .dec

/-- After the sign of the number. -/
def skipMinus (s : Bytes) : Bytes := if s.head? = some (ch '-') then s.tail else s

/-- `jnumber`. -/
def jnumber (s : Bytes) : Except JErr (JVal × Bytes) := do
  let rest ← jwhole (skipMinus s)
  let (noPoint, rest) ← jfrac rest
  let (noExp, rest) ← jexp rest
  match numVal (noPoint && noExp) (s.take (s.length - rest.length)) with
  | some v => .ok (v, rest)
  | none => .error ⟨"number out of range (the exponent is beyond 999999999)", s⟩

/-! ### Values -/

section

-- `jvalue`, one level down.
variable (value : Bytes → Except JErr (JVal × Bytes))

/-- The loop of `jarray`. -/
def jitems : Nat → List JVal → Bytes → Except JErr (JVal × Bytes)
  | 0, _, s => .error ⟨"expected `,` or `]` in an array", s⟩
  | n + 1, a, s => do
    let (v, s) ← value s
    match jskip s with
    | c :: s =>
      if c = ch ',' then jitems n (a ++ [v]) s
      else if c = ch ']' then .ok (.slice (a ++ [v]), s)
      else .error ⟨"expected `,` or `]` in an array", c :: s⟩
    | [] => .error ⟨"expected `,` or `]` in an array", []⟩

/-- `jarray`, after the bracket. -/
def jarray (s : Bytes) : Except JErr (JVal × Bytes) :=
  match jskip s with
  | c :: r => if c = ch ']' then .ok (.slice [], r) else jitems value (s.length + 1) [] (c :: r)
  | [] => jitems value (s.length + 1) [] []

/-- `vl_map_set`. -/
def mapSet (m : Bytes → Option JVal) (k : Bytes) (v : JVal) : Bytes → Option JVal := fun k' =>
  if k' = k then some v else m k'

/-- The loop of `jobject`. -/
def jmembers : Nat → (Bytes → Option JVal) → Bytes → Except JErr (JVal × Bytes)
  | 0, _, s => .error ⟨"expected `,` or `\x7d` in an object", s⟩
  | n + 1, m, s => do
    let (k, s) ← jstring (jskip s)
    match jskip s with
    | [] => .error ⟨"expected `:` after an object key", []⟩
    | c :: s =>
      if c ≠ ch ':' then .error ⟨"expected `:` after an object key", c :: s⟩
      else do
        let (v, s) ← value s
        match jskip s with
        | c :: s =>
          if c = ch ',' then jmembers n (mapSet m k v) s
          else if c = ch '}' then .ok (.map (mapSet m k v), s)
          else .error ⟨"expected `,` or `\x7d` in an object", c :: s⟩
        | [] => .error ⟨"expected `,` or `\x7d` in an object", []⟩

/-- `jobject`, after the brace. -/
def jobject (s : Bytes) : Except JErr (JVal × Bytes) :=
  match jskip s with
  | c :: r =>
    if c = ch '}' then .ok (.map fun _ => none, r)
    else jmembers value (s.length + 1) (fun _ => none) (c :: r)
  | [] => jmembers value (s.length + 1) (fun _ => none) []

end

/-- `jlit`. -/
def jlit (s word : Bytes) (v : JVal) : Except JErr (JVal × Bytes) :=
  if s.take word.length = word then .ok (v, s.drop word.length) else .error ⟨"invalid value", s⟩

/-- The words of the literals. -/
def wordTrue : Bytes := [ch 't', ch 'r', ch 'u', ch 'e']

def wordFalse : Bytes := [ch 'f', ch 'a', ch 'l', ch 's', ch 'e']

def wordNull : Bytes := [ch 'n', ch 'u', ch 'l', ch 'l']

/-- `jvalue`, with the levels that are left. -/
def jvalue : Nat → Bytes → Except JErr (JVal × Bytes)
  | levels, s =>
    match jskip s with
    | [] => .error ⟨"unexpected end of input", []⟩
    | c :: r =>
      match levels with
      | 0 => .error ⟨"nested too deeply", c :: r⟩
      | levels + 1 =>
        if c = ch '{' then jobject (jvalue levels) r
        else if c = ch '[' then jarray (jvalue levels) r
        else if c = ch '"' then (jstring (c :: r)).map fun (k, s) => (.str k, s)
        else if c = ch 't' then jlit (c :: r) wordTrue (.bool true)
        else if c = ch 'f' then jlit (c :: r) wordFalse (.bool false)
        else if c = ch 'n' then jlit (c :: r) wordNull .nil
        else jnumber (c :: r)

/-- The line and the column of a place, both from one. -/
def position (s : Bytes) : Nat × Nat :=
  s.foldl (fun (line, col) b => if b = ch '\n' then (line + 1, 1) else (line, col + 1)) (1, 1)

/-- `vl_json_decode(NULL, src)`. The error is its text. -/
def vlJsonDecode (src : Bytes) : Except String JVal :=
  let fail (e : JErr) : Except String JVal :=
    let (line, col) := position (src.take (src.length - e.rest.length))
    .error ("bad JSON at line " ++ toString line ++ ", column " ++ toString col ++ ": " ++ e.why)
  match jvalue jdMaxDepth src with
  | .error e => fail e
  | .ok (v, rest) =>
    match jskip rest with
    | [] => .ok v
    | c :: r => fail ⟨"unexpected text after the value", c :: r⟩

end Voila.Rt.Json
