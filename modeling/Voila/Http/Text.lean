import Voila.Rt.Json

/-!
# Voila.Http.Text

The texts of HTTP messages (`http.voi`): numbers, tokens, header values and header lists, and the
error texts that quote them.

A string is its bytes, and `each c in s` goes over its runes as `vl_iter_next` decodes them: a lead
byte takes the bytes behind it whatever they are, behind the end of the string too (`runes`). An
error text is a `printf` format, and one that has a verb in it is thrown (`errf`).
-/

namespace Voila.Http

open Voila.Rt (Bytes printNat)
open Voila.Rt.Json (ch)

/-- The bytes of a literal. -/
def lit (s : String) : Bytes := s.toList.flatMap String.utf8EncodeChar

/-- How a call ends without a result. -/
inductive Fail where
  /-- An error value. -/
  | err (msg : Bytes)
  /-- An exception. -/
  | throws (exc : String)
  /-- A loop that goes on. -/
  | hangs
  deriving DecidableEq

/-- `vl_sprintf_v` without arguments: `none` where it throws. -/
def sprintf : Bytes → Option Bytes
  | [] => some []
  | b :: s =>
    if b ≠ ch '%' then (sprintf s).map (b :: ·)
    else
      match s with
      | [] => none
      | c :: s => if c = ch '%' then (sprintf s).map (c :: ·) else none

/-- `errf`, with an interpolated text as its format. -/
def errf {α : Type} (fmt : Bytes) : Except Fail α :=
  match sprintf fmt with
  | some msg => .error (.err msg)
  | none => .error (.throws "FormatError")

/-! ### Runes -/

/-- What lies in memory behind the terminator of a string. -/
abbrev Past := Bytes → Bytes

/-- The six bits that a byte adds to a rune. -/
def contBits (s : Bytes) (k : Nat) : Nat := (s.getD k 0).toNat &&& 0x3F

/-- The loop of `vl_iter_next` over what is left of a string; `behind` is what lies behind it. -/
def runesFrom (behind : Bytes) : Nat → Bytes → List Nat
  | 0, _ => []
  | _ + 1, [] => []
  | n + 1, a :: s =>
    let t := s ++ behind
    if 0xF0 ≤ a then
      ((a.toNat &&& 7) <<< 18 ||| contBits t 0 <<< 12 ||| contBits t 1 <<< 6 ||| contBits t 2) ::
        runesFrom behind n (s.drop 3)
    else if 0xE0 ≤ a then
      ((a.toNat &&& 15) <<< 12 ||| contBits t 0 <<< 6 ||| contBits t 1) ::
        runesFrom behind n (s.drop 2)
    else if 0xC0 ≤ a then
      ((a.toNat &&& 31) <<< 6 ||| contBits t 0) :: runesFrom behind n (s.drop 1)
    else a.toNat :: runesFrom behind n s

variable (past : Past)

/-- `each c in s`. -/
def runes (s : Bytes) : List Nat := runesFrom (0 :: past s) s.length s

/-- The loop of `brief`: what is shown, and whether it was cut. -/
def briefLoop : Nat → List Nat → Bytes × Bool
  | _, [] => ([], false)
  | n, c :: cs =>
    if 40 ≤ n then ([], true)
    else
      let (shown, cut) := briefLoop (n + 1) cs
      if c < 0x20 ∨ 0x7E < c then (ch '.' :: shown, cut)
      else if c = 0x25 then (ch '%' :: ch '%' :: shown, cut)
      else (UInt8.ofNat c :: shown, cut)

/-- `brief`. -/
def brief (s : Bytes) : Bytes :=
  let (shown, cut) := briefLoop 0 (runes past s)
  ch '\x60' :: (shown ++ (if cut then lit "..." else [])) ++ [ch '\x60']

/-- An `int` in a text. -/
def intText (n : Int) : Bytes := (if n < 0 then [ch '-'] else []) ++ printNat n.natAbs

/-! ### Strings -/

/-- `is_space_c`. -/
def isSpace (b : UInt8) : Bool := b == 32 || (9 ≤ b && b ≤ 13)

/-- `str.trim`. -/
def trim (s : Bytes) : Bytes := ((s.dropWhile isSpace).reverse.dropWhile isSpace).reverse

/-- `tolower`. -/
def toLower (b : UInt8) : UInt8 := if ch 'A' ≤ b ∧ b ≤ ch 'Z' then b + 32 else b

/-- `str.equal_fold`. -/
def equalFold (s t : Bytes) : Bool := s.map toLower == t.map toLower

/-- `str.index(s, sep)` with a `sep` of one byte, as what it cuts the string into. -/
def cutAt (sep : UInt8) (s : Bytes) : Option (Bytes × Bytes) :=
  match s.dropWhile (· != sep) with
  | [] => none
  | _ :: after => some (s.takeWhile (· != sep), after)

/-- `str.starts_with(s, "HTTP/")`. -/
def isProto (s : Bytes) : Bool := (lit "HTTP/").isPrefixOf s

/-! ### Numbers -/

/-- The range of an `int`. -/
def maxInt : Int := 2 ^ 63 - 1

/-- The running value of a number with one more digit. -/
def addDigit (base v d : Int) : Except Fail Int :=
  if v * base > maxInt ∨ v * base + d > maxInt then .error (.throws "OverflowError")
  else .ok (v * base + d)

/-- A loop over digits: `digit` gives what a rune is worth. -/
def numLoop (digit : Nat → Option Int) (base limit : Int) (noDigit tooBig : Bytes) :
    Int → List Nat → Except Fail Int
  | v, [] => .ok v
  | v, c :: cs =>
    match digit c with
    | none => errf noDigit
    | some d => do
      let v ← addDigit base v d
      if v > limit then errf tooBig else numLoop digit base limit noDigit tooBig v cs

def decDigit (c : Nat) : Option Int := if c < 48 ∨ 57 < c then none else some (c - 48 : Nat)

def hexDigit (c : Nat) : Option Int :=
  if 48 ≤ c ∧ c ≤ 57 then some (c - 48 : Nat)
  else if 97 ≤ c ∧ c ≤ 102 then some (c - 87 : Nat)
  else if 65 ≤ c ∧ c ≤ 70 then some (c - 55 : Nat)
  else none

/-- The text of a number beyond its limit. -/
def tooBig (s : Bytes) (limit : Int) (what : Bytes) : Bytes :=
  lit "http: " ++ what ++ lit " " ++ brief past s ++ lit " exceeds the limit of " ++ intText limit

/-- `parse_dec`. -/
def parseDec (s : Bytes) (limit : Int) (what : Bytes) : Except Fail Int :=
  if s = [] then errf (lit "http: empty " ++ what)
  else
    numLoop decDigit 10 limit
      (lit "http: " ++ what ++ lit " " ++ brief past s ++ lit " is not a decimal number")
      (tooBig past s limit what) 0 (runes past s)

/-- `parse_hex`. -/
def parseHex (s : Bytes) (limit : Int) (what : Bytes) : Except Fail Int :=
  if s = [] then errf (lit "http: empty " ++ what)
  else
    numLoop hexDigit 16 limit
      (lit "http: " ++ what ++ lit " " ++ brief past s ++ lit " is not a hex number")
      (tooBig past s limit what) 0 (runes past s)

/-! ### Tokens and values -/

/-- A rune that a token may not have. -/
def notToken (c : Nat) : Bool :=
  c ≤ 0x20 || 0x7E < c || (":/(),;<>=?@[]\\\x7b\x7d\"".toList.any fun x => x.toNat = c)

/-- `check_token`. -/
def checkToken (s what : Bytes) : Except Fail Unit :=
  if s = [] then errf (lit "http: empty " ++ what)
  else if (runes past s).any notToken then
    errf (lit "http: " ++ what ++ lit " " ++ brief past s ++ lit " contains an illegal character")
  else .ok ()

/-- The loop of `check_value`. -/
def valueLoop (what : Bytes) : List Nat → Except Fail Unit
  | [] => .ok ()
  | c :: cs =>
    if c = 13 ∨ c = 10 then
      errf (lit "http: " ++ what ++ lit " contains a newline (response splitting is refused)")
    else if c < 0x20 ∧ c ≠ 9 then
      errf (lit "http: " ++ what ++ lit " contains a control character")
    else valueLoop what cs

/-- `check_value`. -/
def checkValue (s what : Bytes) : Except Fail Unit := valueLoop what (runes past s)

/-! ### Header lists -/

structure Header where
  name : Bytes
  value : Bytes
  deriving DecidableEq

/-- `Headers`: in the order they were added. -/
abbrev Headers := List Header

/-- A header of a name. -/
def Header.called (name : Bytes) (h : Header) : Bool := equalFold h.name name

/-- `Headers.get`. -/
def Headers.get (hs : Headers) (name : Bytes) : Bytes :=
  match hs.find? (Header.called name) with
  | some h => h.value
  | none => []

/-- `Headers.has`. -/
def Headers.has (hs : Headers) (name : Bytes) : Bool := hs.any (Header.called name)

/-- `Headers.all`. -/
def Headers.all (hs : Headers) (name : Bytes) : List Bytes :=
  (hs.filter (Header.called name)).map Header.value

/-- The loop of `Headers.set`. -/
def setLoop (name value : Bytes) : Bool → Headers → Headers
  | placed, [] => if placed then [] else [⟨name, value⟩]
  | placed, h :: hs =>
    if h.called name then
      if placed then setLoop name value true hs else ⟨name, value⟩ :: setLoop name value true hs
    else h :: setLoop name value placed hs

/-- `Headers.set`. -/
def Headers.set (hs : Headers) (name value : Bytes) : Headers := setLoop name value false hs

/-- `Headers.remove`. -/
def Headers.remove (hs : Headers) (name : Bytes) : Headers := hs.filter fun h => !h.called name

end Voila.Http
