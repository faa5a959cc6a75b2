import Voila.Rt.Json

/-!
# Voila.Rt.JsonText

JSON texts (RFC 8259), and what they denote.

A document is what a text spells once its blanks are left out: its strings are kept as they are
written, escape by escape, and its numbers digit by digit. So the text of a string or a number is a
function of it, and only the blanks of a text are free (`Derives`).

`denoteChars` is what a string denotes, and `readChars` what the decoder makes of it. The decoder
takes the escape behind a high surrogate along even where that is a high surrogate of its own, and
so the two differ where a run of an even number of them stands before a low one (`Paired`).
-/

namespace Voila.Rt.Json

/-! ### Strings -/

/-- The letters of an escape. -/
inductive Letter where
  | quote
  | backslash
  | slash
  | backspace
  | formFeed
  | lineFeed
  | carriageReturn
  | tab
  deriving DecidableEq

def Letter.byte : Letter → UInt8
  | .quote => ch '"'
  | .backslash => ch '\\'
  | .slash => ch '/'
  | .backspace => ch 'b'
  | .formFeed => ch 'f'
  | .lineFeed => ch 'n'
  | .carriageReturn => ch 'r'
  | .tab => ch 't'

/-- The character that an escape stands for. -/
def Letter.means : Letter → UInt8
  | .quote => 0x22
  | .backslash => 0x5C
  | .slash => 0x2F
  | .backspace => 0x08
  | .formFeed => 0x0C
  | .lineFeed => 0x0A
  | .carriageReturn => 0x0D
  | .tab => 0x09

/-- The four digits of a `\u` escape. -/
structure Hex4 where
  digits : Bytes
  four : digits.length = 4
  hex : ∀ b ∈ digits, (hexv b).isSome
  deriving DecidableEq

/-- The code unit of a `\u` escape. -/
def Hex4.num (u : Hex4) : Nat := u.digits.foldl (fun v b => v * 16 + (hexv b).getD 0) 0

/-- One character of a string as it is written. -/
inductive JChar where
  | plain (b : UInt8) (h : 0x20 ≤ b ∧ b ≠ ch '"' ∧ b ≠ ch '\\')
  | letter (e : Letter)
  | unit (u : Hex4)
  deriving DecidableEq

def JChar.text : JChar → Bytes
  | .plain b _ => [b]
  | .letter e => [ch '\\', e.byte]
  | .unit u => ch '\\' :: ch 'u' :: u.digits

/-- The text between the quotes. -/
def charsText (cs : List JChar) : Bytes := cs.flatMap JChar.text

/-- The UTF-8 of a code point. -/
def utf8 (r : Nat) : Bytes := String.utf8EncodeChar (Char.ofNat r)

/-- The code point of a surrogate pair. -/
def pairPoint (h l : Nat) : Nat := 0x10000 + (h - 0xD800) * 0x400 + (l - 0xDC00)

/-- The code point of an escape of its own: a surrogate without its other half is no character. -/
def lonePoint (u : Nat) : Nat := if isSurrogate u then 0xFFFD else u

/-- What a string denotes: a high surrogate directly before a low one is a pair. -/
def denoteChars : List JChar → Bytes
  | [] => []
  | .plain b _ :: cs => b :: denoteChars cs
  | .letter e :: cs => e.means :: denoteChars cs
  | .unit h :: .unit l :: cs =>
    if isHigh h.num ∧ isLow l.num then utf8 (pairPoint h.num l.num) ++ denoteChars cs
    else utf8 (lonePoint h.num) ++ denoteChars (.unit l :: cs)
  | .unit u :: cs => utf8 (lonePoint u.num) ++ denoteChars cs

/-- What the decoder makes of a string. -/
def readChars : List JChar → Bytes
  | [] => []
  | .plain b _ :: cs => b :: readChars cs
  | .letter e :: cs => e.means :: readChars cs
  | .unit h :: .unit l :: cs =>
    if isHigh h.num then
      (if isLow l.num then utf8 (pairPoint h.num l.num)
        else utf8 0xFFFD ++ utf8 (lonePoint l.num)) ++ readChars cs
    else utf8 (lonePoint h.num) ++ readChars (.unit l :: cs)
  | .unit u :: cs => utf8 (lonePoint u.num) ++ readChars cs

/-- An escape that is a high surrogate. -/
def JChar.high : JChar → Bool
  | .unit u => isHigh u.num
  | _ => false

/-- An escape that is a low surrogate. -/
def JChar.low : JChar → Bool
  | .unit u => isLow u.num
  | _ => false

/-- No run of an even number of high surrogates stands directly before a low one; `k` is how many
stand directly before what is left. -/
def Paired : Nat → List JChar → Bool
  | _, [] => true
  | k, c :: cs =>
    if c.high then Paired (k + 1) cs
    else if c.low ∧ 0 < k ∧ k % 2 = 0 then false
    else Paired 0 cs

/-! ### Numbers -/

/-- The exponent of a number as it is written. -/
structure JExp where
  big : Bool
  sign : Option Bool
  digits : List (Fin 10)
  nonempty : digits ≠ []
  deriving DecidableEq

def signText : Option Bool → Bytes
  | none => []
  | some neg => [if neg then ch '-' else ch '+']

def JExp.text (e : JExp) : Bytes :=
  (if e.big then ch 'E' else ch 'e') :: (signText e.sign ++ e.digits.map digitByte)

def JExp.num (e : JExp) : Int := if e.sign = some true then -(coef e.digits : Int) else coef e.digits

/-- A number as it is written. There is a point where there is a fraction. -/
structure JNum where
  neg : Bool
  whole : List (Fin 10)
  frac : List (Fin 10)
  exp : Option JExp
  leading : whole = [0] ∨ ∃ x xs, whole = x :: xs ∧ x ≠ 0
  deriving DecidableEq

def fracText (ds : List (Fin 10)) : Bytes := if ds = [] then [] else ch '.' :: ds.map digitByte

def expText (e : Option JExp) : Bytes := (e.map JExp.text).getD []

def JNum.text (n : JNum) : Bytes :=
  (if n.neg then [ch '-'] else []) ++ (n.whole.map digitByte ++ (fracText n.frac ++ expText n.exp))

/-- The exponent, zero where there is none. -/
def JNum.expNum (n : JNum) : Int := (n.exp.map JExp.num).getD 0

/-- The number that is written. -/
def JNum.value (n : JNum) : ℚ :=
  (if n.neg then -1 else 1) * (coef n.whole + coef n.frac / 10 ^ n.frac.length) * 10 ^ n.expNum

/-- The integer that is written, where it is one that fits `int64`. -/
def JNum.int64 (n : JNum) : Option Int :=
  if n.frac = [] ∧ n.exp = none then
    some (if n.neg then -(coef n.whole : Int) else coef n.whole) |>.filter fitsInt64
  else none

/-- The exponent is within the bound of decimals, as written and for the last digit. -/
def JNum.InBound (n : JNum) : Prop :=
  -decMaxExp ≤ n.expNum ∧ n.expNum ≤ decMaxExp ∧ -decMaxExp ≤ n.expNum - n.frac.length

instance (n : JNum) : Decidable n.InBound := inferInstanceAs (Decidable (_ ∧ _))

/-- The decimal of a number: all its digits, and the exponent of the last. -/
def JNum.dec (n : JNum) : Dec := .make n.neg (n.whole ++ n.frac) (n.expNum - n.frac.length)

def JNum.denote (n : JNum) : JVal :=
  match n.int64 with
  | some i => .int i
  | none => .dec n.dec

/-! ### Documents -/

/-- A document. -/
inductive Doc where
  | null
  | bool (b : Bool)
  | num (n : JNum)
  | str (cs : List JChar)
  | arr (ts : List Doc)
  | obj (ms : List (List JChar × Doc))

/-- Blanks. -/
def Blank (w : Bytes) : Prop := ∀ b ∈ w, isBlank b = true

/-- A string with its quotes. -/
def strText (cs : List JChar) : Bytes := ch '"' :: charsText cs ++ [ch '"']

mutual

/-- The grammar of values. -/
inductive Derives : Doc → Bytes → Prop
  | null : Derives .null wordNull
  | true : Derives (.bool true) wordTrue
  | false : Derives (.bool false) wordFalse
  | num (n : JNum) : Derives (.num n) n.text
  | str (cs : List JChar) : Derives (.str cs) (strText cs)
  | noItems {w : Bytes} : Blank w → Derives (.arr []) (ch '[' :: w ++ [ch ']'])
  | arr {ts : List Doc} {s : Bytes} : Items ts s → Derives (.arr ts) (ch '[' :: s ++ [ch ']'])
  | noMembers {w : Bytes} : Blank w → Derives (.obj []) (ch '{' :: w ++ [ch '}'])
  | obj {ms : List (List JChar × Doc)} {s : Bytes} :
      Members ms s → Derives (.obj ms) (ch '{' :: s ++ [ch '}'])

/-- Values between commas, with blanks around them. -/
inductive Items : List Doc → Bytes → Prop
  | one {t : Doc} {w s w' : Bytes} : Blank w → Derives t s → Blank w' → Items [t] (w ++ s ++ w')
  | more {t : Doc} {ts : List Doc} {w s w' ss : Bytes} :
      Blank w → Derives t s → Blank w' → Items ts ss →
        Items (t :: ts) (w ++ s ++ w' ++ ch ',' :: ss)

/-- Names with values between commas, with blanks around them. -/
inductive Members : List (List JChar × Doc) → Bytes → Prop
  | one {k : List JChar} {t : Doc} {w₁ w₂ w s w' : Bytes} :
      Blank w₁ → Blank w₂ → Blank w → Derives t s → Blank w' →
        Members [(k, t)] (w₁ ++ strText k ++ w₂ ++ ch ':' :: (w ++ s ++ w'))
  | more {k : List JChar} {t : Doc} {ms : List (List JChar × Doc)} {w₁ w₂ w s w' ss : Bytes} :
      Blank w₁ → Blank w₂ → Blank w → Derives t s → Blank w' → Members ms ss →
        Members ((k, t) :: ms)
          (w₁ ++ strText k ++ w₂ ++ ch ':' :: (w ++ s ++ w' ++ ch ',' :: ss))

end

/-- A text is one value with blanks around it. -/
def Text (s : Bytes) (t : Doc) : Prop :=
  ∃ w b w', Blank w ∧ Derives t b ∧ Blank w' ∧ s = w ++ b ++ w'

mutual

/-- How deep a document is nested, itself included. -/
def Doc.depth : Doc → Nat
  | .arr ts => depths ts + 1
  | .obj ms => memberDepths ms + 1
  | _ => 1

def depths : List Doc → Nat
  | [] => 0
  | t :: ts => max t.depth (depths ts)

def memberDepths : List (List JChar × Doc) → Nat
  | [] => 0
  | (_, t) :: ms => max t.depth (memberDepths ms)

end

mutual

/-- Every number is within the bound of decimals. -/
def Doc.InBound : Doc → Prop
  | .num n => n.InBound
  | .arr ts => itemsInBound ts
  | .obj ms => membersInBound ms
  | _ => True

def itemsInBound : List Doc → Prop
  | [] => True
  | t :: ts => t.InBound ∧ itemsInBound ts

def membersInBound : List (List JChar × Doc) → Prop
  | [] => True
  | (_, t) :: ms => t.InBound ∧ membersInBound ms

end

section

-- What a string is taken for.
variable (chars : List JChar → Bytes)

mutual

/-- The value of a document, given what its strings are taken for. -/
def Doc.value : Doc → JVal
  | .null => .nil
  | .bool b => .bool b
  | .num n => n.denote
  | .str cs => .str (chars cs)
  | .arr ts => .slice (itemValues ts)
  | .obj ms => .map (memberValues ms)

def itemValues : List Doc → List JVal
  | [] => []
  | t :: ts => t.value :: itemValues ts

/-- The last of the members with a name gives its value. -/
def memberValues : List (List JChar × Doc) → Bytes → Option JVal
  | [], _ => none
  | (k, t) :: ms, name =>
    match memberValues ms name with
    | some v => some v
    | none => if name = chars k then some t.value else none

end

end

/-- What a document denotes. -/
def Doc.denote (t : Doc) : JVal := t.value denoteChars

mutual

/-- Every string of a document is paired. -/
def Doc.AllPaired : Doc → Prop
  | .str cs => Paired 0 cs = true
  | .arr ts => itemsPaired ts
  | .obj ms => membersPaired ms
  | _ => True

def itemsPaired : List Doc → Prop
  | [] => True
  | t :: ts => t.AllPaired ∧ itemsPaired ts

def membersPaired : List (List JChar × Doc) → Prop
  | [] => True
  | (k, t) :: ms => Paired 0 k = true ∧ t.AllPaired ∧ membersPaired ms

end

mutual

/-- No object of a document has two members of one name. -/
def Doc.Distinct : Doc → Prop
  | .arr ts => itemsDistinct ts
  | .obj ms => membersDistinct ms ∧ (ms.map fun m => denoteChars m.1).Nodup
  | _ => True

def itemsDistinct : List Doc → Prop
  | [] => True
  | t :: ts => t.Distinct ∧ itemsDistinct ts

def membersDistinct : List (List JChar × Doc) → Prop
  | [] => True
  | (_, t) :: ms => t.Distinct ∧ membersDistinct ms

end

end Voila.Rt.Json
