import Voila.Http.Text

/-!
# Voila.Compress.Tar

`tar.voi`: the writer of ustar archives and their reader, with the GNU and pax records for long names.

An archive is read from a position that only moves forward. Sizes are an `int`; the bounds of the fields
keep them far from its limits.
-/

namespace Voila.Compress

open Voila.Rt (Bytes)
open Voila.Rt.Json (ch)
open Voila.Http (Fail Past errf lit intText cutAt runes numLoop decDigit)

/-- `TarEntry`. -/
structure TarEntry where
  name : Bytes
  data : Bytes
  kind : Bytes
  mode : Int
  mtime : Int
  link : Bytes
  deriving DecidableEq

def tarBlock : Nat := 512

/-- `round_up`. -/
def roundUp (n : Nat) : Nat := (n + tarBlock - 1) / tarBlock * tarBlock

def zeros (n : Nat) : Bytes := List.replicate n 0

/-- `cstr`. -/
def cstr (f : Bytes) : Bytes := f.takeWhile (· != 0)

/-! ### Reading -/

/-- `tar_kind`. -/
def tarKind (typ : UInt8) : Bytes :=
  if typ = 48 ∨ typ = 0 ∨ typ = 55 then lit "file"
  else if typ = 53 then lit "dir"
  else if typ = 50 then lit "symlink"
  else if typ = 49 then lit "link"
  else lit "other"

/-- `is_zero_block`. -/
def isZeroBlock (blk : Bytes) : Bool := blk.all (· == 0)

/-- The loop over the digits of an octal field. -/
def octalLoop (v : Int) : Bytes → Option Int
  | [] => some v
  | c :: b =>
    if c = 32 ∨ c = 0 then some v
    else if c < 48 ∨ 55 < c then none
    else octalLoop (v * 8 + (c.toNat - 48)) b

/-- `tar_octal`. -/
def tarOctal (b : Bytes) (off n : Nat) (what : Bytes) : Except Fail Int :=
  if b.getD off 0 ≥ 128 then
    errf (lit "compress: tar: base-256 " ++ what ++ lit " fields are not supported")
  else
    match octalLoop 0 (((b.drop off).take n).dropWhile fun c => c == 32 || c == 0) with
    | some v => .ok v
    | none => errf (lit "compress: tar: bad octal " ++ what ++ lit " field")

/-- The loop of `check_tar_sum` from byte `i` on. -/
def sumLoop (sum i : Nat) : Bytes → Nat
  | [] => sum
  | c :: b => sumLoop (sum + if i ≥ 148 ∧ i < 156 then 32 else c.toNat) (i + 1) b

/-- `check_tar_sum`. -/
def checkTarSum (b : Bytes) (pos : Nat) : Except Fail Unit := do
  let want ← tarOctal b 148 8 (lit "checksum")
  if (sumLoop 0 0 b : Int) ≠ want then
    errf (lit "compress: tar: header checksum mismatch at byte " ++ intText pos ++
      lit " (corrupt archive, or not a tar archive)")
  else .ok ()

variable (past : Past)

/-- `pax_int`. -/
def paxInt (s what : Bytes) : Except Fail Int :=
  let bad := lit "compress: tar: bad pax " ++ what
  if s = [] then errf bad
  else
    numLoop decDigit 10 1099511627776 bad (lit "compress: tar: pax " ++ what ++ lit " out of range") 0
      (runes past s)

/-- What a pax header says: the last value of a key comes first. -/
abbrev Pax := List (Bytes × Bytes)

def malformed {α : Type} : Except Fail α := errf (lit "compress: tar: malformed pax header")

/-- The loop of `parse_pax`, over what is left of the header. -/
def paxLoop (out : Pax) (body : Bytes) : Except Fail Pax :=
  if body = [] then .ok out
  else
    match cutAt (ch ' ') body with
    | none => malformed
    | some (digits, _) => do
      let n ← paxInt past digits (lit "record length")
      if n ≤ digits.length ∨ n > body.length then malformed
      else
        let record := (body.take n.toNat).drop (digits.length + 1)
        match cutAt (ch '=') record with
        | none => malformed
        | some (key, value) =>
          if record.getLast? ≠ some (ch '\n') then malformed
          else paxLoop ((key, value.dropLast) :: out) (body.drop n.toNat)
termination_by body.length
decreasing_by
  rw [List.length_drop]
  omega

/-- `parse_pax`. -/
def parsePax (body : Bytes) : Except Fail Pax := paxLoop past [] body

/-- What the header `blk` says of a member, with the records before it. -/
def readMember (blk body longName longLink : Bytes) (pax : Pax) : Except Fail TarEntry := do
  let short := cstr (blk.take 100)
  let lead := cstr ((blk.drop 345).take 155)
  let name := if lead ≠ [] ∧ (blk.drop 257).take 5 = lit "ustar" then lead ++ ch '/' :: short else short
  let name := if longName ≠ [] then longName else name
  let name := (pax.lookup (lit "path")).getD name
  let link := cstr ((blk.drop 157).take 100)
  let link := if longLink ≠ [] then longLink else link
  let link := (pax.lookup (lit "linkpath")).getD link
  let kind := tarKind (blk.getD 156 0)
  let mode ← tarOctal blk 100 8 (lit "mode")
  let mtime ← tarOctal blk 136 12 (lit "mtime")
  .ok { name, data := if kind = lit "file" then body else [], kind, mode, mtime, link }

/-- The size of the member whose header `blk` is. -/
def memberSize (blk : Bytes) (pax : Pax) : Except Fail Int := do
  let size ← tarOctal blk 124 12 (lit "size")
  match pax.lookup (lit "size") with
  | some s => paxInt past s (lit "size")
  | none => .ok size

/-- The loop of `tar_read` from position `pos` on. -/
def readLoop (data : Bytes) (max : Int) (pos : Nat) (total : Int) (longName longLink : Bytes) (pax : Pax)
    (out : List TarEntry) : Except Fail (List TarEntry) :=
  if pos < data.length then
    if pos + tarBlock > data.length then
      errf (lit "compress: tar: truncated header at byte " ++ intText pos)
    else
      let blk := (data.drop pos).take tarBlock
      if isZeroBlock blk then .ok out
      else do
        checkTarSum blk pos
        let typ := blk.getD 156 0
        let size ← memberSize past blk pax
        let start := pos + tarBlock
        if size > data.length - start then
          errf (lit "compress: tar: member at byte " ++ intText pos ++ lit " claims " ++ intText size ++
            lit " bytes but the archive ends first")
        else
          let body := (data.drop start).take size.toNat
          let next := min (start + roundUp size.toNat) data.length
          if typ = 76 then readLoop data max next total (cstr body) longLink pax out
          else if typ = 75 then readLoop data max next total longName (cstr body) pax out
          else if typ = 120 then do
            let pax ← parsePax past body
            readLoop data max next total longName longLink pax out
          else if typ = 103 then readLoop data max next total longName longLink pax out
          else if max > 0 ∧ total + size > max then
            errf (lit "compress: tar: members exceed the limit of " ++ intText max ++ lit " bytes")
          else do
            let e ← readMember blk body longName longLink pax
            readLoop data max next (total + size) [] [] [] (out ++ [e])
  else .ok out
termination_by data.length - pos
decreasing_by all_goals
  unfold tarBlock at *
  omega

/-- `check_max`. -/
def checkMax (max : Int) : Except Fail Unit :=
  if max < 0 then errf (lit "compress: max " ++ intText max ++ lit " is negative (0 means no limit)")
  else .ok ()

/-- `tar_read`. -/
def tarRead (data : Bytes) (max : Int) : Except Fail (List TarEntry) := do
  checkMax max
  readLoop past data max 0 0 [] [] [] []

/-! ### Writing -/

/-- An octal number, as `%o` prints it. -/
def printOct (n : Nat) : Bytes :=
  if n = 0 then [48] else (Nat.digits 8 n).reverse.map (fun x => 48 + UInt8.ofNat x)

/-- The loop of `split_name` from byte `i` down. -/
def splitLoop (name : Bytes) : Nat → Option (Bytes × Bytes)
  | 0 => none
  | i + 1 =>
    let after := name.length - (i + 1) - 1
    if name[i + 1]? = some (ch '/') ∧ i + 1 ≤ 155 ∧ after ≤ 100 ∧ after > 0 then
      some (name.take (i + 1), name.drop (i + 1 + 1))
    else splitLoop name i

/-- `split_name`. -/
def splitName (name : Bytes) : Except Fail (Bytes × Bytes) :=
  if name = [] then errf (lit "compress: tar: a member has no name")
  else if name.length ≤ 100 then .ok ([], name)
  else
    match splitLoop name (name.length - 1) with
    | some parts => .ok parts
    | none => errf (lit "compress: tar: name too long for ustar: " ++ name)

/-- `field`. -/
def field (s : Bytes) (n : Nat) (what : Bytes) : Except Fail Bytes :=
  if s.length > n then
    errf (lit "compress: tar: " ++ what ++ lit " longer than " ++ intText n ++ lit " bytes: " ++ s)
  else .ok (s ++ zeros (n - s.length))

/-- `octal_field`. -/
def octalField (v : Int) (n : Nat) (what : Bytes) : Except Fail Bytes :=
  if v < 0 then errf (lit "compress: tar: negative " ++ what)
  else
    let o := printOct v.toNat
    if o.length > n - 1 then
      errf (lit "compress: tar: " ++ what ++ lit " " ++ intText v ++ lit " does not fit the ustar field")
    else .ok (List.replicate (n - 1 - o.length) (ch '0') ++ o ++ [0])

/-- The name, the size and the type flag that a member is written with. -/
def memberHead (e : TarEntry) : Except Fail (Bytes × Nat × UInt8) :=
  if e.kind = lit "file" then .ok (e.name, e.data.length, ch '0')
  else if e.kind = lit "dir" then
    .ok (if e.name.getLast? = some (ch '/') then e.name else e.name ++ [ch '/'], 0, ch '5')
  else if e.kind = lit "symlink" then .ok (e.name, 0, ch '2')
  else if e.kind = lit "link" then .ok (e.name, 0, ch '1')
  else
    errf (lit "compress: tar: cannot write a member of kind " ++ e.kind ++ lit " (" ++ e.name ++ lit ")")

/-- The text of a checksum: `%06o`, a NUL and a blank. -/
def sumText (sum : Nat) : Bytes :=
  List.replicate (6 - (printOct sum).length) (ch '0') ++ printOct sum ++ [0, 32]

/-- A header without its checksum: what is before it and what is behind. -/
def headerParts (e : TarEntry) (lead short : Bytes) (size : Nat) (typ : UInt8) :
    Except Fail (Bytes × Bytes) := do
  let name ← field short 100 (lit "name")
  let mode ← octalField e.mode 8 (lit "mode")
  let uid ← octalField 0 8 (lit "uid")
  let gid ← octalField 0 8 (lit "gid")
  let size ← octalField size 12 (lit "size")
  let mtime ← octalField e.mtime 12 (lit "mtime")
  let link ← field e.link 100 (lit "link target")
  let devmajor ← octalField 0 8 (lit "devmajor")
  let devminor ← octalField 0 8 (lit "devminor")
  let lead ← field lead 155 (lit "name prefix")
  .ok (name ++ (mode ++ (uid ++ (gid ++ (size ++ mtime)))),
    typ :: (link ++ (lit "ustar" ++ ([0, ch '0', ch '0'] ++ (zeros (32 + 32) ++ (devmajor ++ (devminor ++
      (lead ++ zeros 12))))))))

/-- A turn of the loop of `tar_write`. -/
def writeMember (e : TarEntry) : Except Fail Bytes := do
  let (name, size, typ) ← memberHead e
  if e.kind ≠ lit "file" ∧ e.data.length > 0 then
    errf (lit "compress: tar: " ++ e.name ++ lit ": only a file has data")
  else do
    let (lead, short) ← splitName name
    let (front, back) ← headerParts e lead short size typ
    let sum := ((front ++ (List.replicate 8 32 ++ back)).map UInt8.toNat).sum
    .ok (front ++ (sumText sum ++ (back ++ (e.data ++ zeros (roundUp size - size)))))

/-- The loop of `tar_write`. -/
def writeLoop : List TarEntry → Except Fail Bytes
  | [] => .ok []
  | e :: es => do
    let b ← writeMember e
    let bs ← writeLoop es
    .ok (b ++ bs)

/-- `tar_write`. -/
def tarWrite (entries : List TarEntry) : Except Fail Bytes := do
  let b ← writeLoop entries
  .ok (b ++ zeros (2 * tarBlock))

end Voila.Compress
