import Voila.Rt.Json

/-!
# Voila.Rt.Reader

The buffered reader of `io.c`: `rd_grow`, `rd_fill`, the calls that read, and `vl_records_of`.

A source is what its refills will bring: bytes, which a refill takes as far as there is room for
them, or a failure, after which the source goes on. Past its last refill it is at its end. The
buffer is what has been read into it, up to the write position.
-/

namespace Voila.Rt.Io

open Voila.Rt.Json (ch)

/-- `IO_MAXBUF`. -/
def ioMaxBuf : Nat := 64 * 1024 * 1024

/-- What a refill brings. -/
inductive Refill where
  /-- Bytes, of which there is one at least. -/
  | bytes (b : UInt8) (bs : Bytes)
  /-- A failure, with the message of its `IOError`. -/
  | fail (why : Bytes)
  deriving DecidableEq

abbrev Source := List Refill

/-- The bytes that a source will bring. -/
def Source.bytes : Source → Bytes
  | [] => []
  | .bytes b bs :: src => b :: bs ++ bytes src
  | .fail _ :: src => bytes src

/-- The source with bytes that did not find room put back. -/
def Source.putBack (left : Bytes) (src : Source) : Source :=
  match left with
  | [] => src
  | b :: bs => .bytes b bs :: src

/-- `VlReader`: the buffer up to `w`, the position `r` in it, its capacity, and whether a refill came
back empty. -/
structure Reader where
  b : Bytes
  r : Nat
  cap : Nat
  eof : Bool
  within : r ≤ b.length
  fits : b.length ≤ cap
  roomy : 0 < cap

/-- `reader_new`. -/
def reader (cap : Nat) : Reader where
  b := []
  r := 0
  cap := min (max cap 64) ioMaxBuf
  eof := false
  within := Nat.le_refl 0
  fits := Nat.zero_le _
  roomy := by
    unfold ioMaxBuf
    omega

/-- What is in the buffer and has not been handed out. -/
def Reader.held (rd : Reader) : Bytes := rd.b.drop rd.r

/-- The first `n` bytes of what is held are handed out. -/
def Reader.advance (rd : Reader) (n : Nat) : Reader :=
  { rd with
    r := min (rd.r + n) rd.b.length
    within := Nat.min_le_right _ _ }

/-- What has been handed out is dropped. -/
def Reader.compact (rd : Reader) : Reader :=
  { rd with
    b := rd.b.drop rd.r
    r := 0
    within := Nat.zero_le _
    fits := by
      rw [List.length_drop]
      have := rd.fits
      omega }

/-- The buffer of twice the capacity. -/
def Reader.doubled (rd : Reader) : Reader :=
  { rd with
    cap := rd.cap * 2
    fits := by
      have := rd.fits
      omega
    roomy := by
      have := rd.roomy
      omega }

/-- `rd_grow`, from a buffer that is full. -/
def Reader.grow (rd : Reader) : Option Reader :=
  if ioMaxBuf < rd.cap * 2 then none else some rd.doubled

/-- Bytes are read in behind what is there, as far as there is room. -/
def Reader.readIn (rd : Reader) (bs : Bytes) : Reader :=
  { rd with
    b := rd.b ++ bs.take (rd.cap - rd.b.length)
    within := by
      rw [List.length_append]
      have := rd.within
      omega
    fits := by
      rw [List.length_append, List.length_take]
      have := rd.fits
      omega }

def Reader.atEnd (rd : Reader) : Reader := { rd with eof := true }

/-- What `rd_fill` returns. -/
inductive Got where
  | added
  | ended
  | failed (why : Bytes)

/-- The message of `rd_grow`. -/
def tooLong : Bytes :=
  ("record longer than 67108864 bytes: this stream is not line-oriented".toList).map ch

/-- A reader with its source. -/
structure St where
  rd : Reader
  src : Source

/-- The second half of `rd_fill`: the source is read into the room that there is. -/
def refill (rd : Reader) : Source → Got × St
  | [] => (.ended, ⟨rd.atEnd, []⟩)
  | .fail why :: src => (.failed why, ⟨rd, src⟩)
  | .bytes b bs :: src =>
    (.added, ⟨rd.readIn (b :: bs), Source.putBack ((b :: bs).drop (rd.cap - rd.b.length)) src⟩)

/-- `rd_fill`. -/
def rdFill (st : St) : Got × St :=
  let rd := st.rd.compact
  match if rd.b.length = rd.cap then rd.grow else some rd with
  | none => (.failed tooLong, ⟨rd, st.src⟩)
  | some rd => refill rd st.src

/-- What a call returns. -/
inductive Reply where
  | str (s : Bytes)
  | int (n : Int)
  | bool (b : Bool)
  | recs (rs : List Bytes)
  | err (why : Bytes)
  deriving DecidableEq

/-- How many refills can bring something, and one more. -/
def St.fuel (st : St) : Nat := st.src.bytes.length + 1

/-- The first `n` bytes of what is held are handed out. -/
def St.take (st : St) (n : Nat) : Reply × St :=
  (.str (st.rd.held.take n), { st with rd := st.rd.advance n })

/-- What a loop would return when its turns ran out, which they do not. -/
def stuck (st : St) : Reply × St := (.err [], st)

/-- A refill in a call: what fails is returned, and else the call goes on. -/
def afterFill (st : St) (ended added : St → Reply × St) : Reply × St :=
  match rdFill st with
  | (.failed why, st) => (.err why, st)
  | (.ended, st) => ended st
  | (.added, st) => added st

/-- The loop of `rd_line`. -/
def lineLoop : Nat → St → Reply × St
  | 0, st => stuck st
  | n + 1, st =>
    match st.rd.held.findIdx? (· == ch '\n') with
    | some i => st.take (i + 1)
    | none =>
      afterFill st (fun st => st.take st.rd.held.length) (lineLoop n)

/-- `rd_line`. -/
def rdLine (st : St) : Reply × St := lineLoop st.fuel st

/-- `rd_read`. -/
def rdRead (want : Int) (st : St) : Reply × St :=
  if want ≤ 0 then (.str [], st)
  else if st.rd.held = [] then
    afterFill st (fun st => (.str [], st)) (fun st => st.take want.toNat)
  else st.take want.toNat

/-- The loop of `rd_all`, with what it has gathered. -/
def allLoop : Nat → Bytes → St → Reply × St
  | 0, _, st => stuck st
  | n + 1, out, st =>
    let out := out ++ st.rd.held
    afterFill { st with rd := st.rd.advance st.rd.held.length } (fun st => (.str out, st))
      (allLoop n out)

/-- `rd_all`. -/
def rdAll (st : St) : Reply × St := allLoop st.fuel [] st

/-- The end of `rd_byte`. -/
def St.byte (st : St) : Reply × St :=
  match st.rd.held with
  | [] => (.int (-1), st)
  | b :: _ => (.int b.toNat, { st with rd := st.rd.advance 1 })

/-- `rd_byte`. -/
def rdByte (st : St) : Reply × St :=
  if st.rd.held = [] then
    afterFill st (fun st => (.int (-1), st)) St.byte
  else st.byte

/-- The loop of `rd_peek`. -/
def peekLoop (want : Nat) : Nat → St → Reply × St
  | 0, st => stuck st
  | n + 1, st =>
    if st.rd.held.length < want then
      afterFill st (fun st => (.str (st.rd.held.take want), st)) (peekLoop want n)
    else (.str (st.rd.held.take want), st)

/-- `rd_peek`. -/
def rdPeek (want : Int) (st : St) : Reply × St :=
  if want ≤ 0 then (.str [], st) else peekLoop want.toNat st.fuel st

/-- `rd_at_eof`. -/
def rdAtEof (st : St) : Reply × St :=
  if st.rd.held ≠ [] then (.bool false, st)
  else if st.rd.eof then (.bool true, st)
  else
    afterFill st (fun st => (.bool true, st)) (fun st => (.bool false, st))

/-! ### Records -/

/-- A line as a record: without the `\r` at its end, cut or padded with blanks. -/
def padded (width : Nat) (line : Bytes) : Bytes :=
  let line := if line.getLast? = some (ch '\r') then line.dropLast else line
  line.take width ++ List.replicate (width - line.length) (ch ' ')

/-- The records of a text with lines; `line` is what is read of the one at hand. -/
def lineRecords (width : Nat) (line : Bytes) : Bytes → List Bytes
  | [] => if line = [] then [] else [padded width line]
  | c :: text =>
    if c = ch '\n' then padded width line :: lineRecords width [] text
    else lineRecords width (line ++ [c]) text

/-- The records of a text that is one block. -/
def blockRecords (width : Nat) : Nat → Bytes → List Bytes
  | 0, _ => []
  | n + 1, text =>
    if width ≤ text.length then text.take width :: blockRecords width n (text.drop width) else []

/-- `vl_records_of`. -/
def recordsOf (text : Bytes) (width : Nat) : List Bytes :=
  if ch '\n' ∈ text then lineRecords width [] text else blockRecords width text.length text

def badWidth : Bytes := ("records(width): the record width must be positive".toList).map ch

/-- The `records` call of `vl_reader_method`. -/
def rdRecords (width : Int) (st : St) : Reply × St :=
  if width ≤ 0 then (.err badWidth, st)
  else
    match rdAll st with
    | (.str text, st) => (.recs (recordsOf text width.toNat), st)
    | (r, st) => (r, st)

/-! ### Calls -/

/-- The calls that read. -/
inductive Call where
  | readLine
  | read (want : Int)
  | readAll
  | readByte
  | peek (want : Int)
  | atEof
  | records (width : Int)
  deriving DecidableEq

/-- `vl_reader_method`. -/
def vlReaderMethod : Call → St → Reply × St
  | .readLine, st => rdLine st
  | .read want, st => rdRead want st
  | .readAll, st => rdAll st
  | .readByte, st => rdByte st
  | .peek want, st => rdPeek want st
  | .atEof, st => rdAtEof st
  | .records width, st => rdRecords width st

end Voila.Rt.Io
