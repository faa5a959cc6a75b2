import Voila.Http.Text

/-!
# Voila.Http.Wire

Reading a request off a connection (`http.voi`): the `Stream` of lines and exact lengths,
`parse_request_line`, `read_headers`, `read_body`, `read_chunked` and `recv_request`.

A connection is the bytes that are still to come and how the reads cut them up. Every reader of a
`Stream` compacts it, so its position is the front of its buffer.
-/

namespace Voila.Http

open Voila.Rt (Bytes)
open Voila.Rt.Json (ch)

/-- `MAX_LINE`. -/
def maxLine : Nat := 65536

/-- `MAX_HEADERS`. -/
def maxHeaders : Nat := 200

/-- `READ_CHUNK`. -/
def readChunk : Nat := 65536

/-- A connection. Each read takes up to so many bytes of what is still to come, or fails. -/
structure Conn where
  data : Bytes
  reads : List (Except Bytes Nat)

/-- `Conn.read`: no bytes at the end of the stream only. -/
def Conn.read (c : Conn) (max : Nat) : Except Fail (Bytes × Conn) :=
  match c.reads with
  | [] => .ok (c.data.take max, { c with data := c.data.drop max })
  | .error msg :: _ => .error (.err msg)
  | .ok k :: reads =>
    let n := min max (k + 1)
    .ok (c.data.take n, { data := c.data.drop n, reads := reads })

structure Stream where
  conn : Conn
  buf : Bytes
  eof : Bool

/-- `stream`. -/
def stream (conn : Conn) : Stream := { conn := conn, buf := [], eof := false }

/-- The bytes that are still to be read. -/
def Stream.bytes (st : Stream) : Bytes := st.buf ++ st.conn.data

/-- `Stream.fill`. -/
def Stream.fill (st : Stream) : Except Fail Stream :=
  if st.eof then .ok st
  else do
    let (chunk, conn) ← st.conn.read readChunk
    if chunk = [] then .ok { st with conn := conn, eof := true }
    else .ok { st with conn := conn, buf := st.buf ++ chunk }

/-- `strip_cr`. -/
def stripCr (line : Bytes) : Bytes := if line.getLast? = some 13 then line.dropLast else line

/-- The loop of `Stream.line`. -/
def lineLoop : Nat → Stream → Except Fail (Option Bytes × Stream)
  | 0, _ => .error .hangs
  | n + 1, st =>
    match cutAt 10 st.buf with
    | some (raw, after) => .ok (some (stripCr raw), { st with buf := after })
    | none =>
      if st.buf.length > maxLine then
        errf (lit "http: a line longer than " ++ intText maxLine ++ lit " bytes with no end in sight")
      else if st.eof then
        if st.buf = [] then .ok (none, st)
        else .ok (some (stripCr st.buf), { st with buf := [] })
      else do
        let st ← st.fill
        lineLoop n st

/-- `Stream.line`: no line at the end of the stream. -/
def Stream.line (st : Stream) : Except Fail (Option Bytes × Stream) :=
  lineLoop (st.conn.data.length + 2) st

/-- A body that ends before its length. -/
def cutShort (got n : Nat) : Bytes :=
  lit "http: the stream ended after " ++ intText got ++ lit " of " ++ intText n ++ lit " body bytes"

/-- The loop of `Stream.exact`. -/
def exactLoop (want : Nat) : Nat → Bytes → Stream → Except Fail (Bytes × Stream)
  | 0, _, _ => .error .hangs
  | n + 1, got, st =>
    if want ≤ got.length then .ok (got, st)
    else if st.eof then errf (cutShort got.length want)
    else do
      let (chunk, conn) ← st.conn.read (want - got.length)
      if chunk = [] then errf (cutShort got.length want)
      else exactLoop want n (got ++ chunk) { st with conn := conn }

/-- `Stream.exact`. -/
def Stream.exact (st : Stream) (n : Int) : Except Fail (Bytes × Stream) :=
  if n ≤ 0 then .ok ([], st)
  else
    exactLoop n.toNat (st.conn.data.length + 2) (st.buf.take n.toNat)
      { st with buf := st.buf.drop n.toNat }

/-- The loop of `Stream.to_eof`. -/
def toEofLoop (max : Int) : Nat → Bytes → Stream → Except Fail (Bytes × Stream)
  | 0, _, _ => .error .hangs
  | n + 1, got, st =>
    if st.eof then
      if (got.length : Int) > max then
        errf (lit "http: body exceeds the " ++ intText max ++ lit "-byte limit")
      else .ok (got, st)
    else if (got.length : Int) > max then
      errf (lit "http: body exceeds the " ++ intText max ++ lit "-byte limit")
    else do
      let (chunk, conn) ← st.conn.read readChunk
      toEofLoop max n (got ++ chunk) { st with conn := conn, eof := chunk = [] }

/-- `Stream.to_eof`. -/
def Stream.toEof (st : Stream) (max : Int) : Except Fail (Bytes × Stream) :=
  toEofLoop max (st.conn.data.length + 2) st.buf { st with buf := [] }

/-! ### The head of a request -/

variable (past : Past)

/-- A rune that a target may not have. -/
def notTarget (c : Nat) : Bool := c ≤ 0x20 || c == 0x7F

/-- `parse_request_line`: the method, the target and the version. -/
def parseRequestLine (line : Bytes) : Except Fail (Bytes × Bytes × Bytes) :=
  match cutAt 32 line with
  | none => errf (lit "http: not a request line: " ++ brief past line)
  | some (method, rest) =>
    if method = [] then errf (lit "http: not a request line: " ++ brief past line)
    else
      match cutAt 32 rest with
      | none => errf (lit "http: request line has no HTTP version: " ++ brief past line)
      | some (target, proto) =>
        if target = [] then
          errf (lit "http: request line has no HTTP version: " ++ brief past line)
        else if ¬ isProto proto then
          errf (lit "http: not an HTTP version: " ++ brief past proto)
        else do
          checkToken past method (lit "method")
          if (runes past target).any notTarget then
            errf (lit "http: request target contains a control character: " ++ brief past target)
          else .ok (method, target, proto)

/-- One line of the header block, which is not blank. -/
def parseHeader (line : Bytes) : Except Fail Header :=
  if line.head? = some 32 ∨ line.head? = some 9 then
    errf (lit "http: obsolete line folding is not accepted: " ++ brief past line)
  else
    match cutAt 58 line with
    | none => errf (lit "http: header line with no colon: " ++ brief past line)
    | some (name, rest) =>
      if name = [] then errf (lit "http: header line with an empty name: " ++ brief past line)
      else do
        checkToken past name (lit "header name")
        checkValue past (trim rest) (lit "header value")
        .ok ⟨name, trim rest⟩

/-- The loop of `read_headers`, with how many header lines may still come. -/
def headersLoop : Nat → Headers → Stream → Except Fail (Headers × Stream)
  | left, hs, st => do
    let (line, st) ← st.line
    match line with
    | none => errf (lit "http: the stream ended inside the header block")
    | some [] => .ok (hs, st)
    | some (b :: line) =>
      match left with
      | 0 => errf (lit "http: more than " ++ intText maxHeaders ++ lit " header lines")
      | left + 1 => do
        let h ← parseHeader past (b :: line)
        headersLoop left (hs ++ [h]) st

/-- `read_headers`. -/
def readHeaders (st : Stream) : Except Fail (Headers × Stream) := headersLoop past maxHeaders [] st

/-! ### The body -/

def nameTE : Bytes := lit "transfer-encoding"

def nameCL : Bytes := lit "content-length"

/-- The size of a chunk on its line, without the extensions. -/
def sizeText (line : Bytes) : Bytes :=
  trim (match cutAt 59 line with
    | some (size, _) => size
    | none => line)

/-- The loop over the trailers, with how many may still come. -/
def trailersLoop : Nat → Stream → Except Fail Stream
  | left, st => do
    let (line, st) ← st.line
    match line with
    | none => .ok st
    | some [] => .ok st
    | some (_ :: _) =>
      match left with
      | 0 => errf (lit "http: more than " ++ intText maxHeaders ++ lit " trailer lines")
      | left + 1 => trailersLoop left st

/-- The loop over the chunks. -/
def chunksLoop (max : Int) : Nat → Bytes → Stream → Except Fail (Bytes × Stream)
  | 0, _, _ => .error .hangs
  | n + 1, body, st => do
    let (line, st) ← st.line
    match line with
    | none => errf (lit "http: the stream ended before the final chunk")
    | some line => do
      let size ← parseHex past (sizeText line) (max - body.length) (lit "chunk size")
      if size = 0 then do
        let st ← trailersLoop maxHeaders st
        .ok (body, st)
      else do
        let (chunk, st) ← st.exact size
        let (sep, st) ← st.exact 2
        if sep ≠ [13, 10] then
          errf (lit "http: chunk of " ++ intText size ++ lit " bytes is not followed by CRLF")
        else chunksLoop max n (body ++ chunk) st

/-- `read_chunked`. -/
def readChunked (st : Stream) (max : Int) : Except Fail (Bytes × Stream) :=
  chunksLoop past max (st.bytes.length + 1) [] st

/-- The first value that differs from the first of all. -/
def otherLength (vals : List Bytes) : Option Bytes := vals.find? (· != vals.headD [])

/-- `read_body`. -/
def readBody (st : Stream) (hs : Headers) (max : Int) (toEof : Bool) : Except Fail (Bytes × Stream) :=
  if hs.has nameTE then
    if ¬ equalFold (trim (hs.get nameTE)) (lit "chunked") then
      errf (lit "http: Transfer-Encoding " ++ brief past (hs.get nameTE) ++
        lit " is not supported (this release decodes \x60chunked\x60 only)")
    else if hs.has nameCL then
      errf (lit "http: both Content-Length and Transfer-Encoding: chunked — refusing an ambiguous message length")
    else readChunked past st max
  else if hs.has nameCL then
    match otherLength (hs.all nameCL) with
    | some v =>
      errf (lit "http: Content-Length given twice with different values (" ++
        (hs.all nameCL).headD [] ++ lit " and " ++ v ++ lit ")")
    | none => do
      let n ← parseDec past (trim ((hs.all nameCL).headD [])) max (lit "Content-Length")
      st.exact n
  else if toEof then st.toEof max
  else .ok ([], st)

/-! ### Requests -/

structure Request where
  method : Bytes
  target : Bytes
  path : Bytes
  query : Bytes
  proto : Bytes
  headers : Headers
  body : Bytes
  deriving DecidableEq

/-- The head of a request: its line and its headers. -/
def recvHead (st : Stream) : Except Fail ((Bytes × Bytes × Bytes) × Headers × Stream) := do
  let (line, st) ← st.line
  match line with
  | none => errf (lit "http: the client closed the connection without a request")
  | some line => do
    let parts ← parseRequestLine past line
    let (hs, st) ← readHeaders past st
    if equalFold parts.2.2 (lit "HTTP/1.1") ∧ ¬ hs.has (lit "host") then
      errf (lit "http: HTTP/1.1 request with no Host header")
    else .ok (parts, hs, st)

/-- A target in front of its query, and the query. -/
def splitQuery (target : Bytes) : Bytes × Bytes :=
  match cutAt 63 target with
  | some parts => parts
  | none => (target, [])

/-- A request has a body only when it says so. -/
def requestBody (st : Stream) (hs : Headers) (max : Int) : Except Fail (Bytes × Stream) :=
  if hs.has nameTE ∨ hs.has nameCL then readBody past st hs max false else .ok ([], st)

/-- `recv_request`. -/
def recvRequest (st : Stream) (max : Int) : Except Fail (Request × Stream) := do
  let ((method, target, proto), hs, st) ← recvHead past st
  let (body, st) ← requestBody past st hs max
  .ok (⟨method, target, (splitQuery target).1, (splitQuery target).2, proto, hs, body⟩, st)

end Voila.Http
