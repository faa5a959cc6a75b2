import Voila.Http.Client

/-!
# Voila.Http.Server

Responses (`http.voi`): `recv_response`, which the client reads them with.

The client allows for eight interim responses in front of the one that counts.
-/

namespace Voila.Http

open Voila.Rt (Bytes)
open Voila.Rt.Json (ch)

structure Response where
  status : Int
  reason : Bytes
  proto : Bytes
  headers : Headers
  body : Bytes
  deriving DecidableEq

variable (past : Past)

/-! ### Reading -/

/-- The error of `parse_status_line` for a code of other than three digits. -/
def notThreeDigits (code : Bytes) : Bytes :=
  lit "http: status code " ++ brief past code ++ lit " is not three digits"

/-- `parse_status_line`: the version, the status and the reason phrase. -/
def parseStatusLine (line : Bytes) : Except Fail (Bytes × Int × Bytes) :=
  match cutAt 32 line with
  | none => errf (lit "http: not a status line: " ++ brief past line)
  | some (proto, rest) =>
    if proto = [] then errf (lit "http: not a status line: " ++ brief past line)
    else if ¬ isProto proto then errf (lit "http: not a status line: " ++ brief past line)
    else
      let (code, reason) :=
        match cutAt 32 rest with
        | some parts => parts
        | none => (rest, [])
      if code.length ≠ 3 then errf (notThreeDigits past code)
      else do
        let status ← parseDec past code 999 (lit "status code")
        if status < 100 then errf (notThreeDigits past code) else .ok (proto, status, reason)

/-- The loop over the interim responses, with how many may still come. -/
def statusLoop : Nat → Bytes → Stream → Except Fail ((Bytes × Int × Bytes) × Headers × Stream)
  | left, line, st => do
    let parts ← parseStatusLine past line
    let (hs, st) ← readHeaders past st
    if parts.2.1 < 100 ∨ 200 ≤ parts.2.1 then .ok (parts, hs, st)
    else
      match left with
      | 0 => errf (lit "http: the server sent only interim (1xx) responses")
      | left + 1 => do
        let (next, st) ← st.line
        match next with
        | none => errf (lit "http: the server closed the connection after a " ++ intText parts.2.1)
        | some next => statusLoop left next st

/-- A status that comes with a body. -/
def hasBody (status : Int) : Bool := 200 ≤ status && status != 204 && status != 304

/-- The body of a response. -/
def responseBody (wantBody : Bool) (status : Int) (st : Stream) (hs : Headers) (max : Int) :
    Except Fail (Bytes × Stream) :=
  if wantBody && hasBody status then readBody past st hs max true else .ok ([], st)

/-- `recv_response`. -/
def recvResponse (st : Stream) (max : Int) (wantBody : Bool) : Except Fail (Response × Stream) := do
  let (line, st) ← st.line
  match line with
  | none => errf (lit "http: the server closed the connection without a response")
  | some line => do
    let ((proto, status, reason), hs, st) ← statusLoop past 8 line st
    let (body, st) ← responseBody past wantBody status st hs max
    .ok (⟨status, reason, proto, hs, body⟩, st)

end Voila.Http
