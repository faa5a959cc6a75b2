import Voila.Http.Wire

/-!
# Voila.Http.Client

What the client of `http.voi` writes for a request: `parse_url`, the headers it sends
(`sentHeaders`), `Headers.render` and `Client.request` up to the writes.

The connection and its handshake are a parameter (`Reach`), and so is `str.lower`, which goes
through the tables of Unicode.
-/

namespace Voila.Http

open Voila.Rt (Bytes)
open Voila.Rt.Json (ch)

def crlf : Bytes := [13, 10]

/-! ### URLs -/

/-- `str.index(s, sep)`, as what it cuts the string into. -/
def cutText (sep : Bytes) : Bytes → Option (Bytes × Bytes)
  | [] => none
  | b :: s =>
    if sep.isPrefixOf (b :: s) then some ([], (b :: s).drop sep.length)
    else (cutText sep s).map fun (before, after) => (b :: before, after)

/-- `str.last_index(s, sep)` with a `sep` of one byte, as what it cuts the string into. -/
def cutLast (sep : UInt8) (s : Bytes) : Option (Bytes × Bytes) :=
  (cutAt sep s.reverse).map fun (after, before) => (before.reverse, after.reverse)

structure URL where
  scheme : Bytes
  host : Bytes
  port : Int
  path : Bytes
  query : Bytes
  deriving DecidableEq

/-- `default_port`. -/
def defaultPort (scheme : Bytes) : Int := if scheme = lit "https" then 443 else 80

/-- `net.format_hostport`. -/
def formatHostport (host : Bytes) (port : Int) : Bytes :=
  if ch ':' ∈ host then ch '[' :: host ++ lit "]:" ++ intText port
  else host ++ ch ':' :: intText port

/-- `URL.authority`. -/
def URL.authority (u : URL) : Bytes :=
  if u.port = defaultPort u.scheme then
    if ch ':' ∈ u.host then ch '[' :: u.host ++ [ch ']'] else u.host
  else formatHostport u.host u.port

/-- `URL.target`. -/
def URL.target (u : URL) : Bytes := if u.query = [] then u.path else u.path ++ ch '?' :: u.query

variable (past : Past)

/-- `net.parse_port`. -/
def parsePort (s : Bytes) : Except Fail Int :=
  if s = [] then errf (lit "missing port number")
  else
    numLoop decDigit 10 65535 (lit "invalid port " ++ s ++ lit ": not a number")
      (lit "port " ++ s ++ lit " out of range (0..65535)") 0 (runes past s)

/-- `port_of`. -/
def portOf (txt raw : Bytes) : Except Fail Int :=
  match parsePort past txt with
  | .error (.err msg) => errf (lit "http: URL " ++ brief past raw ++ lit ": " ++ msg)
  | r => r

/-- The host and the port of an authority. -/
def hostPort (raw scheme auth : Bytes) : Except Fail (Bytes × Int) :=
  if auth.head? = some (ch '[') then
    match cutAt (ch ']') auth with
    | none => errf (lit "http: URL " ++ brief past raw ++ lit ": unbalanced '[' in the host")
    | some (host, after) =>
      match after with
      | [] => .ok (host.drop 1, defaultPort scheme)
      | b :: txt =>
        if b ≠ ch ':' then errf (lit "http: URL " ++ brief past raw ++ lit ": want [host]:port")
        else do
          let port ← portOf past txt raw
          .ok (host.drop 1, port)
  else
    match cutLast (ch ':') auth with
    | none => .ok (auth, defaultPort scheme)
    | some (host, txt) => do
      let port ← portOf past txt raw
      .ok (host, port)

/-- The path and the query of what follows an authority. -/
def pathQuery (tail : Bytes) : Bytes × Bytes :=
  if tail = [] then ([ch '/'], [])
  else
    match cutAt (ch '?') tail with
    | some (path, query) => (if path = [] then [ch '/'] else path, query)
    | none => (tail, [])

/-- A URL without its fragment. -/
def withoutFragment (rest : Bytes) : Bytes :=
  match cutAt (ch '#') rest with
  | some (rest, _) => rest
  | none => rest

/-- The authority runs to the first `/` or `?`. -/
def inAuthority (b : UInt8) : Bool := b != ch '/' && b != ch '?'

/-- `parse_url`. -/
def parseUrl (lower : Bytes → Bytes) (raw : Bytes) : Except Fail URL :=
  if raw = [] then errf (lit "http: empty URL")
  else
    match cutText (lit "://") raw with
    | none => errf (lit "http: URL " ++ brief past raw ++ lit " has no scheme (want http://host/path)")
    | some (before, rest) =>
      if before = [] then
        errf (lit "http: URL " ++ brief past raw ++ lit " has no scheme (want http://host/path)")
      else if lower before ≠ lit "http" ∧ lower before ≠ lit "https" then
        errf (lit "http: unsupported URL scheme " ++ brief past (lower before) ++
          lit " (std/http speaks http and https)")
      else
        let rest := withoutFragment rest
        let auth := rest.takeWhile inAuthority
        if auth = [] then errf (lit "http: URL " ++ brief past raw ++ lit " has no host")
        else if ch '@' ∈ auth then
          errf (lit "http: userinfo (\x60user@host\x60) in a URL is not supported: " ++ brief past raw)
        else do
          let (host, port) ← hostPort past raw (lower before) auth
          if host = [] then errf (lit "http: URL " ++ brief past raw ++ lit " has no host")
          else
            let (path, query) := pathQuery (rest.dropWhile inAuthority)
            .ok ⟨lower before, host, port, path, query⟩

/-! ### Requests -/

/-- `check_header`. -/
def checkHeader (h : Header) : Except Fail Unit := do
  checkToken past h.name (lit "header name")
  checkValue past h.value (lit "header value")

/-- A header as it is written. -/
def Header.line (h : Header) : Bytes := h.name ++ lit ": " ++ h.value

/-- `Headers.render`. -/
def Headers.render : Headers → Except Fail Bytes
  | [] => .ok []
  | h :: hs => do
    checkHeader past h
    let block ← Headers.render hs
    .ok (h.line ++ crlf ++ block)

/-- `sends_body`. -/
def sendsBody (method : Bytes) : Bool :=
  method == lit "POST" || method == lit "PUT" || method == lit "PATCH"

/-- The headers that the client sends. -/
def sentHeaders (hdrs : Headers) (u : URL) (method body : Bytes) : Headers :=
  let hs := if hdrs.has (lit "host") then hdrs else hdrs.set (lit "Host") u.authority
  let hs := hs.remove (lit "Content-Length")
  let hs := if body ≠ [] ∨ sendsBody method then hs.set (lit "Content-Length") (intText body.length)
    else hs
  if hs.has (lit "connection") then hs else hs.set (lit "Connection") (lit "close")

/-- The request line. -/
def requestLine (method : Bytes) (u : URL) : Bytes :=
  method ++ lit " " ++ u.target ++ lit " HTTP/1.1"

/-- `net.connect`, the timeout, and the handshake of `https`. -/
abbrev Reach := URL → Except Fail Unit

/-- What `Client.request` writes. -/
def Client.request (lower : Bytes → Bytes) (reach : Reach) (method url : Bytes) (hdrs : Headers)
    (body : Bytes) : Except Fail Bytes := do
  checkToken past method (lit "method")
  let u ← parseUrl past lower url
  if hdrs.has (lit "transfer-encoding") then
    errf (lit "http: Transfer-Encoding is set by the package, not the caller — a request written here always carries a Content-Length")
  else do
    reach u
    let block ← (sentHeaders hdrs u method body).render past
    .ok (requestLine method u ++ crlf ++ block ++ crlf ++ body)

end Voila.Http
