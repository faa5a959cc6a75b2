import Voila.Http.WireSound
import Voila.Http.Server
import Voila.Lib.Calls

/-!
# Voila.Http.Reading

The readers of `recv_request` and `recv_response` as programs over what a `Stream` can be asked.

They run on a `Stream` as the readers do (`requestReading_run`, `responseReading_run`), and on the
bytes themselves (`strictly`), where nothing is cut up and every line longer than `MAX_LINE` is
refused.
-/

namespace Voila.Http

open Voila.Rt (Bytes)
open Voila.Rt.Json (ch)
open Voila.Lib (Prog Impl)

/-- What the readers ask of a `Stream`. -/
inductive Ask where
  | line
  | exact (n : Int)
  | toEof (max : Int)
  /-- How many bytes are still to be read: a bound of the loop over the chunks. -/
  | left

/-- What an `Ask` gives. -/
abbrev Ask.Ans : Ask → Type
  | .line => Option Bytes
  | .exact _ => Bytes
  | .toEof _ => Bytes
  | .left => Nat

abbrev Reading (α : Type) := Prog Ask Ask.Ans Fail α

namespace Reading

abbrev line : Reading (Option Bytes) := .ask Ask.line

abbrev exact (n : Int) : Reading Bytes := .ask (Ask.exact n)

abbrev toEof (max : Int) : Reading Bytes := .ask (Ask.toEof max)

abbrev left : Reading Nat := .ask Ask.left

end Reading

/-- What a `Stream` gives. -/
def Stream.answer : Impl Ask Ask.Ans Fail Stream
  | .line, st => st.line
  | .exact n, st => st.exact n
  | .toEof max, st => st.toEof max
  | .left, st => .ok (st.bytes.length, st)

/-! ### On the bytes -/

/-- The error for a line that is too long. -/
def lineTooLong : Bytes :=
  lit "http: a line longer than " ++ intText maxLine ++ lit " bytes with no end in sight"

/-- The error for a body that is too long. -/
def bodyTooLong (max : Int) : Bytes := lit "http: body exceeds the " ++ intText max ++ lit "-byte limit"

/-- The first line of a text, without its line feed. -/
def firstLine (t : Bytes) : Bytes := t.takeWhile (· != 10)

/-- The first line and what is behind it, however long it is. -/
def takeLine (t : Bytes) : Option Bytes × Bytes :=
  match cutAt 10 t with
  | some (raw, after) => (some (stripCr raw), after)
  | none => if t = [] then (none, []) else (some (stripCr t), [])

/-- What the bytes give, with every line longer than `MAX_LINE` refused. -/
def strictly : Impl Ask Ask.Ans Fail Bytes
  | .line, t => if maxLine < (firstLine t).length then errf lineTooLong else .ok (takeLine t)
  | .exact n, t =>
    if n.toNat ≤ t.length then .ok (t.take n.toNat, t.drop n.toNat)
    else errf (cutShort t.length n.toNat)
  | .toEof max, t => if (t.length : Int) > max then errf (bodyTooLong max) else .ok (t, [])
  | .left, t => .ok (t.length, t)

/-! ### The readers -/

variable (past : Past)

/-- `read_headers`. -/
def headersReading : Nat → Headers → Reading Headers
  | left, hs => do
    let line ← Reading.line
    match line with
    | none => .lift (errf (lit "http: the stream ended inside the header block"))
    | some [] => pure hs
    | some (b :: line) =>
      match left with
      | 0 => .lift (errf (lit "http: more than " ++ intText maxHeaders ++ lit " header lines"))
      | left + 1 => do
        let h ← .lift (parseHeader past (b :: line))
        headersReading left (hs ++ [h])

/-- The trailers. -/
def trailersReading (left : Nat) : Reading Unit := do
  let line ← Reading.line
  match line with
  | none => pure ()
  | some [] => pure ()
  | some (_ :: _) =>
    match left with
    | 0 => .lift (errf (lit "http: more than " ++ intText maxHeaders ++ lit " trailer lines"))
    | left + 1 => trailersReading left

/-- The chunks. -/
def chunksReading (max : Int) : Nat → Bytes → Reading Bytes
  | 0, _ => .fail .hangs
  | n + 1, body => do
    let line ← Reading.line
    match line with
    | none => .lift (errf (lit "http: the stream ended before the final chunk"))
    | some line => do
      let size ← .lift (parseHex past (sizeText line) (max - body.length) (lit "chunk size"))
      if size = 0 then do
        trailersReading maxHeaders
        pure body
      else do
        let chunk ← Reading.exact size
        let sep ← Reading.exact 2
        if sep ≠ [13, 10] then
          .lift (errf (lit "http: chunk of " ++ intText size ++ lit " bytes is not followed by CRLF"))
        else chunksReading max n (body ++ chunk)

/-- `read_body`. -/
def bodyReading (hs : Headers) (max : Int) (toEof : Bool) : Reading Bytes :=
  if hs.has nameTE then
    if ¬ equalFold (trim (hs.get nameTE)) (lit "chunked") then
      .lift (errf (lit "http: Transfer-Encoding " ++ brief past (hs.get nameTE) ++
        lit " is not supported (this release decodes \x60chunked\x60 only)"))
    else if hs.has nameCL then
      .lift (errf (lit "http: both Content-Length and Transfer-Encoding: chunked — refusing an ambiguous message length"))
    else do
      let left ← Reading.left
      chunksReading past max (left + 1) []
  else if hs.has nameCL then
    match otherLength (hs.all nameCL) with
    | some v =>
      .lift (errf (lit "http: Content-Length given twice with different values (" ++
        (hs.all nameCL).headD [] ++ lit " and " ++ v ++ lit ")"))
    | none => do
      let n ← .lift (parseDec past (trim ((hs.all nameCL).headD [])) max (lit "Content-Length"))
      Reading.exact n
  else if toEof then Reading.toEof max
  else pure []

/-- The head of a request. -/
def headReading : Reading ((Bytes × Bytes × Bytes) × Headers) := do
  let line ← Reading.line
  match line with
  | none => .lift (errf (lit "http: the client closed the connection without a request"))
  | some line => do
    let parts ← .lift (parseRequestLine past line)
    let hs ← headersReading past maxHeaders []
    if equalFold parts.2.2 (lit "HTTP/1.1") ∧ ¬ hs.has (lit "host") then
      .lift (errf (lit "http: HTTP/1.1 request with no Host header"))
    else pure (parts, hs)

/-- The body of a request. -/
def requestBodyReading (hs : Headers) (max : Int) : Reading Bytes :=
  if hs.has nameTE ∨ hs.has nameCL then bodyReading past hs max false else pure []

/-- `recv_request`. -/
def requestReading (max : Int) : Reading Request := do
  let ((method, target, proto), hs) ← headReading past
  let body ← requestBodyReading past hs max
  pure ⟨method, target, (splitQuery target).1, (splitQuery target).2, proto, hs, body⟩

/-- The interim responses and the head of the one that counts. -/
def statusReading : Nat → Bytes → Reading ((Bytes × Int × Bytes) × Headers)
  | left, line => do
    let parts ← .lift (parseStatusLine past line)
    let hs ← headersReading past maxHeaders []
    if parts.2.1 < 100 ∨ 200 ≤ parts.2.1 then pure (parts, hs)
    else
      match left with
      | 0 => .lift (errf (lit "http: the server sent only interim (1xx) responses"))
      | left + 1 => do
        let next ← Reading.line
        match next with
        | none =>
          .lift (errf (lit "http: the server closed the connection after a " ++ intText parts.2.1))
        | some next => statusReading left next

/-- The body of a response. -/
def responseBodyReading (wantBody : Bool) (status : Int) (hs : Headers) (max : Int) : Reading Bytes :=
  if wantBody && hasBody status then bodyReading past hs max true else pure []

/-- `recv_response`. -/
def responseReading (max : Int) (wantBody : Bool) : Reading Response := do
  let line ← Reading.line
  match line with
  | none => .lift (errf (lit "http: the server closed the connection without a response"))
  | some line => do
    let ((proto, status, reason), hs) ← statusReading past 8 line
    let body ← responseBodyReading past wantBody status hs max
    pure ⟨status, reason, proto, hs, body⟩

/-! ### On a stream -/

theorem errf_map {α β : Type} (f : α → β) (fmt : Bytes) :
    (errf fmt : Except Fail α).map f = errf fmt := by
  unfold errf
  cases sprintf fmt <;> rfl

theorem run_errf {σ α : Type} (h : Impl Ask Ask.Ans Fail σ) (fmt : Bytes) (s : σ) :
    (Prog.lift (errf fmt) : Reading α).run h s = errf fmt := by
  rw [Prog.run_lift, errf_map]

variable {past : Past}

theorem headersReading_run (left : Nat) (hs : Headers) (st : Stream) :
    (headersReading past left hs).run Stream.answer st = headersLoop past left hs st := by
  rw [headersLoop_succ]
  unfold headersReading
  rw [Prog.run_bind, Prog.run_ask]
  refine congrArg (Except.bind st.line) (funext fun p => ?_)
  obtain ⟨_ | _ | ⟨b, line⟩, st⟩ := p
  · dsimp only
    rw [run_errf]
  · rfl
  · cases left with
    | zero =>
      dsimp only
      rw [run_errf]
    | succ left =>
      dsimp only
      rw [Prog.run_bind, Prog.run_lift]
      cases parseHeader past (b :: line) with
      | error e => rfl
      | ok h => exact headersReading_run left _ _

theorem trailersReading_run (left : Nat) (st : Stream) :
    (trailersReading left).run Stream.answer st = (trailersLoop left st).map fun st => ((), st) := by
  rw [trailersLoop_succ]
  unfold trailersReading
  rw [Prog.run_bind, Prog.run_ask]
  show st.line.bind _ = _
  cases st.line with
  | error e => rfl
  | ok p =>
    obtain ⟨_ | _ | ⟨b, line⟩, st⟩ := p
    · rfl
    · rfl
    · cases left with
      | zero =>
        rw [bind_ok, bind_ok]
        dsimp only
        rw [run_errf, errf_map]
      | succ left => exact trailersReading_run left st

theorem chunksReading_run (max : Int) (n : Nat) (body : Bytes) (st : Stream) :
    (chunksReading past max n body).run Stream.answer st = chunksLoop past max n body st := by
  cases n with
  | zero => rfl
  | succ n =>
    rw [chunksReading, chunksLoop, Prog.run_bind, Prog.run_ask]
    refine congrArg (Except.bind st.line) (funext fun p => ?_)
    obtain ⟨_ | line, st⟩ := p
    · dsimp only
      rw [run_errf]
    · dsimp only
      rw [Prog.run_bind, Prog.run_lift]
      cases parseHex past (sizeText line) (max - body.length) (lit "chunk size") with
      | error e => rfl
      | ok size =>
        show (if size = 0 then _ else _ : Reading Bytes).run Stream.answer st =
          if size = 0 then _ else _
        by_cases last : size = 0
        · rw [if_pos last, if_pos last, Prog.run_bind, trailersReading_run]
          cases trailersLoop maxHeaders st <;> rfl
        · rw [if_neg last, if_neg last, Prog.run_bind, Prog.run_ask]
          refine congrArg (Except.bind (st.exact size)) (funext fun q => ?_)
          obtain ⟨chunk, st⟩ := q
          dsimp only
          rw [Prog.run_bind, Prog.run_ask]
          refine congrArg (Except.bind (st.exact 2)) (funext fun r => ?_)
          obtain ⟨sep, st⟩ := r
          dsimp only
          by_cases other : sep ≠ [13, 10]
          · rw [if_pos other, if_pos other, run_errf]
          · rw [if_neg other, if_neg other]
            exact chunksReading_run max n _ _

theorem bodyReading_run (hs : Headers) (max : Int) (toEof : Bool) (st : Stream) :
    (bodyReading past hs max toEof).run Stream.answer st = readBody past st hs max toEof := by
  unfold bodyReading readBody
  by_cases te : hs.has nameTE = true
  · rw [if_pos te, if_pos te]
    split
    · exact run_errf ..
    · split
      · exact run_errf ..
      · rw [Prog.run_bind, Prog.run_ask]
        exact chunksReading_run max _ [] st
  · rw [if_neg te, if_neg te]
    by_cases cl : hs.has nameCL = true
    · rw [if_pos cl, if_pos cl]
      cases otherLength (hs.all nameCL) with
      | some v => exact run_errf ..
      | none =>
        rw [Prog.run_bind, Prog.run_lift]
        cases parseDec past (trim ((hs.all nameCL).headD [])) max (lit "Content-Length") with
        | error e => rfl
        | ok n => exact Prog.run_ask ..
    · rw [if_neg cl, if_neg cl]
      cases toEof with
      | true => exact Prog.run_ask ..
      | false => rfl

theorem headReading_run (st : Stream) :
    (headReading past).run Stream.answer st =
      (recvHead past st).map fun p => ((p.1, p.2.1), p.2.2) := by
  unfold headReading recvHead
  rw [Prog.run_bind, Prog.run_ask]
  show st.line.bind _ = (st.line.bind _).map _
  cases st.line with
  | error e => rfl
  | ok p =>
    obtain ⟨_ | line, st⟩ := p
    · rw [bind_ok, bind_ok]
      dsimp only
      rw [run_errf, errf_map]
    · rw [bind_ok, bind_ok]
      dsimp only
      rw [Prog.run_bind, Prog.run_lift]
      cases parseRequestLine past line with
      | error e => rfl
      | ok parts =>
        show Prog.run _ _ st = ((headersLoop past maxHeaders [] st).bind _).map _
        rw [Prog.run_bind, headersReading_run]
        cases headersLoop past maxHeaders [] st with
        | error e => rfl
        | ok q =>
          rw [bind_ok, bind_ok]
          dsimp only
          split
          · rw [run_errf, errf_map]
          · rfl

theorem requestBodyReading_run (hs : Headers) (max : Int) (st : Stream) :
    (requestBodyReading past hs max).run Stream.answer st = requestBody past st hs max := by
  unfold requestBodyReading requestBody
  split
  · exact bodyReading_run ..
  · rfl

/-- The reading of a request on a stream is `recv_request`. -/
theorem requestReading_run (max : Int) (st : Stream) :
    (requestReading past max).run Stream.answer st = recvRequest past st max := by
  rw [recvRequest_eq]
  unfold requestReading
  rw [Prog.run_bind, headReading_run]
  cases recvHead past st with
  | error e => rfl
  | ok p =>
    show Prog.run _ _ p.2.2 = (requestBody past p.2.2 p.2.1 max).bind _
    rw [Prog.run_bind, requestBodyReading_run]
    cases requestBody past p.2.2 p.2.1 max <;> rfl

theorem statusReading_run (left : Nat) (line : Bytes) (st : Stream) :
    (statusReading past left line).run Stream.answer st =
      (statusLoop past left line st).map fun p => ((p.1, p.2.1), p.2.2) := by
  unfold statusReading statusLoop
  rw [Prog.run_bind, Prog.run_lift]
  cases parseStatusLine past line with
  | error e => rfl
  | ok parts =>
    show Prog.run _ _ st = ((headersLoop past maxHeaders [] st).bind _).map _
    rw [Prog.run_bind, headersReading_run]
    cases headersLoop past maxHeaders [] st with
    | error e => rfl
    | ok q =>
      rw [bind_ok, bind_ok]
      dsimp only
      split
      · rfl
      · cases left with
        | zero =>
          rw [run_errf, errf_map]
        | succ left =>
          rw [Prog.run_bind, Prog.run_ask]
          show q.2.line.bind _ = (q.2.line.bind _).map _
          cases q.2.line with
          | error e => rfl
          | ok r =>
            obtain ⟨_ | next, st⟩ := r
            · rw [bind_ok, bind_ok]
              dsimp only
              rw [run_errf, errf_map]
            · exact statusReading_run left next st

theorem responseBodyReading_run (wantBody : Bool) (status : Int) (hs : Headers) (max : Int)
    (st : Stream) : (responseBodyReading past wantBody status hs max).run Stream.answer st =
      responseBody past wantBody status st hs max := by
  unfold responseBodyReading responseBody
  split
  · exact bodyReading_run ..
  · rfl

/-- The reading of a response on a stream is `recv_response`. -/
theorem responseReading_run (max : Int) (wantBody : Bool) (st : Stream) :
    (responseReading past max wantBody).run Stream.answer st = recvResponse past st max wantBody := by
  unfold responseReading recvResponse
  rw [Prog.run_bind, Prog.run_ask]
  refine congrArg (Except.bind st.line) (funext fun p => ?_)
  obtain ⟨_ | line, st⟩ := p
  · dsimp only
    rw [run_errf]
  · dsimp only
    rw [Prog.run_bind, statusReading_run]
    cases statusLoop past 8 line st with
    | error e => rfl
    | ok q =>
      show Prog.run _ _ q.2.2 = (responseBody past wantBody q.1.2.1 q.2.2 q.2.1 max).bind _
      rw [Prog.run_bind, responseBodyReading_run]
      cases responseBody past wantBody q.1.2.1 q.2.2 q.2.1 max <;> rfl

end Voila.Http
