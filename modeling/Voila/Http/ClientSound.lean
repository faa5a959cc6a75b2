import Voila.Http.WireSound
import Voila.Http.Client

/-!
# Voila.Http.ClientSound

When a request that the client writes is the one request that `recv_request` reads
(`delivers_iff`): no part of it has a byte that ends it on the wire, and the server accepts each
part as the client did.

The one direction runs the readers over what was written. The other reads the parts off what the
server accepted, and counts the line feeds of the head, since a value may lose one in `str.trim`.
-/

open List

namespace Voila.Http

open Voila.Rt (Bytes printNat)
open Voila.Rt.Json (ch)

/-! ### The headers that are sent -/

variable {h : Header} {name other s what line rest t : Bytes} {hdrs : Headers} {x : Unit}
  {st : Stream}

/-- A name is one name only. -/
theorem called_unique {a b : Bytes} (ha : h.called a = true) (hb : h.called b = true) :
    a.map toLower = b.map toLower := by
  unfold Header.called equalFold at ha hb
  exact (eq_of_beq ha).symm.trans (eq_of_beq hb)

theorem has_append (hs ks : Headers) (name : Bytes) :
    Headers.has (hs ++ ks) name = (hs.has name || Headers.has ks name) := by
  unfold Headers.has
  exact any_append

theorem set_of_not_has {hs : Headers} (h : hs.has name = false) (value : Bytes) :
    hs.set name value = hs ++ [⟨name, value⟩] := by
  unfold Headers.set
  induction hs with
  | nil => rfl
  | cons k hs ih =>
    obtain ⟨other, rest⟩ : k.called name = false ∧ Headers.has hs name = false := by
      unfold Headers.has at h
      rw [any_cons, Bool.or_eq_false_iff] at h
      exact h
    rw [setLoop, if_neg (by rw [other]; simp), ih rest]
    rfl

theorem has_remove (h : equalFold other name = false) (hs : Headers) :
    (hs.remove other).has name = hs.has name := by
  unfold Headers.remove Headers.has
  rw [any_filter]
  congr 1
  funext k
  cases hk : k.called name with
  | false => rw [Bool.and_false]
  | true =>
    cases ho : k.called other with
    | false => rfl
    | true =>
      have same : equalFold other name = true := beq_iff_eq.mpr (called_unique ho hk)
      rw [h] at same
      exact absurd same (by simp)

theorem has_remove_self (name : Bytes) (hs : Headers) : (hs.remove name).has name = false := by
  unfold Headers.remove Headers.has
  rw [any_filter, any_eq_false]
  intro k _
  simp

def hostHeader (hdrs : Headers) (u : URL) : Headers :=
  if hdrs.has (lit "host") then [] else [⟨lit "Host", u.authority⟩]

def lengthHeader (method body : Bytes) : Headers :=
  if body ≠ [] ∨ sendsBody method then [⟨lit "Content-Length", intText body.length⟩] else []

def connectionHeader (hdrs : Headers) : Headers :=
  if hdrs.has (lit "connection") then [] else [⟨lit "Connection", lit "close"⟩]

/-- The headers that the client adds. -/
def addedHeaders (hdrs : Headers) (u : URL) (method body : Bytes) : Headers :=
  hostHeader hdrs u ++ lengthHeader method body ++ connectionHeader hdrs

theorem has_fold {a b : Bytes} (h : equalFold a b = true) (hs : Headers) : hs.has a = hs.has b := by
  have same : a.map toLower = b.map toLower := eq_of_beq h
  unfold Headers.has Header.called equalFold
  rw [same]

theorem remove_append (hs ks : Headers) (name : Bytes) :
    Headers.remove (hs ++ ks) name = hs.remove name ++ ks.remove name :=
  filter_append ..

theorem remove_other (h : equalFold other name = false) (value : Bytes) :
    Headers.remove [⟨other, value⟩] name = [⟨other, value⟩] := by
  have kept : Header.called name ⟨other, value⟩ = false := h
  unfold Headers.remove
  rw [filter_cons, kept]
  rfl

theorem has_single (h : equalFold other name = false) (value : Bytes) :
    Headers.has [⟨other, value⟩] name = false := by
  have missed : Header.called name ⟨other, value⟩ = false := h
  unfold Headers.has
  rw [any_cons, missed]
  rfl

theorem hostHeader_has (h : equalFold (lit "Host") name = false) (hdrs : Headers)
    (u : URL) : (hostHeader hdrs u).has name = false := by
  unfold hostHeader
  split
  · rfl
  · exact has_single h _

theorem lengthHeader_has (h : equalFold (lit "Content-Length") name = false)
    (method body : Bytes) : (lengthHeader method body).has name = false := by
  unfold lengthHeader
  split
  · exact has_single h _
  · rfl

theorem connectionHeader_has (h : equalFold (lit "Connection") name = false)
    (hdrs : Headers) : (connectionHeader hdrs).has name = false := by
  unfold connectionHeader
  split
  · rfl
  · exact has_single h _

/-- What is sent: the caller's headers but for Content-Length, and what the client adds. -/
theorem sentHeaders_eq (hdrs : Headers) (u : URL) (method body : Bytes) :
    sentHeaders hdrs u method body =
      hdrs.remove (lit "Content-Length") ++ addedHeaders hdrs u method body := by
  have host : (if hdrs.has (lit "host") then hdrs else hdrs.set (lit "Host") u.authority).remove
      (lit "Content-Length") = hdrs.remove (lit "Content-Length") ++ hostHeader hdrs u := by
    unfold hostHeader
    cases hh : hdrs.has (lit "host") with
    | true => rw [if_pos rfl, if_pos rfl, append_nil]
    | false =>
      have absent : hdrs.has (lit "Host") = false :=
        (has_fold (by decide +kernel) hdrs).trans hh
      rw [if_neg (by simp), if_neg (by simp), set_of_not_has absent, remove_append,
        remove_other (by decide +kernel)]
  have absent : (hdrs.remove (lit "Content-Length") ++ hostHeader hdrs u).has (lit "Content-Length") =
      false := by
    rw [has_append, has_remove_self, hostHeader_has (by decide +kernel)]
    rfl
  have length : (if body ≠ [] ∨ sendsBody method then
      (hdrs.remove (lit "Content-Length") ++ hostHeader hdrs u).set (lit "Content-Length")
        (intText body.length)
      else hdrs.remove (lit "Content-Length") ++ hostHeader hdrs u) =
      hdrs.remove (lit "Content-Length") ++ hostHeader hdrs u ++ lengthHeader method body := by
    unfold lengthHeader
    split
    · rw [set_of_not_has absent]
    · rw [append_nil]
  have conn : (hdrs.remove (lit "Content-Length") ++ hostHeader hdrs u ++ lengthHeader method body).has
      (lit "connection") = hdrs.has (lit "connection") := by
    rw [has_append, has_append, has_remove (by decide +kernel), hostHeader_has (by decide +kernel),
      lengthHeader_has (by decide +kernel), Bool.or_false, Bool.or_false]
  unfold sentHeaders addedHeaders connectionHeader
  dsimp only
  rw [host, length, conn]
  cases hc : hdrs.has (lit "connection") with
  | true => simp only [if_true, append_nil, append_assoc]
  | false =>
    have fresh := (has_fold (by decide +kernel : equalFold (lit "Connection") (lit "connection") = true)
      (hdrs.remove (lit "Content-Length") ++ hostHeader hdrs u ++ lengthHeader method body)).trans
      (conn.trans hc)
    rw [if_neg (by simp), if_neg (by simp), set_of_not_has fresh]
    simp only [append_assoc]

/-- A request that is sent names its host. -/
theorem sentHeaders_host (hdrs : Headers) (u : URL) (method body : Bytes) :
    (sentHeaders hdrs u method body).has (lit "host") = true := by
  rw [sentHeaders_eq, has_append, has_remove (by decide +kernel)]
  cases hh : hdrs.has (lit "host") with
  | true => rfl
  | false =>
    have own : (hostHeader hdrs u).has (lit "host") = true := by
      unfold hostHeader
      rw [hh, if_neg (by simp)]
      have named : Header.called (lit "host") ⟨lit "Host", u.authority⟩ = true := by
        show equalFold (lit "Host") (lit "host") = true
        decide +kernel
      unfold Headers.has
      rw [any_cons, named]
      rfl
    unfold addedHeaders
    rw [has_append, has_append, own]
    simp

/-- It has no Transfer-Encoding if the caller has none. -/
theorem sentHeaders_te (h : hdrs.has (lit "transfer-encoding") = false) (u : URL)
    (method body : Bytes) : (sentHeaders hdrs u method body).has (lit "transfer-encoding") = false := by
  rw [sentHeaders_eq, has_append, has_remove (by decide +kernel), h]
  unfold addedHeaders
  rw [has_append, has_append, hostHeader_has (by decide +kernel), lengthHeader_has (by decide +kernel),
    connectionHeader_has (by decide +kernel)]
  rfl

theorem all_append (hs ks : Headers) (name : Bytes) :
    Headers.all (hs ++ ks) name = hs.all name ++ Headers.all ks name := by
  unfold Headers.all
  rw [filter_append, map_append]

/-- It has the length of its body, where it has one or its method sends one. -/
theorem sentHeaders_length (hdrs : Headers) (u : URL) (method body : Bytes) :
    (sentHeaders hdrs u method body).all (lit "content-length") =
      if body ≠ [] ∨ sendsBody method then [intText body.length] else [] := by
  have none_of {hs : Headers} (h : hs.has (lit "content-length") = false) :
      hs.all (lit "content-length") = [] := mem_all_has.mpr h
  rw [sentHeaders_eq, all_append, none_of, nil_append]
  · unfold addedHeaders
    rw [all_append, all_append, none_of (hostHeader_has (by decide +kernel) hdrs u),
      none_of (connectionHeader_has (by decide +kernel) hdrs), append_nil, nil_append]
    unfold lengthHeader
    split
    · have named : Header.called (lit "content-length") ⟨lit "Content-Length", intText body.length⟩ =
          true := by
        show equalFold (lit "Content-Length") (lit "content-length") = true
        decide +kernel
      unfold Headers.all
      rw [filter_cons, named]
      rfl
    · rfl
  · rw [← has_fold (by decide +kernel : equalFold (lit "Content-Length") (lit "content-length") = true)]
    exact has_remove_self _ _

/-! ### One header line -/

/-- A header with its value up to surrounding blanks. -/
def Header.trimmed (h : Header) : Header := ⟨h.name, trim h.value⟩

/-- A header that is one line of the block, and that the server accepts. -/
structure PlainHeader (past : Past) (h : Header) : Prop where
  name_colon : 58 ∉ h.name
  name_lf : 10 ∉ h.name
  name_token : checkToken past h.name (lit "header name") = .ok ()
  value_lf : 10 ∉ h.value
  value_text : checkValue past (trim h.value) (lit "header value") = .ok ()

theorem colon_eq : lit ": " = [58, 32] := by decide +kernel

theorem space_eq : lit " " = [32] := by decide +kernel

theorem header_line_eq (h : Header) : h.line = h.name ++ 58 :: 32 :: h.value := by
  unfold Header.line
  rw [colon_eq, append_assoc]
  rfl

theorem trim_space (s : Bytes) : trim (32 :: s) = trim s := by
  unfold trim
  rw [dropWhile_cons, if_pos (by decide)]

variable {past : Past}

theorem checkToken_ok (h : checkToken past s what = .ok x) :
    s ≠ [] ∧ ∀ c ∈ runes past s, notToken c = false := by
  unfold checkToken at h
  split at h
  · exact absurd h (errf_ne_ok _ _)
  · split at h
    · exact absurd h (errf_ne_ok _ _)
    · rename_i full legal
      exact ⟨full, by simpa using legal⟩

/-- A token does not start with a blank. -/
theorem token_head (h : checkToken past s what = .ok x) :
    ¬ (s.head? = some 32 ∨ s.head? = some 9) := by
  obtain ⟨full, legal⟩ := checkToken_ok h
  cases s with
  | nil => exact absurd rfl full
  | cons a s =>
    have low {b : UInt8} (hb : b.toNat ≤ 32) : a ≠ b := by
      intro hab
      subst hab
      have first : a.toNat ∈ runes past (a :: s) := by
        unfold runes
        rw [length_cons, runesFrom_ascii_cons _ _ (show a.toNat < 128 by omega)]
        exact mem_cons_self
      have blank := legal _ first
      unfold notToken at blank
      simp [hb] at blank
    rw [head?_cons]
    rintro (h | h)
    · exact low (by decide) (Option.some.inj h)
    · exact low (by decide) (Option.some.inj h)

theorem parseHeader_of (plain : PlainHeader past h) : parseHeader past h.line = .ok h.trimmed := by
  have full := (checkToken_ok plain.name_token).1
  have first : h.line.head? = h.name.head? := by
    rw [header_line_eq]
    cases hn : h.name with
    | nil => exact absurd hn full
    | cons b s => rfl
  unfold parseHeader
  rw [first, if_neg (token_head plain.name_token), header_line_eq, cutAt_append plain.name_colon]
  dsimp only
  rw [if_neg full, plain.name_token, trim_space, plain.value_text]
  rfl

/-- What a header line that is accepted says. -/
theorem parseHeader_ok (noLf : 10 ∉ line) (accepted : parseHeader past line = .ok h) :
    58 ∉ h.name ∧ 10 ∉ h.name ∧ checkToken past h.name (lit "header name") = .ok () ∧
      checkValue past h.value (lit "header value") = .ok () := by
  unfold parseHeader at accepted
  split at accepted
  · exact absurd accepted (errf_ne_ok _ _)
  · cases hc : cutAt 58 line with
    | none => rw [hc] at accepted; exact absurd accepted (errf_ne_ok _ _)
    | some p =>
      obtain ⟨name, rest⟩ := p
      rw [hc] at accepted
      dsimp only at accepted
      obtain ⟨whole, noColon⟩ := cutAt_some hc
      split at accepted
      · exact absurd accepted (errf_ne_ok _ _)
      · dsimp only [bind, Except.bind] at accepted
        cases ht : checkToken past name (lit "header name") with
        | error e => rw [ht] at accepted; exact absurd accepted nofun
        | ok x =>
          rw [ht] at accepted
          cases hv : checkValue past (trim rest) (lit "header value") with
          | error e => rw [hv] at accepted; cases accepted
          | ok y =>
            rw [hv] at accepted
            cases accepted
            refine ⟨noColon, fun hm => noLf ?_, ht, hv⟩
            rw [whole]
            exact mem_append_left _ hm

/-! ### The request line -/

/-- A method and a target that are parts of one request line, and that the server accepts. -/
structure PlainLine (past : Past) (method target : Bytes) : Prop where
  method_space : 32 ∉ method
  method_lf : 10 ∉ method
  method_token : checkToken past method (lit "method") = .ok ()
  target_space : 32 ∉ target
  target_lf : 10 ∉ target
  target_text : (runes past target).any notTarget = false

theorem proto_eq : lit " HTTP/1.1" = 32 :: lit "HTTP/1.1" := by decide +kernel

theorem requestLine_eq (method : Bytes) (u : URL) :
    requestLine method u = method ++ 32 :: (u.target ++ 32 :: lit "HTTP/1.1") := by
  unfold requestLine
  rw [space_eq, proto_eq]
  simp only [append_assoc, cons_append, nil_append]

theorem parseRequestLine_of {method : Bytes} {u : URL} (full : u.target ≠ [])
    (plain : PlainLine past method u.target) :
    parseRequestLine past (requestLine method u) = .ok (method, u.target, lit "HTTP/1.1") := by
  unfold parseRequestLine
  rw [requestLine_eq, cutAt_append plain.method_space]
  dsimp only
  rw [if_neg (checkToken_ok plain.method_token).1, cutAt_append plain.target_space]
  dsimp only
  rw [if_neg full, if_neg (by decide +kernel), plain.method_token]
  exact if_neg (by rw [plain.target_text]; simp)

/-- What a request line that is accepted says. -/
theorem parseRequestLine_ok {line method target proto : Bytes} (noLf : 10 ∉ line)
    (accepted : parseRequestLine past line = .ok (method, target, proto)) :
    PlainLine past method target := by
  unfold parseRequestLine at accepted
  cases hc : cutAt 32 line with
  | none => rw [hc] at accepted; exact absurd accepted (errf_ne_ok _ _)
  | some p =>
    obtain ⟨m, rest⟩ := p
    rw [hc] at accepted
    dsimp only at accepted
    obtain ⟨whole, noSpace⟩ := cutAt_some hc
    split at accepted
    · exact absurd accepted (errf_ne_ok _ _)
    · cases hc' : cutAt 32 rest with
      | none => rw [hc'] at accepted; exact absurd accepted (errf_ne_ok _ _)
      | some q =>
        obtain ⟨t, version⟩ := q
        rw [hc'] at accepted
        dsimp only at accepted
        obtain ⟨whole', noSpace'⟩ := cutAt_some hc'
        split at accepted
        · exact absurd accepted (errf_ne_ok _ _)
        · split at accepted
          · exact absurd accepted (errf_ne_ok _ _)
          · dsimp only [bind, Except.bind] at accepted
            cases ht : checkToken past m (lit "method") with
            | error e => rw [ht] at accepted; exact absurd accepted nofun
            | ok x =>
              rw [ht] at accepted
              dsimp only at accepted
              split at accepted
              · exact absurd accepted (errf_ne_ok _ _)
              · rename_i legal
                rw [Except.ok.injEq, Prod.mk.injEq, Prod.mk.injEq] at accepted
                obtain ⟨rfl, rfl, rfl⟩ := accepted
                rw [whole, whole'] at noLf
                refine ⟨noSpace, fun hm => noLf ?_, ht, noSpace', fun hm => noLf ?_, ?_⟩
                · simp [hm]
                · simp [hm]
                · simpa using legal

/-! ### The block -/

/-- The header lines of a block. -/
def blockText (hs : Headers) : Bytes := hs.flatMap fun h => h.line ++ crlf

theorem render_eq {hs : Headers} {block : Bytes} (h : hs.render past = .ok block) :
    block = blockText hs := by
  induction hs generalizing block with
  | nil => exact (Except.ok.inj h).symm
  | cons k hs ih =>
    rw [Headers.render] at h
    dsimp only [bind, Except.bind] at h
    cases hc : checkHeader past k with
    | error e => rw [hc] at h; cases h
    | ok x =>
      rw [hc] at h
      cases hr : Headers.render past hs with
      | error e => rw [hr] at h; cases h
      | ok rest =>
        rw [hr] at h
        rw [← Except.ok.inj h, ih hr]
        rfl

theorem stripCr_cr (line : Bytes) : stripCr (line ++ [13]) = line := by
  unfold stripCr
  rw [getLast?_concat, if_pos rfl, dropLast_concat]

theorem crlf_eq (line rest : Bytes) : line ++ crlf ++ rest = (line ++ [13]) ++ 10 :: rest := by
  unfold crlf
  simp

/-- A line that is written is read. -/
theorem line_written (noLf : 10 ∉ line) (short : (line ++ [13]).length ≤ maxLine)
    (reliable : st.Reliable) (bytes : st.bytes = line ++ crlf ++ rest) :
    ∃ st', st.line = .ok (some line, st') ∧ st'.bytes = rest ∧ st'.Reliable := by
  have noLf' : 10 ∉ line ++ [13] := by simp [noLf]
  obtain ⟨st', hl, behind, reliable'⟩ := line_of noLf' short reliable (bytes.trans (crlf_eq line rest))
  rw [stripCr_cr] at hl
  exact ⟨st', hl, behind, reliable'⟩

/-- Header lines that are written are read. -/
theorem headersLoop_written {hs : Headers} (plain : ∀ h ∈ hs, PlainHeader past h)
    (short : ∀ h ∈ hs, (h.line ++ [13]).length ≤ maxLine) {left : Nat} (few : hs.length ≤ left)
    (acc : Headers) (reliable : st.Reliable) (bytes : st.bytes = blockText hs ++ (crlf ++ rest)) :
    ∃ st', headersLoop past left acc st = .ok (acc ++ hs.map Header.trimmed, st') ∧
      st'.bytes = rest ∧ st'.Reliable := by
  induction hs generalizing left acc st with
  | nil =>
    have split : st.bytes = [] ++ crlf ++ rest := bytes
    obtain ⟨st', hl, behind, reliable'⟩ :=
      line_written (by simp) (by simp [maxLine]) reliable split
    refine ⟨st', ?_, behind, reliable'⟩
    rw [headersLoop_succ, hl, bind_ok, map_nil, append_nil]
  | cons h hs ih =>
    have plain_h := plain h mem_cons_self
    have noLf : 10 ∉ h.line := by
      rw [header_line_eq]
      simp [plain_h.name_lf, plain_h.value_lf]
    have split : st.bytes = h.line ++ crlf ++ (blockText hs ++ (crlf ++ rest)) := by
      rw [bytes]
      unfold blockText
      rw [flatMap_cons, append_assoc _ _ (crlf ++ rest)]
    obtain ⟨st₁, hl, behind, reliable₁⟩ :=
      line_written noLf (short h mem_cons_self) reliable split
    obtain ⟨b, line, full⟩ : ∃ b line, h.line = b :: line := by
      rw [header_line_eq]
      cases h.name with
      | nil => exact ⟨_, _, rfl⟩
      | cons b s => exact ⟨_, _, rfl⟩
    cases left with
    | zero => exact absurd few (by simp)
    | succ left =>
      obtain ⟨st', hrest, behind', reliable'⟩ :=
        ih (fun k hk => plain k (mem_cons_of_mem _ hk))
          (fun k hk => short k (mem_cons_of_mem _ hk))
          (Nat.le_of_succ_le_succ few) (acc ++ [h.trimmed]) reliable₁ behind
      refine ⟨st', ?_, behind', reliable'⟩
      rw [headersLoop_succ, hl, bind_ok, full]
      dsimp only
      rw [← full, parseHeader_of plain_h, bind_ok, hrest, append_assoc]
      rfl

theorem LineText.count_le (h : LineText t line rest) : t.count 10 ≤ 1 := by
  cases h with
  | ended _ noLf => rw [count_append, count_eq_zero_of_not_mem noLf]; simp
  | last noLf _ => rw [count_eq_zero_of_not_mem noLf]; omega

theorem LineText.no_lf (h : LineText t line rest) : 10 ∉ line := by
  have strip {raw : Bytes} (noLf : 10 ∉ raw) : 10 ∉ stripCr raw := by
    unfold stripCr
    split
    · exact fun hm => noLf (mem_of_mem_dropLast hm)
    · exact noLf
  cases h with
  | ended _ noLf => exact strip noLf
  | last noLf _ => exact strip noLf

/-- A header block has one line feed a line. -/
theorem HeaderText.count_le {hs : Headers} (h : HeaderText past rest t hs) :
    t.count 10 ≤ hs.length + 1 := by
  induction h with
  | blank line => exact line.count_le.trans (by simp)
  | header line _ _ _ ih =>
    rw [count_append, length_cons]
    have := line.count_le
    omega

/-- What the headers of a block that is accepted say. -/
theorem HeaderText.accepted {hs : Headers} (h : HeaderText past rest t hs) :
    ∀ k ∈ hs, 58 ∉ k.name ∧ 10 ∉ k.name ∧ checkToken past k.name (lit "header name") = .ok () ∧
      checkValue past k.value (lit "header value") = .ok () := by
  induction h with
  | blank line => exact nofun
  | header line _ parsed _ ih =>
    intro k hk
    cases mem_cons.mp hk with
    | inl hk => rw [hk]; exact parseHeader_ok line.no_lf parsed
    | inr hk => exact ih k hk

/-- A block that is written has a line feed a line, and more only in a name or a value. -/
theorem blockText_count (hs : Headers) :
    hs.length ≤ (blockText hs).count 10 ∧
      ((blockText hs).count 10 ≤ hs.length → ∀ h ∈ hs, 10 ∉ h.value) := by
  induction hs with
  | nil => exact ⟨Nat.zero_le _, fun _ => nofun⟩
  | cons h hs ih =>
    have count : (blockText (h :: hs)).count 10 =
        h.name.count 10 + h.value.count 10 + 1 + (blockText hs).count 10 := by
      have line : (h.line ++ crlf).count 10 = h.name.count 10 + h.value.count 10 + 1 := by
        rw [header_line_eq, count_append, count_append, count_cons, count_cons]
        simp [crlf]
      unfold blockText
      rw [flatMap_cons, count_append, line]
    rw [count, length_cons]
    refine ⟨by omega, fun tight k hk => ?_⟩
    cases mem_cons.mp hk with
    | inl hk => rw [hk]; exact count_eq_zero.mp (by omega)
    | inr hk => exact ih.2 (by omega) k hk

/-! ### The body -/

section

variable {digit : Nat → Option Int} {base limit : Int}

/-- A number within its limit is read. -/
theorem numLoop_of (hdigit : ∀ c d, digit c = some d → 0 ≤ d) (hbase : 1 ≤ base)
    (hlimit : limit ≤ maxInt) {noDigit tooBig : Bytes} {cs : List Nat}
    (digits : ∀ c ∈ cs, (digit c).isSome = true) {v : Int} (hv : 0 ≤ v)
    (fits : cs.foldl (fun v c => v * base + (digit c).getD 0) v ≤ limit) :
    v ≤ limit ∧ numLoop digit base limit noDigit tooBig v cs =
      .ok (cs.foldl (fun v c => v * base + (digit c).getD 0) v) := by
  induction cs generalizing v with
  | nil => exact ⟨fits, rfl⟩
  | cons c cs ih =>
    obtain ⟨d, hd⟩ := Option.isSome_iff_exists.mp (digits c mem_cons_self)
    have hd0 := hdigit c d hd
    have grows : v ≤ v * base + d := by
      have : v * 1 ≤ v * base := Int.mul_le_mul_of_nonneg_left hbase hv
      omega
    have step : v * base + (digit c).getD 0 = v * base + d := by
      rw [hd]
      rfl
    rw [foldl_cons, step] at fits ⊢
    obtain ⟨below, rest⟩ := ih (fun x hx => digits x (mem_cons_of_mem _ hx)) (by omega) fits
    refine ⟨by omega, ?_⟩
    rw [numLoop_cons hd hd0, if_neg (by omega), if_neg (by omega)]
    exact rest

end

theorem parseDec_of {n : Nat} {limit : Int} (h : Number decDigit 10 s n)
    (fits : (n : Int) ≤ limit) (hlimit : limit ≤ maxInt) : parseDec past s limit what = .ok n := by
  have readAs := (readAs_ascii past (h.ascii decDigit_ascii) n).mpr h
  unfold parseDec
  rw [if_neg h.1, readAs.2.2]
  exact (numLoop_of (fun c d hc => (decDigit_bounds c d hc).1) (by omega) hlimit readAs.2.1 le_rfl
    (readAs.2.2 ▸ fits)).2

theorem printNat_number (n : Nat) : Number decDigit 10 (printNat n) n := by
  obtain ⟨digits, full, value⟩ := Voila.Rt.printNat_digits n
  have digit {b : UInt8} (hb : Voila.Rt.isDigit b = true) :
      decDigit b.toNat = some ((b.toNat - 48 : Nat) : Int) := by
    have low : 48 ≤ b.toNat ∧ b.toNat ≤ 57 := by
      unfold Voila.Rt.isDigit at hb
      simpa [UInt8.le_iff_toNat_le] using hb
    unfold decDigit
    rw [if_neg (by omega)]
  rw [all_eq_true] at digits
  refine ⟨full, fun b hb => by rw [digit (digits b hb)]; rfl, ?_⟩
  have go : ∀ (s : Bytes) (v : Nat), (∀ b ∈ s, Voila.Rt.isDigit b = true) →
      s.foldl (fun v b => v * 10 + (decDigit b.toNat).getD 0) (v : Int) =
        ((s.foldl (fun n b => 10 * n + (b.toNat - 48)) v : Nat) : Int) := by
    intro s
    induction s with
    | nil => exact fun v _ => rfl
    | cons b s ih =>
      intro v hs
      rw [foldl_cons, foldl_cons, digit (hs b mem_cons_self),
        ← ih _ fun c hc => hs c (mem_cons_of_mem _ hc)]
      congr 1
      rw [Option.getD_some]
      omega
  have cast : (n : Int) = ((Voila.Rt.readNat (printNat n) : Nat) : Int) := by rw [value]
  exact cast.trans (go _ 0 digits).symm

theorem trim_of_plain (h : ∀ b ∈ s, isSpace b = false) : trim s = s := by
  have keep : ∀ t : Bytes, (∀ b ∈ t, isSpace b = false) → t.dropWhile isSpace = t := by
    intro t ht
    cases t with
    | nil => rfl
    | cons b t => rw [dropWhile_cons, ht b mem_cons_self]; rfl
  unfold trim
  rw [keep s h, keep s.reverse fun b hb => h b (mem_reverse.mp hb), reverse_reverse]

theorem intText_nat (n : Nat) : intText n = printNat n := by
  unfold intText
  rw [if_neg (by omega), nil_append, Int.natAbs_natCast]

theorem trim_printNat (n : Nat) : trim (printNat n) = printNat n := by
  refine trim_of_plain fun b hb => ?_
  have digit := all_eq_true.mp (Voila.Rt.printNat_digits n).1 b hb
  have low : 48 ≤ b.toNat := by
    unfold Voila.Rt.isDigit at digit
    rw [Bool.and_eq_true, decide_eq_true_iff, UInt8.le_iff_toNat_le] at digit
    exact digit.1
  have blank : b ≠ 32 := by
    intro hb
    rw [hb] at low
    exact absurd low (by decide)
  have high : ¬ b ≤ 13 := by
    rw [UInt8.le_iff_toNat_le]
    have c13 : (13 : UInt8).toNat = 13 := rfl
    omega
  unfold isSpace
  simp [blank, high]

theorem has_trimmed (hs : Headers) (name : Bytes) :
    Headers.has (hs.map Header.trimmed) name = hs.has name := by
  unfold Headers.has
  rw [any_map]
  rfl

theorem all_trimmed (hs : Headers) (name : Bytes) :
    Headers.all (hs.map Header.trimmed) name = (hs.all name).map trim := by
  unfold Headers.all
  rw [filter_map, map_map, map_map]
  rfl

/-- A body that is written behind its length is read. -/
theorem requestBody_written {hs : Headers} {body : Bytes} {long : Prop} [Decidable long] {max : Int}
    (te : hs.has nameTE = false)
    (lengths : hs.all nameCL = if body ≠ [] ∨ long then [intText body.length] else [])
    (fits : (body.length : Int) ≤ max) (hmax : max ≤ maxInt)
    (reliable : st.Reliable) (bytes : st.bytes = body ++ rest) :
    ∃ st', requestBody past st (hs.map Header.trimmed) max = .ok (body, st') ∧ st'.bytes = rest := by
  unfold requestBody
  rw [has_trimmed, has_trimmed, te]
  cases cl : hs.has nameCL with
  | false =>
    have none_sent : hs.all nameCL = [] := mem_all_has.mpr cl
    have empty : body = [] := by
      by_contra full
      rw [if_pos (.inl full), none_sent] at lengths
      cases lengths
    rw [if_neg (by simp)]
    exact ⟨st, by rw [empty], by rw [bytes, empty, nil_append]⟩
  | true =>
    have one : hs.all nameCL = [intText body.length] := by
      split at lengths
      · exact lengths
      · exact absurd (mem_all_has.mp lengths) (by rw [cl]; simp)
    have value : Headers.all (hs.map Header.trimmed) nameCL = [printNat body.length] := by
      rw [all_trimmed, one, intText_nat, map_singleton, trim_printNat]
    have alone : otherLength [printNat body.length] = none := by
      unfold otherLength
      rw [find?_singleton]
      exact if_neg (by simp)
    obtain ⟨st', hx, behind, -⟩ := exact_of reliable bytes
    refine ⟨st', ?_, behind⟩
    rw [if_pos (.inr rfl)]
    unfold readBody
    rw [has_trimmed, has_trimmed, te, cl, value, if_neg (by simp), if_pos rfl, alone]
    have parsed : parseDec past (trim (printNat body.length)) max (lit "Content-Length") =
        .ok body.length := by
      rw [trim_printNat]
      exact parseDec_of (printNat_number _) fits hmax
    dsimp only [List.headD]
    rw [parsed]
    exact hx

/-- Without a Transfer-Encoding the bytes of a body are the body. -/
theorem requestBody_plain {hs : Headers} (te : hs.has nameTE = false) {max : Int} {body : Bytes}
    {st st' : Stream} (sound : st.Sound) (h : requestBody past st hs max = .ok (body, st')) :
    st.bytes = body ++ st'.bytes := by
  unfold requestBody at h
  split at h
  · unfold readBody at h
    rw [if_neg (by rw [te]; simp)] at h
    split at h
    · split at h
      · exact absurd h (errf_ne_ok _ _)
      · cases hn : parseDec past (trim ((hs.all nameCL).headD [])) max (lit "Content-Length") with
        | error e => rw [hn] at h; cases h
        | ok n =>
          rw [hn] at h
          exact (exact_takes sound h).1.2
    · rw [if_neg (by simp)] at h
      cases h
      rfl
  · cases h
    rfl

/-! ### One request -/

/-- The lines, the headers and the body of a request are within the limits of a server. -/
structure Fits (method : Bytes) (u : URL) (hs : Headers) (body : Bytes) (max : Int) : Prop where
  line : (requestLine method u ++ [13]).length ≤ maxLine
  lines : ∀ h ∈ hs, (h.line ++ [13]).length ≤ maxLine
  few : hs.length ≤ maxHeaders
  body : (body.length : Int) ≤ max
  limit : max ≤ maxInt

/-- However these bytes come, `recv_request` reads this request off them and leaves nothing. -/
def Received (past : Past) (max : Int) (bytes method target : Bytes) (hs : Headers) (body : Bytes) :
    Prop :=
  ∀ conn : Conn, conn.data = bytes → (∀ r ∈ conn.reads, ∃ k, r = .ok k) →
    ∃ req st, recvRequest past (stream conn) max = .ok (req, st) ∧ req.method = method ∧
      req.target = target ∧ req.headers = hs ∧ req.body = body ∧ st.bytes = []

/-- The parts of a request have no byte that ends them on the wire, and the server accepts them. -/
def PlainParts (past : Past) (method target : Bytes) (hs : Headers) : Prop :=
  PlainLine past method target ∧ ∀ h ∈ hs, PlainHeader past h

section

variable {method body : Bytes} {u : URL} {hs : Headers} {max : Int} {long : Prop} [Decidable long]

theorem received_of_plain (full : u.target ≠ []) (te : hs.has nameTE = false)
    (host : hs.has (lit "host") = true)
    (lengths : hs.all nameCL = if body ≠ [] ∨ long then [intText body.length] else [])
    (fits : Fits method u hs body max) (plain : PlainParts past method u.target hs) :
    Received past max (requestLine method u ++ crlf ++ blockText hs ++ crlf ++ body) method u.target
      (hs.map Header.trimmed) body := by
  intro conn data reads
  have reliable : (stream conn).Reliable := ⟨stream_sound conn, reads⟩
  have bytes : (stream conn).bytes =
      requestLine method u ++ crlf ++ (blockText hs ++ (crlf ++ body)) := by
    rw [← append_assoc, ← append_assoc]
    exact data
  have noLf : 10 ∉ requestLine method u := by
    have version : (10 : UInt8) ∉ lit "HTTP/1.1" := by decide +kernel
    rw [requestLine_eq]
    simp [plain.1.method_lf, plain.1.target_lf, version]
  obtain ⟨st₁, hl, behind₁, reliable₁⟩ := line_written noLf fits.line reliable bytes
  obtain ⟨st₂, hh, behind₂, reliable₂⟩ :=
    headersLoop_written plain.2 fits.lines fits.few [] reliable₁ behind₁
  have head : recvHead past (stream conn) =
      .ok ((method, u.target, lit "HTTP/1.1"), hs.map Header.trimmed, st₂) := by
    unfold recvHead readHeaders
    dsimp only [bind, Except.bind]
    rw [hl]
    dsimp only
    rw [parseRequestLine_of full plain.1]
    rw [hh, nil_append]
    dsimp only
    rw [if_neg]
    rw [has_trimmed, host]
    simp
  obtain ⟨st₃, hb, behind₃⟩ := requestBody_written te lengths fits.body fits.limit reliable₂
    (behind₂.trans (append_nil _).symm)
  rw [recvRequest_eq, head, bind_ok, hb, bind_ok]
  exact ⟨_, _, rfl, rfl, rfl, rfl, rfl, behind₃⟩

theorem plain_of_received (te : hs.has nameTE = false)
    (received : Received past max (requestLine method u ++ crlf ++ blockText hs ++ crlf ++ body) method
      u.target (hs.map Header.trimmed) body) : PlainParts past method u.target hs := by
  obtain ⟨req, st', hr, rfl, htarget, headers, rfl, drained⟩ := received ⟨_, []⟩ rfl nofun
  rw [recvRequest_eq] at hr
  cases hh : recvHead past (stream ⟨_, []⟩) with
  | error e => rw [hh] at hr; cases hr
  | ok p =>
    obtain ⟨⟨m, t, proto⟩, ks, st₁⟩ := p
    rw [hh, bind_ok] at hr
    cases hb : requestBody past st₁ ks max with
    | error e => rw [hb] at hr; cases hr
    | ok q =>
      obtain ⟨whole, st₂⟩ := q
      rw [hb, bind_ok] at hr
      cases hr
      dsimp only at headers htarget drained
      obtain ⟨head, text, takes⟩ := recvHead_text past (stream_sound _) hh
      have te' : ks.has nameTE = false := by rw [headers, has_trimmed]; exact te
      have behind := requestBody_plain te' takes.1 hb
      rw [drained, append_nil] at behind
      obtain ⟨first, line, block, firstText, parsed, blockOf, rfl⟩ := text
      have written : requestLine m u ++ crlf ++ blockText hs ++ crlf ++ whole =
          first ++ block ++ whole := by
        have split := takes.2
        rw [behind] at split
        exact split
      have same := append_cancel_right written
      rw [headers] at blockOf
      have lfs := congrArg (List.count 10) same
      have tight : (blockText hs).count 10 ≤ hs.length := by
        have few := firstText.count_le
        have few' := blockOf.count_le
        have ends : crlf.count 10 = 1 := by decide
        simp only [count_append, ends] at lfs
        rw [length_map] at few'
        omega
      have accepted := blockOf.accepted
      refine ⟨htarget ▸ parseRequestLine_ok firstText.no_lf parsed, fun h hm => ?_⟩
      obtain ⟨noColon, noLf, token, value⟩ := accepted _ (mem_map_of_mem hm)
      exact ⟨noColon, noLf, token, (blockText_count hs).2 tight h hm, value⟩

end

/-- The scheme, the authority and the rest of a URL, where `parse_url` comes as far as its host. -/
def authorityOf (lower : Bytes → Bytes) (raw : Bytes) : Option (Bytes × Bytes × Bytes) :=
  match cutText (lit "://") raw with
  | none => none
  | some (before, rest) =>
    let rest := withoutFragment rest
    let auth := rest.takeWhile inAuthority
    if before ≠ [] ∧ (lower before = lit "http" ∨ lower before = lit "https") ∧ auth ≠ [] ∧ ch '@' ∉ auth then
      some (lower before, auth, rest.dropWhile inAuthority)
    else none

theorem parseUrl_cases (past : Past) (lower : Bytes → Bytes) (raw : Bytes) :
    (authorityOf lower raw = none ∧ ∃ fmt, Safe fmt ∧ parseUrl past lower raw = errf fmt) ∨
      ∃ scheme auth tail, authorityOf lower raw = some (scheme, auth, tail) ∧
        parseUrl past lower raw = (do
          let (host, port) ← hostPort past raw scheme auth
          if host = [] then errf (lit "http: URL " ++ brief past raw ++ lit " has no host")
          else .ok ⟨scheme, host, port, (pathQuery tail).1, (pathQuery tail).2⟩) := by
  have front := (lit_safe (s := "http: URL ") (by simp)).append (brief_safe past raw)
  by_cases empty : raw = []
  · rw [parseUrl, if_pos empty, empty]
    exact .inl ⟨rfl, _, lit_safe (by simp), rfl⟩
  rw [parseUrl, if_neg empty, authorityOf]
  cases cutText (lit "://") raw with
  | none => exact .inl ⟨rfl, _, front.append (lit_safe (by simp)), rfl⟩
  | some p =>
    obtain ⟨before, rest⟩ := p
    dsimp only
    generalize withoutFragment rest = rest
    by_cases bare : before = []
    · rw [if_pos bare, if_neg fun h => h.1 bare]
      exact .inl ⟨rfl, _, front.append (lit_safe (by simp)), rfl⟩
    by_cases known : lower before = lit "http" ∨ lower before = lit "https"
    · rw [if_neg bare, if_neg (not_and_or.mpr (known.imp not_not.mpr not_not.mpr))]
      by_cases noHost : rest.takeWhile inAuthority = []
      · rw [if_pos noHost, if_neg fun h => h.2.2.1 noHost]
        exact .inl ⟨rfl, _, front.append (lit_safe (by simp)), rfl⟩
      by_cases user : ch '@' ∈ rest.takeWhile inAuthority
      · rw [if_neg noHost, if_pos user, if_neg fun h => h.2.2.2 user]
        exact .inl ⟨rfl, _, (lit_safe (by simp)).append (brief_safe past raw), rfl⟩
      · rw [if_neg noHost, if_neg user, if_pos ⟨bare, known, noHost, user⟩]
        exact .inr ⟨_, _, _, rfl, rfl⟩
    · rw [if_neg bare, if_pos (not_or.mp known), if_neg fun h => known h.2.1]
      exact .inl ⟨rfl, _, ((lit_safe (by simp)).append (brief_safe past _)).append (lit_safe (by simp)), rfl⟩

/-- A target has at least a slash. -/
theorem parseUrl_target {past : Past} {lower : Bytes → Bytes} {url : Bytes} {u : URL}
    (h : parseUrl past lower url = .ok u) : u.target ≠ [] := by
  rcases parseUrl_cases past lower url with ⟨-, fmt, -, eq⟩ | ⟨scheme, auth, tail, -, eq⟩
  · exact absurd (eq.symm.trans h) (errf_ne_ok _ _)
  rw [eq] at h
  obtain ⟨⟨host, port⟩, -, h⟩ := bind_eq_ok h
  dsimp only at h
  split_ifs at h
  · exact absurd h (errf_ne_ok _ _)
  cases h
  have path_full : (pathQuery tail).1 ≠ [] := by
    unfold pathQuery
    split
    · simp
    · split
      · split
        · simp
        · assumption
      · assumption
  unfold URL.target
  split
  · exact path_full
  · simp

/-- What the client writes is received as the caller's request, with the headers that the client
adds. -/
def Delivers (past past' : Past) (lower : Bytes → Bytes) (reach : Reach) (method url : Bytes)
    (hdrs : Headers) (body : Bytes) (max : Int) : Prop :=
  ∀ u written, parseUrl past lower url = .ok u →
    Client.request past lower reach method url hdrs body = .ok written →
    Fits method u (sentHeaders hdrs u method body) body max →
    Received past' max written method u.target
      ((hdrs.remove (lit "Content-Length") ++ addedHeaders hdrs u method body).map Header.trimmed) body

theorem request_ok {past : Past} {lower : Bytes → Bytes} {reach : Reach} {method url body : Bytes}
    {written : Bytes} {u : URL} (hu : parseUrl past lower url = .ok u)
    (h : Client.request past lower reach method url hdrs body = .ok written) :
    hdrs.has nameTE = false ∧ written =
      requestLine method u ++ crlf ++ blockText (sentHeaders hdrs u method body) ++ crlf ++ body := by
  unfold Client.request at h
  dsimp only [bind, Except.bind] at h
  cases ht : checkToken past method (lit "method") with
  | error e => rw [ht] at h; cases h
  | ok x =>
    rw [ht, hu] at h
    dsimp only at h
    cases te : hdrs.has (lit "transfer-encoding") with
    | true =>
      rw [te, if_pos rfl] at h
      exact absurd h (errf_ne_ok _ _)
    | false =>
      rw [te, if_neg (by simp)] at h
      cases hc : reach u with
      | error e => rw [hc] at h; cases h
      | ok y =>
        rw [hc] at h
        cases hr : (sentHeaders hdrs u method body).render past with
        | error e => rw [hr] at h; cases h
        | ok block =>
          rw [hr] at h
          cases h
          rw [render_eq hr]
          exact ⟨te, rfl⟩

/-- What the client writes is received as the caller's request exactly if its parts are plain. -/
theorem delivers_iff (past past' : Past) (lower : Bytes → Bytes) (reach : Reach) (method url : Bytes)
    (hdrs : Headers) (body : Bytes) (max : Int) :
    Delivers past past' lower reach method url hdrs body max ↔
      ∀ u written, parseUrl past lower url = .ok u →
        Client.request past lower reach method url hdrs body = .ok written →
        Fits method u (sentHeaders hdrs u method body) body max →
        PlainParts past' method u.target (sentHeaders hdrs u method body) := by
  unfold Delivers
  refine forall_congr' fun u => forall_congr' fun written => forall_congr' fun hu =>
    forall_congr' fun hw => forall_congr' fun fits => ?_
  obtain ⟨te, rfl⟩ := request_ok hu hw
  have te' := sentHeaders_te te u method body
  rw [← sentHeaders_eq]
  constructor
  · exact plain_of_received te'
  · intro plain
    exact received_of_plain (parseUrl_target hu) te' (sentHeaders_host hdrs u method body)
      (sentHeaders_length hdrs u method body) fits plain

/-- A URL whose path ends a request and starts another. -/
def smugglingUrl : Bytes := lit "http://h/ HTTP/1.0\r\n\r\nGET /evil"

/-- The target of a URL is not checked, and the request that is received has another. -/
theorem smugglingUrl_not_delivers :
    ¬ Delivers (fun _ => []) (fun _ => []) (List.map toLower) (fun _ => .ok ()) (lit "GET") smugglingUrl
      [] [] 0 := by
  intro h
  let u : URL := ⟨lit "http", lit "h", 80, lit "/ HTTP/1.0\r\n\r\nGET /evil", []⟩
  let sent := lit "GET / HTTP/1.0\r\n\r\nGET /evil HTTP/1.1\r\nHost: h\r\nConnection: close\r\n\r\n"
  have parsed : parseUrl (fun _ => []) (List.map toLower) smugglingUrl = .ok u := by decide +kernel
  have written : Client.request (fun _ => []) (List.map toLower) (fun _ => .ok ()) (lit "GET")
      smugglingUrl [] [] = .ok sent := by decide +kernel
  have fits : Fits (lit "GET") u (sentHeaders [] u (lit "GET") []) [] 0 :=
    ⟨by decide +kernel, by decide +kernel, by decide +kernel, by decide, by decide⟩
  obtain ⟨req, st, hr, -, target, -⟩ := h u sent parsed written fits ⟨sent, []⟩ rfl nofun
  have run : (match recvRequest (fun _ => []) (stream ⟨sent, []⟩) 0 with
      | .ok (req, _) => decide (req.target = lit "/")
      | .error _ => false) = true := by decide +kernel
  rw [hr] at run
  have other : lit "/" ≠ u.target := by decide +kernel
  exact other ((of_decide_eq_true run).symm.trans target)

end Voila.Http
