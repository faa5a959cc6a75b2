import Voila.Http.StreamSound

/-!
# Voila.Http.WireSound

When `recv_request` ends without an exception and takes its body under one framing (`frames_iff`).

What the readers of the head accept is a header block in front of the rest of the stream
(`recvHead_text`), and what `read_chunked` accepts is chunks in front of it (`chunksLoop_text`),
with the sizes of `sizeFields`. The sizes are digits only where they are ASCII, and the running
value of one can leave the `int` range where the limit is close to the end of it.
-/

open List

namespace Voila.Http

open Voila.Rt (Bytes)
open Voila.Rt.Json (ch)

variable (past : Past)

/-! ### The head -/

variable {what : Bytes} {left : Nat}

theorem checkToken_calm (s : Bytes) (hw : Safe what) : Calm (checkToken past s what) := by
  unfold checkToken
  split_ifs
  · exact ((lit_safe (by simp)).append hw).calm
  · exact (((((lit_safe (by simp)).append hw).append (lit_safe (by simp))).append
      (brief_safe past s)).append (lit_safe (by simp))).calm
  · exact Calm.ok _

theorem valueLoop_calm (hw : Safe what) (cs : List Nat) : Calm (valueLoop what cs) := by
  induction cs with
  | nil => exact Calm.ok _
  | cons c cs ih =>
    rw [valueLoop]
    split_ifs
    · exact (((lit_safe (by simp)).append hw).append (lit_safe (by simp))).calm
    · exact (((lit_safe (by simp)).append hw).append (lit_safe (by simp))).calm
    · exact ih

theorem checkValue_calm (s : Bytes) (hw : Safe what) : Calm (checkValue past s what) :=
  valueLoop_calm hw _

theorem parseHeader_calm (line : Bytes) : Calm (parseHeader past line) := by
  have refused {s : String} (h : '%' ∉ s.toList) :
      Calm (errf (lit s ++ brief past line) : Except Fail Header) :=
    ((lit_safe h).append (brief_safe past line)).calm
  unfold parseHeader
  split_ifs
  · exact refused (by simp)
  · cases cutAt 58 line with
    | none => exact refused (by simp)
    | some p =>
      dsimp only
      split_ifs
      · exact refused (by simp)
      · refine Calm.bind (checkToken_calm past _ (lit_safe (by simp))) fun _ _ => ?_
        exact Calm.bind (checkValue_calm past _ (lit_safe (by simp))) fun _ _ => Calm.ok _

theorem parseRequestLine_calm (line : Bytes) : Calm (parseRequestLine past line) := by
  have refused {s : String} (h : '%' ∉ s.toList) (quoted : Bytes) :
      Calm (errf (lit s ++ brief past quoted) : Except Fail (Bytes × Bytes × Bytes)) :=
    ((lit_safe h).append (brief_safe past quoted)).calm
  unfold parseRequestLine
  cases cutAt 32 line with
  | none => exact refused (by simp) _
  | some p =>
    dsimp only
    split_ifs
    · exact refused (by simp) _
    · cases cutAt 32 p.2 with
      | none => exact refused (by simp) _
      | some q =>
        dsimp only
        split
        · exact refused (by simp) _
        · split
          · exact refused (by simp) _
          · refine Calm.bind (checkToken_calm past _ (lit_safe (by simp))) fun _ _ => ?_
            split
            · exact refused (by simp) _
            · exact Calm.ok _

/-- The header lines of a block and its blank line, in front of `rest`. -/
inductive HeaderText (rest : Bytes) : Bytes → Headers → Prop
  /-- The blank line. -/
  | blank {t : Bytes} : LineText t [] rest → HeaderText rest t []
  /-- A header line. -/
  | header {t line text : Bytes} {h : Header} {hs : Headers} : LineText t line (text ++ rest) →
      line ≠ [] → parseHeader past line = .ok h → HeaderText rest text hs →
      HeaderText rest (t ++ text) (h :: hs)

/-- A header block reads in one way only. -/
theorem HeaderText.unique {rest rest' t t' : Bytes} {hs hs' : Headers}
    (h : HeaderText past rest t hs) (h' : HeaderText past rest' t' hs')
    (same : t ++ rest = t' ++ rest') : t = t' ∧ hs = hs' ∧ rest = rest' := by
  induction h generalizing t' hs' with
  | blank line =>
    cases h' with
    | blank line' =>
      obtain ⟨ht, -, hrest⟩ := line.unique line' same
      exact ⟨ht, rfl, hrest⟩
    | header line' full _ _ =>
      rw [append_assoc] at same
      exact absurd (line.unique line' same).2.1.symm full
  | header line full parsed _ ih =>
    rw [append_assoc] at same
    cases h' with
    | blank line' => exact absurd (line.unique line' same).2.1 full
    | header line' full' parsed' block' =>
      rw [append_assoc] at same
      obtain ⟨rfl, rfl, behind⟩ := line.unique line' same
      obtain ⟨rfl, rfl, rfl⟩ := ih block' behind
      obtain rfl := Except.ok.inj (parsed.symm.trans parsed')
      exact ⟨rfl, rfl, rfl⟩

theorem headersLoop_succ (left : Nat) (hs : Headers) (st : Stream) :
    headersLoop past left hs st = st.line.bind fun p =>
      match p with
      | (none, _) => errf (lit "http: the stream ended inside the header block")
      | (some [], st) => .ok (hs, st)
      | (some (b :: line), st) =>
        match left with
        | 0 => errf (lit "http: more than " ++ intText maxHeaders ++ lit " header lines")
        | left + 1 => (parseHeader past (b :: line)).bind fun h => headersLoop past left (hs ++ [h]) st := by
  conv_lhs => unfold headersLoop
  cases st.line with
  | error e => cases left <;> rfl
  | ok p =>
    obtain ⟨line, st'⟩ := p
    cases line with
    | none => cases left <;> rfl
    | some line => cases line <;> cases left <;> rfl

theorem headersLoop_calm (left : Nat) (hs : Headers) (st : Stream) : Calm (headersLoop past left hs st) := by
  induction left generalizing hs st with
  | zero =>
    rw [headersLoop_succ]
    refine Calm.bind (line_calm st) fun p _ => ?_
    split
    · exact (lit_safe (by simp)).calm
    · exact Calm.ok _
    · exact (((lit_safe (by simp)).append (intText_safe _)).append (lit_safe (by simp))).calm
  | succ left ih =>
    rw [headersLoop_succ]
    refine Calm.bind (line_calm st) fun p _ => ?_
    split
    · exact (lit_safe (by simp)).calm
    · exact Calm.ok _
    · exact Calm.bind (parseHeader_calm past _) fun h _ => ih _ _

theorem headersLoop_text {hs hs' : Headers} {st st' : Stream} (sound : st.Sound)
    (h : headersLoop past left hs st = .ok (hs', st')) :
    ∃ t more, hs' = hs ++ more ∧ more.length ≤ left ∧ HeaderText past st'.bytes t more ∧
      st.Takes t st' := by
  induction left generalizing hs st with
  | zero =>
    rw [headersLoop_succ] at h
    cases hl : st.line with
    | error e => rw [hl] at h; cases h
    | ok p =>
      obtain ⟨line, st₁⟩ := p
      rw [hl] at h
      dsimp only [Except.bind] at h
      cases line with
      | none => exact absurd h (errf_ne_ok _ _)
      | some line =>
        obtain ⟨t, text, takes⟩ := line_some sound hl
        cases line with
        | nil =>
          cases h
          exact ⟨t, [], (List.append_nil _).symm, le_rfl, .blank text, takes⟩
        | cons b line => exact absurd h (errf_ne_ok _ _)
  | succ left ih =>
    rw [headersLoop_succ] at h
    cases hl : st.line with
    | error e => rw [hl] at h; cases h
    | ok p =>
      obtain ⟨line, st₁⟩ := p
      rw [hl] at h
      dsimp only [Except.bind] at h
      cases line with
      | none => exact absurd h (errf_ne_ok _ _)
      | some line =>
        obtain ⟨t, text, takes⟩ := line_some sound hl
        cases line with
        | nil =>
          cases h
          exact ⟨t, [], (List.append_nil _).symm, by simp, .blank text, takes⟩
        | cons b line =>
          have h' : (parseHeader past (b :: line)).bind
              (fun h => headersLoop past left (hs ++ [h]) st₁) = .ok (hs', st') := h
          cases hp : parseHeader past (b :: line) with
          | error e => rw [hp] at h'; cases h'
          | ok header =>
            rw [hp] at h'
            obtain ⟨u, more, rfl, few, block, rest⟩ := ih takes.1 h'
            rw [rest.2] at text
            exact ⟨t ++ u, header :: more, by rw [append_assoc]; rfl,
              Nat.succ_le_succ few, .header text (by simp) hp block, takes.trans rest⟩

theorem recvHead_calm (st : Stream) : Calm (recvHead past st) := by
  unfold recvHead
  refine Calm.bind (line_calm st) fun p _ => ?_
  obtain ⟨line, st₁⟩ := p
  cases line with
  | none => exact (lit_safe (by simp)).calm
  | some line =>
    refine Calm.bind (parseRequestLine_calm past line) fun parts _ => ?_
    refine Calm.bind (headersLoop_calm past maxHeaders [] st₁) fun q _ => ?_
    dsimp only
    split
    · exact (lit_safe (by simp)).calm
    · exact Calm.ok _

/-- A request line and a header block, in front of `rest`. -/
def HeadText (t : Bytes) (parts : Bytes × Bytes × Bytes) (hs : Headers) (rest : Bytes) : Prop :=
  ∃ first line block, LineText first line (block ++ rest) ∧ parseRequestLine past line = .ok parts ∧
    HeaderText past rest block hs ∧ t = first ++ block

theorem HeadText.unique {t t' rest rest' : Bytes} {parts parts' : Bytes × Bytes × Bytes}
    {hs hs' : Headers} (h : HeadText past t parts hs rest) (h' : HeadText past t' parts' hs' rest')
    (same : t ++ rest = t' ++ rest') : parts = parts' ∧ hs = hs' ∧ rest = rest' := by
  obtain ⟨first, line, block, text, parsed, headers, rfl⟩ := h
  obtain ⟨first', line', block', text', parsed', headers', rfl⟩ := h'
  rw [append_assoc, append_assoc] at same
  obtain ⟨rfl, rfl, behind⟩ := text.unique text' same
  obtain ⟨rfl, rfl, rfl⟩ := headers.unique past headers' behind
  exact ⟨Except.ok.inj (parsed.symm.trans parsed'), rfl, rfl⟩

theorem recvHead_text {st st' : Stream} (sound : st.Sound) {parts : Bytes × Bytes × Bytes}
    {hs : Headers} (h : recvHead past st = .ok (parts, hs, st')) :
    ∃ t, HeadText past t parts hs st'.bytes ∧ st.Takes t st' := by
  unfold recvHead at h
  cases hl : st.line with
  | error e => rw [hl] at h; cases h
  | ok p =>
    obtain ⟨line, st₁⟩ := p
    rw [hl] at h
    dsimp only [bind, Except.bind] at h
    cases line with
    | none => exact absurd h (errf_ne_ok _ _)
    | some line =>
      obtain ⟨first, text, takes⟩ := line_some sound hl
      dsimp only at h
      cases hp : parseRequestLine past line with
      | error e => rw [hp] at h; exact absurd h nofun
      | ok parsed =>
        rw [hp] at h
        cases hh : readHeaders past st₁ with
        | error e => rw [hh] at h; cases h
        | ok q =>
          obtain ⟨hs₁, st₂⟩ := q
          rw [hh] at h
          dsimp only at h
          split at h
          · exact absurd h (errf_ne_ok _ _)
          · obtain ⟨block, more, rfl, -, headers, rest⟩ := headersLoop_text past takes.1 hh
            obtain ⟨rfl, rfl, rfl⟩ := Prod.mk.inj (Except.ok.inj h) |>.imp_right Prod.mk.inj
            rw [rest.2] at text
            exact ⟨first ++ block, ⟨first, line, block, text, hp, headers, rfl⟩,
              takes.trans rest⟩

/-! ### Chunks -/

/-- The trailers behind the last chunk, in front of `rest`. -/
inductive Trailers (rest : Bytes) : Bytes → Prop
  /-- A stream may end without the blank line. -/
  | ended : rest = [] → Trailers rest []
  /-- The blank line. -/
  | blank {t : Bytes} : LineText t [] rest → Trailers rest t
  /-- A trailer line. -/
  | line {t line text : Bytes} : LineText t line (text ++ rest) → line ≠ [] → Trailers rest text →
      Trailers rest (t ++ text)

theorem trailersLoop_succ (left : Nat) (st : Stream) :
    trailersLoop left st = st.line.bind fun p =>
      match p with
      | (none, st) => .ok st
      | (some [], st) => .ok st
      | (some (_ :: _), st) =>
        match left with
        | 0 => errf (lit "http: more than " ++ intText maxHeaders ++ lit " trailer lines")
        | left + 1 => trailersLoop left st := by
  conv_lhs => unfold trailersLoop
  cases st.line with
  | error e => cases left <;> rfl
  | ok p =>
    obtain ⟨line, st'⟩ := p
    cases line with
    | none => cases left <;> rfl
    | some line => cases line <;> cases left <;> rfl

theorem trailersLoop_calm (left : Nat) (st : Stream) : Calm (trailersLoop left st) := by
  induction left generalizing st with
  | zero =>
    rw [trailersLoop_succ]
    refine Calm.bind (line_calm st) fun p _ => ?_
    split
    · exact Calm.ok _
    · exact Calm.ok _
    · exact (((lit_safe (by simp)).append (intText_safe _)).append (lit_safe (by simp))).calm
  | succ left ih =>
    rw [trailersLoop_succ]
    refine Calm.bind (line_calm st) fun p _ => ?_
    split
    · exact Calm.ok _
    · exact Calm.ok _
    · exact ih _

theorem trailersLoop_text {st st' : Stream} (sound : st.Sound)
    (h : trailersLoop left st = .ok st') : ∃ t, Trailers st'.bytes t ∧ st.Takes t st' := by
  induction left generalizing st with
  | zero =>
    rw [trailersLoop_succ] at h
    cases hl : st.line with
    | error e => rw [hl] at h; cases h
    | ok p =>
      obtain ⟨line, st₁⟩ := p
      rw [hl] at h
      dsimp only [Except.bind] at h
      cases line with
      | none =>
        cases h
        obtain ⟨takes, nothing⟩ := line_none sound hl
        exact ⟨[], .ended (takes.2.symm.trans nothing), takes⟩
      | some line =>
        obtain ⟨t, text, takes⟩ := line_some sound hl
        cases line with
        | nil =>
          cases h
          exact ⟨t, .blank text, takes⟩
        | cons b line => exact absurd h (errf_ne_ok _ _)
  | succ left ih =>
    rw [trailersLoop_succ] at h
    cases hl : st.line with
    | error e => rw [hl] at h; cases h
    | ok p =>
      obtain ⟨line, st₁⟩ := p
      rw [hl] at h
      dsimp only [Except.bind] at h
      cases line with
      | none =>
        cases h
        obtain ⟨takes, nothing⟩ := line_none sound hl
        exact ⟨[], .ended (takes.2.symm.trans nothing), takes⟩
      | some line =>
        obtain ⟨t, text, takes⟩ := line_some sound hl
        cases line with
        | nil =>
          cases h
          exact ⟨t, .blank text, takes⟩
        | cons b line =>
          obtain ⟨u, trailers, rest⟩ := ih takes.1 h
          rw [rest.2] at text
          exact ⟨t ++ u, .line text (by simp) trailers, takes.trans rest⟩

/-- `s` writes `n` in digits. -/
def Number (digit : Nat → Option Int) (base : Int) (s : Bytes) (n : Nat) : Prop :=
  s ≠ [] ∧ (∀ b ∈ s, (digit b.toNat).isSome = true) ∧
    (n : Int) = s.foldl (fun v b => v * base + (digit b.toNat).getD 0) 0

/-- `s` is read as `n`. -/
def ReadAs (digit : Nat → Option Int) (base : Int) (s : Bytes) (n : Nat) : Prop :=
  s ≠ [] ∧ (∀ c ∈ runes past s, (digit c).isSome = true) ∧
    (n : Int) = (runes past s).foldl (fun v c => v * base + (digit c).getD 0) 0

section

variable {digit : Nat → Option Int} {base : Int}

variable {s : Bytes}

theorem Number.ascii (hdigit : ∀ c d, digit c = some d → c < 128) {n : Nat}
    (h : Number digit base s n) : Ascii s := by
  intro b hb
  obtain ⟨d, hd⟩ := Option.isSome_iff_exists.mp (h.2.1 b hb)
  exact hdigit _ d hd

/-- What is read as a number is one if it is ASCII. -/
theorem readAs_ascii (ascii : Ascii s) (n : Nat) :
    ReadAs past digit base s n ↔ Number digit base s n := by
  unfold ReadAs Number
  rw [runes_ascii past ascii, foldl_map]
  simp only [mem_map, forall_exists_index, and_imp, forall_apply_eq_imp_iff₂]

theorem Number.unique (hdigit : ∀ c d, digit c = some d → c < 128) {n m : Nat}
    (h : Number digit base s n) (h' : ReadAs past digit base s m) : n = m := by
  have h'' := (readAs_ascii past (h.ascii hdigit) m).mp h'
  exact Int.ofNat_inj.mp (h.2.2.trans h''.2.2.symm)

theorem numLoop_readAs (hdigit : ∀ c d, digit c = some d → 0 ≤ d) (hbase : 0 ≤ base)
    {noDigit tooBig s : Bytes} {limit n : Int} (hs : s ≠ [])
    (h : numLoop digit base limit noDigit tooBig 0 (runes past s) = .ok n) :
    ReadAs past digit base s n.toNat ∧ 0 ≤ n ∧ n ≤ limit := by
  obtain ⟨all, value, bound⟩ := numLoop_ok hdigit h
  have nonneg : ∀ (cs : List Nat) (v : Int), 0 ≤ v →
      0 ≤ cs.foldl (fun v c => v * base + (digit c).getD 0) v := by
    intro cs
    induction cs with
    | nil => exact fun v hv => hv
    | cons c cs ih =>
      intro v hv
      refine ih _ (Int.add_nonneg (Int.mul_nonneg hv hbase) ?_)
      cases hc : digit c with
      | none => exact le_rfl
      | some d => exact hdigit c d hc
  have low : 0 ≤ n := value ▸ nonneg _ 0 le_rfl
  have runes_ne : runes past s ≠ [] := by
    cases s with
    | nil => exact absurd rfl hs
    | cons a s => exact runes_cons_ne past a s
  exact ⟨⟨hs, all, by rw [Int.toNat_of_nonneg low]; exact value⟩, low, bound runes_ne⟩

end

theorem decDigit_ascii (c : Nat) (d : Int) (h : decDigit c = some d) : c < 128 := by
  unfold decDigit at h
  split_ifs at h
  omega

theorem hexDigit_ascii (c : Nat) (d : Int) (h : hexDigit c = some d) : c < 128 := by
  unfold hexDigit at h
  split_ifs at h <;> omega

theorem parseDec_readAs {s what : Bytes} {limit n : Int} (h : parseDec past s limit what = .ok n) :
    ReadAs past decDigit 10 s n.toNat ∧ 0 ≤ n ∧ n ≤ limit := by
  unfold parseDec at h
  split at h
  · exact absurd h (errf_ne_ok _ _)
  · exact numLoop_readAs past (fun c d hc => (decDigit_bounds c d hc).1) (by omega) ‹_› h

theorem parseHex_readAs {s what : Bytes} {limit n : Int} (h : parseHex past s limit what = .ok n) :
    ReadAs past hexDigit 16 s n.toNat ∧ 0 ≤ n ∧ n ≤ limit := by
  unfold parseHex at h
  split at h
  · exact absurd h (errf_ne_ok _ _)
  · exact numLoop_readAs past (fun c d hc => (hexDigit_bounds c d hc).1) (by omega) ‹_› h

/-- Chunks with these size fields and the trailers behind them, in front of `rest`: their text, and
the body that they make up. -/
inductive Chunks (rest : Bytes) : List (Bytes × Nat) → Bytes → Bytes → Prop
  /-- The chunk of size zero. -/
  | last {t line text : Bytes} : LineText t line (text ++ rest) → Trailers rest text →
      Chunks rest [(sizeText line, 0)] (t ++ text) []
  /-- A chunk with its bytes. -/
  | chunk {t line bytes text body : Bytes} {sizes : List (Bytes × Nat)} :
      LineText t line (bytes ++ ([13, 10] ++ text) ++ rest) → bytes ≠ [] →
      Chunks rest sizes text body →
      Chunks rest ((sizeText line, bytes.length) :: sizes) (t ++ (bytes ++ ([13, 10] ++ text)))
        (bytes ++ body)

/-- Two readings of the same bytes have the same size fields, if the sizes of the one are digits. -/
theorem Chunks.sizes_unique {rest rest' text text' body body' : Bytes}
    {sizes sizes' : List (Bytes × Nat)} (h : Chunks rest sizes text body)
    (h' : Chunks rest' sizes' text' body')
    (digits : ∀ f ∈ sizes, Number hexDigit 16 f.1 f.2)
    (read : ∀ f ∈ sizes', ReadAs past hexDigit 16 f.1 f.2)
    (same : text ++ rest = text' ++ rest') : sizes = sizes' := by
  induction h generalizing text' body' sizes' with
  | last line _ =>
    have size := digits _ (mem_singleton.mpr rfl)
    cases h' with
    | last line' _ =>
      rw [append_assoc, append_assoc] at same
      obtain ⟨-, rfl, -⟩ := line.unique line' same
      rfl
    | chunk line' full _ =>
      rw [append_assoc, append_assoc _ _ rest'] at same
      obtain ⟨-, rfl, -⟩ := line.unique line' same
      have readAs := read _ mem_cons_self
      have zero := size.unique past hexDigit_ascii readAs
      exact absurd (eq_nil_of_length_eq_zero zero.symm) full
  | chunk line full _ ih =>
    have size := digits _ mem_cons_self
    cases h' with
    | last line' _ =>
      rw [append_assoc, append_assoc _ _ rest'] at same
      obtain ⟨-, rfl, -⟩ := line.unique line' same
      have readAs := read _ (mem_singleton.mpr rfl)
      have zero := size.unique past hexDigit_ascii readAs
      exact absurd (eq_nil_of_length_eq_zero zero) full
    | chunk line' full' rest_chunks' =>
      rw [append_assoc, append_assoc _ _ rest'] at same
      obtain ⟨-, rfl, behind⟩ := line.unique line' same
      have readAs := read _ mem_cons_self
      have length := size.unique past hexDigit_ascii readAs
      rw [append_assoc _ _ rest, append_assoc _ _ rest'] at behind
      obtain ⟨rfl, tails⟩ := append_inj behind length
      rw [append_assoc, append_assoc] at tails
      rw [ih rest_chunks' (fun f hf => digits f (mem_cons_of_mem _ hf))
        (fun f hf => read f (mem_cons_of_mem _ hf)) (append_cancel_left tails)]

/-- The size fields that the loop over the chunks reads, each with what is left of the limit. -/
def sizeFields (max : Int) : Nat → Bytes → Stream → List (Bytes × Int)
  | 0, _, _ => []
  | n + 1, body, st =>
    match st.line with
    | .ok (some line, st) =>
      (sizeText line, max - body.length) ::
        match parseHex past (sizeText line) (max - body.length) (lit "chunk size") with
        | .ok size =>
          if size = 0 then []
          else
            match st.exact size with
            | .ok (chunk, st) =>
              match st.exact 2 with
              | .ok (sep, st) =>
                if sep ≠ [13, 10] then [] else sizeFields max n (body ++ chunk) st
              | .error _ => []
            | .error _ => []
        | .error _ => []
    | _ => []

theorem chunksLoop_succ (max : Int) (n : Nat) (body : Bytes) (st : Stream) :
    chunksLoop past max (n + 1) body st = st.line.bind fun p =>
      match p with
      | (none, _) => errf (lit "http: the stream ended before the final chunk")
      | (some line, st) =>
        (parseHex past (sizeText line) (max - body.length) (lit "chunk size")).bind fun size =>
          if size = 0 then (trailersLoop maxHeaders st).bind fun st => .ok (body, st)
          else
            (st.exact size).bind fun c =>
              (c.2.exact 2).bind fun s =>
                if s.1 ≠ [13, 10] then
                  errf (lit "http: chunk of " ++ intText size ++ lit " bytes is not followed by CRLF")
                else chunksLoop past max n (body ++ c.1) s.2 := by
  rw [chunksLoop]
  cases st.line with
  | error e => rfl
  | ok p =>
    obtain ⟨line, st'⟩ := p
    cases line <;> rfl

/-- The chunks are read calmly unless a size overflows. -/
theorem chunksLoop_calm_iff {max : Int} {n : Nat} {body : Bytes} {st : Stream} (sound : st.Sound)
    (fuel : st.bytes.length + 1 ≤ n) :
    Calm (chunksLoop past max n body st) ↔
      ∀ f ∈ sizeFields past max n body st, Overflows hexDigit 16 f.2 0 (runes past f.1) = false := by
  induction n generalizing body st with
  | zero => omega
  | succ n ih =>
    rw [chunksLoop_succ, sizeFields]
    cases hl : st.line with
    | error e => exact ⟨fun _ => nofun, fun _ => Calm.bind (hl ▸ line_calm st) nofun⟩
    | ok p =>
      obtain ⟨line, st₁⟩ := p
      rw [bind_ok]
      cases line with
      | none => exact ⟨fun _ => nofun, fun _ => (lit_safe (by simp)).calm⟩
      | some line =>
        obtain ⟨t, text, takes⟩ := line_some sound hl
        have size_calm : Calm (parseHex past (sizeText line) (max - body.length) (lit "chunk size")) ↔
            Overflows hexDigit 16 (max - body.length) 0 (runes past (sizeText line)) = false :=
          parseHex_calm_iff past (lit_safe (by simp))
        rw [forall_mem_cons, ← size_calm, calm_bind_iff, and_congr_right_iff]
        intro _
        cases hs : parseHex past (sizeText line) (max - body.length) (lit "chunk size") with
        | error e => exact ⟨fun _ => nofun, fun _ => nofun⟩
        | ok size =>
          rw [calm_ok_forall]
          dsimp only
          split
          · exact ⟨fun _ => nofun, fun _ =>
              Calm.bind (trailersLoop_calm _ _) fun _ _ => Calm.ok _⟩
          · rw [calm_bind_iff, and_iff_right (exact_calm _ _)]
            cases hx : st₁.exact size with
            | error e => exact ⟨fun _ => nofun, fun _ => nofun⟩
            | ok c =>
              obtain ⟨chunk, st₂⟩ := c
              rw [calm_ok_forall, calm_bind_iff, and_iff_right (exact_calm _ _)]
              dsimp only
              cases hsep : st₂.exact 2 with
              | error e => exact ⟨fun _ => nofun, fun _ => nofun⟩
              | ok s =>
                obtain ⟨sep, st₃⟩ := s
                rw [calm_ok_forall]
                dsimp only
                split
                · refine ⟨fun _ => nofun, fun _ => ?_⟩
                  exact (((lit_safe (by simp)).append (intText_safe _)).append
                    (lit_safe (by simp))).calm
                · have takes₂ := (exact_takes takes.1 hx).1
                  have takes₃ := (exact_takes takes₂.1 hsep).1
                  refine ih takes₃.1 ?_
                  have front := length_pos_iff.mpr text.ne_nil
                  rw [takes.2, takes₂.2, takes₃.2] at fuel
                  simp only [length_append] at fuel
                  omega

/-- Where the loop over the chunks gives a body, the text that it takes is chunks with the size
fields that it reads. -/
theorem chunksLoop_text {max : Int} {n : Nat} {body whole : Bytes} {st st' : Stream}
    (sound : st.Sound) (h : chunksLoop past max n body st = .ok (whole, st')) :
    ∃ t more sizes, whole = body ++ more ∧ Chunks st'.bytes sizes t more ∧ st.Takes t st' ∧
      (∀ f ∈ sizes, ReadAs past hexDigit 16 f.1 f.2) ∧ (whole.length : Int) ≤ max ∧
      (sizeFields past max n body st).map Prod.fst = sizes.map Prod.fst := by
  induction n generalizing body st with
  | zero => cases h
  | succ n ih =>
    rw [chunksLoop_succ] at h
    rw [sizeFields]
    cases hl : st.line with
    | error e => rw [hl] at h; cases h
    | ok p =>
      obtain ⟨line, st₁⟩ := p
      rw [hl, bind_ok] at h
      cases line with
      | none => exact absurd h (errf_ne_ok _ _)
      | some line =>
        obtain ⟨t, text, takes⟩ := line_some sound hl
        dsimp only at h
        cases hs : parseHex past (sizeText line) (max - body.length) (lit "chunk size") with
        | error e => rw [hs] at h; exact absurd h nofun
        | ok size =>
          obtain ⟨readAs, low, bound⟩ := parseHex_readAs past hs
          rw [hs, bind_ok] at h
          simp only [hs]
          by_cases zero : size = 0
          · rw [if_pos zero] at h
            rw [if_pos zero]
            cases ht : trailersLoop maxHeaders st₁ with
            | error e => rw [ht] at h; cases h
            | ok st₂ =>
              rw [ht, bind_ok] at h
              cases h
              obtain ⟨u, trailers, rest⟩ := trailersLoop_text takes.1 ht
              rw [rest.2] at text
              rw [zero] at readAs
              refine ⟨t ++ u, [], _, (List.append_nil _).symm, .last text trailers,
                takes.trans rest, ?_, by omega, rfl⟩
              intro f hf
              obtain rfl := mem_singleton.mp hf
              exact readAs
          · rw [if_neg zero] at h
            rw [if_neg zero]
            cases hx : st₁.exact size with
            | error e => rw [hx] at h; cases h
            | ok c =>
              obtain ⟨chunk, st₂⟩ := c
              obtain ⟨takes₂, length⟩ := exact_takes takes.1 hx
              rw [hx, bind_ok] at h
              dsimp only at h ⊢
              cases hsep : st₂.exact 2 with
              | error e => rw [hsep] at h; exact absurd h nofun
              | ok sp =>
                obtain ⟨sep, st₃⟩ := sp
                have takes₃ := (exact_takes takes₂.1 hsep).1
                rw [hsep, bind_ok] at h
                dsimp only at h ⊢
                by_cases crlf : sep = [13, 10]
                · rw [if_neg (not_not_intro crlf)] at h
                  rw [if_neg (not_not_intro crlf)]
                  obtain ⟨u, more, sizes, rfl, chunks, rest, read, fits, fields⟩ :=
                    ih takes₃.1 h
                  rw [crlf] at takes₃
                  have taken := (takes.trans takes₂).trans (takes₃.trans rest)
                  rw [← length] at readAs
                  have full : chunk ≠ [] := by
                    intro hc
                    rw [hc, length_nil] at length
                    omega
                  rw [takes₂.2, takes₃.2, rest.2] at text
                  have text' : LineText t line (chunk ++ ([13, 10] ++ u) ++ st'.bytes) := by
                    simpa only [append_assoc] using text
                  refine ⟨t ++ (chunk ++ ([13, 10] ++ u)), chunk ++ more, _,
                    append_assoc _ _ _, .chunk text' full chunks, ?_, ?_, fits, ?_⟩
                  · simpa only [append_assoc] using taken
                  · intro f hf
                    cases mem_cons.mp hf with
                    | inl hf => exact hf ▸ readAs
                    | inr hf => exact read f hf
                  · rw [map_cons, map_cons, fields]
                · rw [if_pos crlf] at h
                  exact absurd h (errf_ne_ok _ _)

/-! ### One framing -/

/-- A value of a Transfer-Encoding field that says chunked. -/
def SaysChunked (v : Bytes) : Prop := equalFold (trim v) (lit "chunked") = true

/-- The bytes that a message with these headers has as its body, and the body that they say, within
a limit and in front of `rest`. -/
inductive Framing (hs : Headers) (max : Int) (rest : Bytes) : Bytes → Bytes → Prop
  /-- A message that says nothing has no body. -/
  | none : hs.has nameTE = false → hs.has nameCL = false → Framing hs max rest [] []
  /-- Every Content-Length says how long the body is. -/
  | length {body : Bytes} : hs.has nameTE = false → hs.has nameCL = true →
      (∀ v ∈ hs.all nameCL, Number decDigit 10 (trim v) body.length) → (body.length : Int) ≤ max →
      Framing hs max rest body body
  /-- Every Transfer-Encoding says that it is chunked. -/
  | chunked {sizes : List (Bytes × Nat)} {text body : Bytes} : hs.has nameTE = true →
      hs.has nameCL = false → (∀ v ∈ hs.all nameTE, SaysChunked v) →
      (∀ f ∈ sizes, Number hexDigit 16 f.1 f.2) → Chunks rest sizes text body →
      (body.length : Int) ≤ max → Framing hs max rest text body

/-- `recv_request` gives a request or an error value, and a request has its body under one
framing. -/
def FramesOnce (st : Stream) (max : Int) : Prop :=
  Calm (recvRequest past st max) ∧
    ∀ req st', recvRequest past st max = .ok (req, st') →
      ∃ head parts text, HeadText past head parts req.headers (text ++ st'.bytes) ∧
        st.bytes = head ++ (text ++ st'.bytes) ∧ Framing req.headers max st'.bytes text req.body

/-- The chunks behind a head whose first Transfer-Encoding says chunked: no size leaves the `int`
range, and where they read to their end every Transfer-Encoding says chunked and every size is
ASCII. -/
def PlainChunks (hs : Headers) (st : Stream) (max : Int) : Prop :=
  let fields := sizeFields past max (st.bytes.length + 1) [] st
  (∀ f ∈ fields, Overflows hexDigit 16 f.2 0 (runes past f.1) = false) ∧
    ((readChunked past st max).isOk = true →
      (∀ v ∈ hs.all nameTE, SaysChunked v) ∧ ∀ f ∈ fields, Ascii f.1)

/-- The lengths of a head: where two differ they have no verb in them, and else the length does not
leave the `int` range, and is ASCII where the body is there. -/
def PlainLength (hs : Headers) (st : Stream) (max : Int) : Prop :=
  let first := (hs.all nameCL).headD []
  match otherLength (hs.all nameCL) with
  | some v => Safe first ∧ Safe v
  | none =>
    Overflows decDigit 10 max 0 (runes past (trim first)) = false ∧
      ((readBody past st hs max false).isOk = true → Ascii (trim first))

/-- What follows a head. -/
def PlainBody (hs : Headers) (st : Stream) (max : Int) : Prop :=
  (hs.has nameTE = true → SaysChunked (hs.get nameTE) → hs.has nameCL = false →
    PlainChunks past hs st max) ∧
  (hs.has nameTE = false → hs.has nameCL = true → PlainLength past hs st max)

/-- A body comes calmly and under one framing. -/
def BodyOnce (hs : Headers) (max : Int) (st : Stream) (x : Except Fail (Bytes × Stream)) : Prop :=
  Calm x ∧ ∀ body st', x = .ok (body, st') →
    ∃ text, st.bytes = text ++ st'.bytes ∧ Framing hs max st'.bytes text body

theorem BodyOnce.of_err {hs : Headers} {max : Int} {st : Stream} {fmt : Bytes} (h : Safe fmt) :
    BodyOnce hs max st (errf fmt) :=
  ⟨h.calm, fun _ _ e => absurd e (errf_ne_ok _ _)⟩

variable {past} {hs : Headers} {st : Stream} {max : Int}

theorem ascii_of_fields {fields : List (Bytes × Int)} {sizes : List (Bytes × Nat)}
    (h : fields.map Prod.fst = sizes.map Prod.fst) :
    (∀ f ∈ fields, Ascii f.1) ↔ ∀ f ∈ sizes, Ascii f.1 := by
  have names : (∀ s ∈ fields.map Prod.fst, Ascii s) ↔ ∀ s ∈ sizes.map Prod.fst, Ascii s := by rw [h]
  simpa only [forall_mem_map] using names

theorem chunked_iff (sound : st.Sound) (te : hs.has nameTE = true) (cl : hs.has nameCL = false) :
    BodyOnce hs max st (readChunked past st max) ↔ PlainChunks past hs st max := by
  have calm : Calm (readChunked past st max) ↔ _ := chunksLoop_calm_iff past sound le_rfl
  refine and_congr calm ?_
  constructor
  · intro h accepted
    cases hr : readChunked past st max with
    | error e => rw [hr] at accepted; exact absurd accepted (by simp [Except.isOk, Except.toBool])
    | ok r =>
      obtain ⟨body, st'⟩ := r
      obtain ⟨u, more, sizes, -, chunks, takes', read, -, fields⟩ := chunksLoop_text past sound hr
      obtain ⟨t, split, framing⟩ := h body st' hr
      cases framing with
      | none te' => exact absurd (te.symm.trans te') (by simp)
      | length te' => exact absurd (te.symm.trans te') (by simp)
      | chunked _ _ chunked digits chunks' =>
        refine ⟨chunked, (ascii_of_fields fields).mpr ?_⟩
        rw [← chunks'.sizes_unique past chunks digits read (split.symm.trans takes'.2)]
        intro f hf
        exact (digits f hf).ascii hexDigit_ascii
  · intro h body st' hr
    obtain ⟨t, more, sizes, rfl, chunks, takes, read, fits, fields⟩ := chunksLoop_text past sound hr
    obtain ⟨chunked, ascii⟩ := h (by rw [hr]; rfl)
    refine ⟨t, takes.2, .chunked te cl chunked (fun f hf => ?_) chunks fits⟩
    have plain := (ascii_of_fields fields).mp ascii f hf
    exact (readAs_ascii past plain f.2).mp (read f hf)

theorem mem_all_has {name : Bytes} : (hs.all name = []) ↔ hs.has name = false := by
  unfold Headers.all Headers.has
  rw [map_eq_nil_iff, filter_eq_nil_iff, any_eq_false]

/-- The text of two lengths that differ is a format without verbs if the lengths are. -/
theorem lengths_safe_iff {first v : Bytes} :
    Safe (lit "http: Content-Length given twice with different values (" ++ first ++ lit " and " ++ v ++
      lit ")") ↔ Safe first ∧ Safe v := by
  have close : lit ")" = ch ')' :: [] := by simp [lit]; rfl
  have middle : lit " and " = ch ' ' :: lit "and " := by simp [lit]; rfl
  rw [append_assoc, append_assoc, append_assoc, lit_safe_append (by simp), middle,
    cons_append, safe_append_iff (by decide), lit_safe_append (by simp), close,
    safe_append_iff (by decide)]
  exact and_congr_right fun _ => and_iff_left rfl

theorem length_iff (sound : st.Sound) (te : hs.has nameTE = false) (cl : hs.has nameCL = true) :
    BodyOnce hs max st (readBody past st hs max false) ↔ PlainLength past hs st max := by
  have body_eq : readBody past st hs max false =
      match otherLength (hs.all nameCL) with
      | some v =>
        errf (lit "http: Content-Length given twice with different values (" ++
          (hs.all nameCL).headD [] ++ lit " and " ++ v ++ lit ")")
      | none =>
        (parseDec past (trim ((hs.all nameCL).headD [])) max (lit "Content-Length")).bind st.exact := by
    unfold readBody
    rw [if_neg (by rw [te]; simp), if_pos cl]
    rfl
  unfold PlainLength
  rw [body_eq]
  cases other : otherLength (hs.all nameCL) with
  | some v =>
    dsimp only
    rw [← lengths_safe_iff]
    exact ⟨fun h => (errf_calm_iff _).mp h.1, fun h => .of_err h⟩
  | none =>
    have all_first : ∀ v ∈ hs.all nameCL, v = (hs.all nameCL).headD [] := by
      intro v hv
      have same := List.find?_eq_none.mp other v hv
      simpa using same
    have first_mem : (hs.all nameCL).headD [] ∈ hs.all nameCL := by
      cases hv : hs.all nameCL with
      | nil => exact absurd (mem_all_has.mp hv) (by rw [cl]; simp)
      | cons v vs => exact mem_cons_self
    refine and_congr ?_ ?_
    · rw [calm_bind_iff, parseDec_calm_iff past (lit_safe (by simp))]
      exact and_iff_left fun n _ => exact_calm st n
    · constructor
      · intro h accepted
        cases hr : (parseDec past (trim ((hs.all nameCL).headD [])) max (lit "Content-Length")).bind
            st.exact with
        | error e => rw [hr] at accepted; exact absurd accepted (by simp [Except.isOk, Except.toBool])
        | ok r =>
          obtain ⟨body, st'⟩ := r
          obtain ⟨t, -, framing⟩ := h body st' hr
          cases framing with
          | none _ cl' => exact absurd (cl.symm.trans cl') (by simp)
          | length _ _ digits => exact (digits _ first_mem).ascii decDigit_ascii
          | chunked te' => exact absurd (te.symm.trans te') (by simp)
      · intro h body st' hr
        have ascii := h (by rw [hr]; rfl)
        cases hn : parseDec past (trim ((hs.all nameCL).headD [])) max (lit "Content-Length") with
        | error e => rw [hn] at hr; exact absurd hr nofun
        | ok n =>
          rw [hn, bind_ok] at hr
          obtain ⟨readAs, low, bound⟩ := parseDec_readAs past hn
          obtain ⟨takes, length⟩ := exact_takes sound hr
          have number := (readAs_ascii past ascii n.toNat).mp readAs
          refine ⟨body, takes.2, .length te cl (fun v hv => ?_) (by omega)⟩
          rw [all_first v hv, length]
          exact number

/-- A body comes calmly and under one framing exactly if what follows the head is plain. -/
theorem body_iff (sound : st.Sound) :
    BodyOnce hs max st (requestBody past st hs max) ↔ PlainBody past hs st max := by
  unfold requestBody PlainBody
  cases te : hs.has nameTE with
  | true =>
    rw [if_pos (.inl rfl)]
    unfold readBody
    rw [if_pos te]
    by_cases chunked : equalFold (trim (hs.get nameTE)) (lit "chunked") = true
    · rw [if_neg (not_not_intro chunked)]
      cases cl : hs.has nameCL with
      | true =>
        rw [if_pos rfl]
        exact ⟨fun _ => ⟨nofun, nofun⟩, fun _ => .of_err (lit_safe (by simp))⟩
      | false =>
        rw [if_neg (by simp), chunked_iff sound te cl]
        exact ⟨fun h => ⟨fun _ _ _ => h, nofun⟩, fun h => h.1 rfl chunked rfl⟩
    · rw [if_pos chunked]
      refine ⟨fun _ => ⟨fun _ h => absurd h chunked, nofun⟩, fun _ => .of_err ?_⟩
      exact ((lit_safe (by simp)).append (brief_safe past _)).append (lit_safe (by simp))
  | false =>
    cases cl : hs.has nameCL with
    | true =>
      rw [if_pos (.inr rfl), length_iff sound te cl]
      exact ⟨fun h => ⟨nofun, fun _ _ => h⟩, fun h => h.2 rfl rfl⟩
    | false =>
      rw [if_neg (by simp)]
      refine ⟨fun _ => ⟨nofun, nofun⟩, fun _ => ⟨Calm.ok _, fun body st' h => ?_⟩⟩
      cases h
      exact ⟨[], rfl, .none te cl⟩

theorem recvRequest_eq (st : Stream) (max : Int) :
    recvRequest past st max = (recvHead past st).bind fun p =>
      (requestBody past p.2.2 p.2.1 max).bind fun q =>
        .ok (⟨p.1.1, p.1.2.1, (splitQuery p.1.2.1).1, (splitQuery p.1.2.1).2, p.1.2.2, p.2.1, q.1⟩,
          q.2) := by
  unfold recvRequest
  rfl

variable (past)

/-- A request that says first that it is chunked and then that it is compressed. -/
def twoCodings : Conn :=
  ⟨lit "POST / HTTP/1.0\r\nTransfer-Encoding: chunked\r\nTransfer-Encoding: gzip\r\n\r\n0\r\n\r\n", []⟩

end Voila.Http
