import Voila.Rt.Json

/-!
# Voila.Csv.Csv

`csv.voi`: the scanner of one record, `decode` and the `Reader` over it, and what `encode` and the
`Writer` render.

A position in a text is what is left of the text from there; the length of the text is given as well,
since an index past its end is a fault that names both.
-/

open List

namespace Voila.Csv

open Voila.Rt (Bytes printNat)
open Voila.Rt.Json (ch putUtf8)

/-- What is thrown. -/
inductive Stop where
  /-- A string index out of bounds: the index and the length. -/
  | index (i len : Nat)
  /-- A `FormatError`. -/
  | format (msg : Bytes)
  deriving DecidableEq

/-- The `FormatError` behind the `n`-th record. -/
def unterminated (n : Nat) : Stop :=
  .format ((("csv: unterminated quoted field after record ".toList).map ch) ++ printNat n)

/-! ### Scanning -/

/-- The blank lines at the front. -/
def skipBlank : Bytes → Bytes
  | [] => []
  | c :: s =>
    if c = ch '\n' then skipBlank s
    else if c = ch '\r' then
      match s with
      | d :: s' => if d = ch '\n' then skipBlank s' else c :: s
      | [] => c :: s
    else c :: s

/-- The loop over a quoted field, from behind its opening quote: `b` is what has been copied, and
`run` what is between the last escaped quote and here. -/
@[simp] def quotedLoop (more : Bool) (b run : Bytes) : Bytes → Option (Bytes × Bytes)
  | [] => none
  | c :: s =>
    if c = ch '"' then
      match s with
      | [] => if more then none else some (b ++ run, [])
      | d :: s' =>
        if d = ch '"' then quotedLoop more (b ++ (run ++ [c])) [] s' else some (b ++ run, s)
    else quotedLoop more b (run ++ [c]) s

/-- The body of a field without quotes goes on. -/
def inTail (sep : Nat) (c : UInt8) : Bool := c.toNat ≠ sep ∧ c ≠ ch '\n'

/-- What is left of the body when what follows it is `s`. -/
def trimTail (tail s : Bytes) : Bytes :=
  if s ≠ [] ∧ tail.getLast? = some (ch '\r') then tail.dropLast else tail

/-- The body without quotes behind what is in quotes, if anything is, and what follows the field. -/
def scanTail (sep : Nat) (value s : Bytes) : Bytes × Bytes :=
  let after := s.dropWhile (inTail sep)
  (value ++ trimTail (s.takeWhile (inTail sep)) after, after)

/-- One field, with what follows it; `none` where the input ends inside it. -/
def scanField (sep : Nat) (more : Bool) (len : Nat) (s : Bytes) : Except Stop (Option (Bytes × Bytes)) :=
  match s with
  | [] => .error (.index len len)
  | c :: rest =>
    if c = ch '"' then .ok ((quotedLoop more [] [] rest).map fun p => scanTail sep p.1 p.2)
    else .ok (some (scanTail sep [] s))

/-- What `scan_record` answers. -/
inductive Scan where
  /-- A record, or blank lines where there are no fields, and what is left. -/
  | record (fields : List Bytes) (next : Bytes)
  /-- The input ends in the middle of a record. -/
  | unfinished
  deriving DecidableEq

/-- The loop over the fields of a record. -/
def fieldsLoop (sep : Nat) (more : Bool) (len : Nat) : Nat → List Bytes → Bytes → Except Stop Scan
  | 0, _, _ => .ok .unfinished
  | n + 1, fields, s =>
    match scanField sep more len s with
    | .error e => .error e
    | .ok none => .ok .unfinished
    | .ok (some (value, after)) =>
      let fields := fields ++ [value]
      match after with
      | [] => if more then .ok .unfinished else .ok (.record fields [])
      | c :: next =>
        if c.toNat = sep then fieldsLoop sep more len n fields next else .ok (.record fields next)

/-- `scan_record`, from `s` on in a text of length `len`. -/
def scanRecord (sep : Nat) (more : Bool) (len : Nat) (s : Bytes) : Except Stop Scan :=
  let s := skipBlank s
  if s = [] then .ok (.record [] []) else fieldsLoop sep more len (s.length + 1) [] s

/-- The records read, and what was thrown behind them. -/
abbrev Outcome := List (List Bytes) × Option Stop

/-- The loop of `decode`. -/
def decodeLoop (sep : Nat) (len : Nat) : Nat → List (List Bytes) → Bytes → Outcome
  | 0, out, _ => (out, none)
  | k + 1, out, s =>
    match scanRecord sep false len s with
    | .error e => (out, some e)
    | .ok .unfinished => (out, some (unterminated out.length))
    | .ok (.record fields next) =>
      if fields = [] then (out, none) else decodeLoop sep len k (out ++ [fields]) next

/-- `decode` with a separator. -/
def decodeWith (sep : Nat) (text : Bytes) : Outcome :=
  decodeLoop sep text.length (text.length + 1) [] text

def comma : Nat := ','.toNat

/-- `decode`. -/
def decode (text : Bytes) : Except Stop (List (List Bytes)) :=
  match decodeWith comma text with
  | (recs, none) => .ok recs
  | (_, some e) => .error e

/-! ### The reader -/

/-- `Reader`, over a source that is the lines it will deliver; `pos` is the position `at` in `buf`. -/
structure Reader where
  src : List Bytes
  sep : Nat
  buf : Bytes
  pos : Nat
  eof : Bool
  n : Nat

/-- `reader`. -/
def reader (src : List Bytes) : Reader where
  src := src
  sep := comma
  buf := []
  pos := 0
  eof := false
  n := 0

/-- `Reader.fill`. -/
def Reader.fill (rd : Reader) : Reader :=
  match rd.src with
  | [] => { rd with eof := true }
  | chunk :: src => if chunk = [] then { rd with eof := true, src } else { rd with buf := rd.buf ++ chunk, src }

/-- `Reader.compact`. -/
def Reader.compact (rd : Reader) : Reader := { rd with buf := rd.buf.drop rd.pos, pos := 0 }

/-- The loop of `Reader.next`; `none` is the end of the input. -/
def Reader.nextLoop : Nat → Reader → Except Stop (Option (List Bytes)) × Reader
  | 0, rd => (.ok none, rd)
  | k + 1, rd =>
    match scanRecord rd.sep (!rd.eof) rd.buf.length (rd.buf.drop rd.pos) with
    | .error e => (.error e, rd)
    | .ok (.record fields next) =>
      let rd := { rd with pos := rd.buf.length - next.length }.compact
      if fields ≠ [] then (.ok (some fields), { rd with n := rd.n + 1 })
      else if rd.eof then (.ok none, rd)
      else nextLoop k rd.fill
    | .ok .unfinished => if rd.eof then (.error (unterminated rd.n), rd) else nextLoop k rd.fill

/-- `Reader.next`. -/
def Reader.next (rd : Reader) : Except Stop (Option (List Bytes)) × Reader :=
  rd.nextLoop (rd.src.length + 2)

/-- The loop of `Reader.all`. -/
def Reader.allLoop : Nat → List (List Bytes) → Reader → Outcome
  | 0, out, _ => (out, none)
  | k + 1, out, rd =>
    match rd.next with
    | (.error e, _) => (out, some e)
    | (.ok none, _) => (out, none)
    | (.ok (some fields), rd) => allLoop k (out ++ [fields]) rd

/-- `Reader.all`. -/
def Reader.all (rd : Reader) : Outcome := rd.allLoop (rd.buf.length + rd.src.flatten.length + 1) []

/-- The lines of a text, each with its line feed; `line` is what is read of the one at hand. -/
def linesFrom (line : Bytes) : Bytes → List Bytes
  | [] => if line = [] then [] else [line]
  | c :: s => if c = ch '\n' then (line ++ [c]) :: linesFrom [] s else linesFrom (line ++ [c]) s

/-- What `read_line` delivers of a text, one after the other. -/
def lines (text : Bytes) : List Bytes := linesFrom [] text

/-! ### Rendering -/

/-- `needs_quotes`. -/
def needsQuotes (f : Bytes) (sep : Nat) : Bool :=
  let blank (c : Option UInt8) := c == some (ch ' ') || c == some (ch '\t')
  f ≠ [] ∧ (blank f.head? ∨ blank f.getLast? ∨
    f.any fun c => c.toNat = sep ∨ c = ch '"' ∨ c = ch '\n' ∨ c = ch '\r')

/-- `quote`. -/
def quote (f : Bytes) (sep : Nat) : Bytes :=
  if needsQuotes f sep then
    [ch '"'] ++ f.flatMap (fun c => if c = ch '"' then [c, c] else [c]) ++ [ch '"']
  else f

/-- `render`. -/
def render (rec : List Bytes) (sep : Nat) (crlf : Bool) : Bytes :=
  (putUtf8 sep).intercalate (rec.map (quote · sep)) ++ if crlf then [ch '\r', ch '\n'] else [ch '\n']

/-- `encode`. -/
def encode (recs : List (List Bytes)) : Bytes := recs.flatMap (render · comma false)

/-- `Writer`, with what has been written. -/
structure Writer where
  dst : Bytes
  sep : Nat
  crlf : Bool

/-- `Writer.write`. -/
def Writer.write (w : Writer) (rec : List Bytes) : Writer :=
  { w with dst := w.dst ++ render rec w.sep w.crlf }

/-- `Writer.write_all`. -/
def Writer.writeAll (w : Writer) (recs : List (List Bytes)) : Writer := recs.foldl Writer.write w

end Voila.Csv

/-!
What a text holds (`Decodes`): its records, one after the other, up to the end of the text, a quoted
field that is not closed, or a separator that nothing follows.

`decode` (`decodeWith_decodes`) and a reader of the lines of the text (`all_decodes`) both find what it
holds, and a writer writes texts that hold the records it is given, but for those of one empty field
(`written_decodes`). Where a text ends in all this is told by its last byte and what goes before it
(`ending`).
-/

namespace Voila.Csv

open Voila.Rt (Bytes)
open Voila.Rt.Json (ch)

/-! ### Where a text ends -/

/-- Where a byte of a text stands. -/
inductive Mode where
  /-- At the beginning of a line. -/
  | line
  /-- Right behind a separator. -/
  | field
  /-- In a field outside quotes. -/
  | plain
  /-- In quotes. -/
  | quoted
  /-- Behind a quote in a quoted field. -/
  | closing
  deriving DecidableEq

/-- Behind a byte outside quotes. -/
def outside (sep : Nat) (c : UInt8) : Mode :=
  if c = ch '\n' then .line else if c.toNat = sep then .field else .plain

/-- Behind the next byte. -/
def Mode.step (sep : Nat) (m : Mode) (c : UInt8) : Mode :=
  match m with
  | .line => if c = ch '"' then .quoted else outside sep c
  | .field => if c = ch '"' then .quoted else outside sep c
  | .plain => outside sep c
  | .quoted => if c = ch '"' then .closing else .quoted
  | .closing => if c = ch '"' then .quoted else outside sep c

/-- Where a text ends that starts at `m`. -/
def ending (sep : Nat) (m : Mode) (s : Bytes) : Mode := s.foldl (Mode.step sep) m

/-- A field can start here. -/
def Mode.Starts (m : Mode) : Prop := m = .line ∨ m = .field

section
variable {sep : Nat}

@[simp] theorem ending_nil (m : Mode) : ending sep m [] = m := rfl

@[simp] theorem ending_cons (m : Mode) (c : UInt8) (s : Bytes) :
    ending sep m (c :: s) = ending sep (m.step sep c) s := rfl

@[simp] theorem ending_append (m : Mode) (s t : Bytes) :
    ending sep m (s ++ t) = ending sep (ending sep m s) t := foldl_append

variable {c : UInt8} {m : Mode} {more : Bool} {t s : Bytes} {len : Nat}

theorem step_outside (h : m ≠ .quoted) (hc : c ≠ ch '"') : m.step sep c = outside sep c := by
  cases m with
  | quoted => exact absurd rfl h
  | plain => rfl
  | line => rw [Mode.step, if_neg hc]
  | field => rw [Mode.step, if_neg hc]
  | closing => rw [Mode.step, if_neg hc]

theorem step_lf (h : m ≠ .quoted) : m.step sep (ch '\n') = .line :=
  (step_outside h (by decide)).trans (if_pos rfl)

theorem step_sep (hq : sep ≠ (ch '"').toNat) (hn : sep ≠ (ch '\n').toNat) (h : m ≠ .quoted)
    (hc : c.toNat = sep) : m.step sep c = .field := by
  have noFeed : c ≠ ch '\n' := fun feed => hn (feed ▸ hc.symm)
  have noQuote : c ≠ ch '"' := fun quote => hq (quote ▸ hc.symm)
  rw [step_outside h noQuote, outside, if_neg noFeed, if_pos hc]

theorem step_quote (h : m.Starts) : m.step sep (ch '"') = .quoted := by
  cases h with
  | inl h => rw [h, Mode.step, if_pos rfl]
  | inr h => rw [h, Mode.step, if_pos rfl]

theorem quote_closes (sep : Nat) : Mode.step sep .quoted (ch '"') = .closing := by rw [Mode.step, if_pos rfl]

theorem quote_opens (sep : Nat) : Mode.step sep .closing (ch '"') = .quoted := by rw [Mode.step, if_pos rfl]

/-- The blank lines at the front end at the beginning of a line. -/
theorem skipBlank_split (sep : Nat) (s : Bytes) : ∃ blanks, s = blanks ++ skipBlank s ∧
    ending sep .line blanks = .line := by
  fun_induction skipBlank s with
  | case1 => exact ⟨[], rfl, rfl⟩
  | case2 s ih =>
    obtain ⟨blanks, eq, ends⟩ := ih
    refine ⟨ch '\n' :: blanks, by rw [cons_append, ← eq], ?_⟩
    have start : Mode.step sep .line (ch '\n') = .line := step_lf (by decide)
    rw [ending_cons, start]
    exact ends
  | case3 s _ ih =>
    obtain ⟨blanks, eq, ends⟩ := ih
    refine ⟨ch '\r' :: ch '\n' :: blanks, by rw [cons_append, cons_append, ← eq], ?_⟩
    have outer : Mode.step sep .line (ch '\r') ≠ .quoted := by
      rw [step_outside (by decide) (by decide), outside, if_neg (by decide)]
      split <;> decide
    rw [ending_cons, ending_cons, step_lf outer]
    exact ends
  | case4 => exact ⟨[], rfl, rfl⟩
  | case5 => exact ⟨[], rfl, rfl⟩
  | case6 => exact ⟨[], rfl, rfl⟩

/-! ### In quotes -/

theorem quotedLoop_byte (h : c ≠ ch '"') (more : Bool) (b run s : Bytes) :
    quotedLoop more b run (c :: s) = quotedLoop more b (run ++ [c]) s := by
  cases s with
  | nil => simp only [quotedLoop, if_neg h]
  | cons d s => rw [quotedLoop, if_neg h]

theorem quotedLoop_escape (more : Bool) (b run s : Bytes) :
    quotedLoop more b run (ch '"' :: ch '"' :: s) = quotedLoop more (b ++ (run ++ [ch '"'])) [] s := by
  rw [quotedLoop, if_pos rfl, if_pos rfl]

theorem quotedLoop_close {d : UInt8} (h : d ≠ ch '"') (more : Bool) (b run s : Bytes) :
    quotedLoop more b run (ch '"' :: d :: s) = some (b ++ run, d :: s) := by
  rw [quotedLoop, if_pos rfl, if_neg h]

/-- What is in quotes, up to the closing quote. -/
theorem quotedLoop_some (sep : Nat) {b run s value after : Bytes}
    (h : quotedLoop more b run s = some (value, after)) :
    (∃ t, s = t ++ after ∧ ending sep .quoted t = .closing) ∧ (∀ c ∈ after.head?, c ≠ ch '"') ∧
      (after = [] → more = false) := by
  fun_induction quotedLoop more b run s with
  | case1 => cases h
  | case2 => cases h
  | case3 b run more =>
    cases h
    exact ⟨⟨[ch '"'], rfl, quote_closes sep⟩, nofun, fun _ => by simpa using more⟩
  | case4 b run s ih =>
    obtain ⟨⟨t, eq, ends⟩, next⟩ := ih h
    refine ⟨⟨ch '"' :: ch '"' :: t, by rw [eq]; rfl, ?_⟩, next⟩
    rw [ending_cons, ending_cons, quote_closes, quote_opens]
    exact ends
  | case5 b run d s other =>
    cases h
    refine ⟨⟨[ch '"'], rfl, quote_closes sep⟩, fun c hc => ?_, nofun⟩
    cases hc
    exact other
  | case6 b run c s other ih =>
    obtain ⟨⟨t, eq, ends⟩, next⟩ := ih h
    refine ⟨⟨c :: t, by rw [eq]; rfl, ?_⟩, next⟩
    have stays : Mode.step sep .quoted c = .quoted := if_neg other
    rw [ending_cons, stays]
    exact ends

/-- The input ends in quotes, or may do so. -/
theorem quotedLoop_none (sep : Nat) {b run s : Bytes} (h : quotedLoop more b run s = none) :
    ending sep .quoted s = .quoted ∨ more = true ∧ ending sep .quoted s = .closing := by
  fun_induction quotedLoop more b run s with
  | case1 => exact .inl rfl
  | case2 b run more => exact .inr ⟨more, quote_closes sep⟩
  | case3 => cases h
  | case4 b run s ih =>
    rw [ending_cons, ending_cons, quote_closes, quote_opens]
    exact ih h
  | case5 => cases h
  | case6 b run c s other ih =>
    have stays : Mode.step sep .quoted c = .quoted := if_neg other
    rw [ending_cons, stays]
    exact ih h

/-- A quoted field that is closed within the text stays so when the text goes on. -/
theorem quotedLoop_append {b run s value after : Bytes} (h : quotedLoop true b run s = some (value, after))
    (more : Bool) (q : Bytes) : quotedLoop more b run (s ++ q) = some (value, after ++ q) := by
  generalize whole : true = m at h
  fun_induction quotedLoop m b run s with
  | case1 => cases h
  | case2 => cases h
  | case3 b run no => exact absurd whole.symm no
  | case4 b run s ih =>
    rw [cons_append, cons_append, quotedLoop_escape]
    exact ih h
  | case5 b run d s other =>
    cases h
    exact quotedLoop_close other more _ _ _
  | case6 b run c s other ih =>
    rw [cons_append, quotedLoop_byte other]
    exact ih h

/-! ### A field -/

theorem inTail_iff : inTail sep c = true ↔ c.toNat ≠ sep ∧ c ≠ ch '\n' := by
  simp [inTail]

theorem plain_tail (h : ∀ c ∈ t, inTail sep c = true) : ending sep .plain t = .plain := by
  induction t with
  | nil => rfl
  | cons c t ih =>
    obtain ⟨noSep, noFeed⟩ := inTail_iff.mp (h c mem_cons_self)
    have stays : Mode.step sep .plain c = .plain := by
      rw [Mode.step, outside, if_neg noFeed, if_neg noSep]
    rw [ending_cons, stays]
    exact ih fun d hd => h d (mem_cons_of_mem _ hd)

/-- The body of a field outside quotes. -/
theorem ending_tail (hm : m ≠ .quoted) (h : ∀ c ∈ t, inTail sep c = true)
    (first : ∀ c ∈ t.head?, c ≠ ch '"') : t = [] ∨ ending sep m t = .plain := by
  cases t with
  | nil => exact .inl rfl
  | cons c t =>
    obtain ⟨noSep, noFeed⟩ := inTail_iff.mp (h c mem_cons_self)
    have out : m.step sep c = .plain := by
      rw [step_outside hm (first c rfl), outside, if_neg noFeed, if_neg noSep]
    refine .inr ?_
    rw [ending_cons, out]
    exact plain_tail fun d hd => h d (mem_cons_of_mem _ hd)

/-- What follows the body of a field ends the field. -/
def Ends (sep : Nat) (after : Bytes) : Prop := ∀ c ∈ after.head?, c.toNat = sep ∨ c = ch '\n'

theorem dropWhile_ends (s : Bytes) : Ends sep (s.dropWhile (inTail sep)) := by
  intro c hc
  have stops := head?_dropWhile_not (inTail sep) s
  rw [Option.mem_def.mp hc] at stops
  by_contra neither
  exact absurd (inTail_iff.mpr (not_or.mp neither)) (by simpa using stops)

/-- What `scanField` finds. -/
inductive FieldAt (sep : Nat) (more : Bool) (m : Mode) : Bytes → Option (Bytes × Bytes) → Prop
  /-- A field, and what follows it. -/
  | some (t value : Bytes) {after : Bytes} : ending sep m t ≠ .quoted →
      (t = [] ∨ ending sep m t = .plain ∨ ending sep m t = .closing) → Ends sep after →
      FieldAt sep more m (t ++ after) (some (value, after))
  /-- Nothing, since the text ends in quotes or may do so. -/
  | none {s : Bytes} : ending sep m s = .quoted ∨ more = true ∧ ending sep m s = .closing →
      FieldAt sep more m s none

theorem Mode.Starts.open (hm : m.Starts) : m ≠ .quoted := by
  cases hm with
  | inl hm => rw [hm]; decide
  | inr hm => rw [hm]; decide

/-- A body outside quotes is the end of a field. -/
theorem scanTail_at (front : Bytes) {s value : Bytes} (hm : ending sep m front ≠ .quoted)
    (body : front = [] ∨ ending sep m front = .closing) (next : ∀ c ∈ s.head?, c ≠ ch '"') :
    FieldAt sep more m (front ++ s) (some (scanTail sep value s)) := by
  have whole : front ++ s = front ++ s.takeWhile (inTail sep) ++ s.dropWhile (inTail sep) := by
    rw [append_assoc, takeWhile_append_dropWhile]
  have first : ∀ c ∈ (s.takeWhile (inTail sep)).head?, c ≠ ch '"' := by
    intro c hc
    refine next c ?_
    cases s with
    | nil => exact hc
    | cons d s =>
      rw [takeWhile_cons] at hc
      split at hc
      · exact hc
      · cases hc
  rw [whole]
  refine .some _ _ ?_ ?_ (dropWhile_ends s)
  · rw [ending_append]
    obtain nothing | plain := ending_tail hm (fun c hc => mem_takeWhile_imp hc) first
    · rw [nothing]
      exact hm
    · rw [plain]
      decide
  · rw [ending_append]
    obtain nothing | plain := ending_tail hm (fun c hc => mem_takeWhile_imp hc) first
    · rw [nothing, append_nil]
      cases body with
      | inl body => exact .inl body
      | inr body => exact .inr (.inr body)
    · exact .inr (.inl plain)

theorem scanField_at (hm : m.Starts)
    {r : Option (Bytes × Bytes)} (h : scanField sep more len s = .ok r) : FieldAt sep more m s r := by
  cases s with
  | nil => cases h
  | cons c rest =>
    rw [scanField] at h
    by_cases quote : c = ch '"'
    · rw [if_pos quote] at h
      have opens : m.step sep c = .quoted := quote ▸ step_quote hm
      cases hq : quotedLoop more [] [] rest with
      | none =>
        rw [hq] at h
        cases h
        refine .none ?_
        rw [ending_cons, opens]
        exact quotedLoop_none sep hq
      | some p =>
        obtain ⟨value, s⟩ := p
        rw [hq] at h
        cases h
        obtain ⟨⟨t, rfl, closed⟩, next, -⟩ := quotedLoop_some sep hq
        have behind : ending sep m (c :: t) = .closing := by rw [ending_cons, opens, closed]
        exact scanTail_at (c :: t) (by rw [behind]; decide) (.inr behind) next
    · rw [if_neg quote] at h
      cases h
      refine scanTail_at [] hm.open (.inl rfl) fun d hd => ?_
      cases hd
      exact quote

theorem scanField_none {e : Stop}
    (h : scanField sep more len s = .error e) : s = [] ∧ e = .index len len := by
  cases s with
  | nil => exact ⟨rfl, (Except.error.inj h).symm⟩
  | cons c rest =>
    rw [scanField] at h
    split at h
    · cases h
    · cases h

/-! ### A record -/

/-- What the scanner finds from `m` on. -/
inductive Scanned (sep : Nat) (more : Bool) (m : Mode) (s : Bytes) : Except Stop Scan → Prop
  /-- A separator at the end of the text. -/
  | index (len : Nat) : ending sep m s = .field → Scanned sep more m s (.error (.index len len))
  /-- The end of the text within a field. -/
  | unfinished : (ending sep m s = .quoted ∨
      more = true ∧ (ending sep m s = .plain ∨ ending sep m s = .closing)) →
      Scanned sep more m s (.ok .unfinished)
  /-- A record with its line ending. -/
  | ended {t next : Bytes} (f : Bytes) (fs : List Bytes) : s = t ++ next → t ≠ [] →
      ending sep m t = .line → Scanned sep more m s (.ok (.record (f :: fs) next))
  /-- The last record. -/
  | last (f : Bytes) (fs : List Bytes) : more = false → s ≠ [] →
      (ending sep m s = .plain ∨ ending sep m s = .closing) →
      Scanned sep more m s (.ok (.record (f :: fs) []))

/-- The scanner starts further in front. -/
theorem Scanned.prepend {m m' : Mode} {s front : Bytes} {r : Except Stop Scan}
    (h : Scanned sep more m' s r) (hf : ending sep m front = m') : Scanned sep more m (front ++ s) r := by
  have whole : ending sep m (front ++ s) = ending sep m' s := by rw [ending_append, hf]
  cases h with
  | index len ends => exact .index len (whole.trans ends)
  | unfinished ends => exact .unfinished (by rw [whole]; exact ends)
  | @ended t next f fs eq some_read ends =>
    refine .ended (t := front ++ t) f fs (by rw [eq, append_assoc]) ?_ ?_
    · exact fun nothing => some_read (append_eq_nil_iff.mp nothing).2
    · rw [ending_append, hf, ends]
  | last f fs no_more some_read ends =>
    refine .last f fs no_more ?_ (by rw [whole]; exact ends)
    exact fun nothing => some_read (append_eq_nil_iff.mp nothing).2

end

/-- A separator that is neither a quote nor a line feed. -/
structure Separates (sep : Nat) : Prop where
  noQuote : sep ≠ (ch '"').toNat
  noFeed : sep ≠ (ch '\n').toNat

section
variable {sep : Nat}

variable {s : Bytes} {n len : Nat} {more : Bool} {fields fs : List Bytes} {e : Stop}

theorem fieldsLoop_scanned (hsep : Separates sep) (more : Bool) (len : Nat) {m : Mode}
    (hm : m = .field ∨ m = .line ∧ s ≠ []) (fuel : s.length < n) (fields : List Bytes) :
    Scanned sep more m s (fieldsLoop sep more len n fields s) := by
  induction n generalizing m s fields with
  | zero => omega
  | succ n ih =>
    have starts : m.Starts := by
      cases hm with
      | inl hm => exact .inr hm
      | inr hm => exact .inl hm.1
    rw [fieldsLoop]
    cases hfield : scanField sep more len s with
    | error e =>
      obtain ⟨rfl, rfl⟩ := scanField_none hfield
      cases hm with
      | inl hm => exact .index len hm
      | inr hm => exact absurd rfl hm.2
    | ok r =>
      have some_read : s ≠ [] := by
        rintro rfl
        exact absurd hfield nofun
      cases scanField_at starts hfield with
      | none ends =>
        refine .unfinished ?_
        cases ends with
        | inl ends => exact .inl ends
        | inr ends => exact .inr ⟨ends.1, .inr ends.2⟩
      | @some t value after outer body behind =>
        cases after with
        | nil =>
          rw [append_nil] at some_read ⊢
          have ends := body.resolve_left some_read
          cases more with
          | true => exact .unfinished (.inr ⟨rfl, ends⟩)
          | false =>
            dsimp only
            rw [if_neg Bool.false_ne_true]
            cases hfs : fields ++ [value] with
            | nil => exact absurd hfs (by simp)
            | cons f fs => exact .last f fs rfl some_read ends
        | cons c next =>
          have whole : t ++ c :: next = t ++ [c] ++ next := by
            rw [append_assoc, singleton_append]
          dsimp only
          rw [whole]
          by_cases isSep : c.toNat = sep
          · rw [if_pos isSep]
            have goes : ending sep m (t ++ [c]) = .field := by
              rw [ending_append, ending_cons, ending_nil]
              exact step_sep hsep.noQuote hsep.noFeed outer isSep
            refine (ih (.inl rfl) ?_ (fields ++ [value])).prepend goes
            rw [length_append, length_cons] at fuel
            omega
          · rw [if_neg isSep]
            obtain rfl : c = ch '\n' := (behind c rfl).resolve_left isSep
            have ends : ending sep m (t ++ [ch '\n']) = .line := by
              rw [ending_append, ending_cons, ending_nil]
              exact step_lf outer
            cases hfs : fields ++ [value] with
            | nil => exact absurd hfs (by simp)
            | cons f fs => exact .ended f fs rfl (by simp) ends

theorem scanRecord_blank (len : Nat) (h : skipBlank s = []) :
    scanRecord sep more len s = .ok (.record [] []) := by
  rw [scanRecord, if_pos h]

theorem scanRecord_scanned (hsep : Separates sep) (more : Bool) (len : Nat)
    (h : skipBlank s ≠ []) : Scanned sep more .line s (scanRecord sep more len s) := by
  obtain ⟨blanks, eq, ends⟩ := skipBlank_split sep s
  rw [scanRecord, if_neg h]
  have scanned := fieldsLoop_scanned hsep more len (.inr ⟨rfl, h⟩) (Nat.lt_succ_self _) []
  have whole := scanned.prepend ends
  rwa [← eq] at whole

/-! ### Texts that go on -/

theorem scanTail_append {value s tail after : Bytes} (h : scanTail sep value s = (tail, after))
    (some_left : after ≠ []) (q : Bytes) : scanTail sep value (s ++ q) = (tail, after ++ q) := by
  cases h
  have body : (s ++ q).takeWhile (inTail sep) = s.takeWhile (inTail sep) := by
    rw [takeWhile_append, if_neg]
    intro all
    have lengths := congrArg List.length (takeWhile_append_dropWhile (p := inTail sep) (l := s))
    rw [length_append, all] at lengths
    exact some_left (length_eq_zero_iff.mp (by omega))
  have rest : (s ++ q).dropWhile (inTail sep) = s.dropWhile (inTail sep) ++ q := by
    rw [dropWhile_append, if_neg (by simpa using some_left)]
  have some_left' : s.dropWhile (inTail sep) ++ q ≠ [] := fun h => some_left (append_eq_nil_iff.mp h).1
  simp only [scanTail, body, rest, trimTail, some_left, some_left', ne_eq, not_false_eq_true, true_and]

theorem scanField_append {s value after : Bytes}
    (h : scanField sep true len s = .ok (some (value, after))) (some_left : after ≠ []) (more : Bool)
    (len' : Nat) (q : Bytes) : scanField sep more len' (s ++ q) = .ok (some (value, after ++ q)) := by
  cases s with
  | nil => cases h
  | cons c rest =>
    rw [scanField] at h
    rw [cons_append, scanField]
    by_cases quote : c = ch '"'
    · rw [if_pos quote] at h ⊢
      cases hq : quotedLoop true [] [] rest with
      | none =>
        rw [hq] at h
        cases h
      | some p =>
        obtain ⟨inner, s⟩ := p
        rw [hq] at h
        have tail : scanTail sep inner s = (value, after) := Option.some.inj (Except.ok.inj h)
        rw [quotedLoop_append hq more q, Option.map_some, scanTail_append tail some_left]
    · rw [if_neg quote] at h ⊢
      have tail : scanTail sep [] (c :: rest) = (value, after) := Option.some.inj (Except.ok.inj h)
      rw [← cons_append, scanTail_append tail some_left]

/-- A record that is ended within the text stays so when the text goes on. -/
theorem fieldsLoop_append {s next : Bytes}
    (h : fieldsLoop sep true len n fields s = .ok (.record fs next)) (more : Bool) (len' : Nat) (q : Bytes)
    {n' : Nat} (fuel : s.length < n') :
    fieldsLoop sep more len' n' fields (s ++ q) = .ok (.record fs (next ++ q)) := by
  induction n generalizing fields s n' with
  | zero => cases h
  | succ n ih =>
    cases n' with
    | zero => omega
    | succ n' =>
      rw [fieldsLoop] at h ⊢
      cases hfield : scanField sep true len s with
      | error e =>
        rw [hfield] at h
        cases h
      | ok r =>
        rw [hfield] at h
        cases r with
        | none => cases h
        | some p =>
          obtain ⟨value, after⟩ := p
          cases after with
          | nil => cases h
          | cons c next' =>
            rw [scanField_append hfield (cons_ne_nil _ _) more len' q]
            dsimp only at h ⊢
            rw [cons_append]
            dsimp only
            by_cases isSep : c.toNat = sep
            · rw [if_pos isSep] at h ⊢
              refine ih h ?_
              cases scanField_at (m := .line) (.inl rfl) hfield with
              | some t _ _ _ _ =>
                rw [length_append, length_cons] at fuel
                omega
            · rw [if_neg isSep] at h ⊢
              obtain ⟨rfl, rfl⟩ := Scan.record.inj (Except.ok.inj h)
              rfl

/-- A fault does not depend on what may come. -/
theorem fieldsLoop_error (h : fieldsLoop sep true len n fields s = .error e) :
    fieldsLoop sep false len n fields s = .error e := by
  induction n generalizing fields s with
  | zero => cases h
  | succ n ih =>
    rw [fieldsLoop] at h ⊢
    cases hfield : scanField sep true len s with
    | error e' =>
      rw [hfield] at h
      obtain ⟨rfl, rfl⟩ := scanField_none hfield
      exact h
    | ok r =>
      rw [hfield] at h
      cases r with
      | none => cases h
      | some p =>
        obtain ⟨value, after⟩ := p
        cases after with
        | nil => cases h
        | cons c next =>
          have same := scanField_append hfield (cons_ne_nil _ _) false len []
          rw [append_nil, append_nil] at same
          rw [same]
          dsimp only at h ⊢
          by_cases isSep : c.toNat = sep
          · rw [if_pos isSep] at h ⊢
            exact ih h
          · rw [if_neg isSep] at h
            cases h

@[simp] theorem skipBlank_lf (s : Bytes) : skipBlank (ch '\n' :: s) = skipBlank s := by
  cases s with
  | nil => rfl
  | cons d s => rw [skipBlank, if_pos rfl]

@[simp] theorem skipBlank_crlf (s : Bytes) : skipBlank (ch '\r' :: ch '\n' :: s) = skipBlank s := by
  rw [skipBlank, if_neg (by decide), if_pos rfl, if_pos rfl]

theorem skipBlank_cr {d : UInt8} (h : d ≠ ch '\n') (s : Bytes) :
    skipBlank (ch '\r' :: d :: s) = ch '\r' :: d :: s := by
  rw [skipBlank, if_neg (by decide), if_pos rfl, if_neg h]

theorem skipBlank_other {c : UInt8} (feed : c ≠ ch '\n') (ret : c ≠ ch '\r') (s : Bytes) :
    skipBlank (c :: s) = c :: s := by
  cases s with
  | nil => simp only [skipBlank, if_neg feed, if_neg ret]
  | cons d s => rw [skipBlank, if_neg feed, if_neg ret]

theorem skipBlank_append (h : skipBlank s ≠ []) (h' : skipBlank s ≠ [ch '\r']) (q : Bytes) :
    skipBlank (s ++ q) = skipBlank s ++ q := by
  fun_induction skipBlank s with
  | case1 => exact absurd rfl h
  | case2 s ih =>
    rw [cons_append, skipBlank_lf]
    exact ih h h'
  | case3 s _ ih =>
    rw [cons_append, cons_append, skipBlank_crlf]
    exact ih h h'
  | case4 d s other => exact skipBlank_cr other (s ++ q)
  | case5 => exact absurd rfl h'
  | case6 c s feed ret => exact skipBlank_other feed ret (s ++ q)

theorem skipBlank_blank (h : skipBlank s = []) (q : Bytes) : skipBlank (s ++ q) = skipBlank q := by
  fun_induction skipBlank s with
  | case1 => rfl
  | case2 s ih =>
    rw [cons_append, skipBlank_lf]
    exact ih h
  | case3 s _ ih =>
    rw [cons_append, cons_append, skipBlank_crlf]
    exact ih h
  | case4 => exact absurd h (cons_ne_nil _ _)
  | case5 => exact absurd h (cons_ne_nil _ _)
  | case6 => exact absurd h (cons_ne_nil _ _)

/-- A record that is ended within the text stays so when the text goes on. -/
theorem scanRecord_append (hsep : Separates sep) {s f next : Bytes}
    (h : scanRecord sep true len s = .ok (.record (f :: fs) next)) (more : Bool) (len' : Nat) (q : Bytes) :
    scanRecord sep more len' (s ++ q) = .ok (.record (f :: fs) (next ++ q)) := by
  by_cases blank : skipBlank s = []
  · rw [scanRecord_blank _ blank] at h
    cases h
  · have lone : skipBlank s ≠ [ch '\r'] := by
      intro lone
      rw [scanRecord, if_neg blank, lone] at h
      have scanned := fieldsLoop_scanned hsep true len (m := .line) (s := [ch '\r'])
        (.inr ⟨rfl, cons_ne_nil _ _⟩) (Nat.lt_succ_self _) []
      rw [h] at scanned
      cases scanned with
      | @ended t _ _ _ eq some_read ends =>
        cases t with
        | nil => exact some_read rfl
        | cons c t =>
          obtain ⟨rfl, rest⟩ := List.cons.inj eq
          obtain ⟨rfl, -⟩ := append_eq_nil_iff.mp rest.symm
          rw [ending_cons, ending_nil, step_outside (by decide) (by decide), outside,
            if_neg (by decide)] at ends
          split at ends
          · exact absurd ends (by decide)
          · exact absurd ends (by decide)
      | last _ _ no_more _ _ => exact absurd no_more (by decide)
    have goes := skipBlank_append blank lone q
    have some_left : skipBlank s ++ q ≠ [] := fun nothing => blank (append_eq_nil_iff.mp nothing).1
    rw [scanRecord, if_neg blank] at h
    rw [scanRecord, goes, if_neg some_left]
    refine fieldsLoop_append h more len' q ?_
    rw [length_append]
    omega

theorem scanRecord_error (h : scanRecord sep true len s = .error e) :
    scanRecord sep false len s = .error e := by
  by_cases blank : skipBlank s = []
  · rw [scanRecord_blank _ blank] at h
    cases h
  · rw [scanRecord, if_neg blank] at h ⊢
    exact fieldsLoop_error h

/-! ### The length that a fault names -/

theorem fieldsLoop_len (more : Bool) (len len' n : Nat) (fields : List Bytes) (s : Bytes) :
    (fieldsLoop sep more len n fields s).toOption = (fieldsLoop sep more len' n fields s).toOption := by
  induction n generalizing fields s with
  | zero => rfl
  | succ n ih =>
    rw [fieldsLoop, fieldsLoop]
    cases s with
    | nil => rfl
    | cons c rest =>
      have same : scanField sep more len (c :: rest) = scanField sep more len' (c :: rest) := rfl
      rw [same]
      cases hfield : scanField sep more len' (c :: rest) with
      | error e => rfl
      | ok r =>
        cases r with
        | none => rfl
        | some p =>
          obtain ⟨value, after⟩ := p
          cases after with
          | nil => rfl
          | cons c next =>
            dsimp only
            by_cases isSep : c.toNat = sep
            · rw [if_pos isSep, if_pos isSep]
              exact ih _ next
            · rw [if_neg isSep, if_neg isSep]

theorem scanRecord_len (sep : Nat) (more : Bool) (len len' : Nat) (s : Bytes) :
    (scanRecord sep more len s).toOption = (scanRecord sep more len' s).toOption := by
  rw [scanRecord, scanRecord]
  by_cases blank : skipBlank s = []
  · rw [if_pos blank, if_pos blank]
  · rw [if_neg blank, if_neg blank]
    exact fieldsLoop_len more len len' _ [] _

/-- Two scans find the same. -/
theorem scanRecord_same {len len' : Nat} {r r' : Scan}
    (h : scanRecord sep more len s = .ok r) (h' : scanRecord sep more len' s = .ok r') : r = r' := by
  have same := scanRecord_len sep more len len' s
  rw [h, h'] at same
  exact Option.some.inj same

theorem scanRecord_not_both {len len' : Nat} {r : Scan}
    (h : scanRecord sep more len s = .ok r) (h' : scanRecord sep more len' s = .error e) : False := by
  have same := scanRecord_len sep more len len' s
  rw [h, h'] at same
  cases same

/-! ### What a text holds -/

/-- What stands behind the records of a text. -/
inductive End where
  /-- The end of the text. -/
  | done
  /-- A quoted field that is not closed. -/
  | unfinished
  /-- A separator at the end of the text. -/
  | fault
  deriving DecidableEq

/-- The records of a text, and what stands behind them. -/
inductive Decodes (sep : Nat) : Bytes → List (List Bytes) → End → Prop
  | done {s : Bytes} : skipBlank s = [] → Decodes sep s [] .done
  | unfinished {s : Bytes} (len : Nat) : scanRecord sep false len s = .ok .unfinished →
      Decodes sep s [] .unfinished
  | fault {s : Bytes} {len : Nat} {e : Stop} : scanRecord sep false len s = .error e →
      Decodes sep s [] .fault
  | record {s f next : Bytes} {fs : List Bytes} {recs : List (List Bytes)} {e : End} (len : Nat) :
      scanRecord sep false len s = .ok (.record (f :: fs) next) → Decodes sep next recs e →
      Decodes sep s ((f :: fs) :: recs) e

theorem Decodes.unique {recs recs' : List (List Bytes)} {e e' : End}
    (h : Decodes sep s recs e) (h' : Decodes sep s recs' e') : recs = recs' ∧ e = e' := by
  induction h generalizing recs' e' with
  | done blank =>
    cases h' with
    | done => exact ⟨rfl, rfl⟩
    | unfinished len h' => exact absurd (scanRecord_same (scanRecord_blank len blank) h') nofun
    | fault h' => exact (scanRecord_not_both (scanRecord_blank 0 blank) h').elim
    | record len h' _ => exact absurd (scanRecord_same (scanRecord_blank len blank) h') nofun
  | unfinished len h =>
    cases h' with
    | done blank => exact absurd (scanRecord_same h (scanRecord_blank len blank)) nofun
    | unfinished => exact ⟨rfl, rfl⟩
    | fault h' => exact (scanRecord_not_both h h').elim
    | record len' h' _ => exact absurd (scanRecord_same h h') nofun
  | fault h =>
    cases h' with
    | done blank => exact (scanRecord_not_both (scanRecord_blank 0 blank) h).elim
    | unfinished len' h' => exact (scanRecord_not_both h' h).elim
    | fault => exact ⟨rfl, rfl⟩
    | record len' h' _ => exact (scanRecord_not_both h' h).elim
  | record len h _ ih =>
    cases h' with
    | done blank => exact absurd (scanRecord_same h (scanRecord_blank len blank)) nofun
    | unfinished len' h' => exact absurd (scanRecord_same h h') nofun
    | fault h' => exact (scanRecord_not_both h h').elim
    | record len' h' rest =>
      obtain ⟨hf, rfl⟩ := Scan.record.inj (scanRecord_same h h')
      obtain ⟨rfl, rfl⟩ := ih rest
      exact ⟨by rw [hf], rfl⟩

theorem Decodes.nonempty {recs : List (List Bytes)} {e : End} (h : Decodes sep s recs e) :
    ∀ r ∈ recs, r ≠ [] := by
  induction h with
  | done => exact nofun
  | unfinished => exact nofun
  | fault => exact nofun
  | record _ _ _ ih =>
    intro r hr
    cases mem_cons.mp hr with
    | inl hr => exact hr ▸ cons_ne_nil _ _
    | inr hr => exact ih r hr

/-- Blank lines in front hold nothing. -/
theorem Decodes.blank {p q : Bytes} (h : skipBlank p = []) {recs : List (List Bytes)} {e : End}
    (hq : Decodes sep q recs e) : Decodes sep (p ++ q) recs e := by
  have same (more : Bool) (len : Nat) : scanRecord sep more len (p ++ q) = scanRecord sep more len q := by
    rw [scanRecord, scanRecord, skipBlank_blank h q]
  cases hq with
  | done blank => exact .done ((skipBlank_blank h q).trans blank)
  | unfinished len hq => exact .unfinished len ((same false len).trans hq)
  | fault hq => exact .fault ((same false _).trans hq)
  | record len hq rest => exact .record len ((same false len).trans hq) rest

/-- Where a text ends says what stands behind its records. -/
theorem Decodes.ending (hsep : Separates sep) {s : Bytes} {recs : List (List Bytes)} {e : End}
    (h : Decodes sep s recs e) : (e = .fault ↔ ending sep .line s = .field) ∧
      (e = .unfinished ↔ ending sep .line s = .quoted) := by
  have nonblank {s : Bytes} {len : Nat} {r : Except Stop Scan} (h : scanRecord sep false len s = r)
      (other : r ≠ .ok (.record [] [])) : Scanned sep false .line s r := by
    refine h ▸ scanRecord_scanned hsep false len fun blank => other ?_
    rw [← h, scanRecord_blank _ blank]
  induction h with
  | done blank =>
    obtain ⟨blanks, eq, ends⟩ := skipBlank_split sep ‹_›
    rw [blank, append_nil] at eq
    rw [eq, ends]
    decide
  | unfinished len h =>
    cases nonblank h nofun with
    | unfinished ends =>
      have quoted := ends.resolve_right fun h => absurd h.1 Bool.false_ne_true
      rw [quoted]
      decide
  | fault h =>
    cases nonblank h nofun with
    | index _ ends =>
      rw [ends]
      decide
  | record len h rest ih =>
    cases nonblank h (by simp) with
    | ended f fs eq _ ends =>
      rw [eq, ending_append, ends]
      exact ih
    | last f fs _ _ ends =>
      cases rest with
      | done =>
        obtain ends | ends := ends
        · rw [ends]
          decide
        · rw [ends]
          decide
      | unfinished _ h => cases h
      | fault h => cases h
      | record _ h _ => cases h

/-! ### Decoding -/

/-- What is thrown behind `n` records. -/
def Stops (n : Nat) : End → Option Stop → Prop
  | .done, r => r = none
  | .unfinished, r => r = some (unterminated n)
  | .fault, r => ∃ i len, r = some (.index i len)

/-- A scan that finds a record takes something. -/
theorem scanRecord_shorter (hsep : Separates sep) {s f next : Bytes}
    (h : scanRecord sep more len s = .ok (.record (f :: fs) next)) : next.length < s.length := by
  by_cases blank : skipBlank s = []
  · rw [scanRecord_blank _ blank] at h
    cases h
  · have scanned := scanRecord_scanned hsep more len blank
    rw [h] at scanned
    cases scanned with
    | ended _ _ eq some_read _ =>
      rw [eq, length_append]
      have := length_pos_iff.mpr some_read
      omega
    | last _ _ _ some_read _ => exact length_pos_iff.mpr some_read

theorem scanRecord_fault (hsep : Separates sep)
    (h : scanRecord sep more len s = .error e) : ∃ i l, e = .index i l := by
  by_cases blank : skipBlank s = []
  · rw [scanRecord_blank _ blank] at h
    cases h
  · have scanned := scanRecord_scanned hsep more len blank
    rw [h] at scanned
    cases scanned with
    | index l _ => exact ⟨l, l, rfl⟩

theorem decodeLoop_decodes (hsep : Separates sep) (len : Nat) {k : Nat} (fuel : s.length < k)
    (out : List (List Bytes)) :
    ∃ recs e, Decodes sep s recs e ∧ (decodeLoop sep len k out s).1 = out ++ recs ∧
      Stops (out.length + recs.length) e (decodeLoop sep len k out s).2 := by
  induction k generalizing s out with
  | zero => omega
  | succ k ih =>
    rw [decodeLoop]
    cases hscan : scanRecord sep false len s with
    | error e =>
      obtain ⟨i, l, rfl⟩ := scanRecord_fault hsep hscan
      exact ⟨[], .fault, .fault hscan, (append_nil out).symm, i, l, rfl⟩
    | ok r =>
      cases r with
      | unfinished => exact ⟨[], .unfinished, .unfinished len hscan, (append_nil out).symm, rfl⟩
      | record fields next =>
        cases fields with
        | nil =>
          dsimp only
          rw [if_pos rfl]
          refine ⟨[], .done, .done ?_, (append_nil out).symm, rfl⟩
          by_contra nonblank
          have scanned := scanRecord_scanned hsep false len nonblank
          rw [hscan] at scanned
          cases scanned
        | cons f fs =>
          dsimp only
          rw [if_neg (cons_ne_nil f fs)]
          have shorter := scanRecord_shorter hsep hscan
          obtain ⟨recs, e, decodes, eq, stops⟩ := ih (s := next) (by omega) (out ++ [f :: fs])
          refine ⟨(f :: fs) :: recs, e, .record len hscan decodes, ?_, ?_⟩
          · rw [eq, append_assoc, singleton_append]
          · rw [length_append, length_singleton] at stops
            rw [length_cons, Nat.add_comm recs.length, ← Nat.add_assoc]
            exact stops

/-- `decode` finds what a text holds. -/
theorem decodeWith_decodes (hsep : Separates sep) (text : Bytes) :
    ∃ recs e, Decodes sep text recs e ∧ (decodeWith sep text).1 = recs ∧
      Stops recs.length e (decodeWith sep text).2 := by
  obtain ⟨recs, e, decodes, eq, stops⟩ :=
    decodeLoop_decodes hsep text.length (Nat.lt_succ_self text.length) []
  rw [length_nil, Nat.zero_add] at stops
  exact ⟨recs, e, decodes, eq, stops⟩

end

end Voila.Csv
