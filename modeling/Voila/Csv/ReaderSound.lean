import Voila.Csv.Csv

/-!
# Voila.Csv.ReaderSound

A reader of the lines of a text finds what the text holds (`readAll_decodes`).

Its buffer and the lines to come are what is left of the text (`Reader.Ready`). The buffer is made of
whole lines, so that it does not end with a separator as long as there are lines to come, and a record
that ends within it is a record of the whole.
-/

open List

namespace Voila.Csv

open Voila.Rt (Bytes)
open Voila.Rt.Json (ch)

/-! ### Lines -/

/-- Every piece but the last ends with a line feed. -/
def Whole : Bytes → List Bytes → Prop
  | _, [] => True
  | p, chunk :: src => (∀ c ∈ p.getLast?, c = ch '\n') ∧ chunk ≠ [] ∧ Whole chunk src

theorem Whole.of_last {p p' : Bytes} {src : List Bytes} (h : Whole p src)
    (last : ∀ c ∈ p'.getLast?, c ∈ p.getLast?) : Whole p' src := by
  cases src with
  | nil => exact trivial
  | cons chunk src => exact ⟨fun c hc => h.1 c (last c hc), h.2⟩

theorem linesFrom_flatten (line text : Bytes) : (linesFrom line text).flatten = line ++ text := by
  induction text generalizing line with
  | nil =>
    rw [linesFrom]
    split
    · next h => rw [h]; rfl
    · simp
  | cons c text ih =>
    rw [linesFrom]
    split
    · rw [flatten_cons, ih, nil_append, append_assoc, singleton_append]
    · rw [ih, append_assoc, singleton_append]

theorem lines_flatten (text : Bytes) : (lines text).flatten = text := linesFrom_flatten [] text

theorem linesFrom_whole (line text p : Bytes) (h : ∀ c ∈ p.getLast?, c = ch '\n') :
    Whole p (linesFrom line text) := by
  induction text generalizing line p with
  | nil =>
    rw [linesFrom]
    split
    · exact trivial
    · next h' => exact ⟨h, h', trivial⟩
  | cons c text ih =>
    rw [linesFrom]
    split
    · next feed =>
        refine ⟨h, by simp, ih [] _ fun d hd => ?_⟩
        rw [getLast?_concat] at hd
        rw [← feed]
        exact (Option.some.inj hd).symm
    · exact ih _ p h

/-! ### The reader -/

/-- What a reader has still to read. -/
structure Reader.Ready (rd : Reader) (text : Bytes) : Prop where
  start : rd.pos = 0
  left : rd.buf ++ rd.src.flatten = text
  whole : Whole rd.buf rd.src
  done : rd.eof = true → rd.src = []

/-- How many lines can come, and the end. -/
def Reader.turns (rd : Reader) : Nat := rd.src.length + if rd.eof then 0 else 1

variable {rd : Reader} {text : Bytes} {sep len k : Nat} {more : Bool}

theorem fill_ready (h : rd.Ready text) (more : rd.eof = false) :
    rd.fill.Ready text ∧ rd.fill.turns < rd.turns ∧ rd.fill.n = rd.n ∧ rd.fill.sep = rd.sep := by
  obtain ⟨start, left, whole, -⟩ := h
  cases hsrc : rd.src with
  | nil =>
    have filled : rd.fill = { rd with eof := true } := by simp only [Reader.fill, hsrc]
    rw [filled]
    refine ⟨⟨start, left, whole, fun _ => hsrc⟩, ?_, rfl, rfl⟩
    simp [Reader.turns, more]
  | cons chunk src =>
    rw [hsrc] at left whole
    obtain ⟨-, some_read, rest⟩ := whole
    have filled : rd.fill = { rd with buf := rd.buf ++ chunk, src } := by
      simp only [Reader.fill, hsrc, if_neg some_read]
    rw [filled]
    refine ⟨⟨start, ?_, ?_, fun h => absurd (more.symm.trans h) (by decide)⟩, ?_, rfl, rfl⟩
    · rw [← left, flatten_cons, append_assoc]
    · refine rest.of_last fun c hc => ?_
      rwa [getLast?_append_of_ne_nil _ some_read] at hc
    · simp [Reader.turns, hsrc, more]

/-- The rest of the buffer behind a record. -/
theorem compact_ready {t next : Bytes} (hbuf : rd.buf = t ++ next)
    (whole : Whole rd.buf rd.src) (done : rd.eof = true → rd.src = []) :
    ({ rd with pos := rd.buf.length - next.length }.compact : Reader).Ready (next ++ rd.src.flatten) := by
  have rest : rd.buf.drop (rd.buf.length - next.length) = next := by
    rw [hbuf, length_append, Nat.add_sub_cancel, drop_left]
  refine ⟨rfl, ?_, ?_, done⟩
  · show rd.buf.drop (rd.buf.length - next.length) ++ rd.src.flatten = _
    rw [rest]
  · show Whole (rd.buf.drop (rd.buf.length - next.length)) rd.src
    rw [rest]
    refine whole.of_last fun c hc => ?_
    cases next with
    | nil => cases hc
    | cons d next =>
      rw [hbuf, getLast?_append_of_ne_nil _ (cons_ne_nil _ _)]
      exact hc

/-- What `Reader.next` finds behind `n` records. -/
inductive NextIs (sep n : Nat) (text : Bytes) : Except Stop (Option (List Bytes)) × Reader → Prop
  | done {rd : Reader} : Decodes sep text [] .done → NextIs sep n text (.ok none, rd)
  | unfinished {rd : Reader} : Decodes sep text [] .unfinished →
      NextIs sep n text (.error (unterminated n), rd)
  | fault {rd : Reader} (i len : Nat) : Decodes sep text [] .fault →
      NextIs sep n text (.error (.index i len), rd)
  | record {rd : Reader} {f next : Bytes} {fs : List Bytes} :
      (∀ recs e, Decodes sep next recs e → Decodes sep text ((f :: fs) :: recs) e) →
      next.length < text.length → rd.Ready next → rd.n = n + 1 → rd.sep = sep →
      NextIs sep n text (.ok (some (f :: fs)), rd)

/-- Blank lines in front are passed over. -/
theorem NextIs.blank {sep n : Nat} {p q : Bytes} (h : skipBlank p = [])
    {r : Except Stop (Option (List Bytes)) × Reader} (hq : NextIs sep n q r) : NextIs sep n (p ++ q) r := by
  cases hq with
  | done hq => exact .done (hq.blank h)
  | unfinished hq => exact .unfinished (hq.blank h)
  | fault i len hq => exact .fault i len (hq.blank h)
  | record hq shorter ready count same =>
    refine .record (fun recs e he => (hq recs e he).blank h) ?_ ready count same
    rw [length_append]
    omega

/-- Behind a line feed there is the beginning of a line, or the inside of quotes. -/
theorem ending_feed {m : Mode} {s : Bytes} (some_read : s ≠ [])
    (last : ∀ c ∈ s.getLast?, c = ch '\n') : ending sep m s ≠ .field := by
  obtain ⟨t, c, rfl⟩ := eq_nil_or_concat s |>.resolve_left some_read
  obtain rfl := last c (by simp)
  rw [concat_eq_append, ending_append, ending_cons, ending_nil]
  by_cases quoted : ending sep m t = .quoted
  · rw [quoted, Mode.step, if_neg (by decide)]
    decide
  · rw [step_lf quoted]
    decide

theorem scanRecord_nil (hsep : Separates sep) {s next : Bytes}
    (h : scanRecord sep more len s = .ok (.record [] next)) : skipBlank s = [] ∧ next = [] := by
  by_cases blank : skipBlank s = []
  · rw [scanRecord_blank _ blank] at h
    exact ⟨blank, (Scan.record.inj (Except.ok.inj h)).2.symm⟩
  · have scanned := scanRecord_scanned hsep more len blank
    rw [h] at scanned
    cases scanned

/-- A record, and what is left of the buffer behind it. -/
theorem scanRecord_left (hsep : Separates sep) {s f next : Bytes}
    {fs : List Bytes} (h : scanRecord sep more len s = .ok (.record (f :: fs) next)) :
    ∃ t, s = t ++ next := by
  by_cases blank : skipBlank s = []
  · rw [scanRecord_blank _ blank] at h
    cases h
  · have scanned := scanRecord_scanned hsep more len blank
    rw [h] at scanned
    cases scanned with
    | @ended t _ _ _ eq _ _ => exact ⟨t, eq⟩
    | last => exact ⟨s, (append_nil s).symm⟩

theorem nextLoop_is (hsep : Separates sep)
    (h : rd.Ready text) (same : rd.sep = sep) (fuel : rd.turns < k) :
    NextIs sep rd.n text (rd.nextLoop k) := by
  induction k generalizing rd text with
  | zero => omega
  | succ k ih =>
    obtain ⟨start, left, whole, done⟩ := h
    have all (atEnd : rd.eof = true) : text = rd.buf := by
      rw [← left, done atEnd, flatten_nil, append_nil]
    rw [Reader.nextLoop, start, drop_zero]
    cases hscan : scanRecord rd.sep (!rd.eof) rd.buf.length rd.buf with
    | error e =>
      rw [same] at hscan
      obtain ⟨i, l, rfl⟩ := scanRecord_fault hsep hscan
      refine .fault i l ?_
      cases hend : rd.eof with
      | true =>
        rw [hend] at hscan
        exact all hend ▸ .fault hscan
      | false =>
        rw [hend] at hscan
        have blank : skipBlank rd.buf ≠ [] := by
          intro blank
          rw [scanRecord_blank _ blank] at hscan
          cases hscan
        have ends : ending sep .line rd.buf = .field := by
          have scanned := scanRecord_scanned hsep true rd.buf.length blank
          rw [Bool.not_false] at hscan
          rw [hscan] at scanned
          cases scanned with
          | index _ ends => exact ends
        have no_lines : rd.src = [] := by
          cases hsrc : rd.src with
          | nil => rfl
          | cons chunk src =>
            rw [hsrc] at whole
            have some_read : rd.buf ≠ [] := fun nothing => blank (by rw [nothing]; rfl)
            exact absurd ends (ending_feed some_read whole.1)
        rw [no_lines, flatten_nil, append_nil] at left
        exact left ▸ .fault (scanRecord_error hscan)
    | ok r =>
      cases r with
      | unfinished =>
        rw [same] at hscan
        by_cases hend : rd.eof = true
        · rw [if_pos hend]
          rw [hend] at hscan
          exact .unfinished (all hend ▸ .unfinished _ hscan)
        · rw [if_neg hend]
          obtain ⟨ready, fewer, count, same'⟩ :=
            fill_ready ⟨start, left, whole, done⟩ (Bool.eq_false_iff.mpr hend)
          rw [← count]
          exact ih ready (same'.trans same) (by omega)
      | record fields next =>
        rw [same] at hscan
        obtain ⟨t, hbuf⟩ : ∃ t, rd.buf = t ++ next := by
          cases fields with
          | nil => exact ⟨rd.buf, by rw [(scanRecord_nil hsep hscan).2, append_nil]⟩
          | cons f fs => exact scanRecord_left hsep hscan
        have ready := compact_ready hbuf whole done
        dsimp only
        cases fields with
        | nil =>
          rw [if_neg (fun h => h rfl)]
          obtain ⟨blank, rfl⟩ := scanRecord_nil hsep hscan
          split
          · next hend => exact .done (all hend ▸ .done blank)
          · next hend =>
            obtain ⟨ready', fewer, count, same'⟩ := fill_ready ready (Bool.eq_false_iff.mpr hend)
            have later := ih ready' (same'.trans same)
              (Nat.lt_of_lt_of_le fewer (Nat.le_of_lt_succ fuel))
            rw [nil_append, count] at later
            exact left ▸ later.blank blank
        | cons f fs =>
          rw [if_pos (cons_ne_nil f fs)]
          have shorter := scanRecord_shorter hsep hscan
          refine .record (fun recs e he => ?_) ?_ ⟨ready.start, ready.left, ready.whole, ready.done⟩ rfl same
          · cases hend : rd.eof with
            | true =>
              rw [done hend, flatten_nil, append_nil] at he
              rw [hend] at hscan
              exact all hend ▸ .record _ hscan he
            | false =>
              rw [hend] at hscan
              exact left ▸ .record 0 (scanRecord_append hsep hscan false 0 rd.src.flatten) he
          · rw [← left, length_append, length_append]
            omega

theorem allLoop_decodes (hsep : Separates sep)
    (h : rd.Ready text) (same : rd.sep = sep) (fuel : text.length < k) (out : List (List Bytes))
    (count : rd.n = out.length) :
    ∃ recs e, Decodes sep text recs e ∧ (rd.allLoop k out).1 = out ++ recs ∧
      Stops (out.length + recs.length) e (rd.allLoop k out).2 := by
  induction k generalizing rd text out with
  | zero => omega
  | succ k ih =>
    have turns : rd.turns < rd.src.length + 2 := by
      unfold Reader.turns
      split
      · omega
      · omega
    have next := nextLoop_is hsep h same turns
    rw [Reader.allLoop, Reader.next]
    generalize rd.nextLoop (rd.src.length + 2) = r at next
    rw [count] at next
    cases next with
    | done decodes => exact ⟨[], .done, decodes, (append_nil out).symm, rfl⟩
    | unfinished decodes => exact ⟨[], .unfinished, decodes, (append_nil out).symm, rfl⟩
    | fault i len decodes => exact ⟨[], .fault, decodes, (append_nil out).symm, i, len, rfl⟩
    | @record rd' f rest fs lifts shorter ready count' same' =>
      obtain ⟨recs, e, decodes, eq, stops⟩ := ih ready same' (by omega) (out ++ [f :: fs])
        (by rw [count', length_append, length_singleton])
      refine ⟨(f :: fs) :: recs, e, lifts recs e decodes, ?_, ?_⟩
      · dsimp only
        rw [eq, append_assoc, singleton_append]
      · rw [length_append, length_singleton] at stops
        rw [length_cons, Nat.add_comm recs.length, ← Nat.add_assoc]
        exact stops

/-- A reader with a separator, over the lines of a text. -/
def readerOf (sep : Nat) (text : Bytes) : Reader := { reader (lines text) with sep := sep }

/-- A reader of its lines finds what a text holds. -/
theorem readAll_decodes (hsep : Separates sep) (text : Bytes) :
    ∃ recs e, Decodes sep text recs e ∧ (readerOf sep text).all.1 = recs ∧
      Stops recs.length e (readerOf sep text).all.2 := by
  have ready : (readerOf sep text).Ready text :=
    ⟨rfl, lines_flatten text, linesFrom_whole [] text [] nofun,
      fun atEnd => Bool.noConfusion (show false = true from atEnd)⟩
  have fuel : text.length < (readerOf sep text).buf.length + (readerOf sep text).src.flatten.length + 1 := by
    show text.length < 0 + (lines text).flatten.length + 1
    rw [lines_flatten]
    omega
  obtain ⟨recs, e, decodes, eq, stops⟩ := allLoop_decodes hsep ready rfl fuel [] rfl
  rw [length_nil, Nat.zero_add] at stops
  exact ⟨recs, e, decodes, eq, stops⟩

/-- The reader of the lines of a text and `decode` find the same records, and throw nothing but the same
`FormatError` of a quoted field that is not closed. -/
def ReadsAlike (text : Bytes) : Prop :=
  (reader (lines text)).all = decodeWith comma text ∧
    ∀ e, (decodeWith comma text).2 = some e → e = unterminated (decodeWith comma text).1.length

theorem comma_separates : Separates comma := ⟨by decide, by decide⟩

/-- **Line by line.** The reader and `decode` agree on a text, and fail as they should, exactly when the
text does not end right behind a separator outside quotes. -/
theorem readsAlike_iff (text : Bytes) : ReadsAlike text ↔ ending comma .line text ≠ .field := by
  obtain ⟨recs, e, decodes, eq, stops⟩ := decodeWith_decodes comma_separates text
  obtain ⟨recs', e', decodes', eq', stops'⟩ := readAll_decodes comma_separates text
  obtain ⟨rfl, rfl⟩ := decodes.unique decodes'
  have fault := (decodes.ending comma_separates).1
  refine Iff.trans ?_ (not_congr fault)
  constructor
  · rintro ⟨-, errors⟩ rfl
    obtain ⟨i, len, index⟩ := stops
    exact absurd (errors _ index) nofun
  · intro other
    have same : (decodeWith comma text).2 = (readerOf comma text).all.2 := by
      cases e with
      | done => exact Eq.trans stops stops'.symm
      | unfinished => exact Eq.trans stops stops'.symm
      | fault => exact absurd rfl other
    refine ⟨Prod.ext (eq'.trans eq.symm) same.symm, fun stop hs => ?_⟩
    rw [eq]
    cases e with
    | done => exact absurd (hs.symm.trans stops) nofun
    | unfinished => exact Option.some.inj (hs.symm.trans stops)
    | fault => exact absurd rfl other

/-- `a,`: both stop at an index past the end of the text. -/
theorem trailingComma_not_readsAlike : ¬ ReadsAlike [ch 'a', ch ','] := by
  intro ⟨_, errors⟩
  have stop : (decodeWith comma [ch 'a', ch ',']).2 = some (.index 2 2) := by decide
  exact absurd (errors _ stop) nofun

end Voila.Csv
