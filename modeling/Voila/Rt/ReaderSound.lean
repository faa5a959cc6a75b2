import Voila.Rt.Reader

/-!
# Voila.Rt.ReaderSound

A reader is a queue of bytes: what it holds, followed by what its source will bring.

Every call takes what it returns off the front of this queue (`call_answers`), but for a gathering
call, `read_all` or `records`, that a failing refill stops: what it has gathered by then is lost.
`Cuts` says of a call, from the state before it, that it loses something, and a session serves the
bytes of the source exactly when none of its calls does (`serves_iff`).
-/

open List

namespace Voila.Rt.Io

open Voila.Rt.Json (ch)

/-! ### The queue -/

/-- What a reader has still to hand out. -/
def St.pending (st : St) : Bytes := st.rd.held ++ st.src.bytes

/-- The reply of a call on a queue, with the bytes that the call takes and those that it leaves. -/
inductive Answers : Call → Bytes → Reply → Bytes → Bytes → Prop
  /-- An error takes nothing. -/
  | err (c : Call) (q why : Bytes) : Answers c q (.err why) [] q
  /-- A line with its line feed. -/
  | line {l : Bytes} (q : Bytes) : ch '\n' ∉ l →
      Answers .readLine (l ++ [ch '\n'] ++ q) (.str (l ++ [ch '\n'])) (l ++ [ch '\n']) q
  /-- The last line. -/
  | lastLine {q : Bytes} : ch '\n' ∉ q → Answers .readLine q (.str q) q []
  /-- No more bytes than were asked for, and some if there are any. -/
  | read {want : Int} {s q : Bytes} : s.length ≤ want.toNat → (s = [] → want ≤ 0 ∨ q = []) →
      Answers (.read want) (s ++ q) (.str s) s q
  | readAll (q : Bytes) : Answers .readAll q (.str q) q []
  | readByte (b : UInt8) (q : Bytes) : Answers .readByte (b :: q) (.int b.toNat) [b] q
  | noByte : Answers .readByte [] (.int (-1)) [] []
  /-- The front of the queue, which stays. -/
  | peek (want : Int) (q : Bytes) : Answers (.peek want) q (.str (q.take want.toNat)) [] q
  | atEof (q : Bytes) : Answers .atEof q (.bool (q == [])) [] q
  /-- All bytes, laid out in records. -/
  | records {width : Int} (q : Bytes) : 0 < width →
      Answers (.records width) q (.recs (recordsOf q width.toNat)) q []

/-- What a call takes comes off the front. -/
theorem Answers.takes {c : Call} {q t q' : Bytes} {r : Reply} (h : Answers c q r t q') : q = t ++ q' := by
  cases h with
  | err => rfl
  | line => rfl
  | lastLine => rw [append_nil]
  | read => rfl
  | readAll => rw [append_nil]
  | readByte => rfl
  | noByte => rfl
  | peek => rfl
  | atEof => rfl
  | records => rw [append_nil]

/-- Every call of a session answers as a queue does; the bytes are those that the calls take. -/
inductive Serves : St → List Call → Bytes → St → Prop
  | nil (st : St) : Serves st [] [] st
  | cons {st st' last : St} {c : Call} {r : Reply} {calls : List Call} {t taken : Bytes} :
      vlReaderMethod c st = (r, st') → Answers c st.pending r t st'.pending →
      Serves st' calls taken last → Serves st (c :: calls) (t ++ taken) last

/-- Nothing is lost, duplicated or reordered. -/
theorem Serves.takes {st last : St} {calls : List Call} {taken : Bytes}
    (h : Serves st calls taken last) : st.pending = taken ++ last.pending := by
  induction h with
  | nil st => rfl
  | cons _ answers _ ih => rw [answers.takes, ih, append_assoc]

/-! ### The buffer -/

@[simp] theorem compact_b (rd : Reader) : rd.compact.b = rd.held := rfl

theorem advance_held (rd : Reader) (n : Nat) : (rd.advance n).held = rd.held.drop n := by
  show rd.b.drop (min (rd.r + n) rd.b.length) = (rd.b.drop rd.r).drop n
  rw [drop_drop]
  by_cases fits : rd.r + n ≤ rd.b.length
  · rw [Nat.min_eq_left fits]
  · rw [Nat.min_eq_right (Nat.le_of_not_le fits), drop_length, drop_eq_nil_of_le (by omega)]

theorem take_pending (st : St) (n : Nat) :
    st.pending = st.rd.held.take n ++ (st.take n).2.pending := by
  unfold St.pending St.take
  rw [advance_held, ← append_assoc, take_append_drop]

theorem putBack_bytes (left : Bytes) (src : Source) : (Source.putBack left src).bytes = left ++ src.bytes := by
  cases left with
  | nil => rfl
  | cons b bs => rfl

/-- A reader whose refill came back empty has a source that is at its end. -/
def St.Sound (st : St) : Prop := st.rd.eof = true → st.src = []

/-- What a refill does. -/
inductive Fills (held : Bytes) (eof : Bool) (src : Source) : Got → St → Prop
  | added {st : St} (chunk : Bytes) : chunk ≠ [] → st.rd.held = held ++ chunk →
      src.bytes = chunk ++ st.src.bytes → st.rd.eof = eof →
      (∀ why, .fail why ∈ st.src ↔ .fail why ∈ src) → (∀ why, src.head? ≠ some (.fail why)) →
      Fills held eof src .added st
  | ended {st : St} : src = [] → st.src = [] → st.rd.held = held → Fills held eof src .ended st
  | failed {st : St} (why : Bytes) : st.rd.held = held → st.src.bytes = src.bytes → st.rd.eof = eof →
      (src = [] → st.src = []) → (held = [] → ∃ why, src = .fail why :: st.src) →
      Fills held eof src (.failed why) st

theorem putBack_fails (left : Bytes) (src : Source) (why : Bytes) :
    .fail why ∈ Source.putBack left src ↔ .fail why ∈ src := by
  cases left with
  | nil => rfl
  | cons b bs => simp [Source.putBack]

theorem refill_fills {rd : Reader} (start : rd.r = 0) (room : rd.b.length < rd.cap) (src : Source) :
    Fills rd.held rd.eof src (refill rd src).1 (refill rd src).2 := by
  cases src with
  | nil => exact .ended rfl rfl rfl
  | cons first src =>
    cases first with
    | fail why => exact .failed why rfl rfl rfl (fun h => absurd h nofun) fun _ => ⟨why, rfl⟩
    | bytes b bs =>
      refine .added ((b :: bs).take (rd.cap - rd.b.length)) ?_ ?_ ?_ rfl (fun why => ?_) fun _ => nofun
      · intro none_read
        have := congrArg List.length none_read
        rw [length_take, length_cons, length_nil] at this
        omega
      · show (rd.b ++ (b :: bs).take (rd.cap - rd.b.length)).drop rd.r =
          rd.b.drop rd.r ++ (b :: bs).take (rd.cap - rd.b.length)
        rw [start, drop_zero, drop_zero]
      · show b :: bs ++ Source.bytes src = _ ++ (Source.putBack _ src).bytes
        rw [putBack_bytes, ← append_assoc, take_append_drop]
      · refine (putBack_fails _ src why).trans ?_
        simp

theorem rdFill_fills (st : St) : Fills st.rd.held st.rd.eof st.src (rdFill st).1 (rdFill st).2 := by
  unfold rdFill
  dsimp only
  by_cases full : st.rd.compact.b.length = st.rd.compact.cap
  · rw [if_pos full]
    have some_held : st.rd.held ≠ [] := by
      intro none_held
      rw [compact_b, none_held, length_nil] at full
      exact absurd full.symm (Nat.ne_of_gt st.rd.compact.roomy)
    unfold Reader.grow
    by_cases large : ioMaxBuf < st.rd.compact.cap * 2
    · rw [if_pos large]
      exact .failed tooLong rfl rfl rfl id fun h => absurd h some_held
    · rw [if_neg large]
      have room : st.rd.compact.doubled.b.length < st.rd.compact.doubled.cap := by
        have := st.rd.compact.roomy
        show st.rd.compact.b.length < st.rd.compact.cap * 2
        omega
      exact @refill_fills st.rd.compact.doubled rfl room st.src
  · rw [if_neg full]
    exact @refill_fills st.rd.compact rfl (Nat.lt_of_le_of_ne st.rd.compact.fits full) st.src

/-- A refill keeps the queue. -/
theorem Fills.pending {st st' : St} {got : Got} (h : Fills st.rd.held st.rd.eof st.src got st') :
    st'.pending = st.pending := by
  unfold St.pending
  cases h with
  | added chunk _ held bytes _ _ _ => rw [held, bytes, append_assoc]
  | ended none_left none_left' held => rw [held, none_left, none_left']
  | failed why held bytes _ _ _ => rw [held, bytes]

theorem Fills.sound {st st' : St} {got : Got} (h : Fills st.rd.held st.rd.eof st.src got st')
    (sound : st.Sound) : st'.Sound := by
  intro atEnd
  cases h with
  | added chunk some_read _ bytes eof _ _ =>
    rw [sound (eof ▸ atEnd)] at bytes
    exact absurd (append_eq_nil_iff.mp bytes.symm).1 some_read
  | ended _ none_left _ => exact none_left
  | failed _ _ _ eof stays _ => exact stays (sound (eof ▸ atEnd))

variable {st : St} {c : Call} {q : Bytes} {n : Nat} {want : Int} {calls : List Call}

theorem Fills.fewer {held : Bytes} {eof : Bool} {src : Source}
    (h : Fills held eof src .added st) : st.src.bytes.length < src.bytes.length := by
  cases h with
  | added chunk some_read _ bytes _ _ _ =>
    rw [bytes, length_append]
    have := length_pos_iff.mpr some_read
    omega

/-! ### The calls -/

/-- A call of a reader answers as its queue `q` does. -/
def Serving (c : Call) (q : Bytes) (out : Reply × St) : Prop :=
  ∃ t, Answers c q out.1 t out.2.pending ∧ out.2.Sound

theorem Serving.err {q why : Bytes} (h : st.pending = q) (sound : st.Sound) :
    Serving c q (.err why, st) :=
  ⟨[], h ▸ .err c _ why, sound⟩

theorem afterFill_serves (hq : st.pending = q) (sound : st.Sound) {ended added : St → Reply × St}
    (ends : ∀ st' : St, st'.pending = q → st'.Sound → st'.src = [] → st'.rd.held = st.rd.held →
      Serving c q (ended st'))
    (adds : ∀ st' : St, st'.pending = q → st'.Sound → st'.src.bytes.length < st.src.bytes.length →
      st'.rd.held ≠ [] → Serving c q (added st')) : Serving c q (afterFill st ended added) := by
  have fills := rdFill_fills st
  unfold afterFill
  cases hfill : rdFill st with
  | mk got st' =>
    rw [hfill] at fills
    have same : st'.pending = q := fills.pending.trans hq
    have sound' := fills.sound sound
    cases got with
    | failed why => exact .err same sound'
    | ended =>
      cases fills with
      | ended _ none_left held => exact ends st' same sound' none_left held
    | added =>
      have fewer := fills.fewer
      cases fills with
      | added chunk some_read held _ _ _ _ =>
        refine adds st' same sound' fewer fun none_held => some_read ?_
        rw [held] at none_held
        exact (append_eq_nil_iff.mp none_held).2

theorem pending_of_end (h : st.src = []) : st.pending = st.rd.held := by
  unfold St.pending
  rw [h]
  exact append_nil _

theorem take_line (sound : st.Sound) {i : Nat} (h : st.rd.held.findIdx? (· == ch '\n') = some i) :
    Serving .readLine st.pending (st.take (i + 1)) := by
  obtain ⟨here, isFeed, before⟩ := findIdx?_eq_some_iff_getElem.mp h
  have feed : st.rd.held[i] = ch '\n' := by simpa using isFeed
  have front : st.rd.held.take (i + 1) = st.rd.held.take i ++ [ch '\n'] := by
    rw [take_succ_eq_append_getElem here, feed]
  have plain : ch '\n' ∉ st.rd.held.take i := by
    intro hm
    obtain ⟨j, hj, eq⟩ := mem_iff_getElem.mp hm
    rw [length_take] at hj
    rw [getElem_take] at eq
    exact absurd eq (by simpa using before j (by omega))
  refine ⟨st.rd.held.take (i + 1), ?_, sound⟩
  rw [take_pending st (i + 1)]
  show Answers .readLine _ (.str (st.rd.held.take (i + 1))) _ _
  rw [front]
  exact .line _ plain

theorem take_lastLine (none_left : st.src = []) (plain : ch '\n' ∉ st.rd.held) :
    Serving .readLine st.pending (st.take st.rd.held.length) := by
  refine ⟨st.rd.held, ?_, fun _ => none_left⟩
  have rest : (st.take st.rd.held.length).2.pending = [] := by
    show (st.rd.advance st.rd.held.length).held ++ st.src.bytes = []
    rw [advance_held, drop_length, none_left]
    rfl
  rw [rest, pending_of_end none_left]
  show Answers .readLine _ (.str (st.rd.held.take st.rd.held.length)) _ _
  rw [take_length]
  exact .lastLine plain

theorem lineLoop_serves (hq : st.pending = q) (sound : st.Sound)
    (fuel : st.src.bytes.length < n) : Serving .readLine q (lineLoop n st) := by
  induction n generalizing st with
  | zero => omega
  | succ n ih =>
    rw [lineLoop]
    cases hfind : st.rd.held.findIdx? (· == ch '\n') with
    | some i => exact hq ▸ take_line sound hfind
    | none =>
      have plain : ch '\n' ∉ st.rd.held := by
        intro hm
        have := findIdx?_eq_none_iff.mp hfind _ hm
        simp at this
      refine afterFill_serves hq sound (fun st' same _ none_left held => ?_)
        (fun st' same sound' fewer _ => ih same sound' (by omega))
      exact same ▸ take_lastLine none_left (held ▸ plain)

theorem take_read (sound : st.Sound) (pos : 0 < want)
    (some_held : st.rd.held ≠ []) : Serving (.read want) st.pending (st.take want.toNat) := by
  refine ⟨st.rd.held.take want.toNat, ?_, sound⟩
  rw [take_pending st want.toNat]
  refine .read (length_take_le _ _) fun none_taken => ?_
  cases take_eq_nil_iff.mp none_taken with
  | inl none_wanted => omega
  | inr none_held => exact absurd none_held some_held

theorem rdRead_serves (sound : st.Sound) (want : Int) :
    Serving (.read want) st.pending (rdRead want st) := by
  unfold rdRead
  by_cases pos : want ≤ 0
  · rw [if_pos pos]
    exact ⟨[], .read (s := []) (Nat.zero_le _) fun _ => .inl pos, sound⟩
  · rw [if_neg pos]
    by_cases none_held : st.rd.held = []
    · rw [if_pos none_held]
      refine afterFill_serves rfl sound (fun st' same sound' none_left held => ?_)
        (fun st' same sound' _ some_held => same ▸ take_read sound' (Int.not_le.mp pos) some_held)
      have nothing : st'.pending = [] := by rw [pending_of_end none_left, held, none_held]
      refine ⟨[], ?_, sound'⟩
      rw [← same, nothing]
      exact .read (s := []) (Nat.zero_le _) fun _ => .inr rfl
    · rw [if_neg none_held]
      exact take_read sound (Int.not_le.mp pos) none_held

theorem byte_serves (sound : st.Sound) (some_held : st.rd.held ≠ []) :
    Serving .readByte st.pending st.byte := by
  unfold St.byte
  cases hheld : st.rd.held with
  | nil => exact absurd hheld some_held
  | cons b bs =>
    refine ⟨[b], ?_, sound⟩
    have first := take_pending st 1
    rw [hheld] at first
    rw [first]
    exact .readByte b _

theorem rdByte_serves (sound : st.Sound) : Serving .readByte st.pending (rdByte st) := by
  unfold rdByte
  by_cases none_held : st.rd.held = []
  · rw [if_pos none_held]
    refine afterFill_serves rfl sound (fun st' same sound' none_left held => ?_)
      (fun st' same sound' _ some_held => same ▸ byte_serves sound' some_held)
    have nothing : st'.pending = [] := by rw [pending_of_end none_left, held, none_held]
    refine ⟨[], ?_, sound'⟩
    rw [← same, nothing]
    exact .noByte
  · rw [if_neg none_held]
    exact byte_serves sound none_held

theorem peek_held (sound : st.Sound) (enough : want.toNat ≤ st.rd.held.length ∨ st.src = []) :
    Serving (.peek want) st.pending (.str (st.rd.held.take want.toNat), st) := by
  refine ⟨[], ?_, sound⟩
  have front : st.rd.held.take want.toNat = st.pending.take want.toNat := by
    cases enough with
    | inl enough => exact (take_append_of_le_length enough).symm
    | inr none_left => rw [pending_of_end none_left]
  show Answers _ _ (.str (st.rd.held.take want.toNat)) _ _
  rw [front]
  exact .peek want st.pending

theorem peekLoop_serves (hq : st.pending = q) (sound : st.Sound) (fuel : st.src.bytes.length < n) :
    Serving (.peek want) q (peekLoop want.toNat n st) := by
  induction n generalizing st with
  | zero => omega
  | succ n ih =>
    rw [peekLoop]
    by_cases more : st.rd.held.length < want.toNat
    · rw [if_pos more]
      exact afterFill_serves hq sound
        (fun st' same sound' none_left _ => same ▸ peek_held sound' (.inr none_left))
        (fun st' same sound' fewer _ => ih same sound' (by omega))
    · rw [if_neg more]
      exact hq ▸ peek_held sound (.inl (Nat.le_of_not_lt more))

theorem rdPeek_serves (sound : st.Sound) (want : Int) :
    Serving (.peek want) st.pending (rdPeek want st) := by
  unfold rdPeek
  by_cases pos : want ≤ 0
  · rw [if_pos pos]
    refine ⟨[], ?_, sound⟩
    have peeked := Answers.peek want st.pending
    rw [Int.toNat_eq_zero.mpr pos, take_zero] at peeked
    exact peeked
  · rw [if_neg pos]
    exact peekLoop_serves rfl sound (Nat.lt_succ_self _)

theorem rdAtEof_serves (sound : st.Sound) : Serving .atEof st.pending (rdAtEof st) := by
  have reply {st : St} (sound : st.Sound) {b : Bool} (h : b = (st.pending == [])) :
      Serving .atEof st.pending (.bool b, st) := ⟨[], h ▸ .atEof st.pending, sound⟩
  have more {st : St} (sound : st.Sound) (some_held : st.rd.held ≠ []) :
      Serving .atEof st.pending (.bool false, st) := by
    refine reply sound (Eq.symm ?_)
    rw [beq_eq_false_iff_ne]
    exact fun h => some_held (append_eq_nil_iff.mp h).1
  have done {st : St} (sound : st.Sound) (none_left : st.src = []) (none_held : st.rd.held = []) :
      Serving .atEof st.pending (.bool true, st) := by
    refine reply sound (Eq.symm ?_)
    rw [beq_iff_eq, pending_of_end none_left]
    exact none_held
  unfold rdAtEof
  by_cases none_held : st.rd.held = []
  · rw [if_neg (fun h => h none_held)]
    by_cases seen : st.rd.eof = true
    · rw [if_pos seen]
      exact done sound (sound seen) none_held
    · rw [if_neg seen]
      exact afterFill_serves rfl sound
        (fun st' same sound' none_left held => same ▸ done sound' none_left (held.trans none_held))
        (fun st' same sound' _ some_held => same ▸ more sound' some_held)
  · rw [if_pos none_held]
    exact more sound none_held

/-! ### Gathering -/

/-- A refill of a buffer with nothing in it. -/
theorem drained_fills (st : St) :
    Fills [] st.rd.eof st.src (rdFill { st with rd := st.rd.advance st.rd.held.length }).1
      (rdFill { st with rd := st.rd.advance st.rd.held.length }).2 := by
  have fills := rdFill_fills { st with rd := st.rd.advance st.rd.held.length }
  have drained : (st.rd.advance st.rd.held.length).held = [] := by rw [advance_held, drop_length]
  rw [drained] at fills
  exact fills

/-- A source that does not fail is read to its end. -/
theorem allLoop_all (sound : st.Sound) (whole : ∀ why, .fail why ∉ st.src)
    (fuel : st.src.bytes.length < n) (out : Bytes) :
    ∃ st', allLoop n out st = (.str (out ++ st.pending), st') ∧ st'.pending = [] ∧ st'.Sound := by
  induction n generalizing st out with
  | zero => omega
  | succ n ih =>
    rw [allLoop, afterFill]
    have fills := drained_fills st
    cases hfill : rdFill { st with rd := st.rd.advance st.rd.held.length } with
    | mk got st₁ =>
      rw [hfill] at fills
      cases got with
      | failed why =>
        cases fills with
        | failed _ _ _ _ _ next =>
          obtain ⟨why, first⟩ := next rfl
          exact absurd (first ▸ mem_cons_self) (whole why)
      | ended =>
        cases fills with
        | ended none_left none_left' none_held =>
          refine ⟨st₁, ?_, ?_, fun _ => none_left'⟩
          · rw [pending_of_end none_left]
          · rw [pending_of_end none_left', none_held]
      | added =>
        have fewer : st₁.src.bytes.length < st.src.bytes.length := fills.fewer
        cases fills with
        | added chunk some_read held bytes eof fails _ =>
          have sound₁ : st₁.Sound := fun atEnd => by
            rw [sound (eof ▸ atEnd)] at bytes
            exact absurd (append_eq_nil_iff.mp bytes.symm).1 some_read
          obtain ⟨st', eq, empty, sound'⟩ := ih sound₁ (fun why hm => whole why ((fails why).mp hm))
            (by omega) (out ++ st.rd.held)
          refine ⟨st', ?_, empty, sound'⟩
          have same : st.pending = st.rd.held ++ st₁.pending := by
            unfold St.pending
            rw [bytes, held, nil_append]
          dsimp only
          rw [eq, same, append_assoc]

/-- A source that fails stops the loop there: what it has read by then is gone. -/
theorem allLoop_stops (fails : ∃ why, .fail why ∈ st.src)
    (fuel : st.src.bytes.length < n) (out : Bytes) :
    ∃ why st' lost, allLoop n out st = (.err why, st') ∧
      st.pending = st.rd.held ++ lost ++ st'.pending ∧
      (lost = [] ↔ ∃ why, st.src.head? = some (.fail why)) ∧
      (st.Sound → st'.Sound) := by
  induction n generalizing st out with
  | zero => omega
  | succ n ih =>
    rw [allLoop, afterFill]
    have fills := drained_fills st
    cases hfill : rdFill { st with rd := st.rd.advance st.rd.held.length } with
    | mk got st₁ =>
      rw [hfill] at fills
      cases got with
      | failed why =>
        cases fills with
        | failed _ none_held bytes eof stays next =>
          obtain ⟨why', first⟩ := next rfl
          refine ⟨why, st₁, [], rfl, ?_, ⟨fun _ => ⟨why', by rw [first]; rfl⟩, fun _ => rfl⟩, ?_⟩
          · unfold St.pending
            rw [none_held, bytes, nil_append, append_nil]
          · exact fun sound atEnd => stays (sound (eof ▸ atEnd))
      | ended =>
        cases fills with
        | ended none_left _ _ =>
          obtain ⟨why, hm⟩ := fails
          rw [none_left] at hm
          exact absurd hm not_mem_nil
      | added =>
        have fewer : st₁.src.bytes.length < st.src.bytes.length := fills.fewer
        cases fills with
        | added chunk some_read held bytes eof same_fails no_fail =>
          obtain ⟨why, hm⟩ := fails
          obtain ⟨why, st', lost, eq, rest, -, sound'⟩ :=
            ih ⟨why, (same_fails why).mpr hm⟩
              (Nat.lt_of_lt_of_le fewer (Nat.le_of_lt_succ fuel)) (out ++ st.rd.held)
          refine ⟨why, st', chunk ++ lost, eq, ?_, ?_, fun sound => sound' fun atEnd => ?_⟩
          · have later : st₁.pending = chunk ++ st₁.src.bytes := by
              unfold St.pending
              rw [held, nil_append]
            rw [held, nil_append, later] at rest
            show st.rd.held ++ st.src.bytes = _
            rw [bytes, rest, ← append_assoc]
          · exact ⟨fun nothing => absurd (append_eq_nil_iff.mp nothing).1 some_read,
              fun ⟨why, head⟩ => absurd head (no_fail why)⟩
          · rw [sound (eof ▸ atEnd)] at bytes
            exact absurd (append_eq_nil_iff.mp bytes.symm).1 some_read

/-- A failure of the source will stop a gathering call, with something to lose before it. -/
def St.Cut (st : St) : Prop :=
  (∃ why, .fail why ∈ st.src) ∧ (st.rd.held ≠ [] ∨ ∀ why, st.src.head? ≠ some (.fail why))

/-- The call will lose bytes. -/
def Cuts : Call → St → Prop
  | .readAll, st => st.Cut
  | .records width, st => 0 < width ∧ st.Cut
  | _, _ => False

/-- A gathering call on a source that fails, with nothing to lose. -/
theorem rdAll_refused (sound : st.Sound) (fails : ∃ why, .fail why ∈ st.src) (h : ¬ st.Cut) :
    ∃ why st', rdAll st = (.err why, st') ∧ st'.pending = st.pending ∧ st'.Sound := by
  obtain ⟨why, st', lost, eq, rest, first, sound'⟩ := allLoop_stops fails (Nat.lt_succ_self _) []
  have none_held : st.rd.held = [] := by
    by_contra some_held
    exact h ⟨fails, .inl some_held⟩
  have head : ∃ why, st.src.head? = some (.fail why) := by
    by_contra no_fail
    exact h ⟨fails, .inr (not_exists.mp no_fail)⟩
  rw [none_held, first.mpr head] at rest
  exact ⟨why, st', eq, rest.symm, sound' sound⟩

theorem rdAll_serves (sound : st.Sound) (h : ¬ st.Cut) :
    Serving .readAll st.pending (rdAll st) := by
  by_cases fails : ∃ why, .fail why ∈ st.src
  · obtain ⟨why, st', eq, same, sound'⟩ := rdAll_refused sound fails h
    rw [eq]
    exact .err same sound'
  · obtain ⟨st', eq, empty, sound'⟩ :=
      allLoop_all sound (not_exists.mp fails) (Nat.lt_succ_self _) []
    rw [rdAll, St.fuel, eq]
    refine ⟨st.pending, ?_, sound'⟩
    show Answers _ _ _ _ st'.pending
    rw [empty]
    exact .readAll st.pending

theorem rdRecords_serves (sound : st.Sound) {width : Int} (h : ¬ Cuts (.records width) st) :
    Serving (.records width) st.pending (rdRecords width st) := by
  unfold rdRecords
  by_cases pos : width ≤ 0
  · rw [if_pos pos]
    exact .err rfl sound
  · rw [if_neg pos]
    have positive := Int.not_le.mp pos
    have uncut : ¬ st.Cut := fun hc => h ⟨positive, hc⟩
    by_cases fails : ∃ why, .fail why ∈ st.src
    · obtain ⟨why, st', eq, same, sound'⟩ := rdAll_refused sound fails uncut
      rw [eq]
      exact .err same sound'
    · obtain ⟨st', eq, empty, sound'⟩ :=
        allLoop_all sound (not_exists.mp fails) (Nat.lt_succ_self _) []
      rw [rdAll, St.fuel, eq]
      refine ⟨st.pending, ?_, sound'⟩
      show Answers _ _ _ _ st'.pending
      rw [empty]
      exact .records st.pending positive

/-- A call that loses nothing answers as the queue does. -/
theorem call_answers (sound : st.Sound) (h : ¬ Cuts c st) :
    Serving c st.pending (vlReaderMethod c st) := by
  cases c with
  | readLine => exact lineLoop_serves rfl sound (Nat.lt_succ_self _)
  | read want => exact rdRead_serves sound want
  | readAll => exact rdAll_serves sound h
  | readByte => exact rdByte_serves sound
  | peek want => exact rdPeek_serves sound want
  | atEof => exact rdAtEof_serves sound
  | records width => exact rdRecords_serves sound h

/-- A call that loses something returns an error, and the queue is not what it was. -/
theorem call_loses (h : Cuts c st) (t : Bytes) :
    ¬ Answers c st.pending (vlReaderMethod c st).1 t (vlReaderMethod c st).2.pending := by
  have stopped (cut : st.Cut) : ∃ why st', rdAll st = (.err why, st') ∧ st'.pending ≠ st.pending := by
    obtain ⟨fails, something⟩ := cut
    obtain ⟨why, st', lost, eq, rest, first, -⟩ := allLoop_stops fails (Nat.lt_succ_self _) []
    refine ⟨why, st', eq, fun same => ?_⟩
    rw [same] at rest
    have nothing := append_eq_nil_iff.mp (self_eq_append_left.mp rest)
    cases something with
    | inl some_held => exact some_held nothing.1
    | inr no_fail =>
      obtain ⟨why', head⟩ := first.mp nothing.2
      exact no_fail why' head
  intro answers
  cases c with
  | readAll =>
    obtain ⟨why, st', eq, other⟩ := stopped h
    rw [vlReaderMethod, eq] at answers
    generalize hq : st'.pending = q at answers
    cases answers
    exact other hq
  | records width =>
    obtain ⟨why, st', eq, other⟩ := stopped h.2
    rw [vlReaderMethod, rdRecords, if_neg (Int.not_le.mpr h.1), eq] at answers
    generalize hq : st'.pending = q at answers
    cases answers
    exact other hq
  | readLine => exact h
  | read _ => exact h
  | readByte => exact h
  | peek _ => exact h
  | atEof => exact h

/-! ### Sessions -/

/-- No call of the session loses bytes. -/
def Intact : St → List Call → Prop
  | _, [] => True
  | st, c :: calls => ¬ Cuts c st ∧ Intact (vlReaderMethod c st).2 calls

theorem serves_of_intact (sound : st.Sound) (h : Intact st calls) :
    ∃ taken last, Serves st calls taken last := by
  induction calls generalizing st with
  | nil => exact ⟨[], st, .nil st⟩
  | cons c calls ih =>
    obtain ⟨t, answers, sound'⟩ := call_answers sound h.1
    obtain ⟨taken, last, serves⟩ := ih sound' h.2
    exact ⟨t ++ taken, last, .cons rfl answers serves⟩

theorem Serves.intact {st last : St} {taken : Bytes}
    (h : Serves st calls taken last) : Intact st calls := by
  induction h with
  | nil => exact trivial
  | @cons st st' last c r calls t taken eq answers _ ih =>
    refine ⟨fun cuts => call_loses cuts t ?_, ?_⟩
    · rw [eq]
      exact answers
    · rw [eq]
      exact ih

theorem reader_sound (cap : Nat) (src : Source) : St.Sound ⟨reader cap, src⟩ :=
  fun atEnd => Bool.noConfusion (show false = true from atEnd)

/-- **A reader is a queue.** For every source, and all calls on a reader of it: what the calls return
are the bytes of the source from the front, as far as they go, exactly when no call loses any. -/
theorem serves_iff (cap : Nat) (src : Source) (calls : List Call) :
    (∃ taken last, Serves ⟨reader cap, src⟩ calls taken last ∧ src.bytes = taken ++ last.pending) ↔
      Intact ⟨reader cap, src⟩ calls := by
  constructor
  · intro ⟨_, _, serves, _⟩
    exact serves.intact
  · intro intact
    obtain ⟨taken, last, serves⟩ := serves_of_intact (reader_sound cap src) intact
    exact ⟨taken, last, serves, serves.takes⟩

/-- A failure after a byte: `read_all` returns it, and the byte is gone. -/
theorem failingSource_not_serves :
    ¬ ∃ taken last, Serves ⟨reader 8192, [.bytes (ch 'a') [], .fail [], .bytes (ch 'b') []]⟩
        [.readAll] taken last ∧ [ch 'a', ch 'b'] = taken ++ last.pending := by
  rintro ⟨_, _, serves, _⟩
  refine serves.intact.1 ⟨⟨[], ?_⟩, .inr fun why head => ?_⟩
  · exact mem_cons_of_mem _ mem_cons_self
  · rw [head?_cons] at head
    exact absurd (Option.some.inj head) nofun

end Voila.Rt.Io
