import Voila.Http.Reading

/-!
# Voila.Http.ReadingSound

When what `recv_request` and `recv_response` give does not depend on how the bytes are cut up
(`same_every_way_iff`).

What is read off a stream is what the bytes give (`answer_agrees`), however it is cut up, but for a
line that is longer than `MAX_LINE` and ends less than a read behind it: the limit is tested on
what is buffered while there is no line feed in it. Such a line is refused when it comes byte by
byte, and taken when it comes in one read (`reached_by_byte`, `overlong_taken`).
-/

open List

namespace Voila.Http

open Voila.Rt (Bytes)
open Voila.Rt.Json (ch)
open Voila.Lib (Prog Impl)

/-! ### Lines of the bytes -/

variable {raw t got : Bytes} {n : Nat} {st : Stream} {o : Ask}

theorem firstLine_append (noLf : 10 ∉ raw) (t : Bytes) :
    firstLine (raw ++ t) = raw ++ firstLine t := by
  refine takeWhile_append_of_pos fun b hb => ?_
  simpa using fun h : b = 10 => noLf (h ▸ hb)

theorem firstLine_of (noLf : 10 ∉ raw) (rest : Bytes) : firstLine (raw ++ 10 :: rest) = raw := by
  rw [firstLine_append noLf]
  exact append_nil raw

theorem firstLine_last (noLf : 10 ∉ t) : firstLine t = t := by
  have whole := firstLine_append noLf []
  rw [append_nil] at whole
  exact whole.trans (append_nil t)

theorem takeLine_of (noLf : 10 ∉ raw) (rest : Bytes) :
    takeLine (raw ++ 10 :: rest) = (some (stripCr raw), rest) := by
  unfold takeLine
  rw [cutAt_append noLf]

theorem takeLine_last (noLf : 10 ∉ t) (full : t ≠ []) : takeLine t = (some (stripCr t), []) := by
  unfold takeLine
  rw [cutAt_eq_none noLf]
  exact if_neg full

/-- A first line that is longer than `MAX_LINE`, but ends less than a read behind it. -/
def Overlong (t : Bytes) : Prop :=
  10 ∈ t ∧ maxLine < (firstLine t).length ∧ (firstLine t).length < maxLine + readChunk

/-! ### What a stream gives -/

/-- A stream whose reads do not fail, with `t` still to come and little of it in the buffer. -/
structure Stream.Holds (st : Stream) (t : Bytes) : Prop where
  reliable : st.Reliable
  bytes : st.bytes = t
  small : st.buf.length ≤ maxLine + readChunk

theorem lineLoop_long (noLf : 10 ∉ st.buf) (long : maxLine < st.buf.length) :
    lineLoop (n + 1) st = errf lineTooLong := by
  rw [lineLoop, cutAt_eq_none noLf]
  exact if_pos long

theorem lineLoop_fill (noLf : 10 ∉ st.buf) (short : st.buf.length ≤ maxLine)
    (he : st.eof = false) : lineLoop (n + 1) st = st.fill.bind (lineLoop n) := by
  rw [lineLoop, cutAt_eq_none noLf]
  rw [if_neg (Nat.not_lt.mpr short), he]
  rfl

theorem fill_small {st st' : Stream} (h : st.fill = .ok st') :
    st'.buf.length ≤ st.buf.length + readChunk := by
  unfold Stream.fill at h
  split_ifs at h with he
  · cases h
    exact Nat.le_add_right _ _
  · cases hr : st.conn.read readChunk with
    | error e => rw [hr] at h; cases h
    | ok p =>
      have few := (Conn.read_takes hr).2.1
      rw [hr] at h
      dsimp only [bind, Except.bind] at h
      split_ifs at h with hc
      · cases h
        exact Nat.le_add_right _ _
      · cases h
        rw [length_append]
        omega

/-- A line is taken off the bytes or refused for its length. It is only refused if it is too long,
and only taken if it is not, or if it is one that the test can miss. -/
theorem lineLoop_holds (holds : st.Holds t)
    (fuel : st.conn.data.length + 2 ≤ n ∨ st.eof = true ∧ 1 ≤ n) :
    (maxLine < (firstLine t).length ∧ lineLoop n st = errf lineTooLong) ∨
      (((firstLine t).length ≤ maxLine ∨ Overlong t) ∧
        ∃ st', lineLoop n st = .ok ((takeLine t).1, st') ∧ st'.Holds (takeLine t).2) := by
  induction n generalizing st with
  | zero => omega
  | succ n ih =>
    obtain ⟨reliable, rfl, small⟩ := holds
    rcases lineLoop_succ n st with ⟨raw, after, hc, eq⟩ | ⟨noLf, more⟩
    · -- the buffer has the whole line
      obtain ⟨buf, noLf⟩ := cutAt_some hc
      have split : st.bytes = raw ++ 10 :: (after ++ st.conn.data) := by
        unfold Stream.bytes
        rw [buf, append_assoc, cons_append]
      have length := congrArg List.length buf
      rw [length_append, length_cons] at length
      rw [split, firstLine_of noLf, takeLine_of noLf]
      refine .inr ⟨?_, _, eq, reliable, rfl, by dsimp only; omega⟩
      rcases Nat.lt_or_ge maxLine raw.length with long | short
      · refine .inr ⟨by simp, ?_⟩
        rw [firstLine_of noLf]
        exact ⟨long, by omega⟩
      · exact .inl short
    · have front : firstLine st.bytes = st.buf ++ firstLine st.conn.data := firstLine_append noLf _
      rcases Nat.lt_or_ge maxLine st.buf.length with long | short
      · refine .inl ⟨?_, lineLoop_long noLf long⟩
        rw [front, length_append]
        omega
      · cases he : st.eof with
        | true =>
          have rest : st.bytes = st.buf := by
            unfold Stream.bytes
            rw [reliable.1 he, append_nil]
          rw [rest, firstLine_last noLf]
          refine .inr ⟨.inl short, ?_⟩
          rcases more with ⟨long, -⟩ | ⟨-, hb, eq⟩ | ⟨-, hb, eq⟩ | ⟨open_, -⟩
          · omega
          · rw [hb]
            exact ⟨st, eq, reliable, rest.trans hb, small⟩
          · rw [takeLine_last noLf hb]
            exact ⟨_, eq, reliable, reliable.1 he, Nat.zero_le _⟩
          · exact absurd (he.symm.trans open_) (by simp)
        | false =>
          obtain ⟨st₁, hf, reliable₁⟩ := fill_reliable reliable he
          obtain ⟨-, bytes₁, progress⟩ := fill_inv he hf
          have small₁ := fill_small hf
          rw [lineLoop_fill noLf short he, hf, bind_ok]
          refine ih ⟨reliable₁, bytes₁, by omega⟩ ?_
          rw [he] at fuel
          simp only [Bool.false_eq_true, false_and, or_false] at fuel
          obtain ended | ⟨-, fewer⟩ := progress
          · exact .inr ⟨ended, by omega⟩
          · exact .inl (by omega)

theorem line_agrees (holds : st.Holds t) (ends : ¬ Overlong t) :
    Prog.Agree Stream.Holds st.line (strictly .line t) := by
  rw [strictly]
  rcases lineLoop_holds holds (.inl le_rfl) with ⟨long, eq⟩ | ⟨short | overlong, st', eq, holds'⟩
  · rw [if_pos long, Stream.line, eq]
    unfold errf
    cases sprintf lineTooLong <;> exact .failed _
  · rw [if_neg (Nat.not_lt.mpr short), Stream.line, eq]
    exact .answered _ holds'
  · exact absurd overlong ends

/-- Bytes that are taken straight from the connection leave the buffer. -/
theorem exactLoop_buf {want n : Nat} {got body : Bytes} {st st' : Stream}
    (h : exactLoop want n got st = .ok (body, st')) : st'.buf = st.buf := by
  induction n generalizing got st with
  | zero => cases h
  | succ n ih =>
    rcases exactLoop_succ want n got st with ⟨-, eq⟩ | ⟨-, msg, -, eq⟩ | ⟨-, -, eq⟩
    · rw [eq] at h
      obtain ⟨-, rfl⟩ := Prod.mk.inj (Except.ok.inj h)
      rfl
    · rw [eq] at h
      exact absurd h (errf_ne_ok _ _)
    · rw [eq] at h
      cases hr : st.conn.read (want - got.length) with
      | error e => rw [hr] at h; cases h
      | ok p =>
        rw [hr, bind_ok] at h
        split_ifs at h with hc
        · exact absurd h (errf_ne_ok _ _)
        · have rest := ih h
          exact rest

/-- What is missing of a body is told apart by how many bytes there are. -/
theorem exactLoop_short {want n : Nat} (reliable : st.Reliable)
    (short : got.length + st.conn.data.length < want) (fuel : st.conn.data.length + 1 ≤ n) :
    exactLoop want n got st = errf (cutShort (got.length + st.conn.data.length) want) := by
  induction n generalizing got st with
  | zero => omega
  | succ n ih =>
    rw [exactLoop, if_neg (by omega)]
    cases he : st.eof with
    | true => rw [if_pos rfl, reliable.1 he, length_nil, Nat.add_zero]
    | false =>
      obtain ⟨⟨chunk, conn⟩, hr, reads⟩ := Conn.read_reliable reliable.2 (want - got.length)
      obtain ⟨data, -, last⟩ := Conn.read_takes hr
      rw [if_neg (by simp), hr]
      dsimp only [bind]
      rw [bind_ok]
      by_cases hc : chunk = []
      · rw [if_pos hc, data, hc, last (by omega) hc, append_nil, length_nil, Nat.add_zero]
      · have reliable₁ : Stream.Reliable { conn := conn, buf := st.buf, eof := false } :=
          ⟨fun h => (by cases h), reads⟩
        have longer := length_pos_iff.mpr hc
        rw [data, length_append] at short fuel ⊢
        have short₁ : (got ++ chunk).length + conn.data.length < want := by
          rw [length_append]
          omega
        rw [if_neg hc, ih reliable₁ short₁ (by dsimp only; omega), length_append,
          Nat.add_assoc]

theorem exact_agrees (n : Int) (holds : st.Holds t) :
    Prog.Agree Stream.Holds (st.exact n) (strictly (.exact n) t) := by
  obtain ⟨reliable, rfl, small⟩ := holds
  rw [strictly]
  split
  · rename_i enough
    have kept {body : Bytes} {st' : Stream} (h : st.exact n = .ok (body, st')) :
        st'.buf.length ≤ st.buf.length := by
      unfold Stream.exact at h
      split at h
      · obtain ⟨-, rfl⟩ := Prod.mk.inj (Except.ok.inj h)
        exact le_rfl
      · rw [exactLoop_buf h, length_drop]
        exact Nat.sub_le _ _
    have taken : ∃ st', st.exact n = .ok (st.bytes.take n.toNat, st') ∧
        st'.bytes = st.bytes.drop n.toNat ∧ st'.Reliable := by
      rcases Int.le_total n 0 with none_asked | asked
      · have zero : n.toNat = 0 := by omega
        rw [zero]
        exact ⟨st, if_pos none_asked, rfl, reliable⟩
      · have length : ((st.bytes.take n.toNat).length : Int) = n := by
          rw [length_take]
          omega
        have ends := exact_of reliable (take_append_drop n.toNat st.bytes).symm
        rwa [length] at ends
    obtain ⟨st', eq, behind, reliable'⟩ := taken
    rw [eq]
    exact .answered _ ⟨reliable', behind, (kept eq).trans small⟩
  · rename_i short
    have length : st.bytes.length = st.buf.length + st.conn.data.length := length_append
    have taken : (st.buf.take n.toNat).length = st.buf.length := by
      rw [length_take]
      omega
    have reliable₁ : Stream.Reliable { st with buf := st.buf.drop n.toNat } := reliable
    have eq : st.exact n = errf (cutShort st.bytes.length n.toNat) := by
      unfold Stream.exact
      rw [if_neg (by omega), exactLoop_short reliable₁ (by rw [taken]; dsimp only; omega)
        (by dsimp only; omega), taken, length]
    rw [eq]
    unfold errf
    cases sprintf (cutShort st.bytes.length n.toNat) <;> exact .failed _

theorem toEofLoop_holds {max : Int} (reliable : st.Reliable) (empty : st.buf = [])
    (fuel : st.conn.data.length + 2 ≤ n ∨ st.eof = true ∧ 1 ≤ n) :
    Prog.Agree Stream.Holds (toEofLoop max n got st) (strictly (.toEof max) (got ++ st.conn.data)) := by
  have refused : Prog.Agree Stream.Holds (errf (bodyTooLong max) : Except Fail (Bytes × Stream))
      (errf (bodyTooLong max) : Except Fail (Bytes × Bytes)) := by
    unfold errf
    cases sprintf (bodyTooLong max) <;> exact .failed _
  induction n generalizing got st with
  | zero => omega
  | succ n ih =>
    rw [toEofLoop]
    cases he : st.eof with
    | true =>
      rw [if_pos rfl, reliable.1 he, append_nil, strictly]
      split
      · exact refused
      · refine .answered _ ⟨reliable, ?_, by rw [empty]; exact Nat.zero_le _⟩
        unfold Stream.bytes
        rw [empty, reliable.1 he]
        rfl
    | false =>
      rw [if_neg (by simp)]
      by_cases long : (got.length : Int) > max
      · rw [if_pos long, strictly, if_pos (by rw [length_append]; omega)]
        exact refused
      · obtain ⟨⟨chunk, conn⟩, hr, reads⟩ := Conn.read_reliable reliable.2 readChunk
        obtain ⟨data, -, last⟩ := Conn.read_takes hr
        rw [if_neg long, hr]
        dsimp only [bind]
        rw [bind_ok, data, ← append_assoc]
        refine ih ⟨fun hc => last (by decide) (of_decide_eq_true hc), reads⟩ empty ?_
        rw [he] at fuel
        simp only [Bool.false_eq_true, false_and, or_false] at fuel
        by_cases hc : chunk = []
        · exact .inr ⟨decide_eq_true hc, by omega⟩
        · have longer := length_pos_iff.mpr hc
          rw [data, length_append] at fuel
          exact .inl (by dsimp only; omega)

theorem toEof_agrees (max : Int) (holds : st.Holds t) :
    Prog.Agree Stream.Holds (st.toEof max) (strictly (.toEof max) t) := by
  obtain ⟨reliable, rfl, -⟩ := holds
  have reliable₁ : Stream.Reliable { st with buf := [] } := reliable
  exact toEofLoop_holds reliable₁ rfl (.inl le_rfl)

/-- A stream gives what its bytes give, unless it is asked for a line that its test can miss. -/
theorem answer_agrees (holds : st.Holds t) (o : Ask) (ends : o = .line → ¬ Overlong t) :
    Prog.Agree Stream.Holds (st.answer o) (strictly o t) := by
  cases o with
  | line => exact line_agrees holds (ends rfl)
  | exact n => exact exact_agrees n holds
  | toEof max => exact toEof_agrees max holds
  | left =>
    obtain ⟨reliable, rfl, small⟩ := holds
    exact .answered _ ⟨reliable, rfl, small⟩

/-! ### Byte by byte -/

/-- The stream with `u` still to come, which comes byte by byte up to the last `m` bytes. -/
def byByte (m : Nat) (u : Bytes) : Stream :=
  { conn := ⟨u, List.replicate (u.length - m) (.ok 0)⟩, buf := [], eof := false }

theorem fill_byte (b : UInt8) (d buf : Bytes) (reads : List (Except Bytes Nat)) :
    ({ conn := ⟨b :: d, .ok 0 :: reads⟩, buf := buf, eof := false } : Stream).fill =
      .ok { conn := ⟨d, reads⟩, buf := buf ++ [b], eof := false } := rfl

/-- A line that comes byte by byte and is short enough is taken. -/
theorem lineLoop_byByte {m n : Nat} {front raw rest : Bytes} (noLf : 10 ∉ front ++ raw)
    (short : (front ++ raw).length ≤ maxLine) (behind : m ≤ rest.length) (fuel : raw.length + 2 ≤ n) :
    lineLoop n ⟨⟨raw ++ 10 :: rest, List.replicate (raw.length + 1 + rest.length - m) (.ok 0)⟩, front,
      false⟩ = .ok (some (stripCr (front ++ raw)), byByte m rest) := by
  induction raw generalizing n front with
  | nil =>
    obtain ⟨n, rfl⟩ : ∃ k, n = k + 2 := ⟨n - 2, by simp at fuel; omega⟩
    rw [append_nil] at noLf short ⊢
    rw [lineLoop_fill noLf short rfl]
    have one : ([] : Bytes).length + 1 + rest.length - m = rest.length - m + 1 := by
      rw [length_nil]
      omega
    rw [one, replicate_succ, nil_append, fill_byte, bind_ok, lineLoop,
      cutAt_append noLf]
    rfl
  | cons b raw ih =>
    obtain ⟨n, rfl⟩ : ∃ k, n = k + 1 := ⟨n - 1, by omega⟩
    have front_noLf : 10 ∉ front := fun h => noLf (mem_append_left _ h)
    have front_short : front.length ≤ maxLine := by
      rw [length_append] at short
      omega
    have same : front ++ b :: raw = (front ++ [b]) ++ raw := by simp
    rw [same] at noLf short ⊢
    have one : (b :: raw).length + 1 + rest.length - m = raw.length + 1 + rest.length - m + 1 := by
      rw [length_cons]
      omega
    rw [lineLoop_fill front_noLf front_short rfl, one, replicate_succ, cons_append,
      fill_byte, bind_ok]
    exact ih noLf short (by rw [length_cons] at fuel; omega)

/-- A body that comes byte by byte is taken. -/
theorem exactLoop_byByte {m n want : Nat} {got body rest : Bytes} (whole : got.length + body.length = want)
    (behind : m ≤ rest.length) (fuel : body.length + 1 ≤ n) :
    exactLoop want n got (byByte m (body ++ rest)) = .ok (got ++ body, byByte m rest) := by
  induction body generalizing n got with
  | nil =>
    obtain ⟨n, rfl⟩ : ∃ k, n = k + 1 := ⟨n - 1, by omega⟩
    rw [exactLoop, if_pos (by rw [← whole]; simp), append_nil, nil_append]
  | cons b body ih =>
    obtain ⟨n, rfl⟩ : ∃ k, n = k + 1 := ⟨n - 1, by omega⟩
    rw [length_cons] at whole fuel
    have one : (b :: body ++ rest).length - m = (body ++ rest).length - m + 1 := by
      rw [cons_append, length_cons, length_append]
      omega
    have read : (byByte m (b :: body ++ rest)).conn.read (want - got.length) =
        .ok ([b], (byByte m (body ++ rest)).conn) := by
      unfold byByte Conn.read
      rw [one, replicate_succ]
      dsimp only
      rw [Nat.min_eq_right (by omega)]
      rfl
    rw [exactLoop, if_neg (by omega), if_neg (by simp [byByte]), read]
    dsimp only [bind]
    rw [bind_ok]
    rw [if_neg (by simp)]
    have same : got ++ b :: body = (got ++ [b]) ++ body := by simp
    rw [same]
    exact ih (by rw [length_append, length_singleton]; omega) (by omega)

/-- A stream that comes byte by byte gives what the bytes give. -/
theorem answer_byByte {m : Nat} (some_left : 0 < m) {u u' : Bytes} {x : o.Ans}
    (h : strictly o u = .ok (x, u')) (behind : m ≤ u'.length) :
    (byByte m u).answer o = .ok (x, byByte m u') := by
  cases o with
  | line =>
    rw [strictly] at h
    split_ifs at h with long
    · exact absurd h (errf_ne_ok _ _)
    · have taken := Except.ok.inj h
      cases hc : cutAt 10 u with
      | none =>
        have noLf := cutAt_none hc
        by_cases empty : u = []
        · subst empty
          obtain ⟨-, rfl⟩ := Prod.mk.inj taken
          simp at behind
          omega
        · rw [takeLine_last noLf empty] at taken
          obtain ⟨-, rfl⟩ := Prod.mk.inj taken
          simp at behind
          omega
      | some p =>
        obtain ⟨raw, rest⟩ := p
        obtain ⟨rfl, noLf⟩ := cutAt_some hc
        rw [takeLine_of noLf] at taken
        obtain ⟨rfl, rfl⟩ := Prod.mk.inj taken
        rw [firstLine_of noLf] at long
        have length : (raw ++ 10 :: rest).length - m = raw.length + 1 + rest.length - m := by
          rw [length_append, length_cons]
          omega
        unfold byByte
        rw [length]
        exact lineLoop_byByte noLf (Nat.not_lt.mp long) behind (by
          rw [length_append, length_cons]
          omega)
  | exact n =>
    rw [strictly] at h
    split_ifs at h with enough
    · cases h
      show (byByte m u).exact n = _
      unfold Stream.exact
      split_ifs with none_asked
      · have zero : n.toNat = 0 := by omega
        rw [zero]
        rfl
      · have whole : ([] : Bytes).length + (u.take n.toNat).length = n.toNat := by
          rw [length_nil, length_take]
          omega
        have taken := exactLoop_byByte (n := u.length + 2) whole behind (by
          rw [length_take]
          omega)
        rw [take_append_drop] at taken
        show exactLoop n.toNat (u.length + 2) (([] : Bytes).take n.toNat)
          { byByte m u with buf := ([] : Bytes).drop n.toNat } = _
        rw [take_nil, drop_nil]
        exact taken
    · exact absurd h (errf_ne_ok _ _)
  | toEof max =>
    rw [strictly] at h
    split_ifs at h
    · exact absurd h (errf_ne_ok _ _)
    · obtain ⟨-, rfl⟩ := Prod.mk.inj (Except.ok.inj h)
      simp at behind
      omega
  | left =>
    cases h
    rfl

theorem strictly_length {t t' : Bytes} {x : o.Ans} (h : strictly o t = .ok (x, t')) :
    t'.length ≤ t.length := by
  cases o with
  | line =>
    rw [strictly] at h
    split_ifs at h with long
    · exact absurd h (errf_ne_ok _ _)
    · have taken := Except.ok.inj h
      unfold takeLine at taken
      cases hc : cutAt 10 t with
      | none =>
        rw [hc] at taken
        dsimp only at taken
        split at taken
        · obtain ⟨-, rfl⟩ := Prod.mk.inj taken
          exact Nat.zero_le _
        · obtain ⟨-, rfl⟩ := Prod.mk.inj taken
          exact Nat.zero_le _
      | some p =>
        obtain ⟨rfl, -⟩ := cutAt_some hc
        rw [hc] at taken
        obtain ⟨-, rfl⟩ := Prod.mk.inj taken
        rw [length_append, length_cons]
        omega
  | exact n =>
    rw [strictly] at h
    split_ifs at h with enough
    · obtain ⟨-, rfl⟩ := Prod.mk.inj (Except.ok.inj h)
      rw [length_drop]
      exact Nat.sub_le _ _
    · exact absurd h (errf_ne_ok _ _)
  | toEof max =>
    rw [strictly] at h
    split_ifs at h
    · exact absurd h (errf_ne_ok _ _)
    · obtain ⟨-, rfl⟩ := Prod.mk.inj (Except.ok.inj h)
      exact Nat.zero_le _
  | left =>
    obtain ⟨-, rfl⟩ := Prod.mk.inj (Except.ok.inj h)
    exact le_rfl

/-- A line that is too long is taken when the buffer has all of it at the second read. -/
theorem overlong_taken (overlong : Overlong t) : ∃ p, (byByte t.length t).line = .ok p := by
  obtain ⟨lf, long, ends⟩ := overlong
  cases hc : cutAt 10 t with
  | none => exact absurd lf (cutAt_none hc)
  | some p =>
    obtain ⟨raw, rest⟩ := p
    obtain ⟨rfl, noLf⟩ := cutAt_some hc
    rw [firstLine_of noLf] at long ends
    have none_left : List.replicate ((raw ++ 10 :: rest).length - (raw ++ 10 :: rest).length)
        (.ok 0 : Except Bytes Nat) = [] := by
      rw [Nat.sub_self]
      rfl
    have sizes : maxLine = readChunk := rfl
    -- the first read has only bytes of the line, as many as the limit allows
    have first : (raw ++ 10 :: rest).take readChunk = raw.take readChunk :=
      take_append_of_le_length (by omega)
    have rest_of_it : (raw ++ 10 :: rest).drop readChunk = raw.drop readChunk ++ 10 :: rest :=
      drop_append_of_le_length (by omega)
    have first_length : (raw.take readChunk).length = readChunk := by
      rw [length_take]
      omega
    have first_full : raw.take readChunk ≠ [] := by
      intro h
      rw [h] at first_length
      exact absurd first_length (by decide)
    have first_noLf : 10 ∉ raw.take readChunk := fun h => noLf (mem_of_mem_take h)
    -- the second has the line feed
    have second : (raw.drop readChunk ++ 10 :: rest).take readChunk =
        raw.drop readChunk ++ 10 :: rest.take (readChunk - (raw.length - readChunk) - 1) := by
      rw [take_append, take_of_length_le (by rw [length_drop]; omega),
        length_drop]
      obtain ⟨k, hk⟩ : ∃ k, readChunk - (raw.length - readChunk) = k + 1 :=
        ⟨readChunk - (raw.length - readChunk) - 1, by omega⟩
      rw [hk, take_succ_cons, Nat.add_sub_cancel]
    obtain ⟨n, hn⟩ : ∃ n, (raw ++ 10 :: rest).length + 2 = n + 3 :=
      ⟨(raw ++ 10 :: rest).length - 1, by rw [length_append, length_cons]; omega⟩
    unfold Stream.line byByte
    rw [none_left, hn, lineLoop_fill (by simp) (by simp) rfl]
    have fill_first : ({ conn := ⟨raw ++ 10 :: rest, []⟩, buf := [], eof := false } : Stream).fill =
        .ok { conn := ⟨raw.drop readChunk ++ 10 :: rest, []⟩, buf := raw.take readChunk, eof := false } := by
      unfold Stream.fill Conn.read
      rw [if_neg (by simp)]
      dsimp only [bind]
      rw [bind_ok]
      rw [first, rest_of_it, if_neg first_full, nil_append]
    rw [fill_first, bind_ok, lineLoop_fill first_noLf (by rw [first_length, sizes]) rfl]
    have fill_second : ({ conn := ⟨raw.drop readChunk ++ 10 :: rest, []⟩, buf := raw.take readChunk, eof := false } : Stream).fill =
        .ok { conn := ⟨(raw.drop readChunk ++ 10 :: rest).drop readChunk, []⟩, buf := raw ++ 10 :: rest.take (readChunk - (raw.length - readChunk) - 1), eof := false } := by
      unfold Stream.fill Conn.read
      rw [if_neg (by simp)]
      dsimp only [bind]
      rw [bind_ok]
      dsimp only
      rw [second, if_neg (by simp), ← append_assoc, take_append_drop]
    rw [fill_second, bind_ok, lineLoop, cutAt_append noLf]
    exact ⟨_, rfl⟩

/-! ### Every way to cut up the bytes -/

/-- A connection that has these bytes to come, in reads that do not fail. -/
def Cuts (data : Bytes) (conn : Conn) : Prop :=
  conn.data = data ∧ ∀ r ∈ conn.reads, ∃ k, r = .ok k

/-- However the bytes are cut up, `recv` gives the same, and a line that it comes to is refused for
its length exactly if it is longer than `MAX_LINE`. -/
structure SameEveryWay {α : Type} (recv : Stream → Except Fail (α × Stream)) (reading : Reading α)
    (data : Bytes) : Prop where
  same : ∀ c c', Cuts data c → Cuts data c' →
    (recv (stream c)).map Prod.fst = (recv (stream c')).map Prod.fst
  lines : ∀ c, Cuts data c → ∀ st, (Ask.line, st) ∈ reading.calls Stream.answer (stream c) →
    (st.line = errf lineTooLong ↔ maxLine < (firstLine st.bytes).length)

/-- No line that the reading comes to is too long and yet ends less than a read behind the limit. -/
def NoOverlong {α : Type} (reading : Reading α) (data : Bytes) : Prop :=
  ∀ t, (Ask.line, t) ∈ reading.calls strictly data → ¬ Overlong t

section

variable {α : Type} {recv : Stream → Except Fail (α × Stream)} {reading : Reading α} {data : Bytes}

theorem stream_holds {conn : Conn} (cuts : Cuts data conn) : (stream conn).Holds data :=
  ⟨⟨stream_sound conn, cuts.2⟩, cuts.1, Nat.zero_le _⟩

theorem same_of_no_overlong (run : ∀ st, reading.run Stream.answer st = recv st)
    (fine : NoOverlong reading data) : SameEveryWay recv reading data := by
  have agrees {c : Conn} (cuts : Cuts data c) :=
    Prog.run_agrees (p := reading) (stream_holds cuts) fun o t mem st holds =>
      answer_agrees holds o fun line => fine t (line ▸ mem)
  refine ⟨fun c c' cuts cuts' => ?_, fun c cuts st mem => ?_⟩
  · have value {c : Conn} (cuts : Cuts data c) :
        (recv (stream c)).map Prod.fst = (reading.run strictly data).map Prod.fst := by
      rw [← run]
      exact (agrees cuts).1.value
    exact (value cuts).trans (value cuts').symm
  · obtain ⟨t, mem', holds⟩ := (agrees cuts).2 Ask.line st mem
    rw [holds.bytes]
    rcases lineLoop_holds holds (.inl le_rfl) with ⟨long, eq⟩ | ⟨short | overlong, st', eq, -⟩
    · exact iff_of_true eq long
    · refine iff_of_false (fun h => ?_) (Nat.not_lt.mpr short)
      exact absurd (h.symm.trans eq) (errf_ne_ok _ _)
    · exact absurd overlong (fine t mem')

theorem no_overlong_of_same (same : SameEveryWay recv reading data) : NoOverlong reading data := by
  intro t mem overlong
  have some_left : 0 < t.length := length_pos_iff.mpr (ne_nil_of_mem overlong.1)
  -- the calls behind which `t` is still to come leave at least as much as it
  have longer {u : Bytes} {k : Reading α} (reached : (Ask.line, t) ∈ k.calls strictly u) :
      t.length ≤ u.length := by
    have shorter : ∀ (o : Ask) s (x : o.Ans) s', s.length ≤ u.length → strictly o s = .ok (x, s') →
        s'.length ≤ u.length := fun o s x s' shorter h => (strictly_length h).trans shorter
    exact Prog.calls_inv (I := fun s => s.length ≤ u.length) shorter le_rfl reached
  obtain ⟨st, mem', rfl⟩ := Prog.calls_reached (p := reading) (h := Stream.answer)
    (R := fun st u => st = byByte t.length u) (s := byByte t.length data) rfl
    (fun o u x u' h reached st hst => by
      obtain ⟨k, reached⟩ := reached
      rw [hst]
      exact ⟨_, answer_byByte some_left h (longer reached), rfl⟩) mem
  have cuts : Cuts data (byByte t.length data).conn := by
    refine ⟨rfl, fun r hr => ⟨0, (mem_replicate.mp hr).2⟩⟩
  obtain ⟨p, taken⟩ := overlong_taken overlong
  have refused := (same.lines _ cuts _ mem').mpr overlong.2.1
  exact errf_ne_ok _ _ (refused.symm.trans taken)

theorem same_iff (run : ∀ st, reading.run Stream.answer st = recv st) :
    SameEveryWay recv reading data ↔ NoOverlong reading data :=
  ⟨no_overlong_of_same, same_of_no_overlong run⟩

end

/-- What is received does not depend on how the bytes are cut up, and lines are refused by their
length alone, exactly if no line that is read is overlong. -/
theorem same_every_way_iff (past : Past) (data : Bytes) (max : Int) (wantBody : Bool) :
    (SameEveryWay (fun st => recvRequest past st max) (requestReading past max) data ↔
      NoOverlong (requestReading past max) data) ∧
    (SameEveryWay (fun st => recvResponse past st max wantBody) (responseReading past max wantBody) data ↔
      NoOverlong (responseReading past max wantBody) data) :=
  ⟨same_iff (requestReading_run max), same_iff (responseReading_run max wantBody)⟩

/-- A first line of one byte more than the limit. -/
def oneTooMany : Bytes := List.replicate (maxLine + 1) (ch 'a') ++ [10]

theorem oneTooMany_overlong : Overlong oneTooMany := by
  have noLf : 10 ∉ List.replicate (maxLine + 1) (ch 'a') := by
    intro h
    exact absurd (mem_replicate.mp h).2 (by decide)
  have first : firstLine oneTooMany = List.replicate (maxLine + 1) (ch 'a') := firstLine_of noLf []
  refine ⟨mem_append_right _ (mem_singleton.mpr rfl), ?_⟩
  rw [first, length_replicate]
  exact ⟨Nat.lt_succ_self _, by decide⟩

/-- A message starts with a line. -/
theorem request_line_first (past : Past) (max : Int) (data : Bytes) :
    (Ask.line, data) ∈ (requestReading past max).calls strictly data := by
  obtain ⟨k, starts⟩ : ∃ k, requestReading past max = .call Ask.line k := ⟨_, rfl⟩
  rw [starts, Prog.calls]
  exact mem_cons_self

theorem response_line_first (past : Past) (max : Int) (wantBody : Bool) (data : Bytes) :
    (Ask.line, data) ∈ (responseReading past max wantBody).calls strictly data := by
  obtain ⟨k, starts⟩ : ∃ k, responseReading past max wantBody = .call Ask.line k := ⟨_, rfl⟩
  rw [starts, Prog.calls]
  exact mem_cons_self

/-- It is refused in some reads and taken in others, as a request and as a response. -/
theorem oneTooMany_not_same :
    ¬ SameEveryWay (fun st => recvRequest (fun _ => []) st 0) (requestReading (fun _ => []) 0) oneTooMany ∧
      ¬ SameEveryWay (fun st => recvResponse (fun _ => []) st 0 true)
        (responseReading (fun _ => []) 0 true) oneTooMany := by
  constructor
  · intro same
    exact no_overlong_of_same same _ (request_line_first _ _ _) oneTooMany_overlong
  · intro same
    exact no_overlong_of_same same _ (response_line_first _ _ _ _) oneTooMany_overlong

end Voila.Http
