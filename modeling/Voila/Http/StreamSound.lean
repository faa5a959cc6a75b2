import Voila.Http.TextSound
import Voila.Http.Wire

/-!
# Voila.Http.StreamSound

The readers of a `Stream` take what they read off the front of its bytes, whatever the reads of the
connection are (`line_some`, `exact_takes`), and come to an end without an exception (`line_calm`,
`exact_calm`).

Each loop reads until there is nothing more to come, and so the bytes that are still to come bound
its turns.
-/

open List

namespace Voila.Http

open Voila.Rt (Bytes)
open Voila.Rt.Json (ch)

/-! ### Reads -/

theorem Conn.read_takes {c c' : Conn} {max : Nat} {chunk : Bytes}
    (h : c.read max = .ok (chunk, c')) :
    c.data = chunk ++ c'.data ∧ chunk.length ≤ max ∧ (0 < max → chunk = [] → c'.data = []) := by
  have take (n : Nat) (hn : n ≤ max) (pos : 0 < max → 0 < n) :
      c.data = c.data.take n ++ c.data.drop n ∧ (c.data.take n).length ≤ max ∧
        (0 < max → c.data.take n = [] → c.data.drop n = []) := by
    refine ⟨(take_append_drop n c.data).symm, ?_, fun hmax ht => ?_⟩
    · rw [length_take]
      omega
    · have none_taken := congrArg List.length ht
      rw [length_take, length_nil] at none_taken
      exact drop_eq_nil_of_le (by omega)
  unfold Conn.read at h
  split at h
  · cases h
    exact take max le_rfl id
  · exact absurd h (by simp)
  · cases h
    exact take _ (Nat.min_le_left _ _) fun hmax => by omega

theorem Conn.read_calm (c : Conn) (max : Nat) : Calm (c.read max) := by
  unfold Conn.read
  split
  · exact Calm.ok _
  · exact Calm.err _
  · exact Calm.ok _

/-- A stream that has seen the end has nothing more to come. -/
def Stream.Sound (st : Stream) : Prop := st.eof = true → st.conn.data = []

theorem stream_sound (conn : Conn) : (stream conn).Sound := nofun

/-- `st'` is what is left of `st` when `t` is taken off. -/
def Stream.Takes (st : Stream) (t : Bytes) (st' : Stream) : Prop :=
  st'.Sound ∧ st.bytes = t ++ st'.bytes

variable {st st' : Stream} {n want : Nat} {body got : Bytes}

theorem Stream.Takes.refl (h : st.Sound) : st.Takes [] st := ⟨h, rfl⟩

theorem Stream.Takes.trans {st₁ st₂ st₃ : Stream} {t u : Bytes} (h : st₁.Takes t st₂)
    (h' : st₂.Takes u st₃) : st₁.Takes (t ++ u) st₃ :=
  ⟨h'.1, by rw [h.2, h'.2, append_assoc]⟩

theorem fill_inv (open_ : st.eof = false) (h : st.fill = .ok st') :
    st'.Sound ∧ st'.bytes = st.bytes ∧
      (st'.eof = true ∨ st'.eof = false ∧ st'.conn.data.length < st.conn.data.length) := by
  unfold Stream.fill at h
  rw [if_neg (by rw [open_]; simp)] at h
  cases hr : st.conn.read readChunk with
  | error e => rw [hr] at h; cases h
  | ok p =>
    obtain ⟨chunk, conn⟩ := p
    rw [hr] at h
    obtain ⟨data, -, last⟩ := Conn.read_takes hr
    have h' : (if chunk = [] then Except.ok { st with conn := conn, eof := true }
      else .ok { st with conn := conn, buf := st.buf ++ chunk }) =
        (.ok st' : Except Fail Stream) := h
    split_ifs at h' with hc
    · cases h'
      refine ⟨fun _ => last (by decide) hc, ?_, .inl rfl⟩
      unfold Stream.bytes
      rw [data, hc, nil_append]
    · cases h'
      refine ⟨fun he => absurd (open_.symm.trans he) (by simp), ?_, .inr ⟨open_, ?_⟩⟩
      · unfold Stream.bytes
        rw [data, append_assoc]
      · rw [data, length_append]
        have := length_pos_iff.mpr hc
        dsimp only
        omega

theorem fill_calm (st : Stream) : Calm st.fill := by
  unfold Stream.fill
  by_cases h : st.eof = true
  · rw [if_pos h]
    exact Calm.ok st
  · rw [if_neg h]
    refine Calm.bind (Conn.read_calm _ _) fun p _ => ?_
    obtain ⟨chunk, conn⟩ := p
    dsimp only
    split_ifs
    · exact Calm.ok _
    · exact Calm.ok _

/-! ### Lines -/

/-- The text of a line with its line feed, or of the last one without. -/
inductive LineText : Bytes → Bytes → Bytes → Prop
  /-- A line that ends. -/
  | ended {raw : Bytes} (rest : Bytes) : 10 ∉ raw → LineText (raw ++ [10]) (stripCr raw) rest
  /-- What is left at the end. -/
  | last {raw : Bytes} : 10 ∉ raw → raw ≠ [] → LineText raw (stripCr raw) []

theorem LineText.ne_nil {t line rest : Bytes} (h : LineText t line rest) : t ≠ [] := by
  cases h with
  | ended => simp
  | last _ hne => exact hne

/-- The front of a text reads as one line only. -/
theorem LineText.unique {t t' line line' rest rest' : Bytes} (h : LineText t line rest)
    (h' : LineText t' line' rest') (same : t ++ rest = t' ++ rest') :
    t = t' ∧ line = line' ∧ rest = rest' := by
  have cut {raw : Bytes} (hr : 10 ∉ raw) (rest : Bytes) :
      cutAt 10 ((raw ++ [10]) ++ rest) = some (raw, rest) := by
    rw [append_assoc]
    exact cutAt_append hr rest
  have uncut {raw : Bytes} (hr : 10 ∉ raw) : cutAt 10 (raw ++ []) = none := by
    rw [List.append_nil]
    exact cutAt_eq_none hr
  cases h with
  | ended rest hr =>
    cases h' with
    | ended rest' hr' =>
      have both := (cut hr rest).symm.trans ((congrArg (cutAt 10) same).trans (cut hr' rest'))
      cases both
      exact ⟨rfl, rfl, rfl⟩
    | last hr' _ =>
      exact absurd ((cut hr rest).symm.trans ((congrArg (cutAt 10) same).trans (uncut hr'))) nofun
  | last hr _ =>
    cases h' with
    | ended rest' hr' =>
      exact absurd ((uncut hr).symm.trans ((congrArg (cutAt 10) same).trans (cut hr' rest'))) nofun
    | last hr' _ =>
      rw [List.append_nil, List.append_nil] at same
      obtain rfl := same
      exact ⟨rfl, rfl, rfl⟩

/-- The three ways a turn of the loop ends, and the one it goes on. -/
theorem lineLoop_succ (n : Nat) (st : Stream) :
    (∃ raw after, cutAt 10 st.buf = some (raw, after) ∧
      lineLoop (n + 1) st = .ok (some (stripCr raw), { st with buf := after })) ∨
    (10 ∉ st.buf ∧
      ((st.buf.length > maxLine ∧ ∃ msg, Safe msg ∧ lineLoop (n + 1) st = errf msg) ∨
      (st.eof = true ∧ st.buf = [] ∧ lineLoop (n + 1) st = .ok (none, st)) ∨
      (st.eof = true ∧ st.buf ≠ [] ∧
        lineLoop (n + 1) st = .ok (some (stripCr st.buf), { st with buf := [] })) ∨
      (st.eof = false ∧ st.buf.length ≤ maxLine ∧ lineLoop (n + 1) st = st.fill.bind (lineLoop n)))) := by
  rw [lineLoop]
  cases hc : cutAt 10 st.buf with
  | some p => exact .inl ⟨p.1, p.2, rfl, rfl⟩
  | none =>
    refine .inr ⟨cutAt_none hc, ?_⟩
    by_cases long : st.buf.length > maxLine
    · refine .inl ⟨long, _, ?_, by rw [if_pos long]⟩
      exact ((lit_safe (by simp)).append (intText_safe _)).append (lit_safe (by simp))
    · rw [if_neg long]
      cases he : st.eof with
      | true =>
        rw [if_pos rfl]
        by_cases hb : st.buf = []
        · exact .inr (.inl ⟨rfl, hb, by rw [if_pos hb]⟩)
        · exact .inr (.inr (.inl ⟨rfl, hb, by rw [if_neg hb]⟩))
      | false => exact .inr (.inr (.inr ⟨rfl, Nat.le_of_not_lt long, rfl⟩))

/-- What a call of `line` gives and leaves. -/
def LineRead (st : Stream) : Option Bytes × Stream → Prop
  | (none, st') => st.Takes [] st' ∧ st.bytes = []
  | (some line, st') => ∃ t, LineText t line st'.bytes ∧ st.Takes t st'

theorem lineLoop_reads (sound : st.Sound) {r : Option Bytes × Stream}
    (h : lineLoop n st = .ok r) : LineRead st r := by
  induction n generalizing st with
  | zero => cases h
  | succ n ih =>
    rcases lineLoop_succ n st with ⟨raw, after, hc, eq⟩ | ⟨noLf, ⟨-, msg, -, eq⟩ | ⟨he, hb, eq⟩ |
      ⟨he, hb, eq⟩ | ⟨he, -, eq⟩⟩
    · rw [eq] at h
      cases h
      obtain ⟨buf, noLf⟩ := cutAt_some hc
      refine ⟨raw ++ [10], .ended _ noLf, sound, ?_⟩
      unfold Stream.bytes
      rw [buf, append_assoc, append_assoc]
      rfl
    · rw [eq] at h
      exact absurd h (errf_ne_ok _ _)
    · rw [eq] at h
      cases h
      refine ⟨.refl sound, ?_⟩
      unfold Stream.bytes
      rw [hb, sound he]
      rfl
    · rw [eq] at h
      cases h
      have none_left : ({ st with buf := [] } : Stream).bytes = [] := sound he
      refine ⟨st.buf, ?_, sound, rfl⟩
      rw [none_left]
      exact .last noLf hb
    · rw [eq] at h
      cases hf : st.fill with
      | error e => rw [hf] at h; cases h
      | ok st₁ =>
        rw [hf] at h
        obtain ⟨sound₁, bytes₁, -⟩ := fill_inv he hf
        have rest := ih sound₁ h
        obtain ⟨line, st'⟩ := r
        cases line with
        | none => exact ⟨⟨rest.1.1, bytes₁ ▸ rest.1.2⟩, bytes₁ ▸ rest.2⟩
        | some line =>
          obtain ⟨t, text, takes⟩ := rest
          exact ⟨t, text, takes.1, bytes₁ ▸ takes.2⟩

theorem line_none (sound : st.Sound) (h : st.line = .ok (none, st')) :
    st.Takes [] st' ∧ st.bytes = [] :=
  lineLoop_reads sound h

theorem line_some {line : Bytes} (sound : st.Sound)
    (h : st.line = .ok (some line, st')) : ∃ t, LineText t line st'.bytes ∧ st.Takes t st' :=
  lineLoop_reads sound h

theorem lineLoop_calm
    (h : st.conn.data.length + 2 ≤ n ∨ st.eof = true ∧ 1 ≤ n) : Calm (lineLoop n st) := by
  induction n generalizing st with
  | zero => omega
  | succ n ih =>
    rcases lineLoop_succ n st with ⟨raw, after, -, eq⟩ | ⟨-, ⟨-, msg, safe, eq⟩ | ⟨-, -, eq⟩ |
      ⟨-, -, eq⟩ | ⟨he, -, eq⟩⟩
    · rw [eq]
      exact Calm.ok _
    · rw [eq]
      exact safe.calm
    · rw [eq]
      exact Calm.ok _
    · rw [eq]
      exact Calm.ok _
    · rw [eq]
      refine Calm.bind (fill_calm st) fun st₁ hf => ih ?_
      obtain ⟨-, -, ended | ⟨-, fewer⟩⟩ := fill_inv he hf
      · exact .inr ⟨ended, by rw [he] at h; simp at h; omega⟩
      · exact .inl (by rw [he] at h; simp at h; omega)

theorem line_calm (st : Stream) : Calm st.line := lineLoop_calm (.inl le_rfl)

/-! ### Bodies of a known length -/

theorem cutShort_safe (got n : Nat) : Safe (cutShort got n) :=
  ((((lit_safe (by simp)).append (intText_safe _)).append (lit_safe (by simp))).append
    (intText_safe _)).append (lit_safe (by simp))

theorem exactLoop_succ (want n : Nat) (got : Bytes) (st : Stream) :
    (want ≤ got.length ∧ exactLoop want (n + 1) got st = .ok (got, st)) ∨
    (got.length < want ∧ (∃ msg, Safe msg ∧ exactLoop want (n + 1) got st = errf msg)) ∨
    (got.length < want ∧ st.eof = false ∧
      exactLoop want (n + 1) got st =
        (st.conn.read (want - got.length)).bind fun p =>
          if p.1 = [] then errf (cutShort got.length want)
          else exactLoop want n (got ++ p.1) { st with conn := p.2 }) := by
  rw [exactLoop]
  by_cases full : want ≤ got.length
  · exact .inl ⟨full, if_pos full⟩
  · rw [if_neg full]
    cases he : st.eof with
    | true => exact .inr (.inl ⟨by omega, _, cutShort_safe _ _, if_pos rfl⟩)
    | false => exact .inr (.inr ⟨by omega, rfl, rfl⟩)

theorem exactLoop_takes (sound : st.Sound)
    (buf : got.length < want → st.buf = []) (short : got.length ≤ want)
    (h : exactLoop want n got st = .ok (body, st')) :
    st'.Sound ∧ body.length = want ∧ got ++ st.bytes = body ++ st'.bytes := by
  induction n generalizing got st with
  | zero => cases h
  | succ n ih =>
    rcases exactLoop_succ want n got st with ⟨full, eq⟩ | ⟨-, msg, -, eq⟩ | ⟨fewer, he, eq⟩
    · rw [eq] at h
      cases h
      exact ⟨sound, by omega, rfl⟩
    · rw [eq] at h
      exact absurd h (errf_ne_ok _ _)
    · rw [eq] at h
      cases hr : st.conn.read (want - got.length) with
      | error e => rw [hr] at h; cases h
      | ok p =>
        obtain ⟨chunk, conn⟩ := p
        rw [hr] at h
        obtain ⟨data, small, -⟩ := Conn.read_takes hr
        dsimp only [Except.bind] at h
        split_ifs at h with hc
        · exact absurd h (errf_ne_ok _ _)
        · have sound' : Stream.Sound { st with conn := conn } :=
            fun e => absurd (he.symm.trans e) (by simp)
          have rest := ih sound' (fun _ => buf fewer) (by rw [length_append]; omega) h
          refine ⟨rest.1, rest.2.1, ?_⟩
          rw [← rest.2.2]
          unfold Stream.bytes
          rw [buf fewer, data]
          simp

/-- `exact` takes as many bytes as it is asked for. -/
theorem exact_takes {n : Int} (sound : st.Sound)
    (h : st.exact n = .ok (body, st')) : st.Takes body st' ∧ body.length = n.toNat := by
  unfold Stream.exact at h
  split_ifs at h with hn
  · cases h
    exact ⟨.refl sound, by rw [length_nil]; omega⟩
  · have buffered : (st.buf.take n.toNat).length < n.toNat → st.buf.drop n.toNat = [] := by
      intro fewer
      rw [length_take] at fewer
      exact drop_eq_nil_of_le (by omega)
    have sound₁ : Stream.Sound { st with buf := st.buf.drop n.toNat } := sound
    obtain ⟨sound', length, bytes⟩ :=
      exactLoop_takes sound₁ buffered (by rw [length_take]; omega) h
    refine ⟨⟨sound', ?_⟩, length⟩
    rw [← bytes]
    unfold Stream.bytes
    rw [← append_assoc, take_append_drop]

theorem exactLoop_calm (h : st.conn.data.length + 1 ≤ n) : Calm (exactLoop want n got st) := by
  induction n generalizing got st with
  | zero => omega
  | succ n ih =>
    rcases exactLoop_succ want n got st with ⟨-, eq⟩ | ⟨-, msg, safe, eq⟩ | ⟨-, -, eq⟩
    · rw [eq]
      exact Calm.ok _
    · rw [eq]
      exact safe.calm
    · rw [eq]
      refine Calm.bind (Conn.read_calm _ _) fun p hr => ?_
      obtain ⟨data, -, -⟩ := Conn.read_takes hr
      split_ifs with hc
      · exact (cutShort_safe _ _).calm
      · refine ih ?_
        have := length_pos_iff.mpr hc
        rw [data, length_append] at h
        dsimp only
        omega

theorem exact_calm (st : Stream) (n : Int) : Calm (st.exact n) := by
  unfold Stream.exact
  split_ifs
  · exact Calm.ok _
  · exact exactLoop_calm (by simp)

/-! ### Reads that do not fail -/

/-- A stream on a connection whose reads do not fail. -/
def Stream.Reliable (st : Stream) : Prop := st.Sound ∧ ∀ r ∈ st.conn.reads, ∃ k, r = .ok k

theorem Conn.read_reliable {c : Conn} (h : ∀ r ∈ c.reads, ∃ k, r = .ok k) (max : Nat) :
    ∃ p, c.read max = .ok p ∧ ∀ r ∈ p.2.reads, ∃ k, r = .ok k := by
  unfold Conn.read
  cases hr : c.reads with
  | nil => exact ⟨_, rfl, nofun⟩
  | cons r reads =>
    obtain ⟨k, rfl⟩ := h r (by rw [hr]; exact mem_cons_self)
    refine ⟨_, rfl, fun r hm => h r ?_⟩
    rw [hr]
    exact mem_cons_of_mem _ hm

theorem fill_reliable (reliable : st.Reliable) (he : st.eof = false) :
    ∃ st', st.fill = .ok st' ∧ st'.Reliable := by
  obtain ⟨⟨chunk, conn⟩, hr, reads⟩ := Conn.read_reliable reliable.2 readChunk
  cases hf : st.fill with
  | error e =>
    unfold Stream.fill at hf
    rw [if_neg (by rw [he]; simp), hr] at hf
    by_cases hc : chunk = []
    · exact absurd ((if_pos hc).symm.trans hf) nofun
    · exact absurd ((if_neg hc).symm.trans hf) nofun
  | ok st' =>
    refine ⟨st', rfl, (fill_inv he hf).1, ?_⟩
    unfold Stream.fill at hf
    rw [if_neg (by rw [he]; simp), hr] at hf
    by_cases hc : chunk = []
    · obtain rfl := Except.ok.inj ((if_pos hc).symm.trans hf)
      exact reads
    · obtain rfl := Except.ok.inj ((if_neg hc).symm.trans hf)
      exact reads

/-- A line of the bytes is read, if it is short enough. -/
theorem lineLoop_of {raw rest : Bytes} (noLf : 10 ∉ raw) (short : raw.length ≤ maxLine)
    (reliable : st.Reliable) (bytes : st.bytes = raw ++ 10 :: rest)
    (fuel : st.conn.data.length + 2 ≤ n ∨ st.eof = true ∧ 1 ≤ n) :
    ∃ st', lineLoop n st = .ok (some (stripCr raw), st') ∧ st'.bytes = rest ∧ st'.Reliable := by
  induction n generalizing st with
  | zero => omega
  | succ n ih =>
    -- the line feed is either in the buffer or still to come
    have front : 10 ∉ st.buf → st.buf.length ≤ raw.length := by
      intro hbuf
      by_contra longer
      have cut := congrArg (List.take (raw.length + 1)) bytes
      unfold Stream.bytes at cut
      have whole : raw.take (raw.length + 1) = raw := take_of_length_le (by omega)
      rw [take_append_of_le_length (by omega), take_append, whole,
        Nat.add_sub_cancel_left] at cut
      have lf : (10 : UInt8) ∈ st.buf.take (raw.length + 1) := by
        rw [cut]
        simp
      exact hbuf (mem_of_mem_take lf)
    rcases lineLoop_succ n st with ⟨raw', after, hc, eq⟩ | ⟨hbuf, ⟨long, -⟩ | ⟨he, hb, -⟩ |
      ⟨he, hb, -⟩ | ⟨he, -, eq⟩⟩
    · obtain ⟨buf, noLf'⟩ := cutAt_some hc
      unfold Stream.bytes at bytes
      rw [buf, append_assoc, cons_append] at bytes
      have both := (cutAt_append noLf' _).symm.trans ((congrArg (cutAt 10) bytes).trans (cutAt_append noLf _))
      obtain ⟨rfl, behind⟩ := Prod.mk.inj (Option.some.inj both)
      exact ⟨_, eq, behind, reliable⟩
    · have := front hbuf
      omega
    · unfold Stream.bytes at bytes
      rw [hb, reliable.1 he] at bytes
      exact absurd bytes (by simp)
    · unfold Stream.bytes at bytes
      rw [reliable.1 he, List.append_nil] at bytes
      exact absurd (by rw [bytes]; simp) hbuf
    · obtain ⟨st₁, hf, reliable₁⟩ := fill_reliable reliable he
      obtain ⟨-, bytes₁, progress⟩ := fill_inv he hf
      rw [eq, hf]
      refine ih reliable₁ (bytes₁.trans bytes) ?_
      rw [he] at fuel
      simp only [Bool.false_eq_true, false_and, or_false] at fuel
      obtain ended | ⟨-, fewer⟩ := progress
      · exact .inr ⟨ended, by omega⟩
      · exact .inl (by omega)

theorem line_of {raw rest : Bytes} (noLf : 10 ∉ raw) (short : raw.length ≤ maxLine)
    (reliable : st.Reliable) (bytes : st.bytes = raw ++ 10 :: rest) :
    ∃ st', st.line = .ok (some (stripCr raw), st') ∧ st'.bytes = rest ∧ st'.Reliable :=
  lineLoop_of noLf short reliable bytes (.inl le_rfl)

theorem exactLoop_of (reliable : st.Reliable)
    (enough : want ≤ got.length + st.conn.data.length) (fuel : st.conn.data.length + 1 ≤ n) :
    ∃ p, exactLoop want n got st = .ok p ∧ p.2.Reliable := by
  induction n generalizing got st with
  | zero => omega
  | succ n ih =>
    rw [exactLoop]
    by_cases full : want ≤ got.length
    · exact ⟨_, if_pos full, reliable⟩
    · rw [if_neg full]
      have more : st.conn.data ≠ [] := by
        intro h
        rw [h, length_nil] at enough
        omega
      rw [if_neg fun he => more (reliable.1 he)]
      obtain ⟨⟨chunk, conn⟩, hr, reads⟩ := Conn.read_reliable reliable.2 (want - got.length)
      obtain ⟨data, -, last⟩ := Conn.read_takes hr
      have full : chunk ≠ [] := by
        intro hc
        rw [hc, last (by omega) hc] at data
        exact more data
      have sound : Stream.Sound { st with conn := conn } := by
        intro he
        exact absurd (reliable.1 he) more
      have longer := length_pos_iff.mpr full
      rw [data, length_append] at enough fuel
      have reliable₁ : Stream.Reliable { st with conn := conn } := ⟨sound, reads⟩
      have enough₁ : want ≤ (got ++ chunk).length + conn.data.length := by
        rw [length_append]
        omega
      rw [hr]
      obtain ⟨p, hp, reliable'⟩ := ih reliable₁ enough₁ (by dsimp only; omega)
      exact ⟨p, (if_neg full).trans hp, reliable'⟩

/-- As many bytes as there are can be taken. -/
theorem exact_of {body rest : Bytes} (reliable : st.Reliable) (bytes : st.bytes = body ++ rest) :
    ∃ st', st.exact body.length = .ok (body, st') ∧ st'.bytes = rest ∧ st'.Reliable := by
  have taken : ∃ p, st.exact body.length = .ok p ∧ p.2.Reliable := by
    unfold Stream.exact
    split
    · exact ⟨_, rfl, reliable⟩
    · have lengths := congrArg List.length bytes
      unfold Stream.bytes at lengths
      rw [length_append, length_append] at lengths
      have reliable₁ : Stream.Reliable { st with buf := st.buf.drop (body.length : Int).toNat } := reliable
      exact exactLoop_of reliable₁ (by rw [length_take]; dsimp only; omega) (by simp)
  obtain ⟨⟨body', st'⟩, hx, reliable'⟩ := taken
  obtain ⟨takes, length⟩ := exact_takes reliable.1 hx
  obtain ⟨rfl, behind⟩ := append_inj (takes.2.symm.trans bytes) length
  exact ⟨st', hx, behind, reliable'⟩

end Voila.Http
