import Voila.Csv.ReaderSound

/-!
# Voila.Csv.WriterSound

What a writer writes holds the records it was given, but for those of one empty field: such a record is
written as a blank line (`written_decodes`). A text holds such a record where `""` stands alone on its
line (`decodes_lone`).
-/

open List

namespace Voila.Csv

open Voila.Rt (Bytes)
open Voila.Rt.Json (ch putUtf8)

/-- An ASCII separator other than the quote and the line endings. -/
structure Plain (sep : Nat) : Prop extends Separates sep where
  ascii : sep < 0x80
  noReturn : sep ≠ (ch '\r').toNat

/-- What `quote` does to the bytes in the quotes. -/
def doubled (f : Bytes) : Bytes := f.flatMap fun c => if c = ch '"' then [c, c] else [c]

theorem doubled_cons (c : UInt8) (f : Bytes) :
    doubled (c :: f) = (if c = ch '"' then [c, c] else [c]) ++ doubled f := flatMap_cons

section
variable {sep : Nat}

/-- The byte that a field, or the record, ends with, behind what may stand before a line feed. -/
inductive Ending (sep : Nat) : Bytes → UInt8 → Prop
  | sep {c : UInt8} : c.toNat = sep → Ending sep [] c
  | lf : Ending sep [] (ch '\n')
  | crlf : Ending sep [ch '\r'] (ch '\n')

theorem quotedLoop_doubled {d : UInt8} (hd : d ≠ ch '"') (more : Bool) (b run f s : Bytes) :
    quotedLoop more b run (doubled f ++ ch '"' :: d :: s) = some (b ++ run ++ f, d :: s) := by
  induction f generalizing b run with
  | nil =>
    rw [append_nil]
    exact quotedLoop_close hd more b run s
  | cons c f ih =>
    rw [doubled_cons]
    by_cases quote : c = ch '"'
    · rw [if_pos quote, quote, append_assoc, cons_append, singleton_append,
        quotedLoop_escape, ih]
      simp
    · rw [if_neg quote, append_assoc, singleton_append, quotedLoop_byte quote, ih]
      simp

variable {c : UInt8} {pad f : Bytes} {fs : List Bytes} {recs : List (List Bytes)} {more : Bool}

/-- The body of a field outside quotes, up to its end. -/
theorem scanTail_body (hsep : Plain sep) (value f next : Bytes)
    (hf : ∀ d ∈ f, inTail sep d = true ∧ d ≠ ch '\r') (hend : Ending sep pad c) :
    scanTail sep value (f ++ pad ++ c :: next) = (value ++ f, c :: next) := by
  have stops : inTail sep c = false := by
    rw [Bool.eq_false_iff]
    intro tail
    obtain ⟨noSep, noFeed⟩ := inTail_iff.mp tail
    cases hend with
    | sep hc => exact noSep hc
    | lf => exact noFeed rfl
    | crlf => exact noFeed rfl
  have pad_tail : ∀ d ∈ pad, inTail sep d = true := by
    intro d hd
    cases hend with
    | sep => exact absurd hd not_mem_nil
    | lf => exact absurd hd not_mem_nil
    | crlf =>
      rw [mem_singleton.mp hd, inTail_iff]
      exact ⟨hsep.noReturn.symm, by decide⟩
  have all : ∀ d ∈ f ++ pad, inTail sep d = true := by
    intro d hd
    cases mem_append.mp hd with
    | inl hd => exact (hf d hd).1
    | inr hd => exact pad_tail d hd
  have body : (f ++ pad ++ c :: next).takeWhile (inTail sep) = f ++ pad := by
    rw [takeWhile_append_of_pos all, takeWhile_cons, stops]
    simp
  have rest : (f ++ pad ++ c :: next).dropWhile (inTail sep) = c :: next := by
    rw [dropWhile_append_of_pos all, dropWhile_cons, stops]
    simp
  have bare : f.getLast? ≠ some (ch '\r') := by
    intro last
    exact (hf _ (mem_of_getLast? last)).2 rfl
  have trimmed : trimTail (f ++ pad) (c :: next) = f := by
    unfold trimTail
    cases hend with
    | sep =>
      rw [append_nil]
      exact if_neg fun h => bare h.2
    | lf =>
      rw [append_nil]
      exact if_neg fun h => bare h.2
    | crlf => rw [if_pos ⟨cons_ne_nil _ _, getLast?_concat⟩, dropLast_concat]
  simp only [scanTail, body, rest, trimmed]

theorem Ending.first (hsep : Plain sep) (h : Ending sep pad c) (next : Bytes) :
    ∃ d rest, pad ++ c :: next = d :: rest ∧ d ≠ ch '"' := by
  cases h with
  | sep hc => exact ⟨c, next, rfl, fun quote => hsep.noQuote (quote ▸ hc.symm)⟩
  | lf => exact ⟨_, next, rfl, by decide⟩
  | crlf => exact ⟨_, _, rfl, by decide⟩

/-- A field that is not quoted has no byte that could be taken for anything else. -/
theorem needsQuotes_false (h : needsQuotes f sep = false) :
    ∀ d ∈ f, (inTail sep d = true ∧ d ≠ ch '\r') ∧ d ≠ ch '"' := by
  intro d hd
  have some_byte : f ≠ [] := ne_nil_of_mem hd
  unfold needsQuotes at h
  rw [decide_eq_false_iff_not] at h
  have none_special : ¬ f.any fun c => c.toNat = sep ∨ c = ch '"' ∨ c = ch '\n' ∨ c = ch '\r' :=
    fun h' => h ⟨some_byte, .inr (.inr h')⟩
  rw [any_eq_true] at none_special
  have other : ¬ (d.toNat = sep ∨ d = ch '"' ∨ d = ch '\n' ∨ d = ch '\r') :=
    fun h' => none_special ⟨d, hd, decide_eq_true h'⟩
  rw [not_or, not_or, not_or] at other
  exact ⟨⟨inTail_iff.mpr ⟨other.1, other.2.2.1⟩, other.2.2.2⟩, other.2.1⟩

/-- A field that was written is read. -/
theorem scanField_quote (hsep : Plain sep) (more : Bool) (len : Nat) (f : Bytes)
    (hend : Ending sep pad c) (next : Bytes) :
    scanField sep more len (quote f sep ++ (pad ++ c :: next)) = .ok (some (f, c :: next)) := by
  obtain ⟨d, rest, first, noQuote⟩ := hend.first hsep next
  unfold quote
  cases hq : needsQuotes f sep with
  | true =>
    have inner := scanTail_body hsep f [] next nofun hend
    rw [nil_append, append_nil, first] at inner
    have shape : [ch '"'] ++ doubled f ++ [ch '"'] ++ (pad ++ c :: next) =
        ch '"' :: (doubled f ++ ch '"' :: d :: rest) := by
      rw [first]
      simp
    rw [if_pos rfl]
    show scanField sep more len ([ch '"'] ++ doubled f ++ [ch '"'] ++ (pad ++ c :: next)) = _
    rw [shape, scanField, if_pos rfl, quotedLoop_doubled noQuote]
    exact congrArg (fun p => Except.ok (some p)) inner
  | false =>
    have plain := needsQuotes_false hq
    have body := scanTail_body hsep [] f next (fun d hd => (plain d hd).1) hend
    rw [if_neg Bool.false_ne_true]
    rw [append_assoc, nil_append] at body
    cases f with
    | nil =>
      rw [nil_append, first] at body ⊢
      rw [scanField, if_neg noQuote, body]
    | cons b f =>
      have other := (plain b mem_cons_self).2
      rw [cons_append] at body ⊢
      rw [scanField, if_neg other, body]

/-! ### Records -/

/-- The line ending of a writer. -/
def eol (crlf : Bool) : Bytes := if crlf then [ch '\r', ch '\n'] else [ch '\n']

theorem eol_split (sep : Nat) (crlf : Bool) : ∃ pad, eol crlf = pad ++ [ch '\n'] ∧ Ending sep pad (ch '\n') := by
  cases crlf with
  | true => exact ⟨[ch '\r'], rfl, .crlf⟩
  | false => exact ⟨[], rfl, .lf⟩

/-- The separator as a byte. -/
def sepByte (sep : Nat) : UInt8 := UInt8.ofNat sep

theorem sepByte_toNat (h : sep < 0x80) : (sepByte sep).toNat = sep := by
  unfold sepByte
  rw [UInt8.toNat_ofNat']
  omega

theorem putUtf8_ascii (h : sep < 0x80) : putUtf8 sep = [sepByte sep] := if_pos h

theorem render_cons (h : sep < 0x80) (crlf : Bool) (f : Bytes) (fs : List Bytes) :
    render (f :: fs) sep crlf =
      quote f sep ++ (fs.flatMap fun f => sepByte sep :: quote f sep) ++ eol crlf := by
  have body : (putUtf8 sep).intercalate ((f :: fs).map (quote · sep)) =
      quote f sep ++ (fs.flatMap fun f => sepByte sep :: quote f sep) := by
    rw [putUtf8_ascii h]
    induction fs generalizing f with
    | nil => simp [List.intercalate]
    | cons g fs ih =>
      have rest := ih g
      rw [map_cons] at rest
      rw [map_cons, map_cons, intercalate_cons_cons, rest, flatMap_cons]
      simp
  rw [render, body]
  rfl

theorem fieldsLoop_render (hsep : Plain sep) (more : Bool) (len : Nat) (crlf : Bool) (rest : Bytes)
    (fs : List Bytes) {n : Nat} (fuel : fs.length < n) (fields : List Bytes) (f : Bytes) :
    fieldsLoop sep more len n fields
        (quote f sep ++ (fs.flatMap fun f => sepByte sep :: quote f sep) ++ eol crlf ++ rest) =
      .ok (.record (fields ++ f :: fs) rest) := by
  induction fs generalizing n fields f with
  | nil =>
    cases n with
    | zero => omega
    | succ n =>
      obtain ⟨pad, eq, hend⟩ := eol_split sep crlf
      have shape : quote f sep ++ [] ++ eol crlf ++ rest = quote f sep ++ (pad ++ ch '\n' :: rest) := by
        rw [eq]
        simp
      rw [flatMap_nil, shape, fieldsLoop, scanField_quote hsep more len f hend rest]
      dsimp only
      rw [if_neg hsep.noFeed.symm]
  | cons g fs ih =>
    cases n with
    | zero => omega
    | succ n =>
      have isSep := sepByte_toNat hsep.ascii
      have shape : quote f sep ++ ((g :: fs).flatMap fun f => sepByte sep :: quote f sep) ++ eol crlf
            ++ rest =
          quote f sep ++ ([] ++ sepByte sep ::
            (quote g sep ++ (fs.flatMap fun f => sepByte sep :: quote f sep) ++ eol crlf ++ rest)) := by
        simp
      rw [shape, fieldsLoop, scanField_quote hsep more len f (.sep isSep)]
      dsimp only
      rw [if_pos isSep, ih (Nat.lt_of_succ_lt_succ fuel), append_assoc, singleton_append]

/-- A record that is not one empty field does not begin like a blank line. -/
theorem render_first (hsep : Plain sep) (crlf : Bool) (h : f :: fs ≠ [[]]) :
    ∃ c rest, render (f :: fs) sep crlf = c :: rest ∧ c ≠ ch '\n' ∧ c ≠ ch '\r' := by
  rw [render_cons hsep.ascii]
  cases f with
  | nil =>
    cases fs with
    | nil => exact absurd rfl h
    | cons g fs =>
      refine ⟨sepByte sep, _, rfl, fun feed => ?_, fun ret => ?_⟩
      · exact hsep.noFeed (by rw [← sepByte_toNat hsep.ascii, feed])
      · exact hsep.noReturn (by rw [← sepByte_toNat hsep.ascii, ret])
  | cons b f =>
    unfold quote
    cases hq : needsQuotes (b :: f) sep with
    | true => exact ⟨ch '"', _, rfl, by decide, by decide⟩
    | false =>
      have plain := needsQuotes_false hq b mem_cons_self
      exact ⟨b, _, rfl, (inTail_iff.mp plain.1.1).2, plain.1.2⟩

theorem length_le_flatMap (sep : Nat) (fs : List Bytes) :
    fs.length ≤ (fs.flatMap fun f => sepByte sep :: quote f sep).length := by
  induction fs with
  | nil => exact Nat.le_refl 0
  | cons f fs ih =>
    rw [flatMap_cons, length_append, length_cons, length_cons]
    omega

/-- A record that was written is read, unless it is one empty field. -/
theorem scanRecord_render (hsep : Plain sep) (more : Bool) (len : Nat) (crlf : Bool) (rest : Bytes)
    (h : f :: fs ≠ [[]]) :
    scanRecord sep more len (render (f :: fs) sep crlf ++ rest) = .ok (.record (f :: fs) rest) := by
  obtain ⟨c, tail, first, noFeed, noReturn⟩ := render_first hsep crlf h
  have starts : skipBlank (render (f :: fs) sep crlf ++ rest) = render (f :: fs) sep crlf ++ rest := by
    rw [first]
    exact skipBlank_other noFeed noReturn _
  have nonblank : render (f :: fs) sep crlf ++ rest ≠ [] := by
    rw [first]
    exact cons_ne_nil _ _
  have fuel : fs.length < (render (f :: fs) sep crlf ++ rest).length + 1 := by
    rw [render_cons hsep.ascii]
    simp only [length_append]
    have := length_le_flatMap sep fs
    omega
  rw [scanRecord, starts, if_neg nonblank]
  rw [render_cons hsep.ascii] at fuel ⊢
  exact fieldsLoop_render hsep more len crlf rest fs fuel [] f

/-- One empty field is written as a blank line. -/
theorem render_empty (sep : Nat) (crlf : Bool) : render [[]] sep crlf = eol crlf := by
  cases crlf with
  | true => rfl
  | false => rfl

theorem skipBlank_eol (crlf : Bool) : skipBlank (eol crlf) = [] := by
  cases crlf with
  | true => exact skipBlank_crlf []
  | false => exact skipBlank_lf []

/-- What is written holds the records that are not one empty field. -/
theorem written_decodes (hsep : Plain sep) (crlf : Bool) (h : ∀ r ∈ recs, r ≠ []) :
    Decodes sep (recs.flatMap (render · sep crlf)) (recs.filter (· ≠ [[]])) .done := by
  induction recs with
  | nil => exact .done rfl
  | cons r recs ih =>
    have rest := ih fun r hr => h r (mem_cons_of_mem _ hr)
    rw [flatMap_cons]
    by_cases empty : r = [[]]
    · rw [filter_cons_of_neg (by simpa using empty), empty, render_empty]
      exact rest.blank (skipBlank_eol crlf)
    · rw [filter_cons_of_pos (by simpa using empty)]
      cases r with
      | nil => exact absurd rfl (h [] mem_cons_self)
      | cons f fs => exact .record 0 (scanRecord_render hsep false 0 crlf _ empty) rest

theorem filter_eq_self_iff : recs.filter (· ≠ [[]]) = recs ↔ [[]] ∉ recs := by
  rw [filter_eq_self]
  constructor
  · intro h hm
    simpa using h _ hm
  · intro h r hr
    have other : r ≠ [[]] := fun eq => h (eq ▸ hr)
    simpa using other

theorem writeAll_dst (w : Writer) (recs : List (List Bytes)) :
    (w.writeAll recs).dst = w.dst ++ recs.flatMap (render · w.sep w.crlf) := by
  unfold Writer.writeAll
  induction recs generalizing w with
  | nil => rw [foldl_nil, flatMap_nil, append_nil]
  | cons r recs ih =>
    rw [foldl_cons, ih, flatMap_cons, ← append_assoc]
    rfl

/-- What a reader finds of what a writer wrote. -/
theorem read_written (hsep : Plain sep) (crlf : Bool) (h : ∀ r ∈ recs, r ≠ []) :
    (readerOf sep (Writer.writeAll ⟨[], sep, crlf⟩ recs).dst).all = (recs.filter (· ≠ [[]]), none) := by
  rw [writeAll_dst, nil_append]
  obtain ⟨recs', e, decodes, eq, stops⟩ :=
    readAll_decodes hsep.toSeparates (recs.flatMap (render · sep crlf))
  obtain ⟨rfl, rfl⟩ := (written_decodes hsep crlf h).unique decodes
  exact Prod.ext eq stops

/-- What `decode` finds of what `encode` wrote. -/
theorem decode_encode (h : ∀ r ∈ recs, r ≠ []) :
    decode (encode recs) = .ok (recs.filter (· ≠ [[]])) := by
  have plain : Plain comma := ⟨comma_separates, by decide, by decide⟩
  obtain ⟨recs', e, decodes, eq, stops⟩ := decodeWith_decodes comma_separates (encode recs)
  obtain ⟨rfl, rfl⟩ := (written_decodes plain false h).unique decodes
  have both : decodeWith comma (encode recs) = (recs.filter (· ≠ [[]]), none) := Prod.ext eq stops
  rw [decode, both]

/-! ### Records of one empty field -/

/-- `""` stands alone on a line of the text, outside quotes. -/
def Lone (sep : Nat) (text : Bytes) : Prop :=
  ∃ pre post, text = pre ++ ch '"' :: ch '"' :: post ∧ ending sep .line pre = .line ∧
    (post = [] ∨ (∃ rest, post = ch '\n' :: rest) ∨ ∃ rest, post = ch '\r' :: ch '\n' :: rest)

theorem skipBlank_first (s rest : Bytes) :
    skipBlank s ≠ ch '\n' :: rest ∧ skipBlank s ≠ ch '\r' :: ch '\n' :: rest := by
  fun_induction skipBlank s with
  | case1 => exact ⟨(by simp), (by simp)⟩
  | case2 s ih => exact ih
  | case3 s _ ih => exact ih
  | case4 d s other _ =>
    refine ⟨fun h => absurd (List.cons.inj h).1 (by decide), fun h => ?_⟩
    exact other (List.cons.inj (List.cons.inj h).2).1
  | case5 =>
    exact ⟨fun h => absurd (List.cons.inj h).1 (by decide), fun h => absurd (List.cons.inj h).2 (by simp)⟩
  | case6 c s feed ret => exact ⟨fun h => feed (List.cons.inj h).1, fun h => ret (List.cons.inj h).1⟩

theorem quotedLoop_keeps {b run s value after : Bytes}
    (h : quotedLoop more b run s = some (value, after)) : b ++ run <+: value := by
  fun_induction quotedLoop more b run s with
  | case1 => cases h
  | case2 => cases h
  | case3 =>
    obtain ⟨rfl, -⟩ := Prod.mk.inj (Option.some.inj h)
    exact prefix_rfl
  | case4 b run s ih =>
    refine List.IsPrefix.trans ?_ (ih h)
    rw [append_nil, ← append_assoc]
    exact prefix_append _ _
  | case5 =>
    obtain ⟨rfl, -⟩ := Prod.mk.inj (Option.some.inj h)
    exact prefix_rfl
  | case6 b run c s other ih =>
    refine List.IsPrefix.trans ?_ (ih h)
    rw [← append_assoc]
    exact prefix_append _ _

/-- Nothing in quotes: they are closed at once. -/
theorem quotedLoop_nil {s after : Bytes} (h : quotedLoop more [] [] s = some ([], after)) :
    s = ch '"' :: after := by
  have empty {b run t : Bytes} (some_byte : b ++ run ≠ []) (h : quotedLoop more b run t = some ([], after)) :
      False := some_byte (prefix_nil.mp (quotedLoop_keeps h))
  cases s with
  | nil => cases h
  | cons c s =>
    by_cases quote : c = ch '"'
    · subst quote
      cases s with
      | nil =>
        cases more with
        | true => cases h
        | false =>
          obtain ⟨-, rfl⟩ := Prod.mk.inj (Option.some.inj h)
          rfl
      | cons d s =>
        by_cases quote : d = ch '"'
        · rw [quote, quotedLoop_escape] at h
          exact (empty (by simp) h).elim
        · rw [quotedLoop_close quote] at h
          obtain ⟨-, rfl⟩ := Prod.mk.inj (Option.some.inj h)
          rfl
    · rw [quotedLoop_byte quote] at h
      exact (empty (by simp) h).elim

theorem trimTail_nil {tail after : Bytes} (h : trimTail tail after = []) :
    tail = [] ∨ after ≠ [] ∧ tail = [ch '\r'] := by
  unfold trimTail at h
  split at h
  · next trimmed =>
      refine .inr ⟨trimmed.1, ?_⟩
      rw [← dropLast_append_getLast? _ trimmed.2, h]
      rfl
  · exact .inl h

/-- An empty field without what may stand in its quotes. -/
theorem scanTail_nil {value s after : Bytes} (h : scanTail sep value s = ([], after)) :
    value = [] ∧ Ends sep after ∧ (s = after ∨ after ≠ [] ∧ s = ch '\r' :: after) := by
  obtain ⟨nothing, rfl⟩ := Prod.mk.inj h
  obtain ⟨rfl, trimmed⟩ := append_eq_nil_iff.mp nothing
  refine ⟨rfl, dropWhile_ends s, ?_⟩
  have whole := takeWhile_append_dropWhile (p := inTail sep) (l := s)
  obtain tail | ⟨more, tail⟩ := trimTail_nil trimmed
  · rw [tail, nil_append] at whole
    exact .inl whole.symm
  · rw [tail] at whole
    exact .inr ⟨more, whole.symm⟩

theorem fieldsLoop_grows {len n : Nat} {fields fs : List Bytes} {s next : Bytes}
    (h : fieldsLoop sep more len n fields s = .ok (.record fs next)) : fields.length < fs.length := by
  induction n generalizing fields s with
  | zero => cases h
  | succ n ih =>
    rw [fieldsLoop] at h
    cases hfield : scanField sep more len s with
    | error e =>
      rw [hfield] at h
      exact absurd h (by simp)
    | ok r =>
      rw [hfield] at h
      have one {value : Bytes} (h : fields ++ [value] = fs) : fields.length < fs.length := by
        rw [← h, length_append, length_singleton]
        exact Nat.lt_succ_self _
      cases r with
      | none => exact absurd h (by simp)
      | some p =>
        obtain ⟨value, after⟩ := p
        cases after with
        | nil =>
          dsimp only at h
          split at h
          · exact absurd h (by simp)
          · exact one (Scan.record.inj (Except.ok.inj h)).1
        | cons c next =>
          dsimp only at h
          split at h
          · have := ih h
            rw [length_append, length_singleton] at this
            omega
          · exact one (Scan.record.inj (Except.ok.inj h)).1

/-- A record of one empty field. -/
theorem scanRecord_empty {len : Nat} {s next : Bytes}
    (h : scanRecord sep false len s = .ok (.record [[]] next)) : Lone sep s := by
  obtain ⟨blanks, eq, ends⟩ := skipBlank_split sep s
  have first := skipBlank_first s
  by_cases blank : skipBlank s = []
  · rw [scanRecord_blank _ blank] at h
    exact absurd h (by simp)
  · rw [scanRecord, if_neg blank, fieldsLoop] at h
    generalize skipBlank s = s' at *
    cases hfield : scanField sep false len s' with
    | error e =>
      rw [hfield] at h
      exact absurd h (by simp)
    | ok r =>
      rw [hfield] at h
      cases r with
      | none => exact absurd h (by simp)
      | some p =>
        obtain ⟨value, after⟩ := p
        have single : value = [] ∧ ∀ c ∈ after.head?, c.toNat ≠ sep := by
          cases after with
          | nil =>
            obtain ⟨eq, -⟩ := Scan.record.inj (Except.ok.inj h)
            exact ⟨(List.cons.inj eq).1, (by simp)⟩
          | cons c next =>
            dsimp only at h
            split at h
            · have := fieldsLoop_grows h
              simp at this
            · next other =>
                obtain ⟨eq, -⟩ := Scan.record.inj (Except.ok.inj h)
                refine ⟨(List.cons.inj eq).1, fun d hd => ?_⟩
                rw [← Option.some.inj hd]
                exact other
        obtain ⟨rfl, noSep⟩ := single
        have feeds (behind : Ends sep after) (some_left : after ≠ []) : ∃ rest, after = ch '\n' :: rest := by
          cases after with
          | nil => exact absurd rfl some_left
          | cons c rest => exact ⟨rest, by rw [(behind c rfl).resolve_left (noSep c rfl)]⟩
        cases s' with
        | nil => exact absurd rfl blank
        | cons c rest =>
          rw [scanField] at hfield
          by_cases quote : c = ch '"'
          · rw [if_pos quote] at hfield
            cases hq : quotedLoop false [] [] rest with
            | none =>
              rw [hq] at hfield
              exact absurd hfield (by simp)
            | some p =>
              obtain ⟨inner, s₁⟩ := p
              rw [hq] at hfield
              obtain ⟨rfl, behind, shape⟩ := scanTail_nil (Option.some.inj (Except.ok.inj hfield))
              refine ⟨blanks, s₁, by rw [eq, quote, quotedLoop_nil hq], ends, ?_⟩
              obtain rfl | ⟨some_left, rfl⟩ := shape
              · by_cases some_left : s₁ = []
                · exact .inl some_left
                · exact .inr (.inl (feeds behind some_left))
              · obtain ⟨rest, rfl⟩ := feeds behind some_left
                exact .inr (.inr ⟨rest, rfl⟩)
          · rw [if_neg quote] at hfield
            obtain ⟨-, behind, shape⟩ := scanTail_nil (Option.some.inj (Except.ok.inj hfield))
            obtain rfl | ⟨some_left, shape⟩ := shape
            · obtain ⟨rest', eq'⟩ := feeds behind (cons_ne_nil _ _)
              exact absurd eq' (first rest').1
            · obtain ⟨rest', rfl⟩ := feeds behind some_left
              exact absurd shape (first rest').2

theorem scanRecord_lone (hsep : Plain sep) (len : Nat) {s post : Bytes}
    (hs : skipBlank s = ch '"' :: ch '"' :: post)
    (hpost : post = [] ∨ (∃ rest, post = ch '\n' :: rest) ∨ ∃ rest, post = ch '\r' :: ch '\n' :: rest) :
    ∃ next, scanRecord sep false len s = .ok (.record [[]] next) := by
  have nonblank : ¬ ch '"' :: ch '"' :: post = [] := cons_ne_nil _ _
  have feed : ¬ (ch '\n').toNat = sep := hsep.noFeed.symm
  rw [scanRecord, hs, if_neg nonblank, fieldsLoop, scanField, if_pos rfl]
  obtain rfl | ⟨rest, rfl⟩ | ⟨rest, rfl⟩ := hpost
  · exact ⟨[], rfl⟩
  · rw [quotedLoop_close (by decide), Option.map_some]
    have body := scanTail_body hsep [] [] rest (by simp) .lf
    rw [nil_append, nil_append] at body
    rw [nil_append, body]
    dsimp only
    rw [if_neg feed]
    exact ⟨rest, rfl⟩
  · rw [quotedLoop_close (by decide), Option.map_some]
    have body := scanTail_body hsep [] [] rest (by simp) .crlf
    rw [nil_append, nil_append, singleton_append] at body
    rw [nil_append, body]
    dsimp only
    rw [if_neg feed]
    exact ⟨rest, rfl⟩

/-- The first record of a text with such a line is the line, or comes before it. -/
theorem Lone.scan (hsep : Plain sep) {s : Bytes} (h : Lone sep s) (len : Nat) :
    ∃ f fs next, scanRecord sep false len s = .ok (.record (f :: fs) next) ∧
      (f :: fs = [[]] ∨ Lone sep next) := by
  obtain ⟨pre, post, rfl, ends, hpost⟩ := h
  by_cases blank : skipBlank pre = []
  · have here : skipBlank (pre ++ ch '"' :: ch '"' :: post) = ch '"' :: ch '"' :: post := by
      rw [skipBlank_blank blank]
      exact skipBlank_other (by decide) (by decide) _
    obtain ⟨next, hscan⟩ := scanRecord_lone hsep len here hpost
    exact ⟨[], [], next, hscan, .inl rfl⟩
  · have scanned := scanRecord_scanned hsep.toSeparates true len blank
    generalize hr : scanRecord sep true len pre = r at scanned
    cases scanned with
    | index _ other =>
      rw [ends] at other
      exact absurd other (by decide)
    | unfinished other =>
      rw [ends] at other
      exact absurd other (by decide)
    | @ended t next f fs eq _ before =>
      refine ⟨f, fs, _, scanRecord_append hsep.toSeparates hr false len _, .inr ⟨next, post, rfl, ?_, hpost⟩⟩
      rw [eq, ending_append, before] at ends
      exact ends
    | last _ _ no_more _ _ => exact absurd no_more (by decide)

/-- A text holds a record of one empty field where `""` stands alone on a line. -/
theorem decodes_lone (hsep : Plain sep) {text : Bytes} {e : End}
    (h : Decodes sep text recs e) : [[]] ∈ recs ↔ Lone sep text := by
  have nothing {s : Bytes} {r : Except Stop Scan} (h : scanRecord sep false 0 s = r)
      (other : ∀ f fs next, r ≠ .ok (.record (f :: fs) next)) : [[]] ∈ ([] : List (List Bytes)) ↔ Lone sep s := by
    refine ⟨fun hm => absurd hm not_mem_nil, fun lone => ?_⟩
    obtain ⟨f, fs, next, hscan, -⟩ := lone.scan hsep 0
    exact absurd (h.symm.trans hscan) (other f fs next)
  induction h with
  | done blank => exact nothing (scanRecord_blank 0 blank) fun _ _ _ => nofun
  | unfinished len hscan =>
    refine nothing rfl fun f fs next h => ?_
    exact absurd (scanRecord_same h hscan) nofun
  | fault hscan =>
    refine nothing rfl fun f fs next h => ?_
    exact (scanRecord_not_both h hscan).elim
  | @record s f next fs recs e len hscan rest ih =>
    constructor
    · intro hm
      cases mem_cons.mp hm with
      | inl here => exact scanRecord_empty (here ▸ hscan)
      | inr hm =>
        obtain ⟨pre, post, eq, ends, hpost⟩ := ih.mp hm
        have nonblank : skipBlank s ≠ [] := by
          intro blank
          rw [scanRecord_blank _ blank] at hscan
          cases hscan
        have scanned := scanRecord_scanned hsep.toSeparates false len nonblank
        rw [hscan] at scanned
        cases scanned with
        | @ended t _ _ _ eq' _ before =>
          refine ⟨t ++ pre, post, by rw [eq', eq, append_assoc], ?_, hpost⟩
          rw [ending_append, before, ends]
        | last => exact absurd eq (by simp)
    · intro lone
      obtain ⟨f', fs', next', hscan', here⟩ := lone.scan hsep len
      obtain ⟨same, rfl⟩ := Scan.record.inj (scanRecord_same hscan hscan')
      cases here with
      | inl here => exact mem_cons.mpr (.inl (same.trans here).symm)
      | inr later => exact mem_cons_of_mem _ (ih.mpr later)

end

theorem comma_plain : Plain comma := ⟨comma_separates, by decide, by decide⟩

/-- **Written and read back.** What `decode` accepts comes back from `encode`, unless `""` stands alone on
a line of it; and records come back from a writer, unless one of them is one empty field. -/
theorem roundTrips_iff (text : Bytes) (recs : List (List Bytes)) (sep : Nat) (crlf : Bool) :
    (decode text = .ok recs → (decode (encode recs) = .ok recs ↔ ¬ Lone comma text)) ∧
    (Plain sep → (∀ r ∈ recs, r ≠ []) →
      ((readerOf sep (Writer.writeAll ⟨[], sep, crlf⟩ recs).dst).all = (recs, none) ↔ [[]] ∉ recs)) := by
  constructor
  · intro h
    obtain ⟨recs', e, decodes, eq, stops⟩ := decodeWith_decodes comma_separates text
    have found : recs = recs' := by
      unfold decode at h
      cases hd : decodeWith comma text with
      | mk out stop =>
        rw [hd] at h eq
        cases stop with
        | none => exact (Except.ok.inj h).symm.trans eq
        | some e => cases h
    subst found
    rw [decode_encode decodes.nonempty, ← decodes_lone comma_plain decodes, ← filter_eq_self_iff]
    exact ⟨fun h => Except.ok.inj h, fun h => congrArg Except.ok h⟩
  · intro hsep h
    rw [read_written hsep crlf h, ← filter_eq_self_iff]
    exact ⟨fun h => (Prod.mk.inj h).1, fun h => congrArg (·, none) h⟩

/-- A line that reads back, and a record with a tab in it and an empty field in front. -/
theorem roundTrips_tab :
    (decode (encode [[[ch 'a']]]) = .ok [[[ch 'a']]] ↔ ¬ Lone comma [ch 'a', ch '\n']) ∧
    ((readerOf 9 (Writer.writeAll ⟨[], 9, true⟩ [[[], [ch '\t']]]).dst).all = ([[[], [ch '\t']]], none) ↔
      [[]] ∉ [[[], [ch '\t']]]) :=
  ⟨(roundTrips_iff _ _ 9 true).1 (by decide),
    (roundTrips_iff [] _ 9 true).2 ⟨⟨by decide, by decide⟩, by decide, by decide⟩ (by decide)⟩

/-- `""` is read as a record of one empty field, which is written as a blank line. -/
theorem emptyField_not_roundTrips :
    ∃ recs, decode [ch '"', ch '"'] = .ok recs ∧ decode (encode recs) ≠ .ok recs :=
  ⟨[[[]]], by decide, by decide⟩

end Voila.Csv
