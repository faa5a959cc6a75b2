import Voila.Lib.Words
import Voila.Str.Utf8Sound

/-!
# Voila.Str.CaseSound

What `case_map` makes of a string, and `upper`, `lower` and `title` with it.

The pieces of a string (`Reads`) are mapped one by one. A space is a piece of its own, so the words of a string
are the runs of its pieces between the spaces (`fieldsOf_reads`), and `title` maps the pieces as well.
-/

namespace Voila.Str

open Rt List
open Rt.Json (Scalar)

/-! ### Case tables -/

/-- A case table sends scalar values to scalar values, and lets no encoding grow by more than half. -/
def IsTable (f : Nat → Nat) : Prop :=
  ∀ r, Scalar r → Scalar (f r) ∧ 2 * (utf8Put (f r)).length ≤ 3 * (utf8Put r).length

/-- `utf8_put` writes one to four bytes. -/
def putLength (r : Nat) : Nat := if r < 0x80 then 1 else if r < 0x800 then 2 else if r < 0x10000 then 3 else 4

theorem utf8Put_length (r : Nat) : (utf8Put r).length = putLength r := by
  unfold utf8Put putLength
  rw [length_map]
  split_ifs <;> rfl

theorem putLength_mono {a b : Nat} (h : a ≤ b) : putLength a ≤ putLength b := by
  unfold putLength
  split_ifs <;> omega

/-- What `IsTable` asks is checked at the ends of each row. -/
theorem ucLowerRows_grow : ∀ row ∈ ucLowerRows, 0 ≤ row.lo + row.delta ∧ row.hi + row.delta < 0x110000 ∧
    (row.hi + row.delta < 0xD800 ∨ 0xDFFF < row.lo + row.delta) ∧
    2 * putLength (row.hi + row.delta).toNat ≤ 3 * putLength row.lo := by
  decide +kernel

theorem ucLower_table : IsTable ucLower := by
  intro r scalar
  rw [utf8Put_length, utf8Put_length]
  unfold ucLower ucCase
  split
  · exact ⟨scalar, by omega⟩
  · next row hrow =>
      obtain ⟨hmem, above, below⟩ := ucRow_some hrow
      obtain ⟨low, top, clear, grown⟩ := ucLowerRows_grow row hmem
      have value : ((r + row.delta) % 2 ^ 32).toNat = (r + row.delta).toNat := by omega
      have inside : (r + row.delta).toNat ≤ (row.hi + row.delta).toNat := by omega
      have growth := putLength_mono inside
      have length := putLength_mono above
      rw [value]
      refine ⟨?_, by omega⟩
      unfold Scalar
      omega

/-- A byte that begins no sequence is copied, a character is mapped. -/
def rewrite (f : Nat → Nat) : UInt8 ⊕ Nat → Bytes
  | .inl a => [a]
  | .inr r => utf8Put (f r)

/-- The first piece goes by `first` and the others by `rest`. -/
def rewritten (first rest : Nat → Nat) : List (UInt8 ⊕ Nat) → Bytes
  | [] => []
  | p :: ps => rewrite first p ++ ps.flatMap (rewrite rest)

theorem rewritten_self (f : Nat → Nat) (ps : List (UInt8 ⊕ Nat)) : rewritten f f ps = ps.flatMap (rewrite f) := by
  cases ps with
  | nil => rfl
  | cons p ps => rw [rewritten, flatMap_cons]

theorem Reads.caseLoop {s : Bytes} {ps : List (UInt8 ⊕ Nat)} (reads : Reads s ps) (f : Nat → Nat) :
    caseLoop f f 0 s = ps.flatMap (rewrite f) := by
  induction reads with
  | nil => rfl
  | ill hnext _ ih =>
    rw [Rt.caseLoop, hnext, flatMap_cons, ← ih]
    rfl
  | rune scalar _ ih =>
    rw [caseLoop_put scalar, flatMap_cons, ih]
    rfl

/-- `case_map` goes piece by piece. -/
theorem Reads.caseMap {s : Bytes} {ps : List (UInt8 ⊕ Nat)} (reads : Reads s ps) (first rest : Nat → Nat) :
    caseMap first rest s = rewritten first rest ps := by
  unfold Rt.caseMap
  cases reads with
  | nil => rfl
  | ill hnext reads =>
    rw [Rt.caseLoop, hnext, rewritten, ← reads.caseLoop rest]
    rfl
  | rune scalar reads =>
    rw [caseLoop_put scalar, rewritten, reads.caseLoop rest]
    rfl

/-! ### Lengths -/

variable {ps : List (UInt8 ⊕ Nat)} {s : Bytes} {first rest lo ti : Nat → Nat} {r : Nat} {a : UInt8}
  {ws : List Bytes}

theorem Reads.flatMap_length (reads : Reads s ps) {f : Nat → Nat}
    (table : IsTable f) : 2 * (ps.flatMap (rewrite f)).length ≤ 3 * s.length := by
  induction reads with
  | nil => exact Nat.le_refl 0
  | ill _ _ ih =>
    simp only [flatMap_cons, rewrite, length_append, length_cons, length_nil]
    omega
  | @rune r _ _ scalar _ ih =>
    have grown := (table r scalar).2
    simp only [flatMap_cons, rewrite, length_append]
    omega

theorem Reads.rewritten_length (reads : Reads s ps)
    (hfirst : IsTable first) (hrest : IsTable rest) :
    2 * (rewritten first rest ps).length ≤ 3 * s.length := by
  cases reads with
  | nil => exact Nat.le_refl 0
  | ill _ reads =>
    have others := reads.flatMap_length hrest
    simp only [rewritten, rewrite, length_append, length_cons, length_nil]
    omega
  | @rune r _ _ scalar reads =>
    have grown := (hfirst r scalar).2
    have others := reads.flatMap_length hrest
    simp only [rewritten, rewrite, length_append]
    omega

theorem caseMap_length (hfirst : IsTable first) (hrest : IsTable rest) (s : Bytes) :
    2 * (caseMap first rest s).length ≤ 3 * s.length := by
  obtain ⟨ps, reads⟩ := reads_exists s
  rw [reads.caseMap]
  exact reads.rewritten_length hfirst hrest

theorem join_map_length {f : Bytes → Bytes} (hf : ∀ w, 2 * (f w).length ≤ 3 * w.length) (ws : List Bytes) :
    2 * (join [32] (ws.map f)).length ≤ 3 * (join [32] ws).length := by
  induction ws with
  | nil => exact Nat.le_refl 0
  | cons w ws ih =>
    cases ws with
    | nil => exact hf w
    | cons v ws =>
      have word := hf w
      simp only [map_cons, join, length_append] at ih ⊢
      omega

/-- The words and a space between any two fit into the string. -/
theorem join_fieldsOf_length (s : Bytes) :
    (join [32] (fieldsOf s)).length ≤ (s.dropWhile isSpaceC).length := by
  fun_induction fieldsOf s with
  | case1 s h =>
    rw [h]
    exact Nat.le_refl 0
  | case2 s a t h ih =>
    rw [h]
    have parts := congrArg List.length (takeWhile_append_dropWhile (p := (!isSpaceC ·)) (l := a :: t))
    rw [length_append] at parts
    cases hrest : (a :: t).dropWhile (!isSpaceC ·) with
    | nil =>
      rw [fieldsOf, dropWhile_nil]
      exact (List.takeWhile_prefix _).length_le
    | cons c r =>
      have space : isSpaceC c = true := by
        have first := head_dropWhile_not (!isSpaceC ·) (hrest ▸ cons_ne_nil c r)
        simpa [hrest] using first
      rw [hrest, dropWhile_cons_of_pos space] at ih
      have shorter : (r.dropWhile isSpaceC).length ≤ r.length := length_dropWhile_le ..
      rw [hrest] at parts
      cases hwords : fieldsOf (c :: r) with
      | nil => exact (List.takeWhile_prefix _).length_le
      | cons w ws =>
        rw [hwords] at ih
        simp only [join, length_append, length_cons, length_nil] at parts ⊢
        omega

theorem title_length (hti : IsTable ti) (hlo : IsTable lo) (s : Bytes) :
    2 * (title ti lo s).length ≤ 3 * s.length := by
  have mapped := join_map_length (caseMap_length hti hlo) (fieldsOf s)
  have words := join_fieldsOf_length s
  have shorter : (s.dropWhile isSpaceC).length ≤ s.length := length_dropWhile_le ..
  unfold title
  omega

/-! ### Words -/

/-- The piece is a space. -/
def blank : UInt8 ⊕ Nat → Bool
  | .inl _ => false
  | .inr r => r == 32 || (9 ≤ r && r ≤ 13)

/-- The runs of pieces between spaces. -/
def wordsOf (ps : List (UInt8 ⊕ Nat)) : List (List (UInt8 ⊕ Nat)) := (ps.splitOnP blank).filter (!·.isEmpty)

theorem isSpaceC_iff (c : UInt8) : isSpaceC c = true ↔ c.toNat = 32 ∨ 9 ≤ c.toNat ∧ c.toNat ≤ 13 := by
  revert c
  exact uint8_all (by decide +kernel)

theorem blank_iff (r : Nat) : blank (.inr r) = true ↔ r = 32 ∨ 9 ≤ r ∧ r ≤ 13 := by simp [blank]

theorem not_space {c : UInt8} (h : 0x80 ≤ c.toNat) : isSpaceC c = false := by
  rw [← Bool.not_eq_true, isSpaceC_iff]
  omega

theorem utf8Put_high (h : Scalar r) (high : 0x80 ≤ r) : ∀ b ∈ utf8Put r, 0x80 ≤ b.toNat := by
  have lead : ∀ {k x : Nat}, 0x80 ≤ k → k + x < 256 → 0x80 ≤ (UInt8.ofNat (k + x)).toNat := by
    intro k x hk small
    rw [toNat_ofNat small]
    omega
  have top : r < 0x110000 := by
    unfold Scalar at h
    omega
  by_cases h2 : r < 0x800
  · rw [utf8Put_two high h2]
    simp only [forall_mem_cons]
    exact ⟨lead (by omega) (by omega), lead (by omega) (by omega), nofun⟩
  by_cases h3 : r < 0x10000
  · rw [utf8Put_three (by omega) h3]
    simp only [forall_mem_cons]
    exact ⟨lead (by omega) (by omega), lead (by omega) (by omega), lead (by omega) (by omega), nofun⟩
  · rw [utf8Put_four (by omega) top]
    simp only [forall_mem_cons]
    exact ⟨lead (by omega) (by omega), lead (by omega) (by omega), lead (by omega) (by omega),
      lead (by omega) (by omega), nofun⟩

theorem blank_put (h : blank (.inr r) = true) : ∃ c, utf8Put r = [c] ∧ isSpaceC c = true := by
  rw [blank_iff] at h
  refine ⟨UInt8.ofNat r, utf8Put_one (by omega), ?_⟩
  rw [isSpaceC_iff, toNat_ofNat (by omega)]
  exact h

theorem not_blank_put (scalar : Scalar r) (h : blank (.inr r) = false) :
    ∀ b ∈ utf8Put r, isSpaceC b = false := by
  by_cases high : 0x80 ≤ r
  · intro b hb
    exact not_space (utf8Put_high scalar high b hb)
  · rw [utf8Put_one (by omega)]
    rw [← Bool.not_eq_true, blank_iff] at h
    simp only [mem_singleton, forall_eq]
    rw [← Bool.not_eq_true, isSpaceC_iff, toNat_ofNat (by omega)]
    exact h

theorem ill_high (h : utf8Next a s = none) : 0x80 ≤ a.toNat := by
  by_contra low
  have ascii : a < 0x80 := UInt8.lt_iff_toNat_lt.mpr (Nat.lt_of_not_le low)
  rw [utf8Next, if_pos ascii] at h
  cases h

/-- A byte that begins no sequence begins none in front of less. -/
theorem ill_of_append {x y : Bytes} (h : utf8Next a (x ++ y) = none) : utf8Next a x = none := by
  cases hnext : utf8Next a x with
  | none => rfl
  | some p =>
    obtain ⟨scalar, rest, same, -⟩ := utf8Next_put hnext
    cases put : utf8Put p.1 with
    | nil => exact absurd put (utf8Put_ne_nil p.1)
    | cons b t =>
      rw [put, cons_append] at same
      obtain ⟨rfl, rfl⟩ := List.cons.inj same
      rw [append_assoc, utf8Next_of_put scalar put] at h
      cases h

theorem Reads.skipBlank (reads : Reads s ps) :
    Reads (s.dropWhile isSpaceC) (ps.dropWhile blank) := by
  induction reads with
  | nil => exact .nil
  | @ill a s ps hnext reads ih =>
    rw [dropWhile_cons_of_neg (by simp [not_space (ill_high hnext)]),
      dropWhile_cons_of_neg (by simp [blank])]
    exact .ill hnext reads
  | @rune r s ps scalar reads ih =>
    cases space : blank (.inr r) with
    | true =>
      obtain ⟨c, put, hc⟩ := blank_put space
      rw [put, singleton_append, dropWhile_cons_of_pos hc, dropWhile_cons_of_pos space]
      exact ih
    | false =>
      have none := not_blank_put scalar space
      rw [dropWhile_cons_of_neg (by simp [space])]
      cases put : utf8Put r with
      | nil => exact absurd put (utf8Put_ne_nil r)
      | cons b t =>
        rw [put] at none
        rw [cons_append, dropWhile_cons_of_neg (by simp [none b mem_cons_self]),
          ← cons_append, ← put]
        exact .rune scalar reads

theorem Reads.takeWord (reads : Reads s ps) :
    Reads (s.takeWhile (!isSpaceC ·)) (ps.takeWhile (!blank ·)) := by
  induction reads with
  | nil => exact .nil
  | @ill a s ps hnext reads ih =>
    rw [takeWhile_cons_of_pos (by simp [not_space (ill_high hnext)]),
      takeWhile_cons_of_pos (by simp [blank])]
    refine .ill (ill_of_append (y := s.dropWhile (!isSpaceC ·)) ?_) ih
    rwa [takeWhile_append_dropWhile]
  | @rune r s ps scalar reads ih =>
    cases space : blank (.inr r) with
    | true =>
      obtain ⟨c, put, hc⟩ := blank_put space
      rw [put, singleton_append, takeWhile_cons_of_neg (by simp [hc]),
        takeWhile_cons_of_neg (by simp [space])]
      exact .nil
    | false =>
      have none := not_blank_put scalar space
      rw [takeWhile_cons_of_pos (by simp [space]),
        takeWhile_append_of_pos (fun b hb => by simp [none b hb])]
      exact .rune scalar ih

theorem Reads.skipWord (reads : Reads s ps) :
    Reads (s.dropWhile (!isSpaceC ·)) (ps.dropWhile (!blank ·)) := by
  induction reads with
  | nil => exact .nil
  | @ill a s ps hnext reads ih =>
    rw [dropWhile_cons_of_pos (by simp [not_space (ill_high hnext)]),
      dropWhile_cons_of_pos (by simp [blank])]
    exact ih
  | @rune r s ps scalar reads ih =>
    cases space : blank (.inr r) with
    | true =>
      have whole := Reads.rune scalar reads
      obtain ⟨c, put, hc⟩ := blank_put space
      rw [put, singleton_append] at whole ⊢
      rw [dropWhile_cons_of_neg (by simp [hc]), dropWhile_cons_of_neg (by simp [space])]
      exact whole
    | false =>
      have none := not_blank_put scalar space
      rw [dropWhile_cons_of_pos (by simp [space]),
        dropWhile_append_of_pos (fun b hb => by simp [none b hb])]
      exact ih

theorem wordsOf_skipBlank (ps : List (UInt8 ⊕ Nat)) : wordsOf (ps.dropWhile blank) = wordsOf ps :=
  Lib.wordsBy_dropWhile ps

theorem wordsOf_word {p : UInt8 ⊕ Nat} (h : blank p = false) (ps : List (UInt8 ⊕ Nat)) :
    wordsOf (p :: ps) =
      (p :: ps).takeWhile (!blank ·) :: wordsOf ((p :: ps).dropWhile (!blank ·)) :=
  Lib.wordsBy_word h ps

theorem Reads.eq_nil_iff (reads : Reads s ps) : s = [] ↔ ps = [] := by
  cases reads with
  | nil => exact ⟨fun _ => rfl, fun _ => rfl⟩
  | ill => exact ⟨nofun, nofun⟩
  | @rune r s ps scalar reads =>
    refine ⟨fun h => ?_, nofun⟩
    exact absurd (append_eq_nil_iff.mp h).1 (utf8Put_ne_nil r)

/-- The words of a string are the runs of its pieces between spaces. -/
theorem fieldsOf_reads (reads : Reads s ps) : List.Forall₂ Reads (fieldsOf s) (wordsOf ps) := by
  fun_induction fieldsOf s generalizing ps with
  | case1 s h =>
    have skipped := reads.skipBlank
    rw [h] at skipped
    rw [← wordsOf_skipBlank, skipped.eq_nil_iff.mp rfl]
    exact .nil
  | case2 s a t h ih =>
    have skipped := reads.skipBlank
    rw [h] at skipped
    rw [← wordsOf_skipBlank]
    cases hskip : ps.dropWhile blank with
    | nil =>
      rw [hskip] at skipped
      cases skipped.eq_nil_iff.mpr rfl
    | cons q qs =>
      have word : blank q = false := by
        have first := head_dropWhile_not blank (hskip ▸ cons_ne_nil q qs)
        simpa [hskip] using first
      rw [hskip] at skipped
      rw [wordsOf_word word]
      exact .cons skipped.takeWord (ih skipped.skipWord)

theorem map_caseMap {pss : List (List (UInt8 ⊕ Nat))} (reads : List.Forall₂ Reads ws pss)
    (first rest : Nat → Nat) : ws.map (caseMap first rest) = pss.map (rewritten first rest) := by
  induction reads with
  | nil => rfl
  | cons here _ ih => rw [map_cons, map_cons, here.caseMap, ih]

/-- `title` goes piece by piece as well, with one space between words. -/
theorem Reads.title {s : Bytes} {ps : List (UInt8 ⊕ Nat)} (reads : Reads s ps) (ti lo : Nat → Nat) :
    title ti lo s = join [32] ((wordsOf ps).map (rewritten ti lo)) := by
  unfold Str.title
  rw [map_caseMap (fieldsOf_reads reads)]

/-! ### Valid strings -/

theorem Encoded.append {s t : Bytes} (hs : Encoded s) (ht : Encoded t) : Encoded (s ++ t) := by
  obtain ⟨rs, hrs, rfl⟩ := hs
  obtain ⟨qs, hqs, rfl⟩ := ht
  refine ⟨rs ++ qs, ?_, flatMap_append.symm⟩
  intro r hr
  exact (mem_append.mp hr).elim (hrs r) (hqs r)

theorem encoded_put (h : Scalar r) : Encoded (utf8Put r) :=
  ⟨[r], forall_mem_singleton.mpr h, (append_nil _).symm⟩

theorem encoded_nil : Encoded [] := ⟨[], nofun, rfl⟩

/-- The piece is a character. -/
def IsRune (p : UInt8 ⊕ Nat) : Prop := ∃ r, Scalar r ∧ p = .inr r

theorem Encoded.reads {s : Bytes} (h : Encoded s) : ∃ ps, Reads s ps ∧ ∀ p ∈ ps, IsRune p := by
  obtain ⟨rs, all, rfl⟩ := h
  induction rs with
  | nil => exact ⟨[], .nil, nofun⟩
  | cons r rs ih =>
    obtain ⟨scalar, all⟩ := forall_mem_cons.mp all
    obtain ⟨ps, reads, runes⟩ := ih all
    exact ⟨.inr r :: ps, .rune scalar reads, forall_mem_cons.mpr ⟨⟨r, scalar, rfl⟩, runes⟩⟩

theorem encoded_rewritten (hfirst : IsTable first) (hrest : IsTable rest)
    (runes : ∀ p ∈ ps, IsRune p) : Encoded (rewritten first rest ps) := by
  have piece : ∀ {f : Nat → Nat} {p : UInt8 ⊕ Nat}, IsTable f → IsRune p → Encoded (rewrite f p) := by
    intro f p table hp
    obtain ⟨r, scalar, rfl⟩ := hp
    exact encoded_put (table r scalar).1
  have others : ∀ qs : List (UInt8 ⊕ Nat), (∀ p ∈ qs, IsRune p) → Encoded (qs.flatMap (rewrite rest)) := by
    intro qs all
    induction qs with
    | nil => exact encoded_nil
    | cons q qs ih =>
      obtain ⟨here, all⟩ := forall_mem_cons.mp all
      rw [flatMap_cons]
      exact (piece hrest here).append (ih all)
  cases ps with
  | nil => exact encoded_nil
  | cons p ps =>
    obtain ⟨here, runes⟩ := forall_mem_cons.mp runes
    exact (piece hfirst here).append (others ps runes)

theorem encoded_join (h : ∀ w ∈ ws, Encoded w) : Encoded (join [32] ws) := by
  have space : Encoded [32] := encoded_put (r := 32) (.inl (by decide))
  induction ws with
  | nil => exact encoded_nil
  | cons w ws ih =>
    obtain ⟨here, others⟩ := forall_mem_cons.mp h
    cases ws with
    | nil => exact here
    | cons v ws => exact (here.append space).append (ih others)

theorem mem_splitOnP {α : Type} {f : α → Bool} {l part : List α} {x : α} (hpart : part ∈ l.splitOnP f)
    (hx : x ∈ part) : x ∈ l := by
  induction l generalizing part with
  | nil =>
    rw [splitOnP_nil, mem_singleton] at hpart
    exact hpart ▸ hx
  | cons a l ih =>
    rw [splitOnP_cons_eq_if_modifyHead] at hpart
    split at hpart
    · rcases mem_cons.mp hpart with rfl | hpart
      · cases hx
      · exact mem_cons_of_mem a (ih hpart hx)
    · cases hsplit : l.splitOnP f with
      | nil => exact absurd hsplit (splitOnP_ne_nil f l)
      | cons first others =>
        rw [hsplit] at ih hpart
        rcases mem_cons.mp hpart with rfl | hpart
        · rcases mem_cons.mp hx with rfl | hx
          · exact mem_cons_self
          · exact mem_cons_of_mem a (ih mem_cons_self hx)
        · exact mem_cons_of_mem a (ih (mem_cons_of_mem first hpart) hx)

theorem encoded_title (hti : IsTable ti) (hlo : IsTable lo) (h : Encoded s) :
    Encoded (title ti lo s) := by
  obtain ⟨ps, reads, runes⟩ := h.reads
  rw [reads.title]
  refine encoded_join fun w hw => ?_
  obtain ⟨word, hword, rfl⟩ := mem_map.mp hw
  refine encoded_rewritten hti hlo fun p hp => runes p ?_
  exact mem_splitOnP (mem_filter.mp hword).1 hp

/-! ### The promise -/

/-- `f` makes at most `2n + 4` bytes, goes by the pieces of the string as `g` has it, and keeps it valid. -/
structure Rewrites (f : Bytes → Bytes) (g : List (UInt8 ⊕ Nat) → Bytes) : Prop where
  length : ∀ s, (f s).length ≤ 2 * s.length + 4
  pieces : ∀ {s ps}, Reads s ps → f s = g ps
  valid : ∀ s, validUtf8 s = true → validUtf8 (f s) = true

theorem caseMap_rewrites (hfirst : IsTable first) (hrest : IsTable rest) :
    Rewrites (caseMap first rest) (rewritten first rest) where
  length s := by
    have bound := caseMap_length hfirst hrest s
    omega
  pieces reads := reads.caseMap first rest
  valid s valid := by
    obtain ⟨ps, reads, runes⟩ := ((validUtf8_iff s).mp valid).reads
    rw [validUtf8_iff, reads.caseMap]
    exact encoded_rewritten hfirst hrest runes

theorem title_rewrites (hti : IsTable ti) (hlo : IsTable lo) :
    Rewrites (title ti lo) (fun ps => join [32] ((wordsOf ps).map (rewritten ti lo))) where
  length s := by
    have bound := title_length hti hlo s
    omega
  pieces reads := reads.title ti lo
  valid s valid := (validUtf8_iff _).mpr (encoded_title hti hlo ((validUtf8_iff s).mp valid))

/-- `utf8_next` and `utf8_put` have the sequences of the table, `valid_utf8` the strings of encodings; and
`upper`, `lower` and `title`, which maps each word with `case_map`, keep to the length of their buffers, copy
what begins no sequence, map every character, and keep valid strings valid. -/
theorem utf8_sound {up lo ti : Nat → Nat} (hup : IsTable up) (hlo : IsTable lo) (hti : IsTable ti) :
    (∀ a s r n, utf8Next a s = some (r, n) ↔
      ∃ seq rest, a :: s = seq ++ rest ∧ WellFormed seq ∧ Scalar r ∧ utf8Put r = seq ∧ seq.length = n) ∧
    (∀ r, Scalar r → ∃ a t, utf8Put r = a :: t ∧
      ∀ rest, utf8Next a (t ++ rest) = some (r, (utf8Put r).length)) ∧
    (∀ s, validUtf8 s = true ↔ ∃ rs : List Nat, (∀ r ∈ rs, Scalar r) ∧ s = rs.flatMap utf8Put) ∧
    (∀ s, ∃ ps, Reads s ps) ∧
    Rewrites (upperLower up) (List.flatMap (rewrite up)) ∧
    Rewrites (upperLower lo) (List.flatMap (rewrite lo)) ∧
    Rewrites (caseMap ti lo) (rewritten ti lo) ∧
    Rewrites (title ti lo) (fun ps => join [32] ((wordsOf ps).map (rewritten ti lo))) := by
  have both : ∀ {f : Nat → Nat}, IsTable f → Rewrites (upperLower f) (List.flatMap (rewrite f)) := by
    intro f table
    rw [← funext (rewritten_self f)]
    exact caseMap_rewrites table table
  refine ⟨utf8Next_iff, ?_, validUtf8_iff, reads_exists, both hup, both hlo, caseMap_rewrites hti hlo,
    title_rewrites hti hlo⟩
  intro r scalar
  cases put : utf8Put r with
  | nil => exact absurd put (utf8Put_ne_nil r)
  | cons a t => exact ⟨a, t, rfl, utf8Next_of_put scalar put⟩

/-- The upper case of the Latin letters, and of U+0250, whose encoding grows. -/
def latinUpper (r : Nat) : Nat := if r = 0x250 then 0x2C6F else if 0x61 ≤ r ∧ r ≤ 0x7A then r - 32 else r

theorem latinUpper_table : IsTable latinUpper := by
  intro r scalar
  unfold Scalar at scalar
  rw [utf8Put_length, utf8Put_length]
  unfold latinUpper Scalar putLength
  split_ifs <;> omega

theorem utf8_sound_two_words : let s : Bytes := [0x20, 0xC9, 0x90, 0x42, 0x0A, 0xFF, 0x63]
    title latinUpper ucLower s = [0xE2, 0xB1, 0xAF, 0x62, 0x20, 0xFF, 0x63] ∧
      (title latinUpper ucLower s).length ≤ 2 * s.length + 4 := by
  refine ⟨?_, (utf8_sound latinUpper_table ucLower_table latinUpper_table).2.2.2.2.2.2.2.length _⟩
  have words : fieldsOf [0x20, 0xC9, 0x90, 0x42, 0x0A, 0xFF, 0x63] = [[0xC9, 0x90, 0x42], [0xFF, 0x63]] := by
    rw [fieldsOf]
    show _ :: fieldsOf [0x0A, 0xFF, 0x63] = _
    rw [fieldsOf]
    show _ :: _ :: fieldsOf [] = _
    rw [fieldsOf]
    rfl
  show title _ _ [0x20, 0xC9, 0x90, 0x42, 0x0A, 0xFF, 0x63] = _
  rw [title, words]
  decide +kernel

end Voila.Str
