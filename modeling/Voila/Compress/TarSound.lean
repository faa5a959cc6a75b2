import Voila.Compress.Tar
import Voila.Http.TextSound
import Voila.Lib.Layout

/-!
# Voila.Compress.TarSound

A written archive is read back member by member (`readLoop_written`): a header gives the fields it was
written with, a name being cut at its first NUL (`TarEntry.seen`). So exactly the archives whose names and
link targets have no NUL are read back as they were written, within the limit of the reader
(`tarRead_written_iff`).
-/

open List

namespace Voila.Compress

open Voila.Rt (Bytes)
open Voila.Rt.Json (ch)
open Voila.Http (Fail Past errf lit bind_of bind_eq_ok errf_ne_ok)
open Voila.Lib (drop_field drop_succ take_field get_field field_fits)

/-! ### Octal fields -/

/-- A field of an octal number, as the reader needs it: it starts with a digit. -/
structure IsOctal (n : Nat) (v : Int) (f : Bytes) : Prop where
  length : f.length = n
  head : ∀ c ∈ f.head?, c < 128 ∧ c ≠ 32 ∧ c ≠ 0
  reads : octalLoop 0 f = some v

/-- A byte that is an octal digit. -/
def IsOctDigit (c : UInt8) : Prop := 48 ≤ c ∧ c ≤ 55

variable {c typ : UInt8} {v max total : Int} {n i pos : Nat}
  {lead name short back front data bs : Bytes} {e : TarEntry} {out es : List TarEntry}

theorem IsOctDigit.not_end (h : IsOctDigit c) : ¬ (c = 32 ∨ c = 0) := by
  intro ends
  obtain ⟨low, -⟩ := h
  cases ends with
  | inl blank => rw [blank] at low; revert low; decide
  | inr nul => rw [nul] at low; revert low; decide

theorem IsOctDigit.not_other (h : IsOctDigit c) : ¬ (c < 48 ∨ 55 < c) := by
  intro other
  cases other with
  | inl low => exact UInt8.not_le.mpr low h.1
  | inr high => exact UInt8.not_le.mpr high h.2

/-- The loop reads digits up to their end. -/
theorem octalLoop_digits {p : Bytes} (digits : ∀ c ∈ p, IsOctDigit c) (n : Nat) (e : UInt8) (post : Bytes)
    (ends : e = 32 ∨ e = 0) :
    octalLoop n (p ++ e :: post) = some ((p.foldl (fun v c => v * 8 + (c.toNat - 48)) n : Nat) : Int) := by
  induction p generalizing n with
  | nil =>
    rw [nil_append, octalLoop, if_pos ends]
    rfl
  | cons c p ih =>
    obtain ⟨digit, rest⟩ := forall_mem_cons.mp digits
    rw [cons_append, octalLoop, if_neg digit.not_end, if_neg digit.not_other, foldl_cons,
      ← ih rest]
    congr 1
    have low : 48 ≤ c.toNat := digit.1
    push_cast [low]
    ring

theorem octDigit_of {x : Nat} (h : x < 8) :
    IsOctDigit (48 + UInt8.ofNat x) ∧ (48 + UInt8.ofNat x).toNat - 48 = x := by
  unfold IsOctDigit
  revert x
  decide

theorem printOct_digits (n : Nat) : ∀ c ∈ printOct n, IsOctDigit c := by
  intro c hc
  unfold printOct at hc
  split at hc
  · rw [mem_singleton.mp hc]
    exact (octDigit_of (x := 0) (by decide)).1
  · obtain ⟨x, hx, rfl⟩ := mem_map.mp hc
    exact (octDigit_of (Nat.digits_lt_base (by decide) (mem_reverse.mp hx))).1

theorem printOct_ne_nil (n : Nat) : printOct n ≠ [] := by
  unfold printOct
  split
  · exact cons_ne_nil _ _
  · next nonzero =>
      intro none
      rw [map_eq_nil_iff, reverse_eq_nil_iff, Nat.digits_eq_nil_iff_eq_zero] at none
      exact nonzero none

theorem printOct_length {n k : Nat} (pos : 0 < k) (h : n < 8 ^ k) : (printOct n).length ≤ k := by
  unfold printOct
  split
  · exact pos
  · rw [length_map, length_reverse]
    exact (Nat.digits_length_le_iff (by decide) n).mpr h

/-- The digits of a number say it. -/
theorem printOct_value (n : Nat) : (printOct n).foldl (fun v c => v * 8 + (c.toNat - 48)) 0 = n := by
  unfold printOct
  split
  · next zero => rw [zero]; rfl
  · conv_rhs => rw [← Nat.ofDigits_digits 8 n]
    have lt : ∀ x ∈ Nat.digits 8 n, x < 8 := fun x hx => Nat.digits_lt_base (by decide) hx
    generalize Nat.digits 8 n = ds at lt
    induction ds with
    | nil => rfl
    | cons x ds ih =>
      obtain ⟨digit, rest⟩ := forall_mem_cons.mp lt
      rw [reverse_cons, map_append, foldl_append, ih rest, map_singleton,
        foldl_cons, foldl_nil, (octDigit_of digit).2, Nat.ofDigits_cons]
      ring

theorem leadingZeros_value (k : Nat) :
    (List.replicate k (ch '0')).foldl (fun v c => v * 8 + (c.toNat - 48)) 0 = 0 := by
  induction k with
  | zero => rfl
  | succ k ih =>
    rw [replicate_succ, foldl_cons]
    exact ih

/-- Digits with leading zeros, and what ends them. -/
theorem isOctal_of {k n v : Nat} {e : UInt8} {post : Bytes} (ends : e = 32 ∨ e = 0)
    (length : k + (printOct v).length + (post.length + 1) = n) :
    IsOctal n v (List.replicate k (ch '0') ++ printOct v ++ e :: post) := by
  have digits : ∀ c ∈ List.replicate k (ch '0') ++ printOct v, IsOctDigit c := by
    intro c hc
    cases mem_append.mp hc with
    | inl zero =>
      rw [(mem_replicate.mp zero).2]
      exact (octDigit_of (x := 0) (by decide)).1
    | inr digit => exact printOct_digits v c digit
  refine ⟨?_, ?_, ?_⟩
  · rw [length_append, length_append, length_replicate, length_cons]
    exact length
  · intro c hc
    have first : c ∈ List.replicate k (ch '0') ++ printOct v := by
      cases hp : List.replicate k (ch '0') ++ printOct v with
      | nil => exact absurd (append_eq_nil_iff.mp hp).2 (printOct_ne_nil v)
      | cons d p =>
        rw [hp, cons_append, head?_cons, Option.mem_some_iff] at hc
        rw [hc]
        exact mem_cons_self
    have digit := digits c first
    exact ⟨UInt8.lt_of_le_of_lt digit.2 (by decide), fun blank => digit.not_end (Or.inl blank),
      fun nul => digit.not_end (Or.inr nul)⟩
  · have reads := octalLoop_digits digits 0 e post ends
    rw [foldl_append, leadingZeros_value, printOct_value] at reads
    exact reads

/-- An octal field is read at its place. -/
theorem tarOctal_of {b f post what : Bytes} {off n : Nat} (octal : IsOctal n v f) (some_ : 0 < n)
    (h : b.drop off = f ++ post) : tarOctal b off n what = .ok v := by
  obtain ⟨c, f', rfl⟩ : ∃ c f', f = c :: f' := by
    cases f with
    | nil =>
      have := octal.length
      rw [length_nil] at this
      omega
    | cons c f' => exact ⟨c, f', rfl⟩
  obtain ⟨ascii, blank, nul⟩ := octal.head c rfl
  have first : b.getD off 0 = c := by
    rw [getD_eq_getElem?_getD, get_field h]
    rfl
  have kept : ((c :: f').dropWhile fun c => c == 32 || c == 0) = c :: f' := by
    rw [dropWhile_cons_of_neg]
    rw [Bool.or_eq_true, beq_iff_eq, beq_iff_eq]
    exact fun ends => ends.elim blank nul
  unfold tarOctal
  rw [first, if_neg (UInt8.not_le.mpr ascii), take_field h octal.length, kept, octal.reads]

theorem octalField_ok {what f : Bytes} (some_ : 0 < n)
    (h : octalField v n what = .ok f) : IsOctal n v f := by
  unfold octalField at h
  split at h
  · exact absurd h (errf_ne_ok _ f)
  · next nonneg =>
      dsimp only at h
      split at h
      · exact absurd h (errf_ne_ok _ f)
      · next fits =>
          cases h
          obtain ⟨m, rfl⟩ : ∃ m : Nat, v = m := ⟨v.toNat, by omega⟩
          exact isOctal_of (Or.inr rfl) (by rw [length_nil, Int.toNat_natCast] at *; omega)

theorem sumText_octal {sum : Nat} (h : sum < 8 ^ 6) : IsOctal 8 sum (sumText sum) := by
  have short := printOct_length (by decide) h
  exact isOctal_of (Or.inr rfl) (by rw [length_singleton]; omega)

/-! ### Texts up to a NUL -/

theorem cstr_zeros (s : Bytes) (n : Nat) : cstr (s ++ zeros n) = cstr s := by
  unfold cstr zeros
  rw [takeWhile_append]
  split
  · have none : (List.replicate n (0 : UInt8)).takeWhile (· != 0) = [] := by
      cases n with
      | zero => rfl
      | succ n => rfl
    rw [none, append_nil]
    next all => exact (List.IsPrefix.eq_of_length (List.takeWhile_prefix _) all).symm
  · rfl

theorem zero_not_mem_cstr (s : Bytes) : 0 ∉ cstr s := by
  intro nul
  have := mem_takeWhile_imp nul
  exact absurd this (by decide)

theorem cstr_eq_iff (s : Bytes) : cstr s = s ↔ 0 ∉ s := by
  constructor
  · intro kept
    rw [← kept]
    exact zero_not_mem_cstr s
  · intro clean
    unfold cstr
    rw [takeWhile_eq_self_iff]
    intro c hc
    rw [bne_iff_ne]
    intro nul
    exact clean (nul ▸ hc)

theorem field_ok {s f what : Bytes} (h : field s n what = .ok f) :
    f = s ++ zeros (n - s.length) ∧ f.length = n := by
  unfold field at h
  split at h
  · exact absurd h (errf_ne_ok _ f)
  · next fits =>
      cases h
      refine ⟨rfl, ?_⟩
      unfold zeros
      rw [length_append, length_replicate]
      omega

/-! ### Names -/

/-- A name in two parts: the parts have a slash between them, and the first may be empty. -/
def joined (lead short : Bytes) : Bytes := if lead ≠ [] then lead ++ ch '/' :: short else short

theorem splitLoop_some (fits : i < name.length)
    (h : splitLoop name i = some (lead, short)) : lead ≠ [] ∧ name = lead ++ ch '/' :: short := by
  induction i with
  | zero => cases h
  | succ i ih =>
    rw [splitLoop] at h
    split at h
    · next here =>
        cases h
        refine ⟨?_, ?_⟩
        · intro none
          have length := congrArg List.length none
          rw [length_take, length_nil] at length
          omega
        · obtain ⟨bound, slash⟩ := List.getElem?_eq_some_iff.mp here.1
          conv_lhs => rw [← take_append_drop (i + 1) name]
          rw [drop_eq_getElem_cons bound, slash]
    · exact ih (by omega) h

theorem splitName_ok (h : splitName name = .ok (lead, short)) : name = joined lead short := by
  unfold splitName at h
  split at h
  · exact absurd h (errf_ne_ok _ _)
  · split at h
    · cases h
      rfl
    · next some_ long =>
        split at h
        · next parts found =>
            cases h
            obtain ⟨nonempty, cut⟩ := splitLoop_some (by omega) found
            unfold joined
            rw [if_pos nonempty]
            exact cut
        · exact absurd h (errf_ne_ok _ _)

/-- The name that a member is written under. -/
def TarEntry.fullName (e : TarEntry) : Bytes :=
  if e.kind = lit "dir" ∧ e.name.getLast? ≠ some (ch '/') then e.name ++ [ch '/'] else e.name

/-- The entry that was written. -/
def TarEntry.written (e : TarEntry) : TarEntry := { e with name := e.fullName }

/-- The name that is read for a written one. -/
def seenName (name : Bytes) : Bytes :=
  match splitName name with
  | .ok (lead, short) => joined (cstr lead) (cstr short)
  | .error _ => name

/-- The entry that is read for a written one. -/
def TarEntry.seen (e : TarEntry) : TarEntry := { e with name := seenName e.fullName, link := cstr e.link }

theorem zero_mem_joined (lead short : Bytes) : 0 ∈ joined lead short ↔ 0 ∈ lead ∨ 0 ∈ short := by
  unfold joined
  split
  · rw [mem_append, mem_cons]
    exact or_congr_right (or_iff_right (by decide))
  · next empty =>
      rw [ne_eq, not_not] at empty
      rw [empty]
      exact (or_iff_right (not_mem_nil)).symm

theorem seenName_eq_iff (accepted : ∃ parts, splitName name = .ok parts) :
    seenName name = name ↔ 0 ∉ name := by
  obtain ⟨⟨lead, short⟩, split⟩ := accepted
  unfold seenName
  rw [split]
  dsimp only
  constructor
  · intro same
    rw [← same, zero_mem_joined]
    exact fun nul => nul.elim (zero_not_mem_cstr lead) (zero_not_mem_cstr short)
  · intro clean
    rw [splitName_ok split, zero_mem_joined, not_or] at clean
    rw [(cstr_eq_iff lead).mpr clean.1, (cstr_eq_iff short).mpr clean.2]
    exact (splitName_ok split).symm

theorem zero_mem_fullName (e : TarEntry) : 0 ∈ e.fullName ↔ 0 ∈ e.name := by
  unfold TarEntry.fullName
  split
  · rw [mem_append, mem_singleton]
    exact or_iff_left (by decide)
  · rfl

/-- What is read of an entry is the entry that was written, unless a text of it has a NUL. -/
theorem TarEntry.seen_eq_iff (accepted : ∃ parts, splitName e.fullName = .ok parts) :
    e.seen = e.written ↔ 0 ∉ e.name ∧ 0 ∉ e.link := by
  unfold TarEntry.seen TarEntry.written
  rw [TarEntry.mk.injEq, seenName_eq_iff accepted, zero_mem_fullName, cstr_eq_iff]
  constructor
  · intro same
    exact ⟨same.1, same.2.2.2.2.2⟩
  · intro clean
    exact ⟨clean.1, rfl, rfl, rfl, rfl, clean.2⟩

/-! ### Checksums -/

theorem sumLoop_append (sum i : Nat) (a b : Bytes) :
    sumLoop sum i (a ++ b) = sumLoop (sumLoop sum i a) (i + a.length) b := by
  induction a generalizing sum i with
  | nil => rfl
  | cons c a ih =>
    rw [cons_append, sumLoop, ih, sumLoop, length_cons]
    congr 1
    omega

/-- Outside of the checksum field the bytes count. -/
theorem sumLoop_plain (a : Bytes) (sum : Nat) (h : i + a.length ≤ 148 ∨ 156 ≤ i) :
    sumLoop sum i a = sum + (a.map UInt8.toNat).sum := by
  induction a generalizing sum i with
  | nil => rfl
  | cons c a ih =>
    rw [length_cons] at h
    rw [sumLoop, if_neg (by omega), ih _ (by omega), map_cons, sum_cons]
    omega

/-- In the checksum field each byte counts as a blank. -/
theorem sumLoop_field (a : Bytes) (sum : Nat) (h : 148 ≤ i) (h' : i + a.length ≤ 156) :
    sumLoop sum i a = sum + 32 * a.length := by
  induction a generalizing sum i with
  | nil => rfl
  | cons c a ih =>
    rw [length_cons] at h'
    rw [sumLoop, if_pos (by omega), ih _ (by omega) (by omega), length_cons]
    omega

theorem sum_bytes_le (a : Bytes) : (a.map UInt8.toNat).sum ≤ 255 * a.length := by
  induction a with
  | nil => exact Nat.zero_le _
  | cons c a ih =>
    have byte := c.toNat_lt
    rw [map_cons, sum_cons, length_cons]
    omega

/-- A header's checksum, as it is written. -/
def headerSum (front back : Bytes) : Nat := ((front ++ (List.replicate 8 32 ++ back)).map UInt8.toNat).sum

theorem headerSum_eq (front back : Bytes) :
    headerSum front back = (front.map UInt8.toNat).sum + 256 + (back.map UInt8.toNat).sum := by
  unfold headerSum
  rw [map_append, map_append, sum_append, sum_append,
    show ((List.replicate 8 (32 : UInt8)).map UInt8.toNat).sum = 256 from by decide]
  omega

theorem headerSum_octal (hf : front.length = 148) (hb : back.length = 356) :
    IsOctal 8 (headerSum front back) (sumText (headerSum front back)) := by
  have first := sum_bytes_le front
  have last := sum_bytes_le back
  rw [hf] at first
  rw [hb] at last
  refine sumText_octal ?_
  rw [headerSum_eq]
  omega

/-- The checksum of a header agrees with it. -/
theorem checkTarSum_header (hf : front.length = 148) (hb : back.length = 356)
    (pos : Nat) : checkTarSum (front ++ (sumText (headerSum front back) ++ back)) pos = .ok () := by
  have octal := headerSum_octal hf hb
  have place : (front ++ (sumText (headerSum front back) ++ back)).drop 148 =
      sumText (headerSum front back) ++ back := by
    rw [← hf, drop_left]
  have sum : sumLoop 0 0 (front ++ (sumText (headerSum front back) ++ back)) = headerSum front back := by
    rw [sumLoop_append, sumLoop_append, sumLoop_plain front 0 (by omega), hf,
      sumLoop_field (sumText _) _ (by omega) (by rw [octal.length]), octal.length,
      sumLoop_plain back _ (by omega), headerSum_eq]
    omega
  unfold checkTarSum
  refine bind_of (tarOctal_of octal (by decide) place) ?_
  rw [sum, if_neg (fun other => other rfl)]

/-! ### Headers -/

/-- A header block, with what the reader takes from it. -/
structure IsHeader (e : TarEntry) (header : Bytes) : Prop where
  length : header.length = 512
  notZero : isZeroBlock header = false
  sum : ∀ pos, checkTarSum header pos = .ok ()
  typ : header.getD 156 0 ≠ 76 ∧ header.getD 156 0 ≠ 75 ∧ header.getD 156 0 ≠ 120 ∧ header.getD 156 0 ≠ 103
  size : ∀ past, memberSize past header [] = .ok e.data.length
  reads : readMember header e.data [] [] [] = .ok e.seen

theorem readMember_eq {blk body name lead link : Bytes} {mode mtime : Int}
    (hname : blk.take 100 = name) (hlead : (blk.drop 345).take 155 = lead)
    (hmagic : (blk.drop 257).take 5 = lit "ustar") (hlink : (blk.drop 157).take 100 = link)
    (hmode : tarOctal blk 100 8 (lit "mode") = .ok mode)
    (hmtime : tarOctal blk 136 12 (lit "mtime") = .ok mtime) :
    readMember blk body [] [] [] = .ok
      { name := joined (cstr lead) (cstr name)
        data := if tarKind (blk.getD 156 0) = lit "file" then body else []
        kind := tarKind (blk.getD 156 0), mode, mtime, link := cstr link } := by
  unfold readMember
  refine bind_of hmode ?_
  refine bind_of hmtime ?_
  rw [hname, hlead, hmagic, hlink]
  have none : ¬ ([] : Bytes) ≠ [] := fun other => other rfl
  simp only [and_true, if_neg none, lookup_nil, Option.getD_none]
  rfl

/-- The type flags that are written. -/
def IsFlag (typ : UInt8) : Prop := typ = ch '0' ∨ typ = ch '5' ∨ typ = ch '2' ∨ typ = ch '1'

theorem IsFlag.plain (h : IsFlag typ) : typ ≠ 0 ∧ typ ≠ 76 ∧ typ ≠ 75 ∧ typ ≠ 120 ∧ typ ≠ 103 := by
  rcases h with rfl | rfl | rfl | rfl
  all_goals decide

theorem magic_length : (lit "ustar").length = 5 := by decide

/-- A written header block is one that is read. -/
theorem headerParts_isHeader (h : headerParts e lead short e.data.length typ = .ok (front, back))
    (split : splitName e.fullName = .ok (lead, short)) (kind : tarKind typ = e.kind) (flag : IsFlag typ)
    (data : e.kind = lit "file" ∨ e.data = []) :
    IsHeader e (front ++ (sumText (headerSum front back) ++ back)) := by
  unfold headerParts at h
  obtain ⟨name, hname, h⟩ := bind_eq_ok h
  obtain ⟨mode, hmode, h⟩ := bind_eq_ok h
  obtain ⟨uid, huid, h⟩ := bind_eq_ok h
  obtain ⟨gid, hgid, h⟩ := bind_eq_ok h
  obtain ⟨size, hsize, h⟩ := bind_eq_ok h
  obtain ⟨mtime, hmtime, h⟩ := bind_eq_ok h
  obtain ⟨link, hlink, h⟩ := bind_eq_ok h
  obtain ⟨devmajor, hmajor, h⟩ := bind_eq_ok h
  obtain ⟨devminor, hminor, h⟩ := bind_eq_ok h
  obtain ⟨leadField, hlead, h⟩ := bind_eq_ok h
  cases h
  obtain ⟨nameText, nameLength⟩ := field_ok hname
  obtain ⟨linkText, linkLength⟩ := field_ok hlink
  obtain ⟨leadText, leadLength⟩ := field_ok hlead
  have modeField := octalField_ok (by decide) hmode
  have uidField := octalField_ok (by decide) huid
  have gidField := octalField_ok (by decide) hgid
  have sizeField := octalField_ok (by decide) hsize
  have mtimeField := octalField_ok (by decide) hmtime
  have majorField := octalField_ok (by decide) hmajor
  have minorField := octalField_ok (by decide) hminor
  obtain ⟨front, hfront⟩ : ∃ front, front = name ++ (mode ++ (uid ++ (gid ++ (size ++ mtime)))) := ⟨_, rfl⟩
  obtain ⟨back, hback⟩ : ∃ back, back = typ :: (link ++ (lit "ustar" ++ ([0, ch '0', ch '0'] ++
      (zeros (32 + 32) ++ (devmajor ++ (devminor ++ (leadField ++ zeros 12))))))) := ⟨_, rfl⟩
  rw [← hfront, ← hback]
  have frontLength : front.length = 148 := by
    rw [hfront]
    simp only [length_append, nameLength, modeField.length, uidField.length, gidField.length,
      sizeField.length, mtimeField.length]
  have backLength : back.length = 356 := by
    rw [hback]
    simp only [length_append, length_cons, length_nil, linkLength, majorField.length,
      minorField.length, leadLength, magic_length, zeros, length_replicate]
  have chk := headerSum_octal frontLength backLength
  have sum := checkTarSum_header frontLength backLength
  obtain ⟨blk, hblk⟩ : ∃ blk, blk = front ++ (sumText (headerSum front back) ++ back) := ⟨_, rfl⟩
  rw [← hblk] at sum ⊢
  have at0 : blk.drop 0 = name ++ (mode ++ (uid ++ (gid ++ (size ++ (mtime ++
      (sumText (headerSum front back) ++ back)))))) := by
    rw [drop_zero, hblk, hfront]
    simp only [append_assoc]
  have at100 := drop_field at0
  rw [nameLength] at at100
  have at108 := drop_field at100
  rw [modeField.length] at at108
  have at116 := drop_field at108
  rw [uidField.length] at at116
  have at124 := drop_field at116
  rw [gidField.length] at at124
  have at136 := drop_field at124
  rw [sizeField.length] at at136
  have at148 := drop_field at136
  rw [mtimeField.length] at at148
  have at156 := drop_field at148
  rw [chk.length, hback] at at156
  have at157 := drop_succ at156
  have at257 := drop_field at157
  rw [linkLength] at at257
  have at262 := drop_field at257
  rw [magic_length] at at262
  have at265 := drop_field at262
  have at329 := drop_field at265
  rw [show (zeros (32 + 32)).length = 64 from rfl] at at329
  have at337 := drop_field at329
  rw [majorField.length] at at337
  have at345 := drop_field at337
  rw [minorField.length] at at345
  have flagAt : blk.getD 156 0 = typ := by
    rw [getD_eq_getElem?_getD, get_field at156]
    rfl
  have nameAt := take_field at0 nameLength
  rw [drop_zero] at nameAt
  obtain ⟨notNul, notLong, notLink, notPax, notGlobal⟩ := flag.plain
  refine ⟨?_, ?_, sum, ?_, ?_, ?_⟩
  · rw [hblk, length_append, length_append, frontLength, backLength, chk.length]
  · unfold isZeroBlock
    rw [Bool.eq_false_iff]
    intro zero
    have byte := all_eq_true.mp zero typ (mem_of_getElem? (get_field at156))
    exact notNul (beq_iff_eq.mp byte)
  · rw [flagAt]
    exact ⟨notLong, notLink, notPax, notGlobal⟩
  · intro past
    unfold memberSize
    exact bind_of (tarOctal_of sizeField (by decide) at124) rfl
  · rw [readMember_eq nameAt (take_field at345 leadLength) (take_field at257 magic_length)
      (take_field at157 linkLength) (tarOctal_of modeField (by decide) at100)
      (tarOctal_of mtimeField (by decide) at136), flagAt, kind, nameText, linkText, leadText, cstr_zeros,
      cstr_zeros, cstr_zeros]
    unfold TarEntry.seen seenName
    rw [split]
    congr 2
    cases data with
    | inl file => rw [if_pos file]
    | inr none => rw [none, ite_self]

/-! ### Members -/

/-- What `memberHead` gives of an entry that can be written. -/
theorem memberHead_ok {size : Nat} (h : memberHead e = .ok (name, size, typ))
    (noData : ¬ (e.kind ≠ lit "file" ∧ e.data.length > 0)) :
    name = e.fullName ∧ size = e.data.length ∧ tarKind typ = e.kind ∧ IsFlag typ ∧
      (e.kind = lit "file" ∨ e.data = []) := by
  have file_dir : lit "file" ≠ lit "dir" := by decide
  have symlink_dir : lit "symlink" ≠ lit "dir" := by decide
  have link_dir : lit "link" ≠ lit "dir" := by decide
  have empty : e.kind ≠ lit "file" → e.data = [] := by
    intro other
    exact length_eq_zero_iff.mp (Nat.eq_zero_of_not_pos fun some_ => noData ⟨other, some_⟩)
  have sameName : e.kind ≠ lit "dir" → e.name = e.fullName := by
    intro other
    unfold TarEntry.fullName
    rw [if_neg (fun both => other both.1)]
  unfold memberHead at h
  split at h
  · next file =>
      cases h
      exact ⟨sameName (file ▸ file_dir), rfl, by rw [file]; rfl, Or.inl rfl, Or.inl file⟩
  · next other =>
      have none := empty other
      have size : 0 = e.data.length := by rw [none]; rfl
      split at h
      · next dir =>
          cases h
          refine ⟨?_, size, by rw [dir]; rfl, Or.inr (Or.inl rfl), Or.inr none⟩
          unfold TarEntry.fullName
          by_cases slash : e.name.getLast? = some (ch '/')
          · rw [if_pos slash, if_neg (fun both => both.2 slash)]
          · rw [if_neg slash, if_pos ⟨dir, slash⟩]
      · split at h
        · next symlink =>
            cases h
            exact ⟨sameName (symlink ▸ symlink_dir), size, by rw [symlink]; rfl,
              Or.inr (Or.inr (Or.inl rfl)), Or.inr none⟩
        · split at h
          · next link =>
              cases h
              exact ⟨sameName (link ▸ link_dir), size, by rw [link]; rfl, Or.inr (Or.inr (Or.inr rfl)),
                Or.inr none⟩
          · exact absurd h (errf_ne_ok _ _)

/-- A written member: its header, its data and what fills the last block. -/
theorem writeMember_ok {b : Bytes} (h : writeMember e = .ok b) :
    (∃ parts, splitName e.fullName = .ok parts) ∧ ∃ header, IsHeader e header ∧
      b = header ++ (e.data ++ zeros (roundUp e.data.length - e.data.length)) := by
  unfold writeMember at h
  obtain ⟨⟨name, size, typ⟩, head, h⟩ := bind_eq_ok h
  dsimp only at h
  split at h
  · exact absurd h (errf_ne_ok _ b)
  · next noData =>
      obtain ⟨rfl, rfl, kind, flag, data⟩ := memberHead_ok head noData
      obtain ⟨⟨lead, short⟩, split, h⟩ := bind_eq_ok h
      obtain ⟨⟨front, back⟩, parts, h⟩ := bind_eq_ok h
      cases h
      refine ⟨⟨_, split⟩, _, headerParts_isHeader parts split kind flag data, ?_⟩
      rw [append_assoc, append_assoc]
      rfl

theorem le_roundUp (n : Nat) : n ≤ roundUp n := by
  unfold roundUp tarBlock
  omega

/-! ### Archives -/

variable {past : Past}

/-- A turn of `tar_read` over a written member. -/
theorem readLoop_member {data header rest : Bytes} (head : IsHeader e header)
    (h : data.drop pos = header ++ (e.data ++ (zeros (roundUp e.data.length - e.data.length) ++ rest))) :
    readLoop past data max pos total [] [] [] out =
      if max > 0 ∧ total + e.data.length > max then
        errf (lit "compress: tar: members exceed the limit of " ++ Voila.Http.intText max ++ lit " bytes")
      else
        readLoop past data max (pos + (512 + roundUp e.data.length)) (total + e.data.length) [] [] []
          (out ++ [e.seen]) := by
  have whole := field_fits h
  have start := drop_field h
  have bodyFits := field_fits start
  rw [head.length] at whole start bodyFits
  simp only [length_append] at whole bodyFits
  have blk : (data.drop pos).take tarBlock = header := take_field h head.length
  have body : (data.drop (pos + tarBlock)).take (e.data.length : Int).toNat = e.data := take_field start rfl
  have padding : (zeros (roundUp e.data.length - e.data.length)).length =
      roundUp e.data.length - e.data.length := length_replicate
  obtain ⟨notLong, notLink, notPax, notGlobal⟩ := head.typ
  have next : min (pos + tarBlock + roundUp (e.data.length : Int).toNat) data.length =
      pos + (512 + roundUp e.data.length) := by
    rw [Int.toNat_natCast]
    unfold tarBlock
    omega
  rw [readLoop, if_pos (by omega), if_neg (by unfold tarBlock; omega)]
  dsimp only
  rw [blk, head.notZero, if_neg (by decide)]
  refine bind_of (head.sum pos) ?_
  refine bind_of (head.size past) ?_
  rw [if_neg (by unfold tarBlock; omega), body, next, if_neg notLong, if_neg notLink, if_neg notPax,
    if_neg notGlobal]
  split
  · rfl
  · exact bind_of head.reads rfl

/-- The size of all members. -/
def dataSize (es : List TarEntry) : Nat := (es.map fun e => e.data.length).sum

/-- The zero blocks end an archive. -/
theorem readLoop_end
    (h : data.drop pos = zeros (2 * tarBlock)) : readLoop past data max pos total [] [] [] out = .ok out := by
  have length := congrArg List.length h
  rw [length_drop, show (zeros (2 * tarBlock)).length = 1024 from length_replicate] at length
  rw [readLoop, if_pos (by omega), if_neg (by unfold tarBlock; omega)]
  have zero : isZeroBlock ((data.drop pos).take tarBlock) = true := by
    rw [h]
    unfold isZeroBlock
    rw [all_eq_true]
    intro c hc
    rw [beq_iff_eq]
    exact (mem_replicate.mp (mem_of_mem_take hc)).2
  dsimp only
  rw [if_pos zero]

/-- A written archive is read to its end, unless its data passes the limit. -/
theorem readLoop_written {out r : List TarEntry} (written : writeLoop es = .ok bs)
    (h : data.drop pos = bs ++ zeros (2 * tarBlock)) (within : max ≤ 0 ∨ total ≤ max) :
    readLoop past data max pos total [] [] [] out = .ok r ↔
      r = out ++ es.map TarEntry.seen ∧ (max ≤ 0 ∨ total + dataSize es ≤ max) := by
  induction es generalizing bs pos total out with
  | nil =>
    cases written
    rw [readLoop_end h, map_nil, append_nil, Except.ok.injEq, eq_comm,
      show ((dataSize [] : Nat) : Int) = 0 from rfl, add_zero]
    exact (and_iff_left within).symm
  | cons e es ih =>
    rw [writeLoop] at written
    obtain ⟨b, hb, written⟩ := bind_eq_ok written
    obtain ⟨bs', hbs, written⟩ := bind_eq_ok written
    cases written
    obtain ⟨-, header, head, rfl⟩ := writeMember_ok hb
    have place : data.drop pos = header ++ (e.data ++
        (zeros (roundUp e.data.length - e.data.length) ++ (bs' ++ zeros (2 * tarBlock)))) := by
      rw [h]
      simp only [append_assoc]
    have rest : data.drop (pos + (512 + roundUp e.data.length)) = bs' ++ zeros (2 * tarBlock) := by
      have behind := drop_field (drop_field (drop_field place))
      rw [head.length, show (zeros (roundUp e.data.length - e.data.length)).length =
        roundUp e.data.length - e.data.length from length_replicate] at behind
      have := le_roundUp e.data.length
      rwa [show pos + 512 + e.data.length + (roundUp e.data.length - e.data.length) =
        pos + (512 + roundUp e.data.length) from by omega] at behind
    have size : dataSize (e :: es) = e.data.length + dataSize es := by
      unfold dataSize
      rw [map_cons, sum_cons]
    rw [readLoop_member head place, size, map_cons]
    by_cases large : max > 0 ∧ total + e.data.length > max
    · rw [if_pos large]
      exact ⟨fun ok => absurd ok (errf_ne_ok _ r), fun ok => by omega⟩
    · rw [if_neg large, ih hbs rest (by omega), append_assoc]
      exact and_congr_right fun _ => by omega

theorem writeLoop_accepted (h : writeLoop es = .ok bs) :
    ∀ e ∈ es, ∃ parts, splitName e.fullName = .ok parts := by
  induction es generalizing bs with
  | nil => exact fun e he => absurd he not_mem_nil
  | cons e es ih =>
    rw [writeLoop] at h
    obtain ⟨b, hb, h⟩ := bind_eq_ok h
    obtain ⟨bs', hbs, -⟩ := bind_eq_ok h
    exact forall_mem_cons.mpr ⟨(writeMember_ok hb).1, ih hbs⟩

/-- What is read of a written archive. -/
theorem tarRead_ok_iff {bytes : Bytes} (written : tarWrite es = .ok bytes)
    (past : Past) (max : Int) (r : List TarEntry) :
    tarRead past bytes max = .ok r ↔ r = es.map TarEntry.seen ∧ (max = 0 ∨ dataSize es ≤ max) := by
  obtain ⟨bs, hbs, done⟩ := bind_eq_ok written
  cases done
  unfold tarRead checkMax
  by_cases negative : max < 0
  · rw [if_pos negative]
    constructor
    · intro ok
      obtain ⟨_, refused, -⟩ := bind_eq_ok ok
      exact absurd refused (errf_ne_ok _ _)
    · intro within
      omega
  · rw [if_neg negative]
    have reads : readLoop past (bs ++ zeros (2 * tarBlock)) max 0 0 [] [] [] [] = .ok r ↔ _ :=
      readLoop_written hbs rfl (by omega)
    rw [nil_append] at reads
    exact reads.trans (and_congr_right fun _ => by omega)

/-- A written archive is read back as it was written exactly if no name and no link target has a NUL and
the data is within the limit. -/
theorem tarRead_written_iff {es : List TarEntry} {bytes : Bytes} (written : tarWrite es = .ok bytes)
    (past : Past) (max : Int) :
    tarRead past bytes max = .ok (es.map TarEntry.written) ↔
      (∀ e ∈ es, 0 ∉ e.name ∧ 0 ∉ e.link) ∧ (max = 0 ∨ dataSize es ≤ max) := by
  obtain ⟨bs, hbs, -⟩ := bind_eq_ok written
  have same : es.map TarEntry.written = es.map TarEntry.seen ↔ ∀ e ∈ es, 0 ∉ e.name ∧ 0 ∉ e.link := by
    rw [map_inj_left]
    refine forall_congr' fun e => forall_congr' fun he => ?_
    rw [eq_comm]
    exact TarEntry.seen_eq_iff (writeLoop_accepted hbs e he)
  rw [tarRead_ok_iff written, same]

/-- A directory without a slash in its name. -/
def notesDir : TarEntry :=
  { name := [ch 'a'], data := [], kind := lit "dir", mode := 493, mtime := 0, link := [] }

/-- A file with a NUL in its name. -/
def nulFile : TarEntry :=
  { name := [ch 'a', 0, ch 'b'], data := [ch 'x'], kind := lit "file", mode := 420, mtime := 0, link := [] }

theorem exists_of_isSome {α : Type} {x : Except Fail α} (h : x.toOption.isSome = true) : ∃ a, x = .ok a := by
  cases x with
  | error e => cases h
  | ok a => exact ⟨a, rfl⟩

theorem notesDir_read : ∃ bytes, tarWrite [notesDir] = .ok bytes ∧
    tarRead (fun _ => []) bytes 0 = .ok [{ notesDir with name := [ch 'a', ch '/'] }] := by
  obtain ⟨bytes, written⟩ := exists_of_isSome (x := tarWrite [notesDir]) (by decide +kernel)
  refine ⟨bytes, written, ?_⟩
  have dirName : notesDir.written = { notesDir with name := [ch 'a', ch '/'] } := by decide +kernel
  rw [← dirName]
  exact (tarRead_written_iff written (fun _ => []) 0).mpr ⟨by decide, Or.inl rfl⟩

/-- The name of the file is read up to its NUL. -/
theorem nulFile_not_read : ∃ bytes, tarWrite [nulFile] = .ok bytes ∧
    tarRead (fun _ => []) bytes 268435456 ≠ .ok [nulFile.written] := by
  obtain ⟨bytes, written⟩ := exists_of_isSome (x := tarWrite [nulFile]) (by decide +kernel)
  refine ⟨bytes, written, fun read => ?_⟩
  have same := ((tarRead_ok_iff written (fun _ => []) 268435456 _).mp read).1
  revert same
  decide +kernel

end Voila.Compress
