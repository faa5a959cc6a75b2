import Voila.Rt.Json

/-!
# Voila.Rt.CaseMap

`str.lower`: a string rewritten rune by rune (`case_map` of `str.c`), with the table of lower cases of
`unicode_tab.h`. A byte that starts no well-formed sequence is copied.

A `/` stands for itself and comes from nothing else, and no sequence goes on over one. So the elements
of a path are mapped one by one (`lower_slash`), and none becomes empty or falls apart.
-/

open List

namespace Voila.Rt

open Voila.Rt.Json (ch)

/-! ### UTF-8 -/

/-- The loop of `utf8_next` over `n` continuation bytes. -/
def contLoop (c : Nat) : Nat → Bytes → Option Nat
  | 0, _ => some c
  | _ + 1, [] => none
  | n + 1, b :: s =>
    if b &&& 0xC0 ≠ 0x80 then none else contLoop (c <<< 6 ||| (b &&& 0x3F).toNat) n s

/-- The part of `utf8_next` behind the lead byte of a sequence of `n` bytes. -/
def utf8Tail (n min c : Nat) (s : Bytes) : Option (Nat × Nat) :=
  if s.length + 1 < n then none
  else
    match contLoop c (n - 1) s with
    | none => none
    | some c => if c < min ∨ 0x10FFFF < c ∨ (0xD800 ≤ c ∧ c ≤ 0xDFFF) then none else some (c, n)

/-- `utf8_next` at the byte `a` with `s` behind it: the rune and its length, or `none` for -1. -/
def utf8Next (a : UInt8) (s : Bytes) : Option (Nat × Nat) :=
  if a < 0x80 then some (a.toNat, 1)
  else if a &&& 0xE0 = 0xC0 then utf8Tail 2 0x80 (a &&& 0x1F).toNat s
  else if a &&& 0xF0 = 0xE0 then utf8Tail 3 0x800 (a &&& 0x0F).toNat s
  else if a &&& 0xF8 = 0xF0 then utf8Tail 4 0x10000 (a &&& 0x07).toNat s
  else none

/-- `utf8_put`. -/
def utf8Put (r : Nat) : Bytes :=
  List.map UInt8.ofNat <|
    if r < 0x80 then [r]
    else if r < 0x800 then [0xC0 ||| r >>> 6, 0x80 ||| r &&& 0x3F]
    else if r < 0x10000 then [0xE0 ||| r >>> 12, 0x80 ||| r >>> 6 &&& 0x3F, 0x80 ||| r &&& 0x3F]
    else
      [0xF0 ||| r >>> 18, 0x80 ||| r >>> 12 &&& 0x3F, 0x80 ||| r >>> 6 &&& 0x3F, 0x80 ||| r &&& 0x3F]

/-! ### The table -/

/-- `VlCaseRow`. -/
structure CaseRow where
  lo : Nat
  hi : Nat
  stride : Nat
  delta : Int

/-- `vl_uc_lower`. -/
def ucLowerRows : Array CaseRow := #[
  ⟨0x41, 0x5A, 1, 32⟩, ⟨0xC0, 0xD6, 1, 32⟩, ⟨0xD8, 0xDE, 1, 32⟩, ⟨0x100, 0x12E, 2, 1⟩,
  ⟨0x130, 0x130, 1, -199⟩, ⟨0x132, 0x136, 2, 1⟩, ⟨0x139, 0x147, 2, 1⟩, ⟨0x14A, 0x176, 2, 1⟩,
  ⟨0x178, 0x178, 1, -121⟩, ⟨0x179, 0x17D, 2, 1⟩, ⟨0x181, 0x181, 1, 210⟩, ⟨0x182, 0x184, 2, 1⟩,
  ⟨0x186, 0x186, 1, 206⟩, ⟨0x187, 0x187, 1, 1⟩, ⟨0x189, 0x18A, 1, 205⟩, ⟨0x18B, 0x18B, 1, 1⟩,
  ⟨0x18E, 0x18E, 1, 79⟩, ⟨0x18F, 0x18F, 1, 202⟩, ⟨0x190, 0x190, 1, 203⟩, ⟨0x191, 0x191, 1, 1⟩,
  ⟨0x193, 0x193, 1, 205⟩, ⟨0x194, 0x194, 1, 207⟩, ⟨0x196, 0x196, 1, 211⟩, ⟨0x197, 0x197, 1, 209⟩,
  ⟨0x198, 0x198, 1, 1⟩, ⟨0x19C, 0x19C, 1, 211⟩, ⟨0x19D, 0x19D, 1, 213⟩, ⟨0x19F, 0x19F, 1, 214⟩,
  ⟨0x1A0, 0x1A4, 2, 1⟩, ⟨0x1A6, 0x1A6, 1, 218⟩, ⟨0x1A7, 0x1A7, 1, 1⟩, ⟨0x1A9, 0x1A9, 1, 218⟩,
  ⟨0x1AC, 0x1AC, 1, 1⟩, ⟨0x1AE, 0x1AE, 1, 218⟩, ⟨0x1AF, 0x1AF, 1, 1⟩, ⟨0x1B1, 0x1B2, 1, 217⟩,
  ⟨0x1B3, 0x1B5, 2, 1⟩, ⟨0x1B7, 0x1B7, 1, 219⟩, ⟨0x1B8, 0x1B8, 1, 1⟩, ⟨0x1BC, 0x1BC, 1, 1⟩,
  ⟨0x1C4, 0x1C4, 1, 2⟩, ⟨0x1C5, 0x1C5, 1, 1⟩, ⟨0x1C7, 0x1C7, 1, 2⟩, ⟨0x1C8, 0x1C8, 1, 1⟩,
  ⟨0x1CA, 0x1CA, 1, 2⟩, ⟨0x1CB, 0x1DB, 2, 1⟩, ⟨0x1DE, 0x1EE, 2, 1⟩, ⟨0x1F1, 0x1F1, 1, 2⟩,
  ⟨0x1F2, 0x1F4, 2, 1⟩, ⟨0x1F6, 0x1F6, 1, -97⟩, ⟨0x1F7, 0x1F7, 1, -56⟩, ⟨0x1F8, 0x21E, 2, 1⟩,
  ⟨0x220, 0x220, 1, -130⟩, ⟨0x222, 0x232, 2, 1⟩, ⟨0x23A, 0x23A, 1, 10795⟩, ⟨0x23B, 0x23B, 1, 1⟩,
  ⟨0x23D, 0x23D, 1, -163⟩, ⟨0x23E, 0x23E, 1, 10792⟩, ⟨0x241, 0x241, 1, 1⟩, ⟨0x243, 0x243, 1, -195⟩,
  ⟨0x244, 0x244, 1, 69⟩, ⟨0x245, 0x245, 1, 71⟩, ⟨0x246, 0x24E, 2, 1⟩, ⟨0x370, 0x372, 2, 1⟩,
  ⟨0x376, 0x376, 1, 1⟩, ⟨0x37F, 0x37F, 1, 116⟩, ⟨0x386, 0x386, 1, 38⟩, ⟨0x388, 0x38A, 1, 37⟩,
  ⟨0x38C, 0x38C, 1, 64⟩, ⟨0x38E, 0x38F, 1, 63⟩, ⟨0x391, 0x3A1, 1, 32⟩, ⟨0x3A3, 0x3AB, 1, 32⟩,
  ⟨0x3CF, 0x3CF, 1, 8⟩, ⟨0x3D8, 0x3EE, 2, 1⟩, ⟨0x3F4, 0x3F4, 1, -60⟩, ⟨0x3F7, 0x3F7, 1, 1⟩,
  ⟨0x3F9, 0x3F9, 1, -7⟩, ⟨0x3FA, 0x3FA, 1, 1⟩, ⟨0x3FD, 0x3FF, 1, -130⟩, ⟨0x400, 0x40F, 1, 80⟩,
  ⟨0x410, 0x42F, 1, 32⟩, ⟨0x460, 0x480, 2, 1⟩, ⟨0x48A, 0x4BE, 2, 1⟩, ⟨0x4C0, 0x4C0, 1, 15⟩,
  ⟨0x4C1, 0x4CD, 2, 1⟩, ⟨0x4D0, 0x52E, 2, 1⟩, ⟨0x531, 0x556, 1, 48⟩, ⟨0x10A0, 0x10C5, 1, 7264⟩,
  ⟨0x10C7, 0x10C7, 1, 7264⟩, ⟨0x10CD, 0x10CD, 1, 7264⟩, ⟨0x13A0, 0x13EF, 1, 38864⟩, ⟨0x13F0, 0x13F5, 1, 8⟩,
  ⟨0x1C89, 0x1C89, 1, 1⟩, ⟨0x1C90, 0x1CBA, 1, -3008⟩, ⟨0x1CBD, 0x1CBF, 1, -3008⟩, ⟨0x1E00, 0x1E94, 2, 1⟩,
  ⟨0x1E9E, 0x1E9E, 1, -7615⟩, ⟨0x1EA0, 0x1EFE, 2, 1⟩, ⟨0x1F08, 0x1F0F, 1, -8⟩, ⟨0x1F18, 0x1F1D, 1, -8⟩,
  ⟨0x1F28, 0x1F2F, 1, -8⟩, ⟨0x1F38, 0x1F3F, 1, -8⟩, ⟨0x1F48, 0x1F4D, 1, -8⟩, ⟨0x1F59, 0x1F5F, 2, -8⟩,
  ⟨0x1F68, 0x1F6F, 1, -8⟩, ⟨0x1F88, 0x1F8F, 1, -8⟩, ⟨0x1F98, 0x1F9F, 1, -8⟩, ⟨0x1FA8, 0x1FAF, 1, -8⟩,
  ⟨0x1FB8, 0x1FB9, 1, -8⟩, ⟨0x1FBA, 0x1FBB, 1, -74⟩, ⟨0x1FBC, 0x1FBC, 1, -9⟩, ⟨0x1FC8, 0x1FCB, 1, -86⟩,
  ⟨0x1FCC, 0x1FCC, 1, -9⟩, ⟨0x1FD8, 0x1FD9, 1, -8⟩, ⟨0x1FDA, 0x1FDB, 1, -100⟩, ⟨0x1FE8, 0x1FE9, 1, -8⟩,
  ⟨0x1FEA, 0x1FEB, 1, -112⟩, ⟨0x1FEC, 0x1FEC, 1, -7⟩, ⟨0x1FF8, 0x1FF9, 1, -128⟩, ⟨0x1FFA, 0x1FFB, 1, -126⟩,
  ⟨0x1FFC, 0x1FFC, 1, -9⟩, ⟨0x2126, 0x2126, 1, -7517⟩, ⟨0x212A, 0x212A, 1, -8383⟩,
  ⟨0x212B, 0x212B, 1, -8262⟩, ⟨0x2132, 0x2132, 1, 28⟩, ⟨0x2160, 0x216F, 1, 16⟩, ⟨0x2183, 0x2183, 1, 1⟩,
  ⟨0x24B6, 0x24CF, 1, 26⟩, ⟨0x2C00, 0x2C2F, 1, 48⟩, ⟨0x2C60, 0x2C60, 1, 1⟩, ⟨0x2C62, 0x2C62, 1, -10743⟩,
  ⟨0x2C63, 0x2C63, 1, -3814⟩, ⟨0x2C64, 0x2C64, 1, -10727⟩, ⟨0x2C67, 0x2C6B, 2, 1⟩,
  ⟨0x2C6D, 0x2C6D, 1, -10780⟩, ⟨0x2C6E, 0x2C6E, 1, -10749⟩, ⟨0x2C6F, 0x2C6F, 1, -10783⟩,
  ⟨0x2C70, 0x2C70, 1, -10782⟩, ⟨0x2C72, 0x2C72, 1, 1⟩, ⟨0x2C75, 0x2C75, 1, 1⟩, ⟨0x2C7E, 0x2C7F, 1, -10815⟩,
  ⟨0x2C80, 0x2CE2, 2, 1⟩, ⟨0x2CEB, 0x2CED, 2, 1⟩, ⟨0x2CF2, 0x2CF2, 1, 1⟩, ⟨0xA640, 0xA66C, 2, 1⟩,
  ⟨0xA680, 0xA69A, 2, 1⟩, ⟨0xA722, 0xA72E, 2, 1⟩, ⟨0xA732, 0xA76E, 2, 1⟩, ⟨0xA779, 0xA77B, 2, 1⟩,
  ⟨0xA77D, 0xA77D, 1, -35332⟩, ⟨0xA77E, 0xA786, 2, 1⟩, ⟨0xA78B, 0xA78B, 1, 1⟩, ⟨0xA78D, 0xA78D, 1, -42280⟩,
  ⟨0xA790, 0xA792, 2, 1⟩, ⟨0xA796, 0xA7A8, 2, 1⟩, ⟨0xA7AA, 0xA7AA, 1, -42308⟩, ⟨0xA7AB, 0xA7AB, 1, -42319⟩,
  ⟨0xA7AC, 0xA7AC, 1, -42315⟩, ⟨0xA7AD, 0xA7AD, 1, -42305⟩, ⟨0xA7AE, 0xA7AE, 1, -42308⟩,
  ⟨0xA7B0, 0xA7B0, 1, -42258⟩, ⟨0xA7B1, 0xA7B1, 1, -42282⟩, ⟨0xA7B2, 0xA7B2, 1, -42261⟩,
  ⟨0xA7B3, 0xA7B3, 1, 928⟩, ⟨0xA7B4, 0xA7C2, 2, 1⟩, ⟨0xA7C4, 0xA7C4, 1, -48⟩, ⟨0xA7C5, 0xA7C5, 1, -42307⟩,
  ⟨0xA7C6, 0xA7C6, 1, -35384⟩, ⟨0xA7C7, 0xA7C9, 2, 1⟩, ⟨0xA7CB, 0xA7CB, 1, -42343⟩, ⟨0xA7CC, 0xA7CC, 1, 1⟩,
  ⟨0xA7D0, 0xA7D0, 1, 1⟩, ⟨0xA7D6, 0xA7DA, 2, 1⟩, ⟨0xA7DC, 0xA7DC, 1, -42561⟩, ⟨0xA7F5, 0xA7F5, 1, 1⟩,
  ⟨0xFF21, 0xFF3A, 1, 32⟩, ⟨0x10400, 0x10427, 1, 40⟩, ⟨0x104B0, 0x104D3, 1, 40⟩, ⟨0x10570, 0x1057A, 1, 39⟩,
  ⟨0x1057C, 0x1058A, 1, 39⟩, ⟨0x1058C, 0x10592, 1, 39⟩, ⟨0x10594, 0x10595, 1, 39⟩,
  ⟨0x10C80, 0x10CB2, 1, 64⟩, ⟨0x10D50, 0x10D65, 1, 32⟩, ⟨0x118A0, 0x118BF, 1, 32⟩,
  ⟨0x16E40, 0x16E5F, 1, 32⟩, ⟨0x1E900, 0x1E921, 1, 34⟩]

/-- The binary search of `uc_row`, between `lo` and `hi - 1`. -/
def searchRow (rows : Array CaseRow) (c : Nat) (lo hi : Nat) (hit : Option CaseRow) : Option CaseRow :=
  if lo < hi then
    let mid := (lo + (hi - 1)) / 2
    match rows[mid]? with
    | none => hit
    | some r => if r.lo ≤ c then searchRow rows c (mid + 1) hi (some r) else searchRow rows c lo mid hit
  else hit
termination_by hi - lo
decreasing_by all_goals omega

/-- `uc_row`: the row that a rune belongs to. -/
def ucRow (rows : Array CaseRow) (c : Nat) : Option CaseRow :=
  match searchRow rows c 0 rows.size none with
  | none => none
  | some r => if r.hi < c ∨ (c - r.lo) % r.stride ≠ 0 then none else some r

/-- `uc_case`. -/
def ucCase (rows : Array CaseRow) (c : Nat) : Nat :=
  match ucRow rows c with
  | none => c
  | some r => ((c + r.delta) % 2 ^ 32).toNat

/-- `uc_lower`. -/
def ucLower (c : Nat) : Nat := ucCase ucLowerRows c

/-! ### The map -/

/-- The loop of `case_map`: `skip` bytes belong to a rune that is written. -/
def caseLoop (first rest : Nat → Nat) : Nat → Bytes → Bytes
  | _, [] => []
  | skip + 1, _ :: s => caseLoop first rest skip s
  | 0, a :: s =>
    match utf8Next a s with
    | none => a :: caseLoop rest rest 0 s
    | some (r, n) => utf8Put (first r) ++ caseLoop rest rest (n - 1) s

/-- `case_map`. -/
def caseMap (first rest : Nat → Nat) (s : Bytes) : Bytes := caseLoop first rest 0 s

/-- `str.lower`. -/
def lower (s : Bytes) : Bytes := caseMap ucLower ucLower s

/-! ### What a sequence reads -/

/-- A sequence is not longer for what comes behind the `/` that follows it. -/
theorem contLoop_slash (c n : Nat) (s b : Bytes) :
    contLoop c n (s ++ ch '/' :: b) = contLoop c n s := by
  induction n generalizing c s with
  | zero => rfl
  | succ n ih =>
    cases s with
    | nil => rfl
    | cons x s => simp only [cons_append, contLoop, ih]

variable {s : Bytes} {rows : Array CaseRow}

theorem contLoop_short {c n : Nat} (h : s.length < n) : contLoop c n s = none := by
  induction n generalizing c s with
  | zero => exact absurd h (Nat.not_lt_zero _)
  | succ n ih =>
    cases s with
    | nil => rfl
    | cons x s =>
      rw [contLoop, ih (by simpa using h), ite_self]

theorem utf8Tail_slash (n min c : Nat) (s b : Bytes) :
    utf8Tail n min c (s ++ ch '/' :: b) = utf8Tail n min c s := by
  unfold utf8Tail
  rw [contLoop_slash]
  by_cases h : s.length + 1 < n
  · rw [contLoop_short (by omega : s.length < n - 1), if_pos h, ite_self]
  · rw [if_neg h, if_neg]
    rw [length_append]
    omega

theorem utf8Next_slash (a : UInt8) (s b : Bytes) : utf8Next a (s ++ ch '/' :: b) = utf8Next a s := by
  simp only [utf8Next, utf8Tail_slash]

theorem utf8Tail_some {n min c r k : Nat} (h : utf8Tail n min c s = some (r, k)) :
    k = n ∧ n ≤ s.length + 1 ∧ min ≤ r ∧ r ≤ 0x10FFFF := by
  unfold utf8Tail at h
  split at h
  · exact absurd h nofun
  · split at h
    · exact absurd h nofun
    · split at h
      · exact absurd h nofun
      · cases h
        omega

theorem utf8Next_some {a : UInt8} {r n : Nat} (h : utf8Next a s = some (r, n)) :
    0 < n ∧ n ≤ s.length + 1 ∧ r ≤ 0x10FFFF ∧ (r < 0x80 → r = a.toNat) := by
  unfold utf8Next at h
  split at h
  · next ha =>
      have : a.toNat < 0x80 := UInt8.lt_iff_toNat_lt.mp ha
      cases h
      omega
  · split at h
    · have := utf8Tail_some h
      omega
    · split at h
      · have := utf8Tail_some h
        omega
      · split at h
        · have := utf8Tail_some h
          omega
        · exact absurd h nofun

/-! ### What the table does to a slash -/

theorem searchRow_some {c lo hi : Nat} {hit : Option CaseRow} {r : CaseRow}
    (hhit : ∀ r, hit = some r → r ∈ rows ∧ r.lo ≤ c) (h : searchRow rows c lo hi hit = some r) :
    r ∈ rows ∧ r.lo ≤ c := by
  fun_induction searchRow rows c lo hi hit with
  | case1 lo hi hit hlt mid hmid => exact hhit r h
  | case2 lo hi hit hlt mid row hmid hle ih =>
    refine ih (fun row' hrow' => ?_) h
    cases hrow'
    exact ⟨Array.mem_of_getElem? hmid, hle⟩
  | case3 lo hi hit hlt mid row hmid hle ih => exact ih hhit h
  | case4 lo hi hit hlt => exact hhit r h

theorem ucRow_some {c : Nat} {r : CaseRow} (h : ucRow rows c = some r) :
    r ∈ rows ∧ r.lo ≤ c ∧ c ≤ r.hi := by
  unfold ucRow at h
  split at h
  · exact absurd h nofun
  · next row hrow =>
      split at h
      · exact absurd h nofun
      · cases h
        have hnone : ∀ r, (none : Option CaseRow) = some r → r ∈ rows ∧ r.lo ≤ c := nofun
        obtain ⟨hmem, hlo⟩ := searchRow_some hnone hrow
        exact ⟨hmem, hlo, by omega⟩

/-- The rows stay clear of the slash, on both sides. -/
theorem ucLowerRows_above :
    ∀ r ∈ ucLowerRows, 47 < r.lo ∧ 47 < r.lo + r.delta ∧ r.hi + r.delta < 2 ^ 32 := by
  decide +kernel

theorem ucLower_slash (c : Nat) : ucLower c = 47 ↔ c = 47 := by
  unfold ucLower ucCase
  split
  · rfl
  · next r hr =>
      obtain ⟨hmem, hlo, hhi⟩ := ucRow_some hr
      have habove := ucLowerRows_above r hmem
      omega

/-! ### Lower case, element by element -/

theorem utf8Put_ne_nil (r : Nat) : utf8Put r ≠ [] := by
  unfold utf8Put
  split_ifs <;> exact nofun

theorem ofNat_or_ne_slash {k : Nat} (hk : k.testBit 7 = true) (x : Nat) :
    UInt8.ofNat (k ||| x) ≠ ch '/' := by
  intro h
  have hbit : (UInt8.ofNat (k ||| x)).toNat.testBit 7 = (ch '/').toNat.testBit 7 := by rw [h]
  rw [UInt8.toNat_ofNat', Nat.testBit_mod_two_pow, Nat.testBit_or, hk, Bool.true_or] at hbit
  exact absurd hbit (by decide)

theorem utf8Put_slash {r : Nat} (h : ch '/' ∈ utf8Put r) : r = 47 := by
  unfold utf8Put at h
  obtain ⟨x, hx, hslash⟩ := mem_map.mp h
  have hlead : ∀ k y, k.testBit 7 = true → x ≠ k ||| y :=
    fun k y hk hxy => ofNat_or_ne_slash hk y (hxy ▸ hslash)
  split_ifs at hx with h1 h2 h3
  · rw [mem_singleton] at hx
    have := congrArg UInt8.toNat hslash
    rw [UInt8.toNat_ofNat', show (ch '/').toNat = 47 from rfl] at this
    omega
  · simp [hlead 0xC0 _ rfl, hlead 0x80 _ rfl] at hx
  · simp [hlead 0xE0 _ rfl, hlead 0x80 _ rfl] at hx
  · simp [hlead 0xF0 _ rfl, hlead 0x80 _ rfl] at hx

theorem utf8Put_47 : utf8Put 47 = [ch '/'] := rfl

/-- The rest of a rune that is written stays inside what it was read from. -/
theorem caseLoop_slash (b : Bytes) : ∀ (a : Bytes) (skip : Nat), skip ≤ a.length →
    caseLoop ucLower ucLower skip (a ++ ch '/' :: b) =
      caseLoop ucLower ucLower skip a ++ ch '/' :: lower b := by
  intro a
  induction a with
  | nil =>
    intro skip hskip
    obtain rfl : skip = 0 := by simpa using hskip
    have hnext : utf8Next (ch '/') b = some (47, 1) := rfl
    simp only [nil_append, caseLoop, hnext, (ucLower_slash 47).mpr rfl, utf8Put_47]
    rfl
  | cons x a ih =>
    intro skip hskip
    cases skip with
    | succ skip => exact ih skip (by simpa using hskip)
    | zero =>
      simp only [cons_append, caseLoop, utf8Next_slash]
      cases hnext : utf8Next x a with
      | none => simp only [ih 0 (Nat.zero_le _), cons_append]
      | some p =>
        have hlen := (utf8Next_some hnext).2.1
        simp only [ih (p.2 - 1) (by omega), append_assoc]

theorem lower_slash (a b : Bytes) : lower (a ++ ch '/' :: b) = lower a ++ ch '/' :: lower b :=
  caseLoop_slash b a 0 (Nat.zero_le _)

theorem caseLoop_no_slash : ∀ (s : Bytes) (skip : Nat), ch '/' ∉ s →
    ch '/' ∉ caseLoop ucLower ucLower skip s := by
  intro s
  induction s with
  | nil => exact fun _ _ => not_mem_nil
  | cons x s ih =>
    intro skip hs
    have hx : x ≠ ch '/' := fun h => hs (h ▸ mem_cons_self)
    have htail : ch '/' ∉ s := fun h => hs (mem_cons_of_mem _ h)
    cases skip with
    | succ skip => exact ih skip htail
    | zero =>
      rw [caseLoop]
      cases hnext : utf8Next x s with
      | none =>
        intro h
        rcases mem_cons.mp h with h | h
        · exact hx h.symm
        · exact ih 0 htail h
      | some p =>
        intro h
        rcases mem_append.mp h with h | h
        · have hr : p.1 = 47 := (ucLower_slash _).mp (utf8Put_slash h)
          have hxr := (utf8Next_some hnext).2.2.2 (by omega)
          exact hx (UInt8.toNat_inj.mp (hxr.symm.trans hr))
        · exact ih _ htail h

theorem lower_no_slash (h : ch '/' ∉ s) : ch '/' ∉ lower s := caseLoop_no_slash s 0 h

theorem lower_ne_nil (h : s ≠ []) : lower s ≠ [] := by
  cases s with
  | nil => exact absurd rfl h
  | cons x s =>
    rw [lower, caseMap, caseLoop]
    cases utf8Next x s with
    | none => exact nofun
    | some p => exact fun h => utf8Put_ne_nil _ (append_eq_nil_iff.mp h).1

end Voila.Rt
