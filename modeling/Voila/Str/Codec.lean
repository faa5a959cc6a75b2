import Voila.Str.Utf8Sound

/-!
# Voila.Str.Codec

The codecs of `str.c`: `hex` and `unhex`, `b64` and `unb64`, over strings of bytes.

`unhex` looks at the length alone and takes the digits by arithmetic, so it has a byte for every pair of bytes;
`unb64` skips whatever is not of the alphabet, the padding with it.
-/

open List

namespace Voila.Str

open Rt

/-! ### Hexadecimal -/

/-- The digits `H`. -/
def hexTable : Bytes := (List.range' 48 10 ++ List.range' 97 6).map UInt8.ofNat

def hexDigit (v : UInt8) : UInt8 := hexTable.getD v.toNat 0

/-- `hex` of a string. -/
def hex (s : Bytes) : Bytes := s.flatMap fun (c : UInt8) => [hexDigit (c >>> 4), hexDigit (c &&& 15)]

/-- `isdigit` in the C locale. -/
def isdigit (c : UInt8) : Bool := 48 ≤ c && c ≤ 57

/-- `tolower` in the C locale. -/
def tolower (c : UInt8) : UInt8 := if 65 ≤ c ∧ c ≤ 90 then c + 32 else c

/-- What `unhex` takes a byte for; only its low eight bits go into the result. -/
def unhexDigit (c : UInt8) : UInt8 := if isdigit c then c - 48 else tolower c - 97 + 10

def unhexLoop : Bytes → Bytes
  | hi :: lo :: s => (unhexDigit hi <<< 4 ||| unhexDigit lo) :: unhexLoop s
  | _ => []

def unhex (s : Bytes) : Except String Bytes :=
  if s.length % 2 ≠ 0 then .error "bad hex" else .ok (unhexLoop s)

/-! ### Base 64 -/

/-- The alphabet `B`. -/
def b64Table : Bytes :=
  (List.range' 65 26 ++ List.range' 97 26 ++ List.range' 48 10 ++ [43, 47]).map UInt8.ofNat

def b64Digit (v : UInt32) : UInt8 := b64Table.getD (v &&& 63).toNat 0

/-- Four characters for up to three bytes, with `=` for what has none of their bits. -/
def b64Group (x : UInt8) (y z : Option UInt8) : Bytes :=
  let v := x.toUInt32 <<< 16 ||| (y.getD 0).toUInt32 <<< 8 ||| (z.getD 0).toUInt32
  [b64Digit (v >>> 18), b64Digit (v >>> 12), if y.isSome then b64Digit (v >>> 6) else 61,
    if z.isSome then b64Digit v else 61]

def b64 : Bytes → Bytes
  | [] => []
  | [x] => b64Group x none none
  | [x, y] => b64Group x (some y) none
  | x :: y :: z :: s => b64Group x (some y) (some z) ++ b64 s

/-- The value of a character, `none` for what `unb64` skips. -/
def b64Value (c : UInt8) : Option UInt32 :=
  if 65 ≤ c ∧ c ≤ 90 then some (c - 65).toUInt32
  else if 97 ≤ c ∧ c ≤ 122 then some ((c - 97).toUInt32 + 26)
  else if 48 ≤ c ∧ c ≤ 57 then some ((c - 48).toUInt32 + 52)
  else if c = 43 then some 62
  else if c = 47 then some 63
  else none

/-- The loop of `unb64`, at `acc` with `bits` of it still to be written. -/
def unb64Loop (acc bits : UInt32) : Bytes → Bytes
  | [] => []
  | c :: s =>
    match b64Value c with
    | none => unb64Loop acc bits s
    | some v =>
      let acc := acc <<< 6 ||| v
      let bits := bits + 6
      if 8 ≤ bits then ((acc >>> (bits - 8)) &&& 0xFF).toUInt8 :: unb64Loop acc (bits - 8) s
      else unb64Loop acc bits s

def unb64 (s : Bytes) : Bytes := unb64Loop 0 0 s

end Voila.Str

/-!
What the codecs of `str.c` give back.

Both round trips are facts of one byte or of one group: two digits are the two halves of a byte, and four
characters carry the bits of three bytes whatever `acc` was before them. Which texts `unhex` takes is a matter
of their length alone.
-/

namespace Voila.Str

open Rt

/-! ### Hexadecimal -/

/-- A hexadecimal digit, of either case. -/
def isxdigit (c : UInt8) : Bool := isdigit c || (97 ≤ c && c ≤ 102) || (65 ≤ c && c ≤ 70)

theorem unhexDigit_hexDigit (c : UInt8) :
    unhexDigit (hexDigit (c >>> 4)) <<< 4 ||| unhexDigit (hexDigit (c &&& 15)) = c := by
  revert c
  exact uint8_all (by decide +kernel)

theorem hex_cons (c : UInt8) (s : Bytes) :
    hex (c :: s) = hexDigit (c >>> 4) :: hexDigit (c &&& 15) :: hex s := rfl

theorem length_hex (s : Bytes) : (hex s).length = 2 * s.length := by
  induction s with
  | nil => rfl
  | cons c s ih => rw [hex_cons, length_cons, length_cons, ih, length_cons]; omega

theorem unhexLoop_hex (s : Bytes) : unhexLoop (hex s) = s := by
  induction s with
  | nil => rfl
  | cons c s ih => rw [hex_cons, unhexLoop, ih, unhexDigit_hexDigit]

theorem unhex_hex (s : Bytes) : unhex (hex s) = .ok s := by
  rw [unhex, length_hex, unhexLoop_hex, if_neg (by omega)]

theorem unhex_ok_iff (s : Bytes) : (∃ b, unhex s = .ok b) ↔ s.length % 2 = 0 := by
  unfold unhex
  by_cases h : s.length % 2 = 0 <;> simp [h]

/-! ### Base 64 -/

/-- What a group is made of: six bits of a number, in the alphabet. -/
theorem b64Value_digit (v : UInt32) : b64Value (b64Digit v) = some (v &&& 63) := by
  have key : ∀ n < 64, b64Value (b64Table.getD n 0) = some (UInt32.ofNat n) := by decide +kernel
  have hlt : (v &&& 63).toNat < 64 := by
    rw [UInt32.toNat_and]
    exact Nat.lt_of_le_of_lt Nat.and_le_right (by decide)
  rw [b64Digit, key _ hlt, UInt32.ofNat_toNat]

theorem toNat_and_63 (v : UInt32) : (v &&& 63).toNat = v.toNat % 64 := by
  rw [UInt32.toNat_and]
  exact Nat.and_two_pow_sub_one_eq_mod v.toNat 6

/-- Six more bits behind those of `acc`, of which the topmost six are lost. -/
theorem toNat_acc (acc v : UInt32) (hv : v.toNat < 64) :
    (acc <<< 6 ||| v).toNat = (acc.toNat * 64 + v.toNat) % 2 ^ 32 := by
  have hor : acc.toNat <<< 6 + v.toNat = acc.toNat <<< 6 ||| v.toNat :=
    Nat.shiftLeft_add_eq_or_of_lt hv acc.toNat
  have hv' : v.toNat % 2 ^ 32 = v.toNat := Nat.mod_eq_of_lt v.toNat_lt
  rw [UInt32.toNat_or, UInt32.toNat_shiftLeft]
  calc acc.toNat <<< 6 % 2 ^ 32 ||| v.toNat
      = acc.toNat <<< 6 % 2 ^ 32 ||| v.toNat % 2 ^ 32 := by rw [hv']
    _ = (acc.toNat <<< 6 ||| v.toNat) % 2 ^ 32 := Nat.or_mod_two_pow.symm
    _ = (acc.toNat * 64 + v.toNat) % 2 ^ 32 := by rw [← hor, Nat.shiftLeft_eq]

theorem unb64Loop_skip {c : UInt8} (h : b64Value c = none) (acc bits : UInt32) (s : Bytes) :
    unb64Loop acc bits (c :: s) = unb64Loop acc bits s := by
  simp only [unb64Loop, h]

/-- Skipped bytes are as good as none. -/
theorem unb64Loop_filter (p : UInt8 → Bool) (hp : ∀ c, p c = false → b64Value c = none) (s : Bytes)
    (acc bits : UInt32) : unb64Loop acc bits (s.filter p) = unb64Loop acc bits s := by
  induction s generalizing acc bits with
  | nil => rfl
  | cons c s ih =>
    cases hc : p c with
    | false => rw [filter_cons_of_neg (by simp [hc]), unb64Loop_skip (hp c hc), ih]
    | true =>
      rw [filter_cons_of_pos hc]
      simp only [unb64Loop, ih]

/-- The byte that `unb64` takes out of `acc`. -/
theorem toNat_emitted (acc k : UInt32) (hk : k.toNat < 32) :
    ((acc >>> k) &&& 0xFF).toUInt8.toNat = acc.toNat / 2 ^ k.toNat % 256 := by
  rw [UInt32.toNat_toUInt8, UInt32.toNat_and, UInt32.toNat_shiftRight, Nat.mod_eq_of_lt hk,
    Nat.shiftRight_eq_div_pow]
  have h := Nat.and_two_pow_sub_one_eq_mod (acc.toNat / 2 ^ k.toNat) 8
  simp only [Nat.reducePow, Nat.reduceSub] at h
  rw [show (255 : UInt32).toNat = 255 from rfl, h]
  omega

/-- The three bytes of a group side by side. -/
theorem toNat_packed (x y z : UInt8) :
    (x.toUInt32 <<< 16 ||| y.toUInt32 <<< 8 ||| z.toUInt32).toNat =
      x.toNat * 65536 + y.toNat * 256 + z.toNat := by
  have hx : x.toNat < 256 := x.toNat_lt
  have hy : y.toNat < 256 := y.toNat_lt
  have hz : z.toNat < 256 := z.toNat_lt
  have hxy : (x.toNat * 256 + y.toNat) <<< 8 = x.toNat <<< 16 ||| y.toNat <<< 8 := by
    have h := Nat.shiftLeft_add_eq_or_of_lt (i := 8) hy x.toNat
    rw [← Nat.shiftLeft_eq x.toNat 8, h, Nat.shiftLeft_or_distrib, ← Nat.shiftLeft_add]
  have hall := Nat.shiftLeft_add_eq_or_of_lt (i := 8) hz (x.toNat * 256 + y.toNat)
  simp only [UInt32.toNat_or, UInt32.toNat_shiftLeft, UInt8.toNat_toUInt32]
  rw [show (16 : UInt32).toNat % 32 = 16 from rfl, show (8 : UInt32).toNat % 32 = 8 from rfl,
    Nat.mod_eq_of_lt (a := x.toNat <<< 16) (by rw [Nat.shiftLeft_eq]; omega),
    Nat.mod_eq_of_lt (a := y.toNat <<< 8) (by rw [Nat.shiftLeft_eq]; omega),
    ← hxy, ← hall, Nat.shiftLeft_eq]
  omega

/-- Two characters bring a byte, whatever is in `acc` before them, and leave four bits. -/
theorem unb64Loop_two (acc v w : UInt32) (s : Bytes) :
    ∃ acc' : UInt32, acc'.toNat % 4096 = v.toNat % 64 * 64 + w.toNat % 64 ∧
      unb64Loop acc 0 (b64Digit v :: b64Digit w :: s) =
        UInt8.ofNat (acc'.toNat / 16) :: unb64Loop acc' 4 s := by
  have hv := toNat_and_63 v
  have hw := toNat_and_63 w
  have h1 := toNat_acc acc (v &&& 63) (by omega)
  have h2 := toNat_acc (acc <<< 6 ||| (v &&& 63)) (w &&& 63) (by omega)
  refine ⟨(acc <<< 6 ||| (v &&& 63)) <<< 6 ||| (w &&& 63), by omega, ?_⟩
  simp only [unb64Loop, b64Value_digit]
  rw [if_neg (by decide), if_pos (by decide)]
  congr 1
  apply UInt8.toNat_inj.mp
  rw [toNat_emitted _ _ (by decide), UInt8.toNat_ofNat']
  rfl

/-- The third character brings another byte, and leaves two bits. -/
theorem unb64Loop_third (acc w : UInt32) (s : Bytes) :
    ∃ acc' : UInt32, acc'.toNat % 1024 = acc.toNat % 16 * 64 + w.toNat % 64 ∧
      unb64Loop acc 4 (b64Digit w :: s) = UInt8.ofNat (acc'.toNat / 4) :: unb64Loop acc' 2 s := by
  have hw := toNat_and_63 w
  have h1 := toNat_acc acc (w &&& 63) (by omega)
  refine ⟨acc <<< 6 ||| (w &&& 63), by omega, ?_⟩
  simp only [unb64Loop, b64Value_digit]
  rw [if_pos (by decide)]
  congr 1
  apply UInt8.toNat_inj.mp
  rw [toNat_emitted _ _ (by decide), UInt8.toNat_ofNat']
  rfl

/-- The fourth character brings the last byte of a group, and leaves nothing. -/
theorem unb64Loop_fourth (acc w : UInt32) (s : Bytes) :
    ∃ acc' : UInt32, acc'.toNat % 256 = acc.toNat % 4 * 64 + w.toNat % 64 ∧
      unb64Loop acc 2 (b64Digit w :: s) = UInt8.ofNat acc'.toNat :: unb64Loop acc' 0 s := by
  have hw := toNat_and_63 w
  have h1 := toNat_acc acc (w &&& 63) (by omega)
  refine ⟨acc <<< 6 ||| (w &&& 63), by omega, ?_⟩
  simp only [unb64Loop, b64Value_digit]
  rw [if_pos (by decide)]
  congr 1
  apply UInt8.toNat_inj.mp
  rw [toNat_emitted _ _ (by decide), UInt8.toNat_ofNat']
  simp

theorem toNat_shifted (v : UInt32) :
    (v >>> 18).toNat = v.toNat / 2 ^ 18 ∧ (v >>> 12).toNat = v.toNat / 2 ^ 12 ∧
      (v >>> 6).toNat = v.toNat / 2 ^ 6 := by
  simp only [UInt32.toNat_shiftRight, Nat.shiftRight_eq_div_pow]
  exact ⟨rfl, rfl, rfl⟩

theorem ofNat_eq_of_mod {n : Nat} {x : UInt8} (h : n % 256 = x.toNat) : UInt8.ofNat n = x := by
  apply UInt8.toNat_inj.mp
  rw [UInt8.toNat_ofNat']
  exact h

/-- A whole group gives its three bytes back. -/
theorem unb64Loop_group (x y z : UInt8) (acc : UInt32) (s : Bytes) :
    ∃ acc', unb64Loop acc 0 (b64Group x (some y) (some z) ++ s) =
      x :: y :: z :: unb64Loop acc' 0 s := by
  have hpack := toNat_packed x y z
  simp only [b64Group, Option.getD_some, Option.isSome_some, if_true, cons_append, nil_append]
  generalize x.toUInt32 <<< 16 ||| y.toUInt32 <<< 8 ||| z.toUInt32 = v at hpack ⊢
  obtain ⟨h18, h12, h6⟩ := toNat_shifted v
  have hx := x.toNat_lt
  have hy := y.toNat_lt
  have hz := z.toNat_lt
  obtain ⟨a, ha, htwo⟩ := unb64Loop_two acc (v >>> 18) (v >>> 12)
    (b64Digit (v >>> 6) :: b64Digit v :: s)
  obtain ⟨b, hb, hthird⟩ := unb64Loop_third a (v >>> 6) (b64Digit v :: s)
  obtain ⟨c, hc, hfourth⟩ := unb64Loop_fourth b v s
  refine ⟨c, ?_⟩
  rw [htwo, hthird, hfourth, ofNat_eq_of_mod (x := x) (by omega), ofNat_eq_of_mod (x := y) (by omega),
    ofNat_eq_of_mod (x := z) (by omega)]

theorem b64Value_pad : b64Value 61 = none := by decide

/-- A group that two bytes are left for. -/
theorem unb64Loop_group_two (x y : UInt8) (acc : UInt32) :
    unb64Loop acc 0 (b64Group x (some y) none) = [x, y] := by
  have hpack := toNat_packed x y 0
  simp only [b64Group, Option.getD_some, Option.getD_none, Option.isSome_some, Option.isSome_none, if_true,
    Bool.false_eq_true, if_false]
  generalize x.toUInt32 <<< 16 ||| y.toUInt32 <<< 8 ||| (0 : UInt8).toUInt32 = v at hpack ⊢
  obtain ⟨h18, h12, h6⟩ := toNat_shifted v
  have hx := x.toNat_lt
  have hy := y.toNat_lt
  rw [show (0 : UInt8).toNat = 0 from rfl] at hpack
  obtain ⟨a, ha, htwo⟩ := unb64Loop_two acc (v >>> 18) (v >>> 12) [b64Digit (v >>> 6), 61]
  obtain ⟨b, hb, hthird⟩ := unb64Loop_third a (v >>> 6) [61]
  rw [htwo, hthird, unb64Loop_skip b64Value_pad, ofNat_eq_of_mod (x := x) (by omega),
    ofNat_eq_of_mod (x := y) (by omega), unb64Loop]

/-- A group that one byte is left for. -/
theorem unb64Loop_group_one (x : UInt8) (acc : UInt32) :
    unb64Loop acc 0 (b64Group x none none) = [x] := by
  have hpack := toNat_packed x 0 0
  simp only [b64Group, Option.getD_none, Option.isSome_none, Bool.false_eq_true, if_false]
  generalize x.toUInt32 <<< 16 ||| (0 : UInt8).toUInt32 <<< 8 ||| (0 : UInt8).toUInt32 = v at hpack ⊢
  obtain ⟨h18, h12, -⟩ := toNat_shifted v
  have hx := x.toNat_lt
  rw [show (0 : UInt8).toNat = 0 from rfl] at hpack
  obtain ⟨a, ha, htwo⟩ := unb64Loop_two acc (v >>> 18) (v >>> 12) [61, 61]
  rw [htwo, unb64Loop_skip b64Value_pad, unb64Loop_skip b64Value_pad, ofNat_eq_of_mod (x := x) (by omega),
    unb64Loop]

theorem unb64Loop_b64 (s : Bytes) (acc : UInt32) : unb64Loop acc 0 (b64 s) = s := by
  induction s using b64.induct generalizing acc with
  | case1 => rfl
  | case2 x => exact unb64Loop_group_one x acc
  | case3 x y => exact unb64Loop_group_two x y acc
  | case4 x y z s ih =>
    obtain ⟨acc', h⟩ := unb64Loop_group x y z acc (b64 s)
    rw [b64, h, ih]

/-- A line feed or a carriage return, which no encoded text has. -/
def isBreak (c : UInt8) : Bool := c == 10 || c == 13

theorem unb64_breaks {t s : Bytes} (h : t.filter (fun c => !isBreak c) = b64 s) : unb64 t = s := by
  have hskip : ∀ c, (!isBreak c) = false → b64Value c = none := by
    intro c hc
    have hor : c = 10 ∨ c = 13 := by simpa [isBreak, or_iff_not_imp_left] using hc
    cases hor with
    | inl h => subst h; decide
    | inr h => subst h; decide
  have hfilter := unb64Loop_filter (fun c => !isBreak c) hskip t 0 0
  rw [unb64, ← hfilter, h]
  exact unb64Loop_b64 s 0

/-! ### What the codecs promise -/

/-- Bytes `b` come back from their digits and from base 64, with or without line breaks in it, and a text `t`
is read as bytes just if it is made of pairs of digits. -/
structure Codes (b t : Bytes) : Prop where
  hex : unhex (hex b) = .ok b
  base64 : unb64 (b64 b) = b
  breaks (u : Bytes) : u.filter (fun c => !isBreak c) = b64 b → unb64 u = b
  digits : (∃ r, unhex t = .ok r) ↔ t.length % 2 = 0 ∧ t.all isxdigit = true

/-- Nothing looks at what the pairs are made of. -/
theorem codes_iff (b t : Bytes) : Codes b t ↔ t.length % 2 = 1 ∨ t.all isxdigit = true := by
  constructor
  · intro h
    have hiff := h.digits
    rw [unhex_ok_iff] at hiff
    by_cases hodd : t.length % 2 = 1
    · exact Or.inl hodd
    · exact Or.inr (hiff.mp (by omega)).2
  · intro h
    refine ⟨unhex_hex b, unb64Loop_b64 b 0, fun u => unb64_breaks, ?_⟩
    rw [unhex_ok_iff]
    constructor
    · intro heven
      cases h with
      | inl hodd => omega
      | inr hall => exact ⟨heven, hall⟩
    · intro h
      exact h.1

/-- `zz` has two bytes and no digit. -/
theorem codes_zz : ¬ Codes [] [122, 122] := by
  intro h
  have hall := (h.digits.mp ⟨_, rfl⟩).2
  exact absurd hall (by decide)

end Voila.Str
