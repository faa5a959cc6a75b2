import Voila.Lib.Binary64
import Voila.Rt.Dec
import Voila.Rt.Map

/-!
# Voila.Rt.Hash

Equality and hashing of the values that can be map keys (`vl_equal` and `vl_hash` of
`value.c`).

Both are switches over the kinds. Equality crosses kinds: a `float` is compared with an
`int`, a `dec` with an `int`, a rune with an `int` and with a `str`, and Boxes are looked
through. A type or a variant is its address.
-/

open List

namespace Voila.Rt

open Lib

/-- A value built of the kinds with an equality of their own. -/
inductive KeyVal
  | nil
  | bool (b : Bool)
  | int (i : Int64)
  | float (f : Binary64)
  | rune (r : UInt32)
  | str (b : Bytes)
  | dec (d : Dec)
  | box (v : KeyVal)
  | tuple (e : List KeyVal)
  | slice (e : List KeyVal)
  /-- `type`, with as many fields as it has. -/
  | struct (type : UInt64) (f : List KeyVal)
  | enum (var : UInt64) (f : List KeyVal)

/-- `vl_unbox`. -/
def unbox : KeyVal → KeyVal
  | .box v => unbox v
  | v => v

/-- `vl_tostr` of a rune: its UTF-8 bytes. -/
def runeText (r : UInt32) : Bytes :=
  let r := r.toNat
  if r < 0x80 then [UInt8.ofNat r]
  else if r < 0x800 then [UInt8.ofNat (0xC0 ||| r >>> 6), UInt8.ofNat (0x80 ||| r &&& 0x3F)]
  else if r < 0x10000 then
    [UInt8.ofNat (0xE0 ||| r >>> 12), UInt8.ofNat (0x80 ||| r >>> 6 &&& 0x3F),
      UInt8.ofNat (0x80 ||| r &&& 0x3F)]
  else
    [UInt8.ofNat (0xF0 ||| r >>> 18), UInt8.ofNat (0x80 ||| r >>> 12 &&& 0x3F),
      UInt8.ofNat (0x80 ||| r >>> 6 &&& 0x3F), UInt8.ofNat (0x80 ||| r &&& 0x3F)]

/-- `(int64_t)r`. -/
def runeInt (r : UInt32) : Int64 := Int64.ofNat r.toNat

/-! ### Equality -/

/-- `vl_equal` of values that hold no others and are not Boxes. -/
def flatEqual : KeyVal → KeyVal → Bool
  | .nil, .nil => true
  | .bool a, .bool b => a == b
  | .rune a, .int b => runeInt a == b
  | .int a, .rune b => a == runeInt b
  | .rune a, .str b => runeText a == b
  | .str a, .rune b => runeText b == a
  | .dec a, .dec b => vlDecCmp a b == 0
  | .dec a, .int b => vlDecCmp a (.fromInt b) == 0
  | .int a, .dec b => vlDecCmp (.fromInt a) b == 0
  -- `num_eq`
  | .int a, .int b => a == b
  | .float a, .float b => a.eq b
  | .int a, .float b => (Binary64.ofInt a.toInt).eq b
  | .float a, .int b => a.eq (Binary64.ofInt b.toInt)
  | .rune a, .rune b => a == b
  | .str a, .str b => a == b
  | _, _ => false

mutual
/-- `vl_equal`; a Box on either side is looked through. -/
def vlEqual : KeyVal → KeyVal → Bool
  | .box a, b => vlEqual a b
  | .slice a, b => match unbox b with
    | .slice b => equalAll a b
    | _ => false
  | .tuple a, b => match unbox b with
    | .tuple b => equalAll a b
    | _ => false
  | .struct type a, b => match unbox b with
    | .struct type' b => type == type' && equalAll a b
    | _ => false
  | .enum var a, b => match unbox b with
    | .enum var' b => var == var' && equalAll a b
    | _ => false
  | .nil, b => flatEqual .nil (unbox b)
  | .bool a, b => flatEqual (.bool a) (unbox b)
  | .int a, b => flatEqual (.int a) (unbox b)
  | .float a, b => flatEqual (.float a) (unbox b)
  | .rune a, b => flatEqual (.rune a) (unbox b)
  | .str a, b => flatEqual (.str a) (unbox b)
  | .dec a, b => flatEqual (.dec a) (unbox b)

/-- The loops over elements, for two arrays of one length. -/
def equalAll : List KeyVal → List KeyVal → Bool
  | [], [] => true
  | a :: as, b :: bs => vlEqual a b && equalAll as bs
  | _, _ => false
end

/-! ### Hashing -/

/-- `h ^= p[i]; h *= 1099511628211`, over the bytes. -/
def mixBytes (h : UInt64) (p : Bytes) : UInt64 :=
  p.foldl (fun h b => (h ^^^ b.toUInt64) * 1099511628211) h

/-- The hash of no bytes (FNV). -/
def fnvBasis : UInt64 := 1469598103934665603

/-- The bytes of a word in memory, the low one first. -/
def leBytes : Nat → Nat → Bytes
  | 0, _ => []
  | k + 1, n => UInt8.ofNat (n % 256) :: leBytes k (n / 256)

/-- The bytes of an `int64_t`. -/
def intBytes (i : Int64) : Bytes := leBytes 8 i.toUInt64.toNat

/-- `d > -9223372036854775808.0 && d < 9223372036854775808.0`. -/
def inRange (d : Binary64) : Bool :=
  decide (-(2 ^ 63 * Binary64.unit : Int) < d.value) && decide (d.value < 2 ^ 63 * Binary64.unit)

/-- In the range, and `d == (double)(int64_t)d`. -/
def integral (d : Binary64) : Bool := inRange d && d.eq (Binary64.ofInt d.trunc)

/-- The bytes hashed of a `float`: those of the equal `int`, or its own. -/
def floatBytes (f : Binary64) : Bytes :=
  let d := f.dropZeroSign
  if integral d then intBytes (Int64.ofInt d.trunc) else leBytes 8 d.bits

/-- The digit of `%x`. -/
def hexByte (x : Nat) : UInt8 := if x < 10 then 48 + UInt8.ofNat x else 87 + UInt8.ofNat x

/-- `%p`. -/
def pointerText (p : UInt64) : Bytes := 48 :: 120 :: (Nat.digits 16 p.toNat).reverse.map hexByte

mutual
/-- `vl_hash`. -/
def vlHash : KeyVal → UInt64
  | .nil => 2166136261
  | .bool b => if b then 1231 else 1237
  | .rune r => mixBytes fnvBasis (intBytes (runeInt r))
  | .int i => mixBytes fnvBasis (intBytes i)
  | .float f => mixBytes fnvBasis (floatBytes f)
  | .str b => mixBytes fnvBasis b
  | .dec d => mixBytes fnvBasis (vlDecStr d)
  | .enum var f => hashAll (mixBytes fnvBasis (pointerText var)) f
  | .box v => vlHash v
  | .tuple e => hashAll (0x9e3779b97f4a7c15 ^^^ UInt64.ofNat e.length) e
  | .struct type f => hashAll type f
  | .slice e => hashAll (0x51ce5eed ^^^ UInt64.ofNat e.length) e

/-- `hh = hh * 31 + vl_hash(e)`, over the elements. -/
def hashAll : UInt64 → List KeyVal → UInt64
  | hh, [] => hh
  | hh, v :: vs => hashAll (hh * 31 + vlHash v) vs
end

end Voila.Rt

/-!
Where equal values hash alike.

`vl_hash` is a mixing of bytes (`Digest.mix`) over what it takes from the value
(`digest`). Equal values have the same digest unless an `int` faces a `dec` in them, a rune
a `str`, an `int` a `float` that is only its rounding, or two decimals from `10 ^ 34` on
have different exponents; this is `clash`. Equal values that clash have different digests,
so nothing but a collision of the mixing makes their hashes agree.
-/

namespace Voila.Rt

open Lib

/-! ### Digests -/

/-- What `vl_hash` takes from a value. -/
inductive Digest
  | const (h : UInt64)
  | bytes (p : Bytes)
  | seq (h : UInt64) (ds : List Digest)

mutual
/-- The mixing of `vl_hash`. -/
def Digest.mix : Digest → UInt64
  | .const h => h
  | .bytes p => mixBytes fnvBasis p
  | .seq h ds => mixAll h ds

def mixAll : UInt64 → List Digest → UInt64
  | h, [] => h
  | h, d :: ds => mixAll (h * 31 + d.mix) ds
end

mutual
def digest : KeyVal → Digest
  | .nil => .const 2166136261
  | .bool b => .const (if b then 1231 else 1237)
  | .rune r => .bytes (intBytes (runeInt r))
  | .int i => .bytes (intBytes i)
  | .float f => .bytes (floatBytes f)
  | .str b => .bytes b
  | .dec d => .bytes (vlDecStr d)
  | .enum var f => .seq (mixBytes fnvBasis (pointerText var)) (digests f)
  | .box v => digest v
  | .tuple e => .seq (0x9e3779b97f4a7c15 ^^^ UInt64.ofNat e.length) (digests e)
  | .struct type f => .seq type (digests f)
  | .slice e => .seq (0x51ce5eed ^^^ UInt64.ofNat e.length) (digests e)

def digests : List KeyVal → List Digest
  | [] => []
  | v :: vs => digest v :: digests vs
end

mutual
/-- The hash of a value is the mixing of its digest. -/
theorem vlHash_eq_mix : ∀ v : KeyVal, vlHash v = (digest v).mix
  | .nil | .bool _ | .rune _ | .int _ | .float _ | .str _ | .dec _ => rfl
  | .box v => vlHash_eq_mix v
  | .enum _ f | .tuple f | .struct _ f | .slice f => hashAll_eq_mix _ f

theorem hashAll_eq_mix : ∀ (h : UInt64) (vs : List KeyVal), hashAll h vs = mixAll h (digests vs)
  | _, [] => rfl
  | h, v :: vs => by
    rw [hashAll, digests, mixAll, vlHash_eq_mix v]
    exact hashAll_eq_mix _ vs
end

/-! ### Clashes -/

/-- `f` is in the range of `int64_t`, its ends left out, and `i` is its integer part. -/
def holds (f : Binary64) (i : Int64) : Bool := inRange f && f.trunc == i.toInt

/-- A clash of values that hold no others and are not Boxes. -/
def flatClash : KeyVal → KeyVal → Bool
  | .int _, .dec _ | .dec _, .int _ => true
  | .rune _, .str _ | .str _, .rune _ => true
  | .int i, .float f | .float f, .int i => !holds f i
  | .dec a, .dec b => !a.printsAs b
  | _, _ => false

mutual
/-- Two values, or two values at one place in them, that equality compares and the hash
tells apart. -/
def clash : KeyVal → KeyVal → Bool
  | .box a, b => clash a b
  | .slice a, b => match unbox b with
    | .slice b => clashAny a b
    | _ => false
  | .tuple a, b => match unbox b with
    | .tuple b => clashAny a b
    | _ => false
  | .struct _ a, b => match unbox b with
    | .struct _ b => clashAny a b
    | _ => false
  | .enum _ a, b => match unbox b with
    | .enum _ b => clashAny a b
    | _ => false
  | .nil, b => flatClash .nil (unbox b)
  | .bool a, b => flatClash (.bool a) (unbox b)
  | .int a, b => flatClash (.int a) (unbox b)
  | .float a, b => flatClash (.float a) (unbox b)
  | .rune a, b => flatClash (.rune a) (unbox b)
  | .str a, b => flatClash (.str a) (unbox b)
  | .dec a, b => flatClash (.dec a) (unbox b)

def clashAny : List KeyVal → List KeyVal → Bool
  | a :: as, b :: bs => clash a b || clashAny as bs
  | _, _ => false
end

/-! ### Bytes -/

@[simp] theorem length_leBytes (k n : Nat) : (leBytes k n).length = k := by
  induction k generalizing n with
  | zero => rfl
  | succ k ih => simp [leBytes, ih]

theorem leBytes_inj {k n m : Nat} (hn : n < 256 ^ k) (hm : m < 256 ^ k)
    (h : leBytes k n = leBytes k m) : n = m := by
  induction k generalizing n m with
  | zero => omega
  | succ k ih =>
    rw [leBytes, leBytes, List.cons.injEq] at h
    have hmod : n % 256 = m % 256 := by
      have := congrArg UInt8.toNat h.1
      simpa using this
    have hdiv : n / 256 = m / 256 := by
      refine ih ?_ ?_ h.2
      · rw [pow_succ] at hn
        omega
      · rw [pow_succ] at hm
        omega
    omega

theorem intBytes_inj {i j : Int64} : intBytes i = intBytes j ↔ i = j := by
  constructor
  · intro h
    have hlt : ∀ w : UInt64, w.toNat < 256 ^ 8 := fun w => w.toNat_lt
    have := leBytes_inj (hlt _) (hlt _) h
    have hword := UInt64.toNat_inj.mp this
    rw [← Int64.toInt64_toUInt64 i, hword, Int64.toInt64_toUInt64]
  · rintro rfl
    rfl

/-- The word of an `int`. -/
theorem toNat_toUInt64 (i : Int64) :
    (i.toUInt64.toNat : Int) = if i.toInt < 0 then i.toInt + 2 ^ 64 else i.toInt := by
  have h := BitVec.toInt_eq_toNat_cond i.toBitVec
  rw [Int64.toInt_toBitVec, Int64.toNat_toBitVec] at h
  have hlt : i.toUInt64.toNat < 2 ^ 64 := i.toUInt64.toNat_lt
  split_ifs at h ⊢ <;> omega

/-! ### Runes and decimals -/

/-- A rune's text is too short for the bytes of an `int`. -/
theorem runeText_ne_intBytes (r : UInt32) (i : Int64) : runeText r ≠ intBytes i := by
  intro h
  have hlen : (runeText r).length = 8 := by rw [h, intBytes, length_leBytes]
  have hshort : (runeText r).length ≤ 4 := by
    unfold runeText
    dsimp only
    split_ifs <;> simp
  omega

theorem getLast_leBytes (k n : Nat) : (leBytes (k + 1) n).getLast? = some (UInt8.ofNat (n / 256 ^ k % 256)) := by
  induction k generalizing n with
  | zero => simp [leBytes]
  | succ k ih =>
    rw [leBytes, getLast?_cons, ih, Option.getD_some, Nat.div_div_eq_div_mul, pow_succ']

variable {n i : Int64} {f : Binary64}

/-- The top byte of a small `int` is all zeros or all ones. -/
theorem getLast_intBytes (h : n.toInt.natAbs < 10 ^ 8) :
    (intBytes n).getLast? = some 0 ∨ (intBytes n).getLast? = some 255 := by
  have hword := toNat_toUInt64 n
  rw [intBytes, getLast_leBytes]
  split_ifs at hword with hneg
  · right
    rw [show n.toUInt64.toNat / 256 ^ 7 % 256 = 255 by omega]
    rfl
  · left
    rw [show n.toUInt64.toNat / 256 ^ 7 % 256 = 0 by omega]
    rfl

/-- The text of a decimal is not the bytes of the `int` that it is equal to. -/
theorem vlDecStr_ne_intBytes {a : Dec} (h : vlDecCmp a (Dec.fromInt n) = 0) :
    vlDecStr a ≠ intBytes n := by
  intro heq
  have hlen : (vlDecStr a).length = 8 := by rw [heq, intBytes, length_leBytes]
  by_cases hn : n = 0
  · subst hn
    have hz : allZero a.d = true := eq_zero_of_cmp (a := Dec.fromInt 0) (by decide) (vlDecCmp_symm h)
    rw [Dec.eq_zero hz] at hlen
    exact absurd hlen (by decide)
  · rw [vlDecStr_of_int hn h] at heq hlen
    have hsmall : n.toInt.natAbs < 10 ^ 8 := by
      refine (Nat.digits_length_le_iff (by norm_num) _).mp ?_
      simp at hlen
      omega
    -- eight bytes of text end in a digit, and those of a small word do not
    have hne : Nat.digits 10 n.toInt.natAbs ≠ [] := by
      refine Nat.digits_ne_nil_iff_ne_zero.mpr fun h0 => hn (Int64.toInt_inj.mp ?_)
      simpa using Int.natAbs_eq_zero.mp h0
    obtain ⟨x, xs, hx⟩ := exists_cons_of_ne_nil hne
    have hlast : (intBytes n).getLast? = some (digitByte (Fin.ofNat 10 x)) := by
      rw [← heq, hx, reverse_cons, map_append, map_append, ← append_assoc]
      simp
    have hdigit : ∀ y : Fin 10, digitByte y ≠ 0 ∧ digitByte y ≠ 255 := by decide
    rcases getLast_intBytes hsmall with h' | h' <;> rw [hlast, Option.some.injEq] at h'
    · exact (hdigit _).1 h'
    · exact (hdigit _).2 h'

/-! ### Floats -/

theorem floatBytes_of_eq {f g : Binary64} (h : f.eq g = true) : floatBytes f = floatBytes g := by
  unfold floatBytes
  rw [Binary64.eq_iff.mp h]

theorem int_abs_le (i : Int64) : i.toInt.natAbs ≤ 2 ^ 63 := by
  have := i.toInt_lt
  have := i.le_toInt
  omega

/-- The magnitude of `2 ^ 63`. -/
theorem mag_eq_of_scale {m : Nat} (h : Binary64.scale m = 2 ^ 63 * Binary64.unit) :
    m = 1086 * 2 ^ 52 := by
  apply Binary64.scale_strictMono.injective
  rw [h]
  decide +kernel

/-- The range, for a whole number. -/
theorem inRange_iff (h : f.value = f.trunc * Binary64.unit) :
    inRange f = true ↔ -2 ^ 63 < f.trunc ∧ f.trunc < 2 ^ 63 := by
  have hu : (0 : Int) < Binary64.unit := by exact_mod_cast Binary64.unit_pos
  rw [inRange, Bool.and_eq_true, decide_eq_true_iff, decide_eq_true_iff, h, ← neg_mul,
    mul_lt_mul_iff_of_pos_right hu, mul_lt_mul_iff_of_pos_right hu]

theorem inRange_dropZeroSign (f : Binary64) : inRange f.dropZeroSign = inRange f := by
  rw [inRange, Binary64.value_dropZeroSign]
  rfl

/-- A float out of the range of `int64_t` does not have the bytes of an `int` that rounds
to it. -/
theorem bits_ne_intBytes (h : f.eq (Binary64.ofInt i.toInt) = true)
    (hout : inRange f = false) : leBytes 8 f.bits ≠ intBytes i := by
  obtain ⟨htrunc, hval⟩ := Binary64.trunc_of_eq_ofInt (int_abs_le i) h
  -- so it is `±2 ^ 63`
  have hfar : 2 ^ 63 ≤ f.trunc.natAbs := by
    by_contra hlt
    have hin : inRange f = true := (inRange_iff hval).mpr (by omega)
    rw [hin] at hout
    exact absurd hout (by decide)
  have hnear : f.trunc.natAbs = Binary64.nearest i.toInt.natAbs := by
    rw [htrunc, Int.natAbs_mul, Int.natAbs_natCast]
    by_cases h0 : i.toInt = 0
    · simp [h0, Binary64.nearest]
    · rw [Int.natAbs_sign_of_ne_zero h0, one_mul]
  have h63 : f.trunc.natAbs = 2 ^ 63 := by
    have := Binary64.nearest_le (int_abs_le i)
    omega
  have hmag : f.mag = 1086 * 2 ^ 52 := by
    apply mag_eq_of_scale
    rw [← Binary64.natAbs_value, hval, Int.natAbs_mul, h63, Int.natAbs_natCast]
  intro hbytes
  have hword : f.bits = i.toUInt64.toNat := by
    refine leBytes_inj ?_ i.toUInt64.toNat_lt hbytes
    rw [Binary64.bits, hmag]
    split <;> norm_num
  -- and the `int` of these bits rounds to another number
  have hi := toNat_toUInt64 i
  rw [← hword, Binary64.bits, hmag] at hi
  have habs : i.toInt.natAbs = 1086 * 2 ^ 52 ∨ i.toInt.natAbs = 962 * 2 ^ 52 := by
    have := int_abs_le i
    split_ifs at hi <;> omega
  rcases habs with habs | habs <;> rw [habs, h63] at hnear <;> exact absurd hnear (by decide)

/-- An `int` equal to a float has its bytes just where the float holds it. -/
theorem floatBytes_eq_intBytes
    (h : f.eq (Binary64.ofInt i.toInt) = true) : floatBytes f = intBytes i ↔ holds f i = true := by
  have hd : f.dropZeroSign.eq (Binary64.ofInt i.toInt) = true := by
    simpa [Binary64.eq, Binary64.value_dropZeroSign] using h
  obtain ⟨-, hval⟩ := Binary64.trunc_of_eq_ofInt (int_abs_le i) h
  rw [floatBytes, holds, integral, inRange_dropZeroSign, Binary64.eq_ofInt_trunc (int_abs_le i) hd,
    Bool.and_true]
  cases hin : inRange f with
  | true =>
    have hrange := (inRange_iff hval).mp hin
    have htoInt : (Int64.ofInt f.trunc).toInt = f.trunc :=
      Int64.toInt_ofInt_of_le hrange.1.le hrange.2
    rw [if_pos rfl, Binary64.trunc_dropZeroSign, intBytes_inj, ← Int64.toInt_inj, htoInt,
      Bool.true_and, beq_iff_eq]
  | false =>
    rw [if_neg (by decide)]
    refine iff_of_false (bits_ne_intBytes hd ?_) (by simp)
    rw [inRange_dropZeroSign, hin]

/-! ### Values -/

/-- The digests of values that hold no others. -/
theorem flat_exact {a b : KeyVal} (h : flatEqual a b = true) :
    flatClash a b = false ↔ digest a = digest b := by
  cases a <;> cases b <;>
    simp only [flatEqual, Bool.false_eq_true, beq_iff_eq] at h <;>
    simp only [flatClash, digest, Digest.bytes.injEq, Bool.not_eq_false', h]
  case float.float => simpa using floatBytes_of_eq h
  case int.float i f =>
    have h' : f.eq (Binary64.ofInt i.toInt) = true := by simpa [Binary64.eq, eq_comm] using h
    rw [← floatBytes_eq_intBytes h', eq_comm]
  case float.int f i => rw [← floatBytes_eq_intBytes h]
  case dec.dec => rw [vlDecStr_eq_iff h]
  case dec.int a n => simpa using vlDecStr_ne_intBytes h
  case int.dec n a => simpa [eq_comm] using vlDecStr_ne_intBytes (vlDecCmp_symm h)
  case rune.str r s =>
    simpa [← h, eq_comm] using runeText_ne_intBytes r (runeInt r)
  case str.rune s r => simpa [← h] using runeText_ne_intBytes r (runeInt r)

@[simp] theorem digest_unbox : ∀ v : KeyVal, digest (unbox v) = digest v
  | .box v => digest_unbox v
  | .nil | .bool _ | .int _ | .float _ | .rune _ | .str _ | .dec _ | .tuple _ | .slice _
  | .struct _ _ | .enum _ _ => rfl

theorem length_of_equalAll : ∀ {as bs : List KeyVal}, equalAll as bs = true → as.length = bs.length
  | [], [], _ => rfl
  | a :: as, b :: bs, h => by
    rw [equalAll, Bool.and_eq_true] at h
    simp [length_of_equalAll h.2]

mutual
/-- Equal values have one digest just where they do not clash. -/
theorem digest_exact : ∀ {a b : KeyVal}, vlEqual a b = true →
    (clash a b = false ↔ digest a = digest b)
  | .box a, b, h => by
    rw [vlEqual] at h
    rw [clash, digest]
    exact digest_exact h
  | .slice a, b, h => by
    rw [vlEqual] at h
    rw [clash, ← digest_unbox b]
    cases hb : unbox b <;> simp only [hb, Bool.false_eq_true] at h
    case slice b => simp [digest, length_of_equalAll h, digests_exact h]
  | .tuple a, b, h => by
    rw [vlEqual] at h
    rw [clash, ← digest_unbox b]
    cases hb : unbox b <;> simp only [hb, Bool.false_eq_true] at h
    case tuple b => simp [digest, length_of_equalAll h, digests_exact h]
  | .struct type a, b, h => by
    rw [vlEqual] at h
    rw [clash, ← digest_unbox b]
    cases hb : unbox b <;> simp only [hb, Bool.false_eq_true, Bool.and_eq_true, beq_iff_eq] at h
    case struct type' b => simp [digest, h.1, digests_exact h.2]
  | .enum var a, b, h => by
    rw [vlEqual] at h
    rw [clash, ← digest_unbox b]
    cases hb : unbox b <;> simp only [hb, Bool.false_eq_true, Bool.and_eq_true, beq_iff_eq] at h
    case enum var' b => simp [digest, h.1, digests_exact h.2]
  | .nil, b, h | .bool _, b, h | .int _, b, h | .float _, b, h | .rune _, b, h | .str _, b, h
  | .dec _, b, h => by
    rw [vlEqual] at h
    rw [clash, ← digest_unbox b]
    exact flat_exact h

theorem digests_exact : ∀ {as bs : List KeyVal}, equalAll as bs = true →
    (clashAny as bs = false ↔ digests as = digests bs)
  | [], [], _ => by simp [clashAny]
  | a :: as, b :: bs, h => by
    rw [equalAll, Bool.and_eq_true] at h
    rw [clashAny, Bool.or_eq_false_iff, digests, digests, List.cons.injEq, digest_exact h.1,
      digests_exact h.2]
end

/-- The keys of the runtime's maps. -/
def keyVals : Keys KeyVal := ⟨.nil, vlEqual, vlHash⟩

end Voila.Rt
