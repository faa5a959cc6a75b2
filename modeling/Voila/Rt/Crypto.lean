import Voila.Lib.Chunks
import Voila.Rt.Dec

/-!
# Voila.Rt.Crypto

The digests of the runtime (`crypto.c`): the incremental driver of the four algorithms and the HMAC over
them. The block functions are parameters.

An array that is written to has its length checked at each write, and `none` is a write behind its end. What
is wiped when a MAC is done is not modelled.
-/

namespace Voila.Rt.Crypto

open Voila.Rt (Bytes)

inductive CryAlg
  | md5
  | sha1
  | sha256
  | sha512
  deriving DecidableEq

/-- `CRY_MAXBLOCK`. -/
def maxBlock : Nat := 128

/-- The words of the state: the side of the union that an algorithm uses. -/
def Words : CryAlg → Type
  | .sha512 => Vector UInt64 8
  | _ => Vector UInt32 8

structure CryCtx (a : CryAlg) where
  /-- Bytes absorbed. -/
  len : UInt64
  nbuf : Nat
  buf : Bytes
  h : Words a

/-! ### Bytes of words -/

/-- `wr_be32`. -/
def wrBe32 (v : UInt32) : Bytes := [(v >>> 24).toUInt8, (v >>> 16).toUInt8, (v >>> 8).toUInt8, v.toUInt8]

/-- `wr_le32`. -/
def wrLe32 (v : UInt32) : Bytes := [v.toUInt8, (v >>> 8).toUInt8, (v >>> 16).toUInt8, (v >>> 24).toUInt8]

/-- `wr_be64`. -/
def wrBe64 (v : UInt64) : Bytes := wrBe32 (v >>> 32).toUInt32 ++ wrBe32 v.toUInt32

/-! ### The four algorithms -/

/-- `alg_block`. -/
def algBlock (a : CryAlg) : Nat := if a = .sha512 then 128 else 64

/-- `alg_digest`. -/
def algDigest : CryAlg → Nat
  | .md5 => 16
  | .sha1 => 20
  | .sha256 => 32
  | .sha512 => 64

/-- The words that `cry_init` starts with. -/
def cryStart : (a : CryAlg) → Words a
  | .md5 => (#v[0x67452301, 0xefcdab89, 0x98badcfe, 0x10325476, 0, 0, 0, 0] : Vector UInt32 8)
  | .sha1 => (#v[0x67452301, 0xefcdab89, 0x98badcfe, 0x10325476, 0xc3d2e1f0, 0, 0, 0] : Vector UInt32 8)
  | .sha256 =>
    (#v[0x6a09e667, 0xbb67ae85, 0x3c6ef372, 0xa54ff53a, 0x510e527f, 0x9b05688c, 0x1f83d9ab, 0x5be0cd19] :
      Vector UInt32 8)
  | .sha512 =>
    (#v[0x6a09e667f3bcc908, 0xbb67ae8584caa73b, 0x3c6ef372fe94f82b, 0xa54ff53a5f1d36f1, 0x510e527fade682d1,
      0x9b05688c2b3e6c1f, 0x1f83d9abfb41bd6b, 0x5be0cd19137e2179] : Vector UInt64 8)

/-- `cry_init`. -/
def cryInit (a : CryAlg) : CryCtx a := ⟨0, 0, List.replicate maxBlock 0, cryStart a⟩

/-- The digest that the end of `cry_final` writes. -/
def cryOut : (a : CryAlg) → Words a → Bytes
  | .md5, h => ((h : Vector UInt32 8).toList.take 4).flatMap wrLe32
  | .sha1, h => ((h : Vector UInt32 8).toList.take 5).flatMap wrBe32
  | .sha256, h => (h : Vector UInt32 8).toList.flatMap wrBe32
  | .sha512, h => (h : Vector UInt64 8).toList.flatMap wrBe64

/-! ### The driver -/

/-- `memcpy` to a place in an array. -/
def blit (dst : Bytes) (i : Nat) (src : Bytes) : Option Bytes :=
  if i + src.length ≤ dst.length then some (dst.take i ++ src ++ dst.drop (i + src.length)) else none

section

-- The four block functions, as `cry_compress` chooses among them.
variable (compress : (a : CryAlg) → Words a → Bytes → Words a) {a : CryAlg}

/-- The loop of `cry_update` over whole blocks, and what it leaves. -/
def blockLoop : Nat → Words a → Bytes → Words a × Bytes
  | 0, h, p => (h, p)
  | k + 1, h, p =>
    if algBlock a ≤ p.length then blockLoop k (compress a h (p.take (algBlock a))) (p.drop (algBlock a))
    else (h, p)

/-- `cry_update` behind the partial block. -/
def updateRest (c : CryCtx a) (p : Bytes) : Option (CryCtx a) := do
  let (h, p) := blockLoop compress p.length c.h p
  let c := { c with h }
  if p ≠ [] then
    let buf ← blit c.buf 0 p
    some { c with buf, nbuf := p.length }
  else some c

/-- `cry_update`. -/
def cryUpdate (c : CryCtx a) (p : Bytes) : Option (CryCtx a) := do
  let bs := algBlock a
  let c := { c with len := c.len + p.length.toUInt64 }
  if c.nbuf ≠ 0 then
    let want := min (bs - c.nbuf) p.length
    let buf ← blit c.buf c.nbuf (p.take want)
    let c := { c with buf, nbuf := c.nbuf + want }
    if c.nbuf < bs then some c
    else
      updateRest compress { c with h := compress a c.h (c.buf.take bs), nbuf := 0 } (p.drop want)
  else updateRest compress c p

/-- `pad[npad++] = b`. -/
def padPut (pad : Bytes) (b : UInt8) : Option Bytes :=
  if pad.length < maxBlock * 2 then some (pad ++ [b]) else none

/-- The loop of `cry_final` over the zeros; no more of them than the array can hold. -/
def padZeros (a : CryAlg) (nbuf lenfield : Nat) : Nat → Bytes → Option Bytes
  | 0, _ => none
  | k + 1, pad =>
    if (nbuf + pad.length + lenfield) % algBlock a ≠ 0 then do
      let pad ← padPut pad 0
      padZeros a nbuf lenfield k pad
    else some pad

/-- The length at the end of the padding. -/
def padLength (a : CryAlg) (lenfield : Nat) (bits : UInt64) (pad : Bytes) : Option Bytes :=
  if a = .md5 then
    ((List.range 8).map fun i => (bits >>> (8 * i).toUInt64).toUInt8).foldlM padPut pad
  else do
    let pad ← (if lenfield = 16 then (List.replicate 8 0).foldlM padPut pad else some pad)
    (wrBe64 bits).foldlM padPut pad

/-- `cry_final`. -/
def cryFinal (c : CryCtx a) : Option Bytes := do
  let lenfield := if a = .sha512 then 16 else 8
  let bits := c.len * 8
  let pad ← padPut [] 0x80
  let pad ← padZeros a c.nbuf lenfield (maxBlock * 2 + 1) pad
  let pad ← padLength a lenfield bits pad
  let c ← cryUpdate compress c pad
  some (cryOut a c.h)

/-- `cry_hash`. -/
def cryHash (a : CryAlg) (p : Bytes) : Option Bytes := do
  let c ← cryUpdate compress (cryInit a) p
  cryFinal compress c

/-- `cry_hmac`. -/
def cryHmac (a : CryAlg) (key msg : Bytes) : Option Bytes := do
  let bs := algBlock a
  let k := List.replicate bs 0
  let src ← (if key.length > bs then cryHash compress a key else some key)
  let k ← blit k 0 src
  let c ← cryUpdate compress (cryInit a) (k.map (· ^^^ 0x36))
  let c ← cryUpdate compress c msg
  let inner ← cryFinal compress c
  let c ← cryUpdate compress (cryInit a) (k.map (· ^^^ 0x5c))
  let c ← cryUpdate compress c inner
  cryFinal compress c

end

end Voila.Rt.Crypto

/-!
The digest as the standards define it (`digest`: the block function iterated over the padded message) and the
HMAC of RFC 2104 over a digest. A context stands for the message that went into it, however it was cut
(`Behind`).
-/

namespace Voila.Rt.Crypto

open Voila.Lib
open Voila.Rt (Bytes)

/-! ### The standards -/

/-- The bytes of a number, the low ones first. -/
def leBytes (width n : Nat) : Bytes := (List.range width).map fun i => UInt8.ofNat (n / 256 ^ i)

/-- The bytes of a number, the high ones first. -/
def beBytes (width n : Nat) : Bytes := (leBytes width n).reverse

/-- The width of the bit length. -/
def lengthField (a : CryAlg) : Nat := if a = .sha512 then 16 else 8

/-- The bit length: MD5 has the low bytes first. -/
def lengthBytes (a : CryAlg) (bits : Nat) : Bytes :=
  if a = .md5 then leBytes (lengthField a) bits else beBytes (lengthField a) bits

/-- The zeros between the `0x80` and the bit length. -/
def zeros (a : CryAlg) (n : Nat) : Nat := (algBlock a - (n + 1 + lengthField a) % algBlock a) % algBlock a

/-- The padding of a message of `n` bytes. -/
def padding (a : CryAlg) (n bits : Nat) : Bytes := 0x80 :: (List.replicate (zeros a n) 0 ++ lengthBytes a bits)

/-- The block function iterated over a padded message. -/
def iterated (compress : (a : CryAlg) → Words a → Bytes → Words a) (a : CryAlg) (bits : Nat) (message : Bytes) :
    Bytes :=
  cryOut a ((chunks (algBlock a) (message ++ padding a message.length bits)).foldl (compress a) (cryStart a))

/-- The digest of a message. -/
def digest (compress : (a : CryAlg) → Words a → Bytes → Words a) (a : CryAlg) (message : Bytes) : Bytes :=
  iterated compress a (8 * message.length) message

/-- A key of one block: a longer one is hashed first. -/
def blockKey (block : Nat) (hash : Bytes → Bytes) (key : Bytes) : Bytes :=
  let key := if key.length > block then hash key else key
  key ++ List.replicate (block - key.length) 0

/-- RFC 2104. -/
def hmac (block : Nat) (hash : Bytes → Bytes) (key message : Bytes) : Bytes :=
  let key := blockKey block hash key
  hash (key.map (· ^^^ 0x5c) ++ hash (key.map (· ^^^ 0x36) ++ message))

/-! ### Sizes -/

theorem algBlock_pos (a : CryAlg) : 0 < algBlock a := by
  cases a <;> decide

theorem algBlock_le (a : CryAlg) : algBlock a ≤ maxBlock := by
  cases a <;> decide

theorem algDigest_le (a : CryAlg) : algDigest a ≤ algBlock a := by
  cases a <;> decide

theorem lengthField_le (a : CryAlg) : lengthField a ≤ 16 := by
  cases a <;> decide

/-- With the zeros the padding ends a block. -/
theorem zeros_fill (a : CryAlg) (n : Nat) : algBlock a ∣ n + 1 + zeros a n + lengthField a := by
  apply Nat.dvd_of_mod_eq_zero
  cases a <;> simp only [zeros, algBlock, lengthField, reduceCtorEq, if_true, if_false] <;> omega

/-- Fewer zeros do not. -/
theorem zeros_least (a : CryAlg) (n : Nat) {k : Nat} (fewer : k < zeros a n) :
    ¬ algBlock a ∣ n + 1 + k + lengthField a := by
  intro fills
  have none := Nat.mod_eq_zero_of_dvd fills
  cases a <;> simp only [zeros, algBlock, lengthField, reduceCtorEq, if_true, if_false] at * <;> omega

theorem zeros_lt (a : CryAlg) (n : Nat) : zeros a n < algBlock a := Nat.mod_lt _ (algBlock_pos a)

/-- The zeros depend on what fills no block. -/
theorem zeros_rest (a : CryAlg) {full n : Nat} (h : algBlock a ∣ full) : zeros a (full + n) = zeros a n := by
  obtain ⟨k, rfl⟩ := h
  have same : algBlock a * k + n + 1 + lengthField a = n + 1 + lengthField a + algBlock a * k := by omega
  rw [zeros, zeros, same, Nat.add_mul_mod_self_left]

/-! ### Bytes of words -/

theorem leBytes_length (width n : Nat) : (leBytes width n).length = width := by
  simp [leBytes]

theorem lengthBytes_length (a : CryAlg) (bits : Nat) : (lengthBytes a bits).length = lengthField a := by
  rw [lengthBytes]
  split <;> simp [beBytes, leBytes_length]

theorem padding_length (a : CryAlg) (n bits : Nat) :
    (padding a n bits).length = 1 + zeros a n + lengthField a := by
  simp [padding, lengthBytes_length]
  omega

theorem leBytes_add (v w n : Nat) : leBytes (v + w) n = leBytes v n ++ leBytes w (n / 256 ^ v) := by
  simp only [leBytes, List.range_add, List.map_append, List.map_map]
  congr 1
  apply List.map_congr_left
  intro i _
  rw [Function.comp_apply, Nat.pow_add, Nat.div_div_eq_div_mul]

variable {i : Nat} {dst src : Bytes}

/-- A byte of a word is the byte at its place. -/
theorem shifted_byte (v : UInt64) (h : i < 8) :
    (v >>> (8 * i).toUInt64).toUInt8 = UInt8.ofNat (v.toNat / 256 ^ i) := by
  have small : 8 * i % 2 ^ 64 % 64 = 8 * i := by omega
  apply UInt8.toNat_inj.mp
  simp only [UInt64.toNat_toUInt8, UInt64.toNat_shiftRight, UInt64.toNat_ofNat', Nat.toUInt64_eq, UInt8.toNat_ofNat',
    Nat.shiftRight_eq_div_pow, small, Nat.pow_mul]

theorem shifts_eq (v : UInt64) :
    ((List.range 8).map fun i => (v >>> (8 * i).toUInt64).toUInt8) = leBytes 8 v.toNat := by
  apply List.map_congr_left
  intro i h
  exact shifted_byte v (List.mem_range.mp h)

/-- A byte of a half of a word. -/
theorem half_byte (v : UInt32) (w : UInt64) (shift : UInt32) {i j : Nat} (half : v.toNat = w.toNat / 256 ^ j % 2 ^ 32)
    (place : shift.toNat = 8 * i) (h : i < 4) : (v >>> shift).toUInt8 = UInt8.ofNat (w.toNat / 256 ^ (j + i)) := by
  apply UInt8.toNat_inj.mp
  rw [UInt32.toNat_toUInt8, UInt32.toNat_shiftRight, UInt8.toNat_ofNat', Nat.shiftRight_eq_div_pow, half, place,
    Nat.pow_add, ← Nat.div_div_eq_div_mul, Nat.mod_eq_of_lt (by omega : 8 * i < 32), Nat.pow_mul]
  generalize w.toNat / 256 ^ j = n
  interval_cases i <;> simp only [Nat.reducePow] <;> omega

theorem wrBe64_eq (v : UInt64) : wrBe64 v = beBytes 8 v.toNat := by
  have high : (v >>> 32).toUInt32.toNat = v.toNat / 256 ^ 4 % 2 ^ 32 := by
    simp [Nat.shiftRight_eq_div_pow]
  have low : v.toUInt32.toNat = v.toNat / 256 ^ 0 % 2 ^ 32 := by simp
  have last (u : UInt32) : u.toUInt8 = (u >>> 0).toUInt8 := by simp
  simp only [wrBe64, wrBe32, beBytes, leBytes, List.range_succ, List.range_zero, List.nil_append, List.map_cons,
    List.map_nil, List.reverse_cons, List.reverse_nil, List.cons_append]
  rw [last v.toUInt32, last (v >>> 32).toUInt32, half_byte _ v 24 (i := 3) high rfl (by omega),
    half_byte _ v 16 (i := 2) high rfl (by omega), half_byte _ v 8 (i := 1) high rfl (by omega),
    half_byte _ v 0 (i := 0) high rfl (by omega), half_byte _ v 24 (i := 3) low rfl (by omega),
    half_byte _ v 16 (i := 2) low rfl (by omega), half_byte _ v 8 (i := 1) low rfl (by omega),
    half_byte _ v 0 (i := 0) low rfl (by omega)]

/-- The high half of a bit length that a word holds. -/
theorem beBytes_double {n : Nat} (h : n < 2 ^ 64) : beBytes 16 n = List.replicate 8 0 ++ beBytes 8 n := by
  have high : n / 256 ^ 8 = 0 := Nat.div_eq_of_lt (by omega)
  rw [beBytes, show 16 = 8 + 8 from rfl, leBytes_add, high, List.reverse_append]
  rfl

/-! ### The buffer -/

theorem blit_eq (fits : i + src.length ≤ dst.length) :
    blit dst i src = some (dst.take i ++ src ++ dst.drop (i + src.length)) := if_pos fits

theorem blit_length (fits : i + src.length ≤ dst.length) :
    (dst.take i ++ src ++ dst.drop (i + src.length)).length = dst.length := by
  simp
  omega

/-- What is in front of the place behind the copied bytes. -/
theorem blit_front (fits : i + src.length ≤ dst.length) :
    (dst.take i ++ src ++ dst.drop (i + src.length)).take (i + src.length) = dst.take i ++ src := by
  have front : (dst.take i ++ src).length = i + src.length := by
    rw [List.length_append, List.length_take_of_le (by omega)]
  rw [← front, List.take_left]

/-! ### A context and its message -/

section

variable {compress : (a : CryAlg) → Words a → Bytes → Words a} {a : CryAlg}

/-- A context stands for a message: its full blocks are in the words, the rest is in the buffer. -/
structure Behind (compress : (a : CryAlg) → Words a → Bytes → Words a) (c : CryCtx a) (message : Bytes) : Prop where
  consumed : Consumed (compress a) (algBlock a) (cryStart a) message c.h (c.buf.take c.nbuf)
  room : c.buf.length = maxBlock
  held : c.nbuf < algBlock a
  counted : c.len = message.length.toUInt64

theorem Behind.init : Behind compress (cryInit a) [] :=
  ⟨.nil (algBlock_pos a), List.length_replicate .., algBlock_pos a, rfl⟩

theorem blockLoop_consumed {k : Nat} {h : Words a} {m p : Bytes} (fuel : p.length ≤ k)
    (consumed : Consumed (compress a) (algBlock a) (cryStart a) m h []) :
    ∃ m', m ++ p = m' ++ (blockLoop compress k h p).2 ∧
      Consumed (compress a) (algBlock a) (cryStart a) m' (blockLoop compress k h p).1 [] ∧
      (blockLoop compress k h p).2.length < algBlock a := by
  have pos := algBlock_pos a
  induction k generalizing h m p with
  | zero =>
    have none : p = [] := List.eq_nil_of_length_eq_zero (Nat.le_zero.mp fuel)
    subst none
    exact ⟨m, rfl, consumed, pos⟩
  | succ k ih =>
    rw [blockLoop]
    by_cases full : algBlock a ≤ p.length
    · rw [if_pos full]
      have block := consumed.block (p := p.take (algBlock a))
        (by rw [List.nil_append, List.length_take_of_le full])
      rw [List.nil_append] at block
      obtain ⟨m', cut, consumed', short⟩ := ih (p := p.drop (algBlock a))
        (by rw [List.length_drop]; omega) block
      rw [List.append_assoc, List.take_append_drop] at cut
      exact ⟨m', cut, consumed', short⟩
    · rw [if_neg full]
      exact ⟨m, rfl, consumed, Nat.lt_of_not_le full⟩

variable {c : CryCtx a} {m pad : Bytes}

/-- Behind an empty buffer whole blocks go past it, and what is left fills it from the start. -/
theorem updateRest_behind {m p : Bytes}
    (consumed : Consumed (compress a) (algBlock a) (cryStart a) m c.h []) (room : c.buf.length = maxBlock)
    (empty : c.nbuf = 0) (counted : c.len = (m ++ p).length.toUInt64) :
    ∃ c', updateRest compress c p = some c' ∧ Behind compress c' (m ++ p) := by
  obtain ⟨m', cut, consumed', short⟩ := blockLoop_consumed (Nat.le_refl p.length) consumed
  rw [updateRest]
  generalize blockLoop compress p.length c.h p = out at cut consumed' short
  obtain ⟨h, rest⟩ := out
  dsimp only at cut consumed' short ⊢
  have le := algBlock_le a
  by_cases left : rest = []
  · rw [if_neg (not_not_intro left)]
    rw [left, List.append_nil] at cut
    refine ⟨_, rfl, ⟨?_, room, ?_, counted⟩⟩
    · rw [cut, empty]
      exact consumed'
    · rw [empty]
      exact algBlock_pos a
  · have fits : 0 + rest.length ≤ c.buf.length := by omega
    rw [if_pos left, blit_eq fits]
    refine ⟨_, rfl, ⟨?_, (blit_length fits).trans room, short, counted⟩⟩
    have front := blit_front fits
    rw [Nat.zero_add] at front
    dsimp only
    rw [Nat.zero_add, front, cut]
    exact consumed'.more short

theorem count_add (m p : Bytes) : m.length.toUInt64 + p.length.toUInt64 = (m ++ p).length.toUInt64 := by
  simp

/-- One `cry_update`. -/
theorem cryUpdate_behind (h : Behind compress c m) (p : Bytes) :
    ∃ c', cryUpdate compress c p = some c' ∧ Behind compress c' (m ++ p) := by
  have le := algBlock_le a
  have room := h.room
  have held := h.held
  have counted : c.len + p.length.toUInt64 = (m ++ p).length.toUInt64 := by rw [h.counted, count_add]
  rw [cryUpdate]
  dsimp only
  by_cases partly : c.nbuf ≠ 0
  · rw [if_pos partly]
    generalize width : min (algBlock a - c.nbuf) p.length = want
    have topped : (p.take want).length = want := List.length_take_of_le (by omega)
    have fits : c.nbuf + (p.take want).length ≤ c.buf.length := by omega
    have front := blit_front fits
    have rest : (c.buf.take c.nbuf).length = c.nbuf := List.length_take_of_le (by omega)
    rw [blit_eq fits, Option.bind_eq_bind, Option.bind_some]
    rw [topped] at front ⊢
    by_cases short : c.nbuf + want < algBlock a
    · -- the piece is used up before the block is full
      have all : p.take want = p := List.take_of_length_le (by omega)
      rw [if_pos short]
      refine ⟨_, rfl, ⟨?_, ?_, short, counted⟩⟩
      · dsimp only
        rw [front, all]
        exact h.consumed.more (by rw [List.length_append, rest]; omega)
      · have size := (blit_length fits).trans room
        rwa [topped] at size
    · have filled : c.nbuf + want = algBlock a := by omega
      rw [if_neg short]
      have block := h.consumed.block (p := p.take want) (by rw [List.length_append, rest, topped, filled])
      rw [← front, filled] at block
      have cut : m ++ p = m ++ p.take want ++ p.drop want := by
        rw [List.append_assoc, List.take_append_drop]
      rw [cut] at counted ⊢
      have room' := (blit_length fits).trans room
      rw [topped] at room'
      rw [filled] at room' ⊢
      exact updateRest_behind block room' rfl counted
  · have empty : c.nbuf = 0 := not_not.mp partly
    rw [if_neg partly]
    have consumed := h.consumed
    rw [empty, List.take_zero] at consumed
    exact updateRest_behind consumed room empty counted

/-- Any cutting of a message into `cry_update` calls. -/
theorem updates_behind (h : Behind compress c m) (ps : List Bytes) :
    ∃ c', ps.foldlM (cryUpdate compress) c = some c' ∧ Behind compress c' (m ++ ps.flatten) := by
  induction ps generalizing c m with
  | nil => exact ⟨c, rfl, by rwa [List.flatten_nil, List.append_nil]⟩
  | cons p ps ih =>
    obtain ⟨c₁, run, h₁⟩ := cryUpdate_behind h p
    obtain ⟨c₂, runs, h₂⟩ := ih h₁
    refine ⟨c₂, ?_, ?_⟩
    · rw [List.foldlM_cons, run]
      exact runs
    · rwa [List.flatten_cons, ← List.append_assoc]

/-! ### The padding -/

theorem padPut_all {pad bs : Bytes} (fits : pad.length + bs.length ≤ maxBlock * 2) :
    bs.foldlM padPut pad = some (pad ++ bs) := by
  induction bs generalizing pad with
  | nil => simp
  | cons b bs ih =>
    rw [List.length_cons] at fits
    have put : padPut pad b = some (pad ++ [b]) := if_pos (by omega)
    rw [List.foldlM_cons, put, Option.bind_eq_bind, Option.bind_some, ih (by simp; omega), List.append_assoc,
      List.singleton_append]

/-- The loop puts the zeros that are left, and stops. -/
theorem padZeros_eq {nbuf lenfield fuel k : Nat}
    (fill : algBlock a ∣ nbuf + (pad.length + k) + lenfield)
    (least : ∀ j < k, ¬ algBlock a ∣ nbuf + (pad.length + j) + lenfield) (enough : k < fuel)
    (fits : pad.length + k ≤ maxBlock * 2) :
    padZeros a nbuf lenfield fuel pad = some (pad ++ List.replicate k 0) := by
  induction k generalizing fuel pad with
  | zero =>
    obtain ⟨fuel, rfl⟩ := Nat.exists_eq_succ_of_ne_zero (Nat.ne_of_gt enough)
    rw [Nat.add_zero] at fill
    rw [padZeros, if_neg (not_not_intro (Nat.mod_eq_zero_of_dvd fill)), List.replicate_zero, List.append_nil]
  | succ k ih =>
    obtain ⟨fuel, rfl⟩ := Nat.exists_eq_succ_of_ne_zero (Nat.ne_of_gt (Nat.zero_lt_of_lt enough))
    have more : (nbuf + pad.length + lenfield) % algBlock a ≠ 0 := by
      intro none
      exact least 0 (Nat.succ_pos k) (Nat.dvd_of_mod_eq_zero none)
    have put : padPut pad 0 = some (pad ++ [0]) := if_pos (by omega)
    have one : (pad ++ [(0 : UInt8)]).length = pad.length + 1 := by simp
    rw [padZeros, if_pos more, put, Option.bind_eq_bind, Option.bind_some, ih, List.append_assoc,
      List.singleton_append, ← List.replicate_succ]
    · rwa [one, Nat.add_assoc pad.length, Nat.add_comm 1]
    · intro j lt
      rw [one, Nat.add_assoc pad.length, Nat.add_comm 1]
      exact least (j + 1) (Nat.succ_lt_succ lt)
    · omega
    · omega

theorem padLength_eq {bits : UInt64} (fits : pad.length + lengthField a ≤ maxBlock * 2) :
    padLength a (lengthField a) bits pad = some (pad ++ lengthBytes a bits.toNat) := by
  have eight : (wrBe64 bits).length = 8 := rfl
  rw [padLength, lengthBytes]
  by_cases md5 : a = .md5
  · subst md5
    rw [if_pos rfl, if_pos rfl, shifts_eq]
    exact padPut_all (by rw [leBytes_length]; exact fits)
  · rw [if_neg md5, if_neg md5]
    by_cases wide : lengthField a = 16
    · rw [if_pos wide, padPut_all (by simp; omega), Option.bind_eq_bind, Option.bind_some,
        padPut_all (by simp; omega), wide, beBytes_double bits.toNat_lt, wrBe64_eq, List.append_assoc]
    · have narrow : lengthField a = 8 := by
        cases a <;> first | rfl | exact absurd rfl wide
      rw [if_neg wide, Option.bind_eq_bind, Option.bind_some, padPut_all (by omega), narrow, wrBe64_eq]

/-- `cry_final` puts the padding behind the message, never behind the end of its array. -/
theorem cryFinal_eq (h : Behind compress c m) :
    cryFinal compress c = some (iterated compress a (8 * m.length % 2 ^ 64) m) := by
  obtain ⟨full, cut, whole, -⟩ := h.consumed.blocks
  have le := algBlock_le a
  have room := h.room
  have held := h.held
  have rest : (c.buf.take c.nbuf).length = c.nbuf := List.length_take_of_le (by omega)
  have size : m.length = full.length + c.nbuf := by rw [cut, List.length_append, rest]
  have count : zeros a m.length = zeros a c.nbuf := by rw [size, zeros_rest a whole]
  have few := zeros_lt a c.nbuf
  have wide := lengthField_le a
  have array : 16 < maxBlock := by decide
  have bits : (c.len * 8).toNat = 8 * m.length % 2 ^ 64 := by
    rw [h.counted]
    simp
    omega
  have first : padPut [] 0x80 = some [0x80] := rfl
  have middle : padZeros a c.nbuf (lengthField a) (maxBlock * 2 + 1) [0x80] =
      some ([0x80] ++ List.replicate (zeros a m.length) 0) := by
    rw [count]
    apply padZeros_eq
    · have fill := zeros_fill a c.nbuf
      rwa [Nat.add_assoc c.nbuf] at fill
    · intro j lt
      have least := zeros_least a c.nbuf lt
      rwa [Nat.add_assoc c.nbuf] at least
    · omega
    · simp only [List.length_singleton]
      omega
  have last : padLength a (lengthField a) (c.len * 8) ([0x80] ++ List.replicate (zeros a m.length) 0) =
      some (padding a m.length (8 * m.length % 2 ^ 64)) := by
    rw [padLength_eq, bits, List.append_assoc, List.singleton_append, padding]
    simp only [List.length_append, List.length_singleton, List.length_replicate]
    omega
  obtain ⟨c', update, h'⟩ := cryUpdate_behind h (padding a m.length (8 * m.length % 2 ^ 64))
  have blocks : algBlock a ∣ (m ++ padding a m.length (8 * m.length % 2 ^ 64)).length := by
    have fill := zeros_fill a m.length
    rw [List.length_append, padding_length]
    rwa [Nat.add_assoc m.length, Nat.add_assoc m.length] at fill
  have fields : (if a = .sha512 then 16 else 8) = lengthField a := rfl
  simp only [cryFinal, fields, first, middle, last, update, Option.bind_eq_bind, Option.bind_some]
  rw [iterated, h'.consumed.whole blocks]

/-! ### Digests and MACs -/

theorem cryOut_length (h : Words a) : (cryOut a h).length = algDigest a := by
  have narrow (v : Vector UInt32 8) : v.toList.length = 8 := Vector.length_toList
  have wide (v : Vector UInt64 8) : v.toList.length = 8 := Vector.length_toList
  cases a with
  | md5 => simp [cryOut, algDigest, wrLe32, narrow h]
  | sha1 => simp [cryOut, algDigest, wrBe32, narrow h]
  | sha256 => simp [cryOut, algDigest, wrBe32, narrow h]
  | sha512 => simp [cryOut, algDigest, wrBe64, wrBe32, wide h]

/-- The digest that the code gives for a message: its bit length is a word. -/
def hashed (compress : (a : CryAlg) → Words a → Bytes → Words a) (a : CryAlg) (message : Bytes) : Bytes :=
  iterated compress a (8 * message.length % 2 ^ 64) message

theorem hashed_length (message : Bytes) : (hashed compress a message).length = algDigest a := cryOut_length _

theorem hashed_digest {message : Bytes} (short : message.length < 2 ^ 61) :
    hashed compress a message = digest compress a message := by
  rw [hashed, digest, Nat.mod_eq_of_lt (by omega)]

theorem pieces_hashed (ps : List Bytes) :
    (ps.foldlM (cryUpdate compress) (cryInit a)).bind (cryFinal compress) = some (hashed compress a ps.flatten) := by
  obtain ⟨c, run, behind⟩ := updates_behind (Behind.init : Behind compress (cryInit a) []) ps
  rw [run, Option.bind_some]
  exact cryFinal_eq behind

theorem cryHash_eq (p : Bytes) : cryHash compress a p = some (hashed compress a p) := by
  obtain ⟨c, update, behind⟩ := cryUpdate_behind (Behind.init : Behind compress (cryInit a) []) p
  rw [cryHash, update, Option.bind_eq_bind, Option.bind_some, cryFinal_eq behind]
  rfl

/-- Two pieces one behind the other. -/
theorem two_hashed (p q : Bytes) :
    ∃ c₁ c₂ : CryCtx a, cryUpdate compress (cryInit a) p = some c₁ ∧ cryUpdate compress c₁ q = some c₂ ∧
      cryFinal compress c₂ = some (hashed compress a (p ++ q)) := by
  obtain ⟨c₁, first, behind₁⟩ := cryUpdate_behind (Behind.init : Behind compress (cryInit a) []) p
  obtain ⟨c₂, second, behind₂⟩ := cryUpdate_behind behind₁ q
  exact ⟨c₁, c₂, first, second, cryFinal_eq behind₂⟩

/-- The key in its block. -/
theorem blit_key {block : Nat} {key : Bytes} (fits : key.length ≤ block) :
    blit (List.replicate block 0) 0 key = some (key ++ List.replicate (block - key.length) 0) := by
  rw [blit_eq (by simpa using fits), List.take_zero, List.nil_append, Nat.zero_add, List.drop_replicate]

theorem cryHmac_eq (key msg : Bytes) :
    cryHmac compress a key msg = some (hmac (algBlock a) (hashed compress a) key msg) := by
  have block : ∃ src : Bytes, (if key.length > algBlock a then cryHash compress a key else some key) = some src ∧
      src.length ≤ algBlock a ∧
      src ++ List.replicate (algBlock a - src.length) 0 = blockKey (algBlock a) (hashed compress a) key := by
    rw [blockKey, cryHash_eq]
    split
    · exact ⟨_, rfl, by rw [hashed_length]; exact algDigest_le a, rfl⟩
    · exact ⟨_, rfl, by omega, rfl⟩
  obtain ⟨src, source, fits, whole⟩ := block
  obtain ⟨c₁, c₂, first, second, inner⟩ := @two_hashed compress a
    ((blockKey (algBlock a) (hashed compress a) key).map (· ^^^ 0x36)) msg
  obtain ⟨d₁, d₂, third, fourth, outer⟩ := @two_hashed compress a
    ((blockKey (algBlock a) (hashed compress a) key).map (· ^^^ 0x5c))
    (hashed compress a ((blockKey (algBlock a) (hashed compress a) key).map (· ^^^ 0x36) ++ msg))
  rw [cryHmac]
  simp only [source, Option.bind_eq_bind, Option.bind_some, blit_key fits, whole, first, second, inner, third, fourth,
    outer]
  rfl

end

/-- One function is the digest that the code gives for a message, whole or in any pieces: behind `cry_final` no
write misses its array. It is the standard's digest of every message shorter than 2^61 bytes, and the MAC of any
key and message is RFC 2104's over it. -/
theorem digests_standard (compress : (a : CryAlg) → Words a → Bytes → Words a) (a : CryAlg) :
    ∃ hash : Bytes → Bytes,
      (∀ message, message.length < 2 ^ 61 → hash message = digest compress a message) ∧
      (∀ pieces : List Bytes,
        (pieces.foldlM (cryUpdate compress) (cryInit a)).bind (cryFinal compress) = some (hash pieces.flatten)) ∧
      (∀ message, cryHash compress a message = some (hash message)) ∧
      ∀ key message, cryHmac compress a key message = some (hmac (algBlock a) hash key message) :=
  ⟨hashed compress a, fun _ short => hashed_digest short, pieces_hashed, cryHash_eq, cryHmac_eq⟩

theorem digests_standard_abc :
    ∃ hash : Bytes → Bytes,
      hash [0x61, 0x62, 0x63] = digest (fun _ h _ => h) .md5 [0x61, 0x62, 0x63] ∧
      ([[0x61], [0x62, 0x63]].foldlM (cryUpdate fun _ h _ => h) (cryInit .md5)).bind (cryFinal fun _ h _ => h) =
        some (hash [0x61, 0x62, 0x63]) := by
  obtain ⟨hash, short, pieces, _, _⟩ := digests_standard (fun _ h _ => h) .md5
  exact ⟨hash, short _ (by decide), pieces [[0x61], [0x62, 0x63]]⟩

end Voila.Rt.Crypto
