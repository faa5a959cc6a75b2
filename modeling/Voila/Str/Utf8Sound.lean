import Voila.Rt.JsonString
import Voila.Str.Str

/-!
# Voila.Str.Utf8Sound

`utf8_next` against the Unicode standard, and what `case_map` makes of a string.

`utf8_next` takes apart what `utf8_put` makes of a scalar value, and nothing else (`utf8Next_iff`), which is
what the table of the standard has (`wellFormed_put`). So a string falls into encodings and bytes that begin
none (`Reads`), and `valid_utf8` and `case_map` go through these pieces one by one.
-/

namespace Voila.Str

open Rt List
open Rt.Json (Scalar lead_or)

instance (r : Nat) : Decidable (Scalar r) := inferInstanceAs (Decidable (_ ∨ _))

/-! ### Bytes as numbers -/

/-- What holds of the bytes is checked for each. -/
theorem uint8_all {P : UInt8 → Prop} (h : ∀ n : Nat, n < 256 → P (UInt8.ofNat n)) (b : UInt8) : P b := by
  have here := h b.toNat b.toNat_lt
  rwa [UInt8.ofNat_toNat] at here

/-- `b` is a continuation byte. -/
def Tail (b : UInt8) : Prop := 0x80 ≤ b.toNat ∧ b.toNat ≤ 0xBF

instance (b : UInt8) : Decidable (Tail b) := inferInstanceAs (Decidable (_ ∧ _))

theorem tail_iff (b : UInt8) : b &&& 0xC0 = 0x80 ↔ Tail b := by
  revert b
  exact uint8_all (by decide +kernel)

theorem low_bits (b : UInt8) : (b &&& 0x3F).toNat = b.toNat % 64 ∧ (b &&& 0x1F).toNat = b.toNat % 32 ∧
    (b &&& 0x0F).toNat = b.toNat % 16 ∧ (b &&& 0x07).toNat = b.toNat % 8 := by
  revert b
  exact uint8_all (by decide +kernel)

theorem lead_iff (a : UInt8) : (a &&& 0xE0 = 0xC0 ↔ 0xC0 ≤ a.toNat ∧ a.toNat < 0xE0) ∧
    (a &&& 0xF0 = 0xE0 ↔ 0xE0 ≤ a.toNat ∧ a.toNat < 0xF0) ∧
    (a &&& 0xF8 = 0xF0 ↔ 0xF0 ≤ a.toNat ∧ a.toNat < 0xF8) := by
  revert a
  exact uint8_all (by decide +kernel)

theorem contLoop_cons (c n : Nat) (b : UInt8) (s : Bytes) :
    contLoop c (n + 1) (b :: s) = if Tail b then contLoop (c * 64 + b.toNat % 64) n s else none := by
  have digit : b.toNat % 64 < 2 ^ 6 := Nat.mod_lt _ (by decide)
  rw [contLoop, (low_bits b).1, ← Nat.shiftLeft_add_eq_or_of_lt digit, Nat.shiftLeft_eq]
  simp only [Ne, tail_iff, ite_not]

variable {r n : Nat} {a : UInt8} {s : Bytes}

/-- `utf8_put`, by division. -/
theorem utf8Put_eq (h : r < 0x110000) : utf8Put r = List.map UInt8.ofNat (
    if r < 0x80 then [r]
    else if r < 0x800 then [0xC0 + r / 64, 0x80 + r % 64]
    else if r < 0x10000 then [0xE0 + r / 4096, 0x80 + r / 64 % 64, 0x80 + r % 64]
    else [0xF0 + r / 262144, 0x80 + r / 4096 % 64, 0x80 + r / 64 % 64, 0x80 + r % 64]) := by
  have low : ∀ x : Nat, x &&& 0x3F = x % 64 := fun x => Nat.and_two_pow_sub_one_eq_mod x 6
  have tail : ∀ x : Nat, UInt8.ofNat (0x80 ||| x % 64) = UInt8.ofNat (0x80 + x % 64) := by
    intro x
    rw [lead_or (.inr (.inr (.inr ⟨rfl, Nat.mod_lt x (by decide)⟩))), Nat.add_comm]
  unfold utf8Put
  simp only [low, Nat.shiftRight_eq_div_pow]
  split_ifs with h1 h2 h3
  · rfl
  · simp only [map_cons, map_nil, tail, lead_or (.inl ⟨rfl, (by omega : r / 2 ^ 6 < 32)⟩)]
    rw [Nat.add_comm]
    rfl
  · simp only [map_cons, map_nil, tail,
      lead_or (.inr (.inl ⟨rfl, (by omega : r / 2 ^ 12 < 16)⟩))]
    rw [Nat.add_comm]
    rfl
  · simp only [map_cons, map_nil, tail,
      lead_or (.inr (.inr (.inl ⟨rfl, (by omega : r / 2 ^ 18 < 8)⟩)))]
    rw [Nat.add_comm]
    rfl

theorem utf8Put_one (h : r < 0x80) : utf8Put r = [UInt8.ofNat r] := by
  rw [utf8Put_eq (by omega), if_pos h]
  rfl

theorem utf8Put_two (h : 0x80 ≤ r) (h' : r < 0x800) :
    utf8Put r = [UInt8.ofNat (0xC0 + r / 64), UInt8.ofNat (0x80 + r % 64)] := by
  rw [utf8Put_eq (by omega), if_neg (by omega), if_pos h']
  rfl

theorem utf8Put_three (h : 0x800 ≤ r) (h' : r < 0x10000) :
    utf8Put r = [UInt8.ofNat (0xE0 + r / 4096), UInt8.ofNat (0x80 + r / 64 % 64),
      UInt8.ofNat (0x80 + r % 64)] := by
  rw [utf8Put_eq (by omega), if_neg (by omega), if_neg (by omega), if_pos h']
  rfl

theorem utf8Put_four (h : 0x10000 ≤ r) (h' : r < 0x110000) :
    utf8Put r = [UInt8.ofNat (0xF0 + r / 262144), UInt8.ofNat (0x80 + r / 4096 % 64),
      UInt8.ofNat (0x80 + r / 64 % 64), UInt8.ofNat (0x80 + r % 64)] := by
  rw [utf8Put_eq h', if_neg (by omega), if_neg (by omega), if_neg (by omega)]
  rfl

theorem ofNat_eq {b : UInt8} (h : n = b.toNat) : UInt8.ofNat n = b := by
  rw [h, UInt8.ofNat_toNat]

theorem toNat_ofNat (h : n < 256) : (UInt8.ofNat n).toNat = n := by
  rw [UInt8.toNat_ofNat']
  exact Nat.mod_eq_of_lt h

/-! ### One sequence -/

/-- The value of the sequence is checked at the end. -/
theorem utf8Tail_eq (n min c : Nat) (s : Bytes) (hn : n - 1 ≤ s.length) : utf8Tail n min c s =
    (contLoop c (n - 1) s).bind fun r => if min ≤ r ∧ Scalar r then some (r, n) else none := by
  unfold utf8Tail
  rw [if_neg (by omega)]
  cases contLoop c (n - 1) s with
  | none => rfl
  | some r =>
    have checks : (r < min ∨ 0x10FFFF < r ∨ (0xD800 ≤ r ∧ r ≤ 0xDFFF)) ↔ ¬ (min ≤ r ∧ Scalar r) := by
      unfold Scalar
      omega
    simp only [checks, ite_not]
    rfl

/-- What `utf8_next` accepts is what `utf8_put` makes of a scalar value. -/
theorem utf8Next_put (h : utf8Next a s = some (r, n)) :
    Scalar r ∧ ∃ rest, a :: s = utf8Put r ++ rest ∧ (utf8Put r).length = n := by
  obtain ⟨lead2, lead3, lead4⟩ := lead_iff a
  obtain ⟨-, low5, low4, low3⟩ := low_bits a
  unfold utf8Next at h
  rw [low5, low4, low3] at h
  simp only [lead2, lead3, lead4] at h
  split_ifs at h with h1 h2 h3 h4
  · have ascii : a.toNat < 0x80 := UInt8.lt_iff_toNat_lt.mp h1
    cases h
    refine ⟨.inl (by omega), s, ?_⟩
    rw [utf8Put_one ascii, ofNat_eq rfl]
    exact ⟨rfl, rfl⟩
  · rcases s with _ | ⟨b, s⟩
    · cases h
    · rw [utf8Tail_eq _ _ _ _ (by simp), contLoop_cons] at h
      split_ifs at h with hb
      · simp only [contLoop, Option.bind_some] at h
        split_ifs at h with ok
        cases h
        unfold Tail at hb
        refine ⟨ok.2, s, ?_⟩
        rw [utf8Put_two ok.1 (by omega), ofNat_eq (b := a) (by omega), ofNat_eq (b := b) (by omega)]
        exact ⟨rfl, rfl⟩
      · cases h
  · rcases s with _ | ⟨b, _ | ⟨c, s⟩⟩
    · cases h
    · cases h
    · rw [utf8Tail_eq _ _ _ _ (by simp), contLoop_cons] at h
      split_ifs at h with hb
      · rw [contLoop_cons] at h
        split_ifs at h with hc
        · simp only [contLoop, Option.bind_some] at h
          split_ifs at h with ok
          cases h
          unfold Tail at hb hc
          refine ⟨ok.2, s, ?_⟩
          rw [utf8Put_three ok.1 (by omega), ofNat_eq (b := a) (by omega), ofNat_eq (b := b) (by omega),
            ofNat_eq (b := c) (by omega)]
          exact ⟨rfl, rfl⟩
        · cases h
      · cases h
  · rcases s with _ | ⟨b, _ | ⟨c, _ | ⟨d, s⟩⟩⟩
    · cases h
    · cases h
    · cases h
    · rw [utf8Tail_eq _ _ _ _ (by simp), contLoop_cons] at h
      split_ifs at h with hb
      · rw [contLoop_cons] at h
        split_ifs at h with hc
        · rw [contLoop_cons] at h
          split_ifs at h with hd
          · simp only [contLoop, Option.bind_some] at h
            split_ifs at h with ok
            cases h
            unfold Tail at hb hc hd
            have top := ok.2
            unfold Scalar at top
            refine ⟨ok.2, s, ?_⟩
            rw [utf8Put_four ok.1 (by omega), ofNat_eq (b := a) (by omega), ofNat_eq (b := b) (by omega),
              ofNat_eq (b := c) (by omega), ofNat_eq (b := d) (by omega)]
            exact ⟨rfl, rfl⟩
          · cases h
        · cases h
      · cases h

/-- And it accepts all of that. -/
theorem utf8Next_of_put (h : Scalar r) {t : Bytes} (put : utf8Put r = a :: t)
    (rest : Bytes) : utf8Next a (t ++ rest) = some (r, t.length + 1) := by
  have top : r < 0x110000 := by
    unfold Scalar at h
    omega
  by_cases h1 : r < 0x80
  · rw [utf8Put_one h1] at put
    cases put
    have ascii : UInt8.ofNat r < 0x80 := by
      rw [UInt8.lt_iff_toNat_lt, toNat_ofNat (by omega)]
      exact h1
    rw [utf8Next, if_pos ascii, toNat_ofNat (by omega)]
    rfl
  obtain ⟨lead2, lead3, lead4⟩ := lead_iff a
  obtain ⟨-, low5, low4, low3⟩ := low_bits a
  unfold utf8Next
  rw [low5, low4, low3]
  simp only [lead2, lead3, lead4, UInt8.lt_iff_toNat_lt, show (0x80 : UInt8).toNat = 0x80 from rfl]
  have tail : ∀ x, Tail (UInt8.ofNat (0x80 + x % 64)) ∧ (UInt8.ofNat (0x80 + x % 64)).toNat % 64 = x % 64 := by
    intro x
    unfold Tail
    rw [toNat_ofNat (by omega)]
    omega
  by_cases h2 : r < 0x800
  · rw [utf8Put_two (by omega) h2] at put
    cases put
    rw [toNat_ofNat (by omega), if_neg (by omega), if_pos (by omega), cons_append,
      utf8Tail_eq _ _ _ _ (by simp), contLoop_cons, if_pos (tail r).1, (tail r).2]
    have value : (0xC0 + r / 64) % 32 * 64 + r % 64 = r := by omega
    simp only [contLoop, Option.bind_some, value]
    exact if_pos ⟨by omega, h⟩
  by_cases h3 : r < 0x10000
  · rw [utf8Put_three (by omega) h3] at put
    cases put
    rw [toNat_ofNat (by omega), if_neg (by omega), if_neg (by omega), if_pos (by omega), cons_append,
      cons_append, utf8Tail_eq _ _ _ _ (by simp), contLoop_cons, if_pos (tail (r / 64)).1, contLoop_cons,
      if_pos (tail r).1, (tail (r / 64)).2, (tail r).2]
    have value : ((0xE0 + r / 4096) % 16 * 64 + r / 64 % 64) * 64 + r % 64 = r := by omega
    simp only [contLoop, Option.bind_some, value]
    exact if_pos ⟨by omega, h⟩
  · rw [utf8Put_four (by omega) top] at put
    cases put
    rw [toNat_ofNat (by omega), if_neg (by omega), if_neg (by omega), if_neg (by omega),
      if_pos (by omega), cons_append, cons_append, cons_append, utf8Tail_eq _ _ _ _ (by simp),
      contLoop_cons, if_pos (tail (r / 4096)).1, contLoop_cons, if_pos (tail (r / 64)).1, contLoop_cons,
      if_pos (tail r).1, (tail (r / 4096)).2, (tail (r / 64)).2, (tail r).2]
    have value : (((0xF0 + r / 262144) % 8 * 64 + r / 4096 % 64) * 64 + r / 64 % 64) * 64 + r % 64 = r := by
      omega
    simp only [contLoop, Option.bind_some, value]
    exact if_pos ⟨by omega, h⟩

/-! ### The table of the standard -/

/-- `lo ≤ b ≤ hi`. -/
def Between (lo hi : Nat) (b : UInt8) : Prop := lo ≤ b.toNat ∧ b.toNat ≤ hi

/-- The well-formed byte sequences of the Unicode standard, by their rows. -/
inductive WellFormed : Bytes → Prop
  | ascii {a : UInt8} : Between 0x00 0x7F a → WellFormed [a]
  | two {a b : UInt8} : Between 0xC2 0xDF a → Tail b → WellFormed [a, b]
  | e0 {a b c : UInt8} : Between 0xE0 0xE0 a → Between 0xA0 0xBF b → Tail c → WellFormed [a, b, c]
  | e1 {a b c : UInt8} : Between 0xE1 0xEC a → Tail b → Tail c → WellFormed [a, b, c]
  | ed {a b c : UInt8} : Between 0xED 0xED a → Between 0x80 0x9F b → Tail c → WellFormed [a, b, c]
  | ee {a b c : UInt8} : Between 0xEE 0xEF a → Tail b → Tail c → WellFormed [a, b, c]
  | f0 {a b c d : UInt8} :
      Between 0xF0 0xF0 a → Between 0x90 0xBF b → Tail c → Tail d → WellFormed [a, b, c, d]
  | f1 {a b c d : UInt8} : Between 0xF1 0xF3 a → Tail b → Tail c → Tail d → WellFormed [a, b, c, d]
  | f4 {a b c d : UInt8} :
      Between 0xF4 0xF4 a → Between 0x80 0x8F b → Tail c → Tail d → WellFormed [a, b, c, d]

theorem wellFormed_put (h : Scalar r) : WellFormed (utf8Put r) := by
  have top : r < 0x110000 := by
    unfold Scalar at h
    omega
  have tail : ∀ x, Tail (UInt8.ofNat (0x80 + x % 64)) := by
    intro x
    unfold Tail
    rw [toNat_ofNat (by omega)]
    omega
  have between : ∀ {lo hi n : Nat}, lo ≤ n → n ≤ hi → n < 256 → Between lo hi (UInt8.ofNat n) := by
    intro lo hi n low high small
    unfold Between
    rw [toNat_ofNat small]
    exact ⟨low, high⟩
  by_cases h1 : r < 0x80
  · rw [utf8Put_one h1]
    exact .ascii (between (by omega) (by omega) (by omega))
  by_cases h2 : r < 0x800
  · rw [utf8Put_two (by omega) h2]
    exact .two (between (by omega) (by omega) (by omega)) (tail r)
  by_cases h3 : r < 0x10000
  · rw [utf8Put_three (by omega) h3]
    -- the surrogates are what the row of ED leaves out
    rcases (by omega : r < 0x1000 ∨ 0x1000 ≤ r ∧ r < 0xD000 ∨ 0xD000 ≤ r ∧ r < 0xE000 ∨ 0xE000 ≤ r) with
      low | mid | ed | high
    · exact .e0 (between (by omega) (by omega) (by omega)) (between (by omega) (by omega) (by omega)) (tail r)
    · exact .e1 (between (by omega) (by omega) (by omega)) (tail _) (tail r)
    · unfold Scalar at h
      exact .ed (between (by omega) (by omega) (by omega)) (between (by omega) (by omega) (by omega)) (tail r)
    · exact .ee (between (by omega) (by omega) (by omega)) (tail _) (tail r)
  · rw [utf8Put_four (by omega) top]
    rcases (by omega : r < 0x40000 ∨ 0x40000 ≤ r ∧ r < 0x100000 ∨ 0x100000 ≤ r) with low | mid | high
    · exact .f0 (between (by omega) (by omega) (by omega)) (between (by omega) (by omega) (by omega)) (tail _)
        (tail r)
    · exact .f1 (between (by omega) (by omega) (by omega)) (tail _) (tail _) (tail r)
    · exact .f4 (between (by omega) (by omega) (by omega)) (between (by omega) (by omega) (by omega)) (tail _)
        (tail r)

/-- `utf8_next` accepts the sequences of the table, and knows their value and length. -/
theorem utf8Next_iff (a : UInt8) (s : Bytes) (r n : Nat) :
    utf8Next a s = some (r, n) ↔
      ∃ seq rest, a :: s = seq ++ rest ∧ WellFormed seq ∧ Scalar r ∧ utf8Put r = seq ∧ seq.length = n := by
  constructor
  · intro h
    obtain ⟨scalar, rest, same, len⟩ := utf8Next_put h
    exact ⟨_, rest, same, wellFormed_put scalar, scalar, rfl, len⟩
  · rintro ⟨seq, rest, same, -, scalar, rfl, rfl⟩
    cases put : utf8Put r with
    | nil => exact absurd put (utf8Put_ne_nil r)
    | cons b t =>
      rw [put, cons_append] at same
      cases same
      exact utf8Next_of_put scalar put rest

/-! ### The pieces of a string -/

/-- The string falls into bytes that begin no sequence and encodings. -/
inductive Reads : Bytes → List (UInt8 ⊕ Nat) → Prop
  | nil : Reads [] []
  | ill {a : UInt8} {s : Bytes} {ps : List (UInt8 ⊕ Nat)} :
      utf8Next a s = none → Reads s ps → Reads (a :: s) (.inl a :: ps)
  | rune {r : Nat} {s : Bytes} {ps : List (UInt8 ⊕ Nat)} :
      Scalar r → Reads s ps → Reads (utf8Put r ++ s) (.inr r :: ps)

theorem reads_exists (s : Bytes) : ∃ ps, Reads s ps := by
  induction h : s.length using Nat.strong_induction_on generalizing s with
  | _ n ih =>
    cases s with
    | nil => exact ⟨[], .nil⟩
    | cons a s =>
      cases hnext : utf8Next a s with
      | none =>
        obtain ⟨ps, reads⟩ := ih s.length (by simp [← h]) s rfl
        exact ⟨_, .ill hnext reads⟩
      | some p =>
        obtain ⟨scalar, rest, same, -⟩ := utf8Next_put hnext
        have shorter : rest.length < n := by
          have len := congrArg List.length same
          have pos := length_pos_of_ne_nil (utf8Put_ne_nil p.1)
          rw [length_append] at len
          omega
        obtain ⟨ps, reads⟩ := ih rest.length shorter rest rfl
        rw [same]
        exact ⟨_, .rune scalar reads⟩

theorem validLoop_skip (t s : Bytes) : validLoop t.length (t ++ s) = validLoop 0 s := by
  induction t with
  | nil => rfl
  | cons b t ih => exact ih

theorem caseLoop_skip (first rest : Nat → Nat) (t s : Bytes) :
    caseLoop first rest t.length (t ++ s) = caseLoop first rest 0 s := by
  induction t with
  | nil => rfl
  | cons b t ih => exact ih

theorem validLoop_put (h : Scalar r) (s : Bytes) : validLoop 0 (utf8Put r ++ s) = validLoop 0 s := by
  cases put : utf8Put r with
  | nil => exact absurd put (utf8Put_ne_nil r)
  | cons a t =>
    rw [cons_append, validLoop, utf8Next_of_put h put]
    exact validLoop_skip t s

theorem caseLoop_put (h : Scalar r) (first rest : Nat → Nat) (s : Bytes) :
    caseLoop first rest 0 (utf8Put r ++ s) = utf8Put (first r) ++ caseLoop rest rest 0 s := by
  cases put : utf8Put r with
  | nil => exact absurd put (utf8Put_ne_nil r)
  | cons a t =>
    rw [cons_append, caseLoop, utf8Next_of_put h put]
    exact congrArg (utf8Put (first r) ++ ·) (caseLoop_skip rest rest t s)

/-- A string of encodings. -/
def Encoded (s : Bytes) : Prop := ∃ rs : List Nat, (∀ r ∈ rs, Scalar r) ∧ s = rs.flatMap utf8Put

theorem Reads.encoded {ps : List (UInt8 ⊕ Nat)} (reads : Reads s ps)
    (valid : validUtf8 s = true) : Encoded s := by
  unfold validUtf8 at valid
  induction reads with
  | nil => exact ⟨[], nofun, rfl⟩
  | ill hnext =>
    rw [validLoop, hnext] at valid
    cases valid
  | @rune r s ps scalar _ ih =>
    rw [validLoop_put scalar] at valid
    obtain ⟨rs, all, rfl⟩ := ih valid
    exact ⟨r :: rs, forall_mem_cons.mpr ⟨scalar, all⟩, rfl⟩

/-- `valid_utf8` knows the strings of encodings. -/
theorem validUtf8_iff (s : Bytes) : validUtf8 s = true ↔ Encoded s := by
  constructor
  · obtain ⟨ps, reads⟩ := reads_exists s
    exact reads.encoded
  · rintro ⟨rs, all, rfl⟩
    unfold validUtf8
    induction rs with
    | nil => rfl
    | cons r rs ih =>
      obtain ⟨scalar, all⟩ := forall_mem_cons.mp all
      rw [flatMap_cons, validLoop_put scalar]
      exact ih all

end Voila.Str
