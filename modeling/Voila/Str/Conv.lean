import Voila.Rt.Dur
import Voila.Str.Order

/-!
# Voila.Str.Conv

Converting a text to an integer: `parse_int_str`, `to_int_checked` and `vl_conv` of `call.c`, and `safe_conv` of
`std.c`.

The digits are summed up in a `uint64_t` and counted in an `int`, and both wrap.
-/

open List

namespace Voila.Str

open Rt

/-! ### Parsing -/

/-- What may lead a number: `*s == ' ' || *s == '\t'`. -/
def isBlank (c : UInt8) : Bool := c == 32 || c == 9

/-- The sign: `neg`, and what is behind it. -/
def takeSign : Bytes → Bool × Bytes
  | 43 :: s => (false, s)
  | 45 :: s => (true, s)
  | s => (false, s)

/-- The radix that is counted in, and what is behind its prefix; radix 0 asks the text. The text is a C string,
so `s[1] != 0` says that it goes on. -/
def takeRadix (radix : Int) (s : Bytes) : Int × Bytes :=
  if radix = 0 then
    match s with
    | 48 :: c :: s =>
      if c = 120 ∨ c = 88 then (16, s)
      else if c = 111 ∨ c = 79 then (8, s)
      else if c = 98 ∨ c = 66 then (2, s)
      else (8, c :: s)
    | s => (10, s)
  else (radix, s)

/-- The value of a digit. -/
def digitOf (c : UInt8) : Option Nat :=
  if c ≥ 48 ∧ c ≤ 57 then some (c.toNat - 48)
  else if c ≥ 97 ∧ c ≤ 122 then some (c.toNat - 97 + 10)
  else if c ≥ 65 ∧ c ≤ 90 then some (c.toNat - 65 + 10)
  else none

/-- The loop over the digits, with `acc` and `ndigits`. -/
def digitsLoop (radix : Int) (allowUnderscore : Bool) : UInt64 → Int32 → Bytes → Option (UInt64 × Int32)
  | acc, ndigits, [] => some (acc, ndigits)
  | acc, ndigits, c :: s =>
    if c = 95 ∧ allowUnderscore then digitsLoop radix allowUnderscore acc ndigits s
    else
      match digitOf c with
      | none => none
      | some d =>
        if d ≥ radix then none
        else digitsLoop radix allowUnderscore (acc * UInt64.ofInt radix + UInt64.ofNat d) (ndigits + 1) s

/-- `parse_int_str`. -/
def parseIntStr (s : Bytes) (radix : Int) : Option Int64 :=
  let (neg, s) := takeSign (s.dropWhile isBlank)
  let allowUnderscore := radix = 0
  let (radix, s) := takeRadix radix s
  match digitsLoop radix allowUnderscore 0 0 s with
  | none => none
  | some (acc, ndigits) =>
    if ndigits = 0 then none
    else some (if neg then -acc.toInt64 else acc.toInt64)

/-! ### Conversion -/

/-- A `ConvError`, by its fields. -/
structure ConvError where
  from_ : String
  to_ : String
  value : Bytes

/-- `IntRange`. -/
structure IntRange where
  name : String
  lo : Int
  hi : Int

/-- `int_ranges`. -/
def intRanges : List IntRange := [
  ⟨"int", -2 ^ 63, 2 ^ 63 - 1⟩, ⟨"i64", -2 ^ 63, 2 ^ 63 - 1⟩, ⟨"i8", -128, 127⟩, ⟨"i16", -32768, 32767⟩,
  ⟨"i32", -2147483648, 2147483647⟩, ⟨"u8", 0, 255⟩, ⟨"byte", 0, 255⟩, ⟨"u16", 0, 65535⟩,
  ⟨"u32", 0, 4294967295⟩, ⟨"u64", 0, 2 ^ 63 - 1⟩]

/-- `int_range`. -/
def intRange (t : String) : Option IntRange := intRanges.find? (·.name == t)

/-- `to_int_checked` of a string; `base` is there where it is an int. -/
def toIntChecked (v : Bytes) (target : String) (base : Option Int64) : Except ConvError Int64 :=
  let radix := match base with
    | none => 10
    | some base => base.toInt32.toInt
  match parseIntStr (cStr v) radix with
  | none => .error ⟨"str", target, v⟩
  | some n => .ok n

/-- `vl_conv` of a string to a type of `int_ranges`; `none` for another type. -/
def conv (type : String) (v : Bytes) (base : Option Int64) : Option (Except ConvError Int64) :=
  (intRange type).map fun r => do
    let n ← toIntChecked v type base
    if n.toInt < r.lo ∨ n.toInt > r.hi then throw ⟨"str", type, v⟩
    return n

/-- `safe_conv`: nil where the conversion throws. -/
def safeConv (type : String) (v : Bytes) (base : Option Int64) : Option (Option Int64) :=
  (conv type v base).map Except.toOption

end Voila.Str

/-!
Which texts `vl_conv` takes for an integer, and for which.

`parse_int_str` reads the numerals of its radix (`Numeral`), up to the first NUL. The sum of the digits is only
known modulo `2 ^ 64` and their number modulo `2 ^ 32` (`parseIntStr_iff`), so a numeral out of range is read as
what it wraps to, and so is one that goes on behind a NUL (`conv_right_iff`).
-/

namespace Voila.Str

open Rt

/-! ### Numerals -/

/-- `c` is the character of the digit `d`. -/
def Digit (c : UInt8) (d : Nat) : Prop :=
  d < 10 ∧ c.toNat = 48 + d ∨ 10 ≤ d ∧ d < 36 ∧ (c.toNat = 87 + d ∨ c.toNat = 55 + d)

/-- The text consists of the digits `ds` of `base`, and of `_` where that may stand between them. -/
inductive IsDigits (base : Nat) (under : Prop) : Bytes → List Nat → Prop
  | nil : IsDigits base under [] []
  | under {s : Bytes} {ds : List Nat} : under → IsDigits base under s ds → IsDigits base under (95 :: s) ds
  | digit {c : UInt8} {d : Nat} {s : Bytes} {ds : List Nat} :
      Digit c d → d < base → IsDigits base under s ds → IsDigits base under (c :: s) (d :: ds)

/-- What stands in front of the digits, for a radix and the base they are of. -/
inductive Leads : Nat → Nat → Bytes → Bytes → Prop
  | given {r : Nat} {body : Bytes} : r ≠ 0 → Leads r r [] body
  | hex {x : UInt8} {body : Bytes} : x = 120 ∨ x = 88 → Leads 0 16 [48, x] body
  | octal {x : UInt8} {body : Bytes} : x = 111 ∨ x = 79 → Leads 0 8 [48, x] body
  | binary {x : UInt8} {body : Bytes} : x = 98 ∨ x = 66 → Leads 0 2 [48, x] body
  | zero {body : Bytes} : body ≠ [] → Leads 0 8 [48] body
  | plain {body : Bytes} : (∀ rest, body = 48 :: rest → rest = []) → Leads 0 10 [] body

/-- The number with the digits `ds`, behind a minus where `neg` says so. -/
def signed (neg : Bool) (base : Nat) (ds : List Nat) : Int :=
  let n : Nat := Nat.ofDigits base ds.reverse
  if neg then -n else n

/-- The text is a numeral of the radix `r` for `m`, with `k` digits: blanks, a sign, a prefix for radix 0, and
digits, between which radix 0 allows `_` if `sep` says so. -/
def Numeral (sep : Bool) (r : Nat) (t : Bytes) (m : Int) (k : Nat) : Prop :=
  ∃ (blanks sign lead body : Bytes) (base : Nat) (ds : List Nat), t = blanks ++ (sign ++ (lead ++ body)) ∧
    (∀ c ∈ blanks, c = 32 ∨ c = 9) ∧ (sign = [] ∨ sign = [43] ∨ sign = [45]) ∧ Leads r base lead body ∧
    IsDigits base (sep = true ∧ r = 0) body ds ∧ ds ≠ [] ∧ k = ds.length ∧
    m = signed (decide (sign = [45])) base ds

theorem digit_iff (c : UInt8) (d : Nat) : digitOf c = some d ↔ Digit c d := by
  unfold digitOf Digit
  simp only [ge_iff_le, UInt8.le_iff_toNat_le, UInt8.reduceToNat]
  split_ifs
  · rw [Option.some_inj]
    omega
  · rw [Option.some_inj]
    omega
  · rw [Option.some_inj]
    omega
  · exact iff_of_false nofun (by omega)

variable {base r k n : Nat} {ds : List Nat} {s body lead t : Bytes} {u v : Prop} {under sep : Bool}
  {m : Int}

theorem IsDigits.mono (h : u → v) (digits : IsDigits base u s ds) : IsDigits base v s ds := by
  induction digits with
  | nil => exact .nil
  | under hu _ ih => exact .under (h hu) ih
  | digit hc hd _ ih => exact .digit hc hd ih

/-- Without a `_` it does not matter whether one may stand there. -/
theorem IsDigits.strict (clean : 95 ∉ s)
    (digits : IsDigits base u s ds) : IsDigits base v s ds := by
  induction digits with
  | nil => exact .nil
  | under => exact absurd mem_cons_self clean
  | digit hc hd _ ih => exact .digit hc hd (ih fun h => clean (mem_cons_of_mem _ h))

/-- What the digits are made of. -/
theorem IsDigits.bytes (digits : IsDigits base u s ds) :
    ∀ c ∈ s, (u ∧ c = 95) ∨ ∃ d, Digit c d ∧ d < base := by
  induction digits with
  | nil => exact nofun
  | under hu _ ih => exact forall_mem_cons.mpr ⟨.inl ⟨hu, rfl⟩, ih⟩
  | digit hc hd _ ih => exact forall_mem_cons.mpr ⟨.inr ⟨_, hc, hd⟩, ih⟩

theorem not_digit_under (d : Nat) : ¬ Digit 95 d := by
  have value : (95 : UInt8).toNat = 95 := rfl
  unfold Digit
  omega

theorem Digit.unique {c : UInt8} {d e : Nat} (hd : Digit c d) (he : Digit c e) : d = e := by
  unfold Digit at hd he
  omega

theorem IsDigits.unique {ds es : List Nat} (hd : IsDigits base u s ds)
    (he : IsDigits base v s es) : ds = es := by
  induction hd generalizing es with
  | nil =>
    cases he
    rfl
  | under _ _ ih =>
    cases he with
    | under _ he => exact ih he
    | digit hc => exact absurd hc (not_digit_under _)
  | digit hc _ _ ih =>
    cases he with
    | under => exact absurd hc (not_digit_under _)
    | digit hc' _ he => rw [hc.unique hc', ih he]

theorem isDigits_map (h : s.map digitOf = ds.map some)
    (small : ∀ d ∈ ds, d < base) : IsDigits base u s ds := by
  induction ds generalizing s with
  | nil =>
    rw [map_nil, map_eq_nil_iff] at h
    rw [h]
    exact .nil
  | cons d ds ih =>
    cases s with
    | nil => cases h
    | cons c s =>
      obtain ⟨hc, h⟩ := List.cons.inj h
      obtain ⟨hd, small⟩ := forall_mem_cons.mp small
      exact .digit ((digit_iff c d).mp hc) hd (ih h small)

/-! ### The loop -/

/-- One turn for a digit. -/
def addDigit (base : Nat) (acc : UInt64) (d : Nat) : UInt64 := acc * UInt64.ofInt base + UInt64.ofNat d

theorem digitsLoop_of_digits
    (digits : IsDigits base (under = true) s ds) (acc : UInt64) (n : Int32) :
    digitsLoop base under acc n s = some (ds.foldl (addDigit base) acc, n + Int32.ofNat ds.length) := by
  induction digits generalizing acc n with
  | nil => rw [digitsLoop, foldl_nil, length_nil, show Int32.ofNat 0 = 0 from rfl, Int32.add_zero]
  | under hu _ ih => rw [digitsLoop, if_pos ⟨rfl, hu⟩, ih]
  | @digit c d s ds hc hd _ ih =>
    have other : c ≠ 95 := fun h => not_digit_under d (h ▸ hc)
    have small : ¬ (d : Int) ≥ base := by omega
    rw [digitsLoop, if_neg fun h => other h.1, (digit_iff c d).mpr hc]
    dsimp only
    rw [if_neg small, ih, foldl_cons, length_cons, addDigit, Int32.add_assoc, Nat.add_comm ds.length,
      Int32.ofNat_add]
    rfl

theorem digits_of_digitsLoop {acc : UInt64} {n : Int32}
    {out : UInt64 × Int32} (h : digitsLoop base under acc n s = some out) :
    ∃ ds, IsDigits base (under = true) s ds := by
  induction s generalizing acc n with
  | nil => exact ⟨[], .nil⟩
  | cons c s ih =>
    rw [digitsLoop] at h
    split_ifs at h with hu
    · obtain ⟨ds, digits⟩ := ih h
      rw [hu.1]
      exact ⟨ds, .under hu.2 digits⟩
    · cases hc : digitOf c with
      | none =>
        rw [hc] at h
        cases h
      | some d =>
        rw [hc] at h
        dsimp only at h
        split_ifs at h with hd
        · obtain ⟨ds, digits⟩ := ih h
          exact ⟨d :: ds, .digit ((digit_iff c d).mp hc) (by omega) digits⟩

theorem toNat_ofInt (n : Nat) : (UInt64.ofInt n).toNat = n % 2 ^ 64 := by
  unfold UInt64.ofInt
  rw [UInt64.toNat_ofNat']
  omega

/-- The sum is right up to what is lost above. -/
theorem foldl_addDigit (base : Nat) (ds : List Nat) (acc : UInt64) :
    (ds.foldl (addDigit base) acc).toNat ≡ acc.toNat * base ^ ds.length + Nat.ofDigits base ds.reverse
      [MOD 2 ^ 64] := by
  induction ds generalizing acc with
  | nil => simp [Nat.ModEq]
  | cons d ds ih =>
    have step : (addDigit base acc d).toNat ≡ acc.toNat * base + d [MOD 2 ^ 64] := by
      unfold addDigit
      rw [UInt64.toNat_add, UInt64.toNat_mul, toNat_ofInt, UInt64.toNat_ofNat']
      refine (Nat.mod_modEq _ _).trans (Nat.ModEq.add ?_ (Nat.mod_modEq _ _))
      exact (Nat.mod_modEq _ _).trans ((Nat.mod_modEq _ _).mul_left _)
    have same : (acc.toNat * base + d) * base ^ ds.length + Nat.ofDigits base ds.reverse =
        acc.toNat * base ^ (ds.length + 1) + (Nat.ofDigits base ds.reverse + base ^ ds.length * d) := by
      rw [pow_succ]
      ring
    rw [foldl_cons, reverse_cons, Nat.ofDigits_append, Nat.ofDigits_singleton, length_reverse,
      length_cons, ← same]
    exact (ih _).trans ((step.mul_right _).add_right _)

/-! ### The parts of a numeral -/

/-- A text whose first byte is no blank and no sign. -/
def Starts (s : Bytes) : Prop := ∃ c rest, s = c :: rest ∧ c ≠ 32 ∧ c ≠ 9 ∧ c ≠ 43 ∧ c ≠ 45

theorem IsDigits.starts (digits : IsDigits base u s ds) (some : ds ≠ []) : Starts s := by
  cases digits with
  | nil => exact absurd rfl some
  | under => exact ⟨95, _, rfl, by decide, by decide, by decide, by decide⟩
  | @digit c d s ds hc =>
    have other : ∀ {x : UInt8}, x.toNat < 48 → c ≠ x := by
      rintro x low rfl
      unfold Digit at hc
      omega
    exact ⟨c, s, rfl, other (by decide), other (by decide), other (by decide), other (by decide)⟩

theorem Leads.starts (leads : Leads r base lead body) (h : Starts body) :
    Starts (lead ++ body) := by
  have zero : ∀ rest, Starts (48 :: rest) := fun rest => ⟨48, rest, rfl, by decide, by decide, by decide, by decide⟩
  cases leads with
  | given | plain => exact h
  | hex | octal | binary | zero => exact zero _

theorem isBlank_iff (c : UInt8) : isBlank c = true ↔ c = 32 ∨ c = 9 := by
  simp [isBlank]

theorem dropBlanks {blanks s : Bytes} (blank : ∀ c ∈ blanks, c = 32 ∨ c = 9)
    (head : ∀ c rest, s = c :: rest → ¬ (c = 32 ∨ c = 9)) : (blanks ++ s).dropWhile isBlank = s := by
  rw [dropWhile_append_of_pos fun c hc => (isBlank_iff c).mpr (blank c hc)]
  cases s with
  | nil => rfl
  | cons c s =>
    rw [dropWhile_cons_of_neg]
    rw [isBlank_iff]
    exact head c s rfl

theorem takeSign_append {sign s : Bytes} (hsign : sign = [] ∨ sign = [43] ∨ sign = [45]) (h : Starts s) :
    takeSign (sign ++ s) = (decide (sign = [45]), s) := by
  rcases hsign with rfl | rfl | rfl
  · obtain ⟨c, rest, rfl, -, -, plus, minus⟩ := h
    rw [nil_append, takeSign]
    · rfl
    · rintro s ⟨⟩
      exact plus rfl
    · rintro s ⟨⟩
      exact minus rfl
  · rfl
  · rfl

theorem takeSign_cases (s : Bytes) : ∃ sign, (sign = [] ∨ sign = [43] ∨ sign = [45]) ∧
    s = sign ++ (takeSign s).2 ∧ (takeSign s).1 = decide (sign = [45]) := by
  unfold takeSign
  split
  · exact ⟨[43], .inr (.inl rfl), rfl, rfl⟩
  · exact ⟨[45], .inr (.inr rfl), rfl, rfl⟩
  · exact ⟨[], .inl rfl, rfl, rfl⟩

theorem takeRadix_append (leads : Leads r base lead body) (digits : IsDigits base u body ds) :
    takeRadix r (lead ++ body) = ((base : Int), body) := by
  unfold takeRadix
  cases leads with
  | given hr => exact if_neg (by omega)
  | hex hx =>
    rw [if_pos Int.natCast_zero]
    exact if_pos hx
  | octal hx =>
    rw [if_pos Int.natCast_zero]
    rcases hx with rfl | rfl <;> rfl
  | binary hx =>
    rw [if_pos Int.natCast_zero]
    rcases hx with rfl | rfl <;> rfl
  | zero some =>
    rw [if_pos Int.natCast_zero]
    cases body with
    | nil => exact absurd rfl some
    | cons c rest =>
      -- a digit of base 8 is no letter
      have low : c.toNat < 56 ∨ c.toNat = 95 := by
        rcases digits.bytes c mem_cons_self with ⟨-, rfl⟩ | ⟨d, hc, hd⟩
        · exact .inr rfl
        · unfold Digit at hc
          omega
      have other : ∀ {x : UInt8}, 56 ≤ x.toNat ∧ x.toNat ≠ 95 → c ≠ x := by
        rintro x hx rfl
        omega
      have plain : ∀ {x y : UInt8}, 56 ≤ x.toNat ∧ x.toNat ≠ 95 → 56 ≤ y.toNat ∧ y.toNat ≠ 95 →
          ¬ (c = x ∨ c = y) := fun hx hy => not_or.mpr ⟨other hx, other hy⟩
      show (if _ then _ else _) = _
      rw [if_neg (plain (by decide) (by decide)), if_neg (plain (by decide) (by decide)),
        if_neg (plain (by decide) (by decide))]
      rfl
  | plain alone =>
    rw [if_pos Int.natCast_zero]
    rw [nil_append]
    split
    · next c rest => cases alone _ rfl
    · rfl

theorem takeRadix_cases (r : Nat) (s : Bytes) : ∃ (base : Nat) (lead : Bytes),
    (takeRadix r s).1 = base ∧ s = lead ++ (takeRadix r s).2 ∧ Leads r base lead (takeRadix r s).2 := by
  unfold takeRadix
  by_cases h : (r : Int) = 0
  · obtain rfl : r = 0 := by omega
    rw [if_pos h]
    split
    · next c s =>
        split_ifs with hex octal binary
        · exact ⟨16, [48, c], rfl, rfl, .hex hex⟩
        · exact ⟨8, [48, c], rfl, rfl, .octal octal⟩
        · exact ⟨2, [48, c], rfl, rfl, .binary binary⟩
        · exact ⟨8, [48], rfl, rfl, .zero nofun⟩
    · next other =>
        refine ⟨10, [], rfl, rfl, .plain ?_⟩
        rintro rest rfl
        cases rest with
        | nil => rfl
        | cons c rest => exact absurd rfl (other c rest)
  · rw [if_neg h]
    exact ⟨r, [], rfl, rfl, .given (by omega)⟩

/-- The parts are found one by one. -/
theorem numeral_iff (sep : Bool) (r : Nat) (t : Bytes) (m : Int) (k : Nat) : Numeral sep r t m k ↔
    ∃ base ds, (takeRadix r (takeSign (t.dropWhile isBlank)).2).1 = (base : Nat) ∧
      IsDigits base (sep = true ∧ r = 0) (takeRadix r (takeSign (t.dropWhile isBlank)).2).2 ds ∧
      ds ≠ [] ∧ k = ds.length ∧ m = signed (takeSign (t.dropWhile isBlank)).1 base ds := by
  constructor
  · rintro ⟨blanks, sign, lead, body, base, ds, rfl, hblanks, hsign, leads, digits, some, hk, hm⟩
    have starts := leads.starts (digits.starts some)
    have head : ∀ c rest, sign ++ (lead ++ body) = c :: rest → ¬ (c = 32 ∨ c = 9) := by
      intro c rest same
      rcases hsign with rfl | rfl | rfl
      · obtain ⟨c', rest', same', blank, tab, -, -⟩ := starts
        rw [nil_append, same'] at same
        cases same
        exact not_or.mpr ⟨blank, tab⟩
      · cases same
        decide
      · cases same
        decide
    rw [dropBlanks hblanks head, takeSign_append hsign starts, takeRadix_append leads digits]
    exact ⟨base, ds, rfl, digits, some, hk, hm⟩
  · rintro ⟨base, ds, hbase, digits, some, hk, hm⟩
    obtain ⟨sign, hsign, parts, hneg⟩ := takeSign_cases (t.dropWhile isBlank)
    obtain ⟨base', lead, hbase', parts', leads⟩ := takeRadix_cases r (takeSign (t.dropWhile isBlank)).2
    obtain rfl : base' = base := by
      rw [hbase'] at hbase
      exact Int.ofNat_inj.mp hbase
    refine ⟨t.takeWhile isBlank, sign, lead, _, base', ds, ?_, ?_, hsign, leads, digits, some, hk, ?_⟩
    · rw [← parts', ← parts, takeWhile_append_dropWhile]
    · intro c hc
      exact (isBlank_iff c).mp (mem_takeWhile_imp hc)
    · rw [hm, hneg]

theorem Numeral.unique {sep sep' : Bool} {m m' : Int} {k k' : Nat}
    (h : Numeral sep r t m k) (h' : Numeral sep' r t m' k') : m = m' ∧ k = k' := by
  rw [numeral_iff] at h h'
  obtain ⟨base, ds, hbase, digits, -, hk, hm⟩ := h
  obtain ⟨base', ds', hbase', digits', -, hk', hm'⟩ := h'
  obtain rfl : base = base' := Int.ofNat_inj.mp (hbase.symm.trans hbase')
  obtain rfl := digits.unique digits'
  exact ⟨hm.trans hm'.symm, hk.trans hk'.symm⟩

theorem Leads.bytes (leads : Leads r base lead body) : ∀ c ∈ lead, c ≠ 0 ∧ c ≠ 95 := by
  cases leads with
  | given | plain => exact nofun
  | zero => simp
  | hex hx | octal hx | binary hx => rcases hx with rfl | rfl <;> simp

/-- A numeral has no NUL, and a `_` only where one is allowed. -/
theorem Numeral.bytes (h : Numeral sep r t m k) : ∀ c ∈ t, c ≠ 0 ∧ (c = 95 → sep = true) := by
  obtain ⟨blanks, sign, lead, body, base, ds, rfl, hblanks, hsign, leads, digits, -⟩ := h
  intro c hc
  have other : ∀ x : UInt8, x ≠ 0 → x ≠ 95 → x ≠ 0 ∧ (x = 95 → sep = true) :=
    fun x nul under => ⟨nul, fun h => absurd h under⟩
  rw [mem_append, mem_append, mem_append] at hc
  rcases hc with hc | hc | hc | hc
  · rcases hblanks c hc with rfl | rfl
    · exact other 32 (by decide) (by decide)
    · exact other 9 (by decide) (by decide)
  · rcases hsign with rfl | rfl | rfl
    · cases hc
    · rw [mem_singleton.mp hc]
      exact other 43 (by decide) (by decide)
    · rw [mem_singleton.mp hc]
      exact other 45 (by decide) (by decide)
  · obtain ⟨nul, under⟩ := leads.bytes c hc
    exact other c nul under
  · rcases digits.bytes c hc with ⟨hu, rfl⟩ | ⟨d, hd, -⟩
    · exact ⟨by decide, fun _ => hu.1⟩
    · refine ⟨?_, ?_⟩
      · rintro rfl
        have zero : (0 : UInt8).toNat = 0 := rfl
        unfold Digit at hd
        omega
      · rintro rfl
        exact absurd hd (not_digit_under d)

theorem Numeral.clean (h : Numeral sep r t m k) : 0 ∉ t ∧ (sep = true ∨ 95 ∉ t) := by
  refine ⟨fun hc => (h.bytes 0 hc).1 rfl, ?_⟩
  by_cases hu : 95 ∈ t
  · exact .inl ((h.bytes 95 hu).2 rfl)
  · exact .inr hu

theorem Numeral.strict {sep sep' : Bool} (h : Numeral sep r t m k)
    (clean : sep' = true ∨ 95 ∉ t) : Numeral sep' r t m k := by
  obtain ⟨blanks, sign, lead, body, base, ds, rfl, hblanks, hsign, leads, digits, rest⟩ := h
  refine ⟨blanks, sign, lead, body, base, ds, rfl, hblanks, hsign, leads, ?_, rest⟩
  rcases clean with allowed | clean
  · exact digits.mono fun hu => ⟨allowed, hu.2⟩
  · simp only [mem_append, not_or] at clean
    exact digits.strict clean.2.2.2

/-! ### What is parsed -/

theorem bmod_congr {a b : Int} (h : a % n = b % n) : a.bmod n = b.bmod n := by
  unfold Int.bmod
  rw [h]

theorem ofNat_eq_zero (k : Nat) : Int32.ofNat k = 0 ↔ 2 ^ 32 ∣ k := by
  rw [← Int32.toInt_inj, Int32.toInt_ofNat', Int32.toInt_zero, ← Int.dvd_iff_bmod_eq_zero, Int.natCast_dvd_natCast]
  rfl

theorem toInt64_toInt (acc : UInt64) (h : acc.toNat ≡ n [MOD 2 ^ 64]) :
    acc.toInt64.toInt = (n : Int).bmod (2 ^ 64) ∧ (-acc.toInt64).toInt = (-(n : Int)).bmod (2 ^ 64) := by
  have here : acc.toInt64.toInt = (n : Int).bmod (2 ^ 64) := by
    have bits : acc.toInt64.toInt = (acc.toNat : Int).bmod (2 ^ 64) := BitVec.toInt_eq_toNat_bmod _
    rw [bits]
    refine bmod_congr ?_
    exact_mod_cast h
  refine ⟨here, ?_⟩
  rw [Int64.toInt_neg, here]
  refine bmod_congr ?_
  have parts := Int.bmod_add_bdiv (n : Int) (2 ^ 64)
  omega

theorem signed_toInt (neg : Bool) (base : Nat) (ds : List Nat) :
    (if neg = true then -(ds.foldl (addDigit base) 0).toInt64 else (ds.foldl (addDigit base) 0).toInt64).toInt =
      (signed neg base ds).bmod (2 ^ 64) := by
  have sum := foldl_addDigit base ds 0
  rw [UInt64.toNat_zero, Nat.zero_mul, Nat.zero_add] at sum
  obtain ⟨plus, minus⟩ := toInt64_toInt _ sum
  unfold signed
  split_ifs
  · exact minus
  · exact plus

/-- What is parsed is a numeral, its value wrapped, unless the count of its digits wraps to 0. -/
theorem parseIntStr_iff (s : Bytes) (r : Nat) (n : Int64) : parseIntStr s r = some n ↔
    ∃ m k, Numeral true r s m k ∧ ¬ 2 ^ 32 ∣ k ∧ n.toInt = m.bmod (2 ^ 64) := by
  obtain ⟨base, -, hbase, -⟩ := takeRadix_cases r (takeSign (s.dropWhile isBlank)).2
  have flag : decide ((r : Int) = 0) = true ↔ true = true ∧ r = 0 := by simp
  unfold parseIntStr
  dsimp only
  rw [hbase]
  constructor
  · intro h
    cases run : digitsLoop base (decide ((r : Int) = 0)) 0 0 (takeRadix r (takeSign (s.dropWhile isBlank)).2).2 with
    | none =>
      rw [run] at h
      cases h
    | some out =>
      obtain ⟨ds, digits⟩ := digits_of_digitsLoop run
      rw [digitsLoop_of_digits digits, Int32.zero_add] at h
      dsimp only at h
      by_cases many : Int32.ofNat ds.length = 0
      · rw [if_pos many] at h
        cases h
      · rw [if_neg many] at h
        rw [ofNat_eq_zero] at many
        refine ⟨signed (takeSign (s.dropWhile isBlank)).1 base ds, ds.length, (numeral_iff ..).mpr ?_, many, ?_⟩
        · refine ⟨base, ds, hbase, digits.mono flag.mp, ?_, rfl, rfl⟩
          rintro rfl
          exact many (Nat.dvd_zero _)
        · rw [← signed_toInt, Option.some_inj.mp h]
  · rintro ⟨m, k, numeral, many, value⟩
    obtain ⟨base', ds, hbase', digits, -, rfl, rfl⟩ := (numeral_iff ..).mp numeral
    obtain rfl : base = base' := Int.ofNat_inj.mp (hbase.symm.trans hbase')
    rw [digitsLoop_of_digits (digits.mono flag.mpr), Int32.zero_add]
    dsimp only
    rw [if_neg ((ofNat_eq_zero _).not.mpr many), Option.some_inj, ← Int64.toInt_inj, value]
    exact signed_toInt _ base ds

/-! ### What is converted -/

/-- The range of `int` leaves nothing out. -/
theorem conv_eq (t : Bytes) (hr : r < 2 ^ 31) : conv "int" t (some (Int64.ofNat r)) =
    some (match parseIntStr (cStr t) r with
      | none => .error ⟨"str", "int", t⟩
      | some n => .ok n) := by
  have radix : (Int64.ofNat r).toInt32.toInt = r := by
    rw [Int64.toInt_toInt32, Int64.toInt_ofNat_of_lt (by omega)]
    exact Int.bmod_eq_of_le (by omega) (by omega)
  have range : intRange "int" = some ⟨"int", -2 ^ 63, 2 ^ 63 - 1⟩ := rfl
  unfold conv toIntChecked
  rw [range, Option.map_some]
  dsimp only
  rw [radix]
  cases parseIntStr (cStr t) r with
  | none => rfl
  | some n =>
    have inside : ¬ (n.toInt < -2 ^ 63 ∨ n.toInt > 2 ^ 63 - 1) := by
      have low := n.le_toInt
      have high := n.toInt_lt
      omega
    simp only [bind, Except.bind, if_neg inside]
    rfl

/-- `safe_conv` has the values of `vl_conv`. -/
theorem safeConv_iff (type : String) (t : Bytes) (base : Option Int64) (n : Int64) :
    safeConv type t base = some (some n) ↔ conv type t base = some (.ok n) := by
  unfold safeConv
  cases conv type t base with
  | none => exact iff_of_false nofun nofun
  | some result =>
    cases result with
    | error e => exact iff_of_false nofun nofun
    | ok n' => simp [Except.toOption]

/-- What is asked of the conversions: they give the value of a numeral in range, and `vl_conv` an error for any
other text. -/
structure Converts (sep : Bool) (t : Bytes) (r : Nat) : Prop where
  ok : ∀ n : Int64, conv "int" t (some (Int64.ofNat r)) = some (.ok n) ↔ ∃ k, Numeral sep r t n.toInt k
  safe : ∀ n : Int64, safeConv "int" t (some (Int64.ofNat r)) = some (some n) ↔ ∃ k, Numeral sep r t n.toInt k
  error : (¬ ∃ (n : Int64) (k : Nat), Numeral sep r t n.toInt k) →
    conv "int" t (some (Int64.ofNat r)) = some (.error ⟨"str", "int", t⟩)

theorem cStr_of_clean (clean : 0 ∉ t) : cStr t = t := by
  unfold cStr
  rw [takeWhile_eq_self_iff]
  intro c hc
  have some : c ≠ 0 := fun h => clean (h ▸ hc)
  simpa using some

theorem conv_ok_iff (t : Bytes) (hr : r < 2 ^ 31) (n : Int64) :
    conv "int" t (some (Int64.ofNat r)) = some (.ok n) ↔
      ∃ m k, Numeral true r (cStr t) m k ∧ ¬ 2 ^ 32 ∣ k ∧ n.toInt = m.bmod (2 ^ 64) := by
  rw [← parseIntStr_iff, conv_eq t hr]
  cases parseIntStr (cStr t) r with
  | none => exact iff_of_false nofun nofun
  | some n' =>
    rw [Option.some_inj, Option.some_inj]
    exact ⟨Except.ok.inj, congrArg Except.ok⟩

/-- The conversion is right where what is in front of the first NUL is no numeral, or is all of the text and
in range; and the count of the digits does not wrap to 0. -/
theorem conv_right_iff (sep : Bool) (t : Bytes) {r : Nat} (hr : r = 0 ∨ 2 ≤ r ∧ r ≤ 36) : Converts sep t r ↔
    ∀ m k, Numeral true r (cStr t) m k →
      ((0 ∉ t ∧ (sep = true ∨ 95 ∉ t) ∧ FitsInt64 m) ↔ ¬ 2 ^ 32 ∣ k) := by
  have read := conv_ok_iff t (r := r) (by omega)
  have whole : ∀ {sep' : Bool} {m : Int} {k : Nat}, Numeral sep' r t m k →
      Numeral true r (cStr t) m k ∧ 0 ∉ t ∧ (sep' = true ∨ 95 ∉ t) := by
    intro sep' m k numeral
    obtain ⟨nul, under⟩ := numeral.clean
    rw [cStr_of_clean nul]
    exact ⟨numeral.strict (.inl rfl), nul, under⟩
  have exact_ : ∀ {m : Int}, FitsInt64 m → m.bmod (2 ^ 64) = m := by
    rintro m ⟨low, high⟩
    exact Int.bmod_eq_of_le (by omega) (by omega)
  constructor
  · intro converts m k numeral
    constructor
    · rintro ⟨nul, under, fits⟩
      have value : (Int64.ofInt m).toInt = m := Int64.toInt_ofInt.trans (exact_ fits)
      have text := numeral
      rw [cStr_of_clean nul] at text
      have ok := (converts.ok (Int64.ofInt m)).mpr ⟨k, value.symm ▸ text.strict under⟩
      obtain ⟨m', k', numeral', many, -⟩ := (read _).mp ok
      rwa [(numeral.unique numeral').2]
    · intro many
      have value : (Int64.ofInt m).toInt = m.bmod (2 ^ 64) := Int64.toInt_ofInt
      have ok := (read (Int64.ofInt m)).mpr ⟨m, k, numeral, many, value⟩
      obtain ⟨k', text⟩ := (converts.ok _).mp ok
      obtain ⟨numeral', nul, under⟩ := whole text
      refine ⟨nul, under, ?_⟩
      rw [(numeral.unique numeral').1]
      exact fitsInt64_toInt _
  · intro tame
    have ok : ∀ n : Int64, conv "int" t (some (Int64.ofNat r)) = some (.ok n) ↔
        ∃ k, Numeral sep r t n.toInt k := by
      intro n
      rw [read]
      constructor
      · rintro ⟨m, k, numeral, many, value⟩
        obtain ⟨nul, under, fits⟩ := (tame m k numeral).mpr many
        rw [exact_ fits] at value
        rw [cStr_of_clean nul] at numeral
        exact ⟨k, value ▸ numeral.strict under⟩
      · rintro ⟨k, text⟩
        obtain ⟨numeral, nul, under⟩ := whole text
        have fits := fitsInt64_toInt n
        exact ⟨n.toInt, k, numeral, (tame _ k numeral).mp ⟨nul, under, fits⟩, (exact_ fits).symm⟩
    refine ⟨ok, fun n => (safeConv_iff ..).trans (ok n), ?_⟩
    intro other
    have result := conv_eq t (r := r) (by omega)
    cases parsed : parseIntStr (cStr t) r with
    | none => rw [result, parsed]
    | some n =>
      rw [parsed] at result
      exact absurd ⟨n, (ok n).mp result⟩ other

/-- `-0x1F` under radix 0. -/
theorem conv_right_hex : Converts true [45, 48, 120, 49, 70] 0 := by
  have digits : IsDigits 16 (true = true ∧ 0 = 0) [49, 70] [1, 15] := isDigits_map (by decide) (by decide)
  have numeral : Numeral true 0 [45, 48, 120, 49, 70] (-31) 2 :=
    ⟨[], [45], [48, 120], [49, 70], 16, [1, 15], rfl, nofun, .inr (.inr rfl), .hex (.inl rfl), digits, nofun, rfl,
      by decide⟩
  refine (conv_right_iff true _ (.inl rfl)).mpr ?_
  intro m k numeral'
  obtain ⟨rfl, rfl⟩ := numeral.unique numeral'
  exact iff_of_true ⟨by decide, .inl rfl, by decide⟩ (by decide)

/-- `2 ^ 64` is read as 0, and what stands behind a NUL is not seen. -/
theorem conv_wraps :
    let t : Bytes := [49, 56, 52, 52, 54, 55, 52, 52, 48, 55, 51, 55, 48, 57, 53, 53, 49, 54, 49, 54]
    conv "int" t (some 10) = some (.ok 0) ∧ (∀ sep, ¬ Converts sep t 10) ∧
      conv "int" [49, 50, 0, 120] (some 10) = some (.ok 12) ∧ ∀ sep, ¬ Converts sep [49, 50, 0, 120] 10 := by
  intro t
  have wrapped : conv "int" t (some 10) = some (.ok 0) := rfl
  have cut : conv "int" [49, 50, 0, 120] (some 10) = some (.ok 12) := rfl
  refine ⟨wrapped, ?_, cut, ?_⟩
  · intro sep converts
    obtain ⟨k, text⟩ := (converts.ok 0).mp wrapped
    have digits : IsDigits 10 (true = true ∧ 10 = 0) t
        [1, 8, 4, 4, 6, 7, 4, 4, 0, 7, 3, 7, 0, 9, 5, 5, 1, 6, 1, 6] := isDigits_map (by decide) (by decide)
    have numeral : Numeral true 10 t (2 ^ 64) 20 :=
      ⟨[], [], [], t, 10, _, rfl, nofun, .inl rfl, .given (by decide), digits, nofun, rfl, by decide⟩
    exact absurd (text.unique numeral).1 (by decide)
  · intro sep converts
    obtain ⟨k, text⟩ := (converts.ok 12).mp cut
    exact absurd text.clean.1 (by decide)

end Voila.Str
