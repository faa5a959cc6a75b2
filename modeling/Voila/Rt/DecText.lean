import Voila.Rt.Dec

/-!
# Voila.Rt.DecText

The text of a decimal, read and printed (`parse_into` and `vl_dec_str` of `dec.c`).

The reader bounds the exponent that is written, and that less the length of the fraction from
below. The printer writes `d.dddE±n`, where `n` is the exponent and all digits but one. So from
above the two bounds are on different numbers: a coefficient of more than one digit with an exponent
near the bound is read and cannot be read again once printed (`parse_str_iff`).
-/

open List

namespace Voila.Rt

/-- `DEC_MAX_EXP`. -/
def decMaxExp : Int := 999999999

/-- `isdigit`. -/
def isDigit (b : UInt8) : Bool := 48 ≤ b && b ≤ 57

/-- `isspace`. -/
def isSpace (b : UInt8) : Bool := b == 32 || (9 ≤ b && b ≤ 13)

/-- The number that digits say. -/
def readNat (s : Bytes) : Nat := s.foldl (fun n b => 10 * n + (b.toNat - 48)) 0

/-- What a sign says, and what follows it. -/
def readSign : Bytes → Bool × Bytes
  | [] => (false, [])
  | b :: s => if b = 43 then (false, s) else if b = 45 then (true, s) else (false, b :: s)

/-- `strtoll(s, &end, 10)`, without the bounds of its result: `none` when there is no number. -/
def strtoll (s : Bytes) : Option (Int × Bytes) :=
  let (neg, s) := readSign (s.dropWhile isSpace)
  let digits := s.takeWhile isDigit
  if digits = [] then none
  else some (if neg then -(readNat digits : Int) else readNat digits, s.dropWhile isDigit)

/-- The exponent after the `e`. A number that does not fit (`ERANGE`) is beyond the bound, too. -/
def readExp (s : Bytes) : Option Int := do
  let (v, rest) ← strtoll s
  if rest ≠ [] then none
  else if v > decMaxExp ∨ v < -decMaxExp then none
  else some v

/-- The digit of a byte. -/
def byteDigit (b : UInt8) : Fin 10 := Fin.ofNat 10 (b.toNat - 48)

/-- The loop over the mantissa: its digits, and how many of them are behind the point. -/
def readMant : Bool → Bytes → Option (List (Fin 10) × Nat)
  | _, [] => some ([], 0)
  | dot, b :: s =>
    if b = 46 then if dot then none else readMant true s
    else if b = 95 then readMant dot s
    else if isDigit b then
      (readMant dot s).map fun (ds, frac) => (byteDigit b :: ds, if dot then frac + 1 else frac)
    else none

/-- `e` or `E`. -/
def isExp (b : UInt8) : Bool := b == 101 || b == 69

/-- The exponent that is written, if there is one. -/
def readExpPart (s : Bytes) : Option Int :=
  match s.dropWhile (fun b => !isExp b) with
  | [] => some 0
  | _ :: e => readExp e

/-- `parse_into`, after the sign: the digits and the exponent. -/
def parseMag (s : Bytes) : Option (List (Fin 10) × Int) := do
  let expPart ← readExpPart s
  let (digits, frac) ← readMant false (s.takeWhile fun b => !isExp b)
  if digits = [] then none
  else if expPart - frac < -decMaxExp then none
  else some (digits, expPart - frac)

/-- `parse_into`. -/
def parseInto (s : Bytes) : Option (Bool × List (Fin 10) × Int) :=
  let (neg, s) := readSign (s.dropWhile fun b => b == 32 || b == 9)
  (parseMag s).map (neg, ·)

/-- `vl_dec_parse` and `vl_dec_try_parse`: the first throws where the second is false. -/
def vlDecParse (s : Bytes) : Option Dec := (parseInto s).map fun (neg, ds, exp) => .make neg ds exp

/-! ### The number of a decimal -/

/-- The number of a coefficient. -/
def coef (ds : List (Fin 10)) : Nat := ds.foldl (fun (n : Nat) (x : Fin 10) => 10 * n + x.val) 0

/-- The number that a decimal is. -/
def Dec.value (v : Dec) : ℚ := (if v.neg then -1 else 1) * coef v.d * 10 ^ v.exp

theorem coef_append_zeros (ds : List (Fin 10)) (k : Nat) :
    coef (ds ++ List.replicate k 0) = coef ds * 10 ^ k := by
  induction k with
  | zero => simp
  | succ k ih =>
    rw [replicate_succ', ← append_assoc, coef, foldl_append]
    show 10 * coef (ds ++ List.replicate k 0) + 0 = _
    rw [ih, pow_succ]
    ring

variable {k : Nat} {v : Dec}

/-- Zeros at the end of the coefficient are the exponent's. -/
theorem Dec.value_shifted {a b : Dec} (h : a.Shifted b k) : a.value = b.value := by
  have hten : (10 : ℚ) ^ (b.exp - k) * 10 ^ k = 10 ^ b.exp := by
    rw [← zpow_natCast, ← zpow_add₀ (by norm_num)]
    congr 1
    omega
  rw [Dec.value, Dec.value, h.neg, h.d, h.exp, coef_append_zeros, ← hten]
  push_cast
  ring

/-! ### Printing -/

theorem dropTrailing_split (ds : List (Fin 10)) (exp : Int) :
    ∃ k : Nat, ds = List.replicate k 0 ++ (dropTrailing ds exp).1 ∧
      (dropTrailing ds exp).2 = exp + k ∧ (k = 0 ∨ exp + k ≤ 0) := by
  fun_induction dropTrailing ds exp with
  | case1 x y ds exp h ih =>
    obtain ⟨k, hds, hexp, hk⟩ := ih
    refine ⟨k + 1, ?_, by omega, .inr (by omega)⟩
    rw [replicate_succ, cons_append, ← hds, h.2]
  | case2 | case3 => exact ⟨0, by simp⟩

/-- `normalize` drops zeros, and none from before the point. -/
theorem Dec.normalize_shifted (h : allZero v.d = false) :
    ∃ k : Nat, v.Shifted v.normalize k ∧ (k = 0 ∨ v.normalize.exp ≤ 0) := by
  obtain ⟨hneg, hd, hexp⟩ := Dec.normalize_eq h
  obtain ⟨k, hds, he, hk⟩ := dropTrailing_split v.d.reverse v.exp
  refine ⟨k, ⟨hneg.symm, ?_, by omega⟩, by omega⟩
  rw [hd, ← reverse_inj, reverse_append, reverse_reverse, reverse_replicate]
  exact hds

/-! ### Reading what was printed -/

theorem isDigit_digitByte (x : Fin 10) : isDigit (digitByte x) = true := by
  revert x
  decide

theorem byteDigit_digitByte (x : Fin 10) : byteDigit (digitByte x) = x := by
  revert x
  decide

theorem digitByte_plain (x : Fin 10) : digitByte x ≠ 46 ∧ digitByte x ≠ 95 ∧ digitByte x ≠ 43 ∧
    digitByte x ≠ 45 ∧ digitByte x ≠ 32 ∧ digitByte x ≠ 9 ∧ isExp (digitByte x) = false := by
  revert x
  decide

/-- The digits of a part are read as they are. -/
theorem readMant_digits (dot : Bool) (ds : List (Fin 10)) (s : Bytes) :
    readMant dot (ds.map digitByte ++ s) = (readMant dot s).map fun (es, frac) =>
      (ds ++ es, if dot then frac + ds.length else frac) := by
  induction ds with
  | nil => cases dot <;> simp
  | cons x ds ih =>
    obtain ⟨hdot, hline, -⟩ := digitByte_plain x
    rw [map_cons, cons_append, readMant, if_neg hdot, if_neg hline,
      if_pos (isDigit_digitByte x), byteDigit_digitByte, ih, Option.map_map]
    cases dot <;> simp [Function.comp_def, Nat.add_assoc]

theorem readMant_whole (ds : List (Fin 10)) : readMant false (ds.map digitByte) = some (ds, 0) := by
  simpa [readMant] using readMant_digits false ds []

theorem readMant_point (ds es : List (Fin 10)) :
    readMant false (ds.map digitByte ++ 46 :: es.map digitByte) = some (ds ++ es, es.length) := by
  have hfrac := readMant_digits true es []
  simp only [List.append_nil] at hfrac
  rw [readMant_digits, readMant, if_pos rfl, if_neg (by decide), hfrac]
  simp [readMant]

theorem readNat_append (s s' : Bytes) :
    readNat (s ++ s') = s'.foldl (fun n b => 10 * n + (b.toNat - 48)) (readNat s) :=
  foldl_append

theorem printNat_digits (n : Nat) : (printNat n).all isDigit = true ∧ printNat n ≠ [] ∧
    readNat (printNat n) = n := by
  have hdigit : ∀ x : Nat, x < 10 → isDigit (48 + UInt8.ofNat x) = true ∧
      (48 + UInt8.ofNat x).toNat - 48 = x := by decide
  unfold printNat
  split_ifs with h0
  · rw [h0]
    decide
  · have hlt : ∀ x ∈ Nat.digits 10 n, x < 10 := fun x hx => Nat.digits_lt_base (by norm_num) hx
    refine ⟨?_, by simp [Nat.digits_ne_nil_iff_ne_zero, h0], ?_⟩
    · simpa using fun x hx => (hdigit x (hlt x hx)).1
    · -- the last digit printed is the first of `Nat.digits`
      conv_rhs => rw [← Nat.ofDigits_digits 10 n]
      clear h0
      generalize Nat.digits 10 n = ds at hlt ⊢
      induction ds with
      | nil => rfl
      | cons x ds ih =>
        have hrest := ih fun y hy => hlt y (mem_cons_of_mem x hy)
        rw [reverse_cons, map_append, readNat_append, hrest]
        show 10 * Nat.ofDigits 10 ds + ((48 + UInt8.ofNat x).toNat - 48) = _
        rw [(hdigit x (hlt x mem_cons_self)).2, Nat.ofDigits_cons]
        ring

/-- The exponent of the scientific form is read, when it is within the bound. -/
theorem readExp_print (adj : Int) :
    readExp ((if adj < 0 then 45 else 43) :: printNat adj.natAbs) =
      if adj > decMaxExp ∨ adj < -decMaxExp then none else some adj := by
  obtain ⟨hall, hne, hread⟩ := printNat_digits adj.natAbs
  have htake : (printNat adj.natAbs).takeWhile isDigit = printNat adj.natAbs :=
    takeWhile_eq_self_iff.mpr (by simpa using hall)
  have hdrop : (printNat adj.natAbs).dropWhile isDigit = [] :=
    dropWhile_eq_nil_iff.mpr (by simpa using hall)
  by_cases hneg : adj < 0
  · have hv : -((printNat adj.natAbs |> readNat : Nat) : Int) = adj := by rw [hread]; omega
    have hto : strtoll (45 :: printNat adj.natAbs) = some (adj, []) := by
      have hsign : readSign ((45 :: printNat adj.natAbs).dropWhile isSpace) =
          (true, printNat adj.natAbs) := by
        rw [dropWhile_cons_of_neg (by decide)]
        rfl
      simp only [strtoll, hsign, htake, hdrop, if_neg hne, if_true, hv]
    rw [if_pos hneg, readExp, hto]
    rfl
  · have hv : ((printNat adj.natAbs |> readNat : Nat) : Int) = adj := by rw [hread]; omega
    have hto : strtoll (43 :: printNat adj.natAbs) = some (adj, []) := by
      have hsign : readSign ((43 :: printNat adj.natAbs).dropWhile isSpace) =
          (false, printNat adj.natAbs) := by
        rw [dropWhile_cons_of_neg (by decide)]
        rfl
      simp only [strtoll, hsign, htake, hdrop, if_neg hne, Bool.false_eq_true, if_false, hv]
    rw [if_neg hneg, readExp, hto]
    rfl

/-- The sign is read, and the rest begins with a digit. -/
theorem parseInto_sign (neg : Bool) (x : Fin 10) (body : Bytes) :
    parseInto ((if neg then [45] else []) ++ digitByte x :: body) =
      (parseMag (digitByte x :: body)).map (neg, ·) := by
  obtain ⟨-, -, hplus, hminus, hspace, htab, -⟩ := digitByte_plain x
  have hsign : readSign (((if neg then [45] else []) ++ digitByte x :: body).dropWhile
      fun b => b == 32 || b == 9) = (neg, digitByte x :: body) := by
    cases neg with
    | false =>
      show readSign ((digitByte x :: body).dropWhile fun b => b == 32 || b == 9) = _
      rw [dropWhile_cons]
      simp [hspace, htab, readSign, hplus, hminus]
    | true => rfl
  simp only [parseInto, hsign]

section

variable {mant : Bytes} (hmant : ∀ b ∈ mant, (!isExp b) = true)

include hmant

/-- What is read of a mantissa alone. -/
theorem parseMag_plain : parseMag mant = (readMant false mant).bind fun (digits, frac) =>
    if digits = [] then none
    else if 0 - (frac : Int) < -decMaxExp then none
    else some (digits, 0 - (frac : Int)) := by
  have htake : mant.takeWhile (fun b => !isExp b) = mant := takeWhile_eq_self_iff.mpr hmant
  have hdrop : mant.dropWhile (fun b => !isExp b) = [] := dropWhile_eq_nil_iff.mpr hmant
  simp only [parseMag, readExpPart, htake, hdrop]
  rfl

/-- What is read of a mantissa and an exponent. -/
theorem parseMag_exp {c : UInt8} (hc : isExp c = true) (e : Bytes) :
    parseMag (mant ++ c :: e) = (readExp e).bind fun expPart =>
    (readMant false mant).bind fun (digits, frac) =>
      if digits = [] then none
      else if expPart - frac < -decMaxExp then none
      else some (digits, expPart - frac) := by
  have htake : (mant ++ c :: e).takeWhile (fun b => !isExp b) = mant := by
    rw [takeWhile_append_of_pos hmant, takeWhile_cons_of_neg (by simp [hc])]
    exact List.append_nil mant
  have hdrop : (mant ++ c :: e).dropWhile (fun b => !isExp b) = c :: e := by
    rw [dropWhile_append_of_pos hmant, dropWhile_cons_of_neg (by simp [hc])]
  simp only [parseMag, readExpPart, htake, hdrop]
  rfl

end

theorem not_isExp_digits (ds : List (Fin 10)) : ∀ b ∈ ds.map digitByte, (!isExp b) = true := by
  intro b hb
  obtain ⟨x, -, rfl⟩ := mem_map.mp hb
  rw [(digitByte_plain x).2.2.2.2.2.2]
  rfl

theorem not_isExp_point (ds es : List (Fin 10)) :
    ∀ b ∈ ds.map digitByte ++ 46 :: es.map digitByte, (!isExp b) = true := by
  intro b hb
  rcases mem_append.mp hb with hb | hb
  · exact not_isExp_digits ds b hb
  · rcases mem_cons.mp hb with rfl | hb
    · decide
    · exact not_isExp_digits es b hb

theorem parseMag_whole {ds : List (Fin 10)} (hds : ds ≠ []) :
    parseMag (ds.map digitByte) = some (ds, 0) := by
  rw [parseMag_plain (not_isExp_digits ds), readMant_whole]
  simp [hds, decMaxExp]

theorem parseMag_point {ds es : List (Fin 10)} (hds : ds ≠ []) (hes : es.length ≤ decMaxExp) :
    parseMag (ds.map digitByte ++ 46 :: es.map digitByte) = some (ds ++ es, -(es.length : Int)) := by
  rw [parseMag_plain (not_isExp_point ds es), readMant_point]
  simp [hds]
  omega

/-- The scientific form is read back when its exponent is within the bound. -/
theorem parseMag_sci {x : Fin 10} {xs : List (Fin 10)} {adj : Int}
    (hlow : -decMaxExp ≤ adj - xs.length) :
    parseMag (sciText (x :: xs) adj) =
      if adj > decMaxExp then none else some (x :: xs, adj - xs.length) := by
  have hbound : (adj > decMaxExp ∨ adj < -decMaxExp) ↔ adj > decMaxExp := by omega
  have hread := readExp_print adj
  simp only [hbound] at hread
  cases xs with
  | nil =>
    have htext : sciText [x] adj =
        [x].map digitByte ++ 69 :: (if adj < 0 then 45 else 43) :: printNat adj.natAbs := by
      simp [sciText]
    rw [htext, parseMag_exp (not_isExp_digits [x]) rfl, hread, readMant_whole]
    split_ifs with hadj
    · rfl
    · simpa using hlow
  | cons y ys =>
    have htext : sciText (x :: y :: ys) adj = ([x].map digitByte ++ 46 :: (y :: ys).map digitByte) ++
        69 :: (if adj < 0 then 45 else 43) :: printNat adj.natAbs := by
      simp [sciText]
    rw [htext, parseMag_exp (not_isExp_point [x] (y :: ys)) rfl, hread, readMant_point]
    split_ifs with hadj
    · rfl
    · simpa using hlow

/-! ### The round trip -/

theorem stripLead_zeros (k : Nat) {x : Fin 10} (hx : x ≠ 0) (xs : List (Fin 10)) :
    stripLead (List.replicate k 0 ++ x :: xs) = x :: xs := by
  induction k with
  | zero => exact stripLead_cons hx xs
  | succ k ih =>
    rw [replicate_succ, cons_append]
    cases k with
    | zero =>
      show stripLead (0 :: x :: xs) = _
      rw [stripLead, if_pos rfl]
      exact ih
    | succ k =>
      rw [replicate_succ, cons_append, stripLead, if_pos rfl]
      exact ih

theorem make_zeros (neg : Bool) (k : Nat) {x : Fin 10} (hx : x ≠ 0) (xs : List (Fin 10)) (exp : Int) :
    Dec.make neg (List.replicate k 0 ++ x :: xs) exp = ⟨neg, x :: xs, exp, .inr ⟨x, xs, rfl, hx⟩⟩ := by
  simp [Dec.make, stripLead_zeros k hx, allZero_cons hx]

/-- Where the exponent that the scientific form shows is beyond the bound. -/
def Dec.tooWide (v : Dec) : Prop := 0 < v.exp ∧ decMaxExp < v.exp + v.d.length - 1

instance (v : Dec) : Decidable v.tooWide := inferInstanceAs (Decidable (_ ∧ _))

section

variable {ds : List (Fin 10)} {exp : Int}

theorem magText_frac (h : exp < 0) (hpoint : 0 < ds.length + exp) :
    magText ds exp = (ds.take (ds.length + exp).toNat).map digitByte ++
      46 :: (ds.drop (ds.length + exp).toNat).map digitByte := by
  unfold magText
  dsimp only
  rw [if_pos (by omega), if_neg (by omega), if_pos (by omega)]

theorem magText_small (h : exp < 0) (hadj : -6 ≤ exp + ds.length - 1) (hpoint : ds.length + exp ≤ 0) :
    magText ds exp = [0].map digitByte ++
      46 :: (List.replicate (-(ds.length + exp)).toNat 0 ++ ds).map digitByte := by
  have h0 : digitByte 0 = 48 := by decide
  unfold magText
  dsimp only
  rw [if_pos (by omega), if_neg (by omega), if_neg (by omega)]
  simp [h0]

theorem magText_tiny (h : exp ≤ 0) (hadj : exp + ds.length - 1 < -6) :
    magText ds exp = sciText ds (exp + ds.length - 1) := by
  unfold magText
  dsimp only
  rw [if_neg (by omega), if_neg (by omega)]

end

section

variable {x : Fin 10} {xs : List (Fin 10)} {exp : Int}

/-- What is read of a coefficient and an exponent that were printed: either their digits, with zeros
before them, and that exponent, or all the digits of a whole number. -/
theorem parseMag_magText (hlow : -decMaxExp ≤ exp)
    (hwide : ¬ (0 < exp ∧ decMaxExp < exp + (x :: xs).length - 1)) :
    (∃ k, parseMag (magText (x :: xs) exp) = some (List.replicate k 0 ++ x :: xs, exp)) ∨
      0 ≤ exp ∧ parseMag (magText (x :: xs) exp) =
        some (x :: xs ++ List.replicate exp.toNat 0, 0) := by
  have hdec : decMaxExp = 999999999 := rfl
  have h0 : digitByte 0 = 48 := by decide
  have hlen : ((x :: xs).length : Int) = xs.length + 1 := by simp
  have hsci : parseMag (sciText (x :: xs) (exp + (x :: xs).length - 1)) =
      if exp + (x :: xs).length - 1 > decMaxExp then none else some (x :: xs, exp) := by
    rw [parseMag_sci (by omega)]
    congr 3
    omega
  rcases Int.lt_or_le exp 0 with hneg | hpos
  · refine .inl ?_
    by_cases hadj : exp + (x :: xs).length - 1 < -6
    · refine ⟨0, ?_⟩
      rw [magText_tiny hneg.le hadj, hsci, if_neg (by omega)]
      rfl
    · by_cases hpoint : 0 < ((x :: xs).length : Int) + exp
      · refine ⟨0, ?_⟩
        rw [magText_frac hneg hpoint, parseMag_point (by simp; omega)
          (by rw [length_drop]; omega), take_append_drop]
        congr 2
        rw [length_drop]
        omega
      · refine ⟨(-((x :: xs).length + exp)).toNat + 1, ?_⟩
        rw [magText_small hneg (by omega) (by omega), parseMag_point (by simp)
          (by rw [length_append, length_replicate]; omega)]
        congr 2
        rw [length_append, length_replicate]
        omega
  · by_cases hplain : exp + (x :: xs).length ≤ 34 ∨ exp = 0
    · refine .inr ⟨hpos, ?_⟩
      have htext : (x :: xs).map digitByte ++ List.replicate exp.toNat 48 =
          (x :: xs ++ List.replicate exp.toNat 0).map digitByte := by
        simp [h0]
      rw [magText_whole hpos hplain (by simp), htext, parseMag_whole (by simp)]
    · refine .inl ⟨0, ?_⟩
      rw [magText_sci (by omega) (by omega), hsci, if_neg (by omega)]
      rfl

theorem parseMag_wide (hwide : 0 < exp ∧ decMaxExp < exp + (x :: xs).length - 1) :
    parseMag (magText (x :: xs) exp) = none := by
  have hdec : decMaxExp = 999999999 := rfl
  have hlen : ((x :: xs).length : Int) = xs.length + 1 := by simp
  rw [magText_sci hwide.1 (by omega), parseMag_sci (by omega), if_pos hwide.2]

theorem magText_head (x : Fin 10) (xs : List (Fin 10)) (exp : Int) :
    ∃ y body, magText (x :: xs) exp = digitByte y :: body := by
  have h0 : digitByte 0 = 48 := by decide
  rcases Int.lt_or_le exp 0 with hneg | hpos
  · by_cases hadj : exp + (x :: xs).length - 1 < -6
    · exact ⟨x, _, by rw [magText_tiny hneg.le hadj]; rfl⟩
    · by_cases hpoint : 0 < ((x :: xs).length : Int) + exp
      · obtain ⟨k, hk⟩ : ∃ k, (((x :: xs).length : Int) + exp).toNat = k + 1 :=
          ⟨(((x :: xs).length : Int) + exp).toNat - 1, by omega⟩
        exact ⟨x, _, by rw [magText_frac hneg hpoint, hk]; rfl⟩
      · exact ⟨0, _, by rw [magText_small hneg (by omega) (by omega)]; rfl⟩
  · by_cases hplain : exp + (x :: xs).length ≤ 34 ∨ exp = 0
    · exact ⟨x, _, by rw [magText_whole hpos hplain (by simp)]; rfl⟩
    · exact ⟨x, _, by rw [magText_sci (by omega) (by omega)]; rfl⟩

end

variable {s : Bytes}

theorem readExpPart_le {e : Int} (h : readExpPart s = some e) : e ≤ decMaxExp := by
  unfold readExpPart at h
  split at h
  · cases h
    decide
  · simp only [readExp, Option.bind_eq_bind, Option.bind_eq_some_iff] at h
    obtain ⟨⟨v, rest⟩, -, h⟩ := h
    split at h
    · cases h
    · split at h
      · cases h
      next hv =>
        obtain rfl : v = e := by simpa using h
        omega

theorem exp_of_parseMag {ds : List (Fin 10)} {exp : Int}
    (h : parseMag s = some (ds, exp)) : -decMaxExp ≤ exp ∧ exp ≤ decMaxExp := by
  simp only [parseMag, Option.bind_eq_bind, Option.bind_eq_some_iff] at h
  obtain ⟨e, he, ⟨digits, frac⟩, -, h⟩ := h
  have hle := readExpPart_le he
  split at h
  · cases h
  · split at h
    · cases h
    next hlow =>
      obtain ⟨-, rfl⟩ : digits = ds ∧ e - frac = exp := by simpa using h
      omega

/-- The exponent of a decimal that was read is within the bounds. -/
theorem exp_of_parse (h : vlDecParse s = some v) : -decMaxExp ≤ v.exp ∧ v.exp ≤ decMaxExp := by
  obtain ⟨⟨neg, ds, exp⟩, hs, rfl⟩ := Option.map_eq_some_iff.mp h
  obtain ⟨⟨ds', exp'⟩, hr, heq⟩ := Option.map_eq_some_iff.mp hs
  obtain ⟨-, rfl, rfl⟩ : _ = neg ∧ ds' = ds ∧ exp' = exp := by simpa using heq
  show -decMaxExp ≤ (Dec.make neg ds' exp').exp ∧ (Dec.make neg ds' exp').exp ≤ decMaxExp
  unfold Dec.make
  split
  · show -decMaxExp ≤ 0 ∧ 0 ≤ decMaxExp
    decide
  · exact exp_of_parseMag hr

theorem Dec.Shifted.tooWide_iff {v n : Dec} (h : v.Shifted n k) (hk : k = 0 ∨ n.exp ≤ 0) :
    n.tooWide ↔ v.tooWide := by
  have hlen : v.d.length = n.d.length + k := by simp [h.d]
  have hexp := h.exp
  unfold Dec.tooWide
  omega

/-- A decimal that was read is read back from its text, as the same number, if and only if the
exponent that the text shows is within the bound of the reader. -/
theorem parse_str_iff {s : Bytes} {v : Dec} (h : vlDecParse s = some v) :
    (∃ w, vlDecParse (vlDecStr v) = some w ∧ w.value = v.value) ↔ ¬ v.tooWide := by
  have hlow := (exp_of_parse h).1
  cases hz : allZero v.d with
  | true =>
    rw [Dec.eq_zero hz]
    exact iff_of_true ⟨_, rfl, rfl⟩ (by decide)
  | false =>
    obtain ⟨k, hk, hkz⟩ := Dec.normalize_shifted hz
    obtain ⟨x, xs, hd, hx⟩ : ∃ x xs, v.normalize.d = x :: xs ∧ x ≠ 0 := by
      obtain ⟨x, xs, hd, hx⟩ := Dec.cons_of_nonzero hz
      obtain ⟨y, ys, hy⟩ := exists_cons_of_ne_nil v.normalize.ne_nil
      have hhead := hk.d
      rw [hd, hy, cons_append, List.cons.injEq] at hhead
      exact ⟨y, ys, hy, hhead.1 ▸ hx⟩
    obtain ⟨y, body, hbody⟩ := magText_head x xs v.normalize.exp
    -- the sign is read back, and it is left to read the rest
    have hread : vlDecParse (vlDecStr v) = (parseMag (magText (x :: xs) v.normalize.exp)).map
        fun r => .make v.neg r.1 r.2 := by
      have htext : vlDecStr v = (if v.neg then [45] else []) ++ digitByte y :: body := by
        rw [← hbody, ← hd, hk.neg]
        rfl
      rw [vlDecParse, htext, parseInto_sign, ← hbody, Option.map_map]
      rfl
    have hexp := hk.exp
    rw [hread, ← hk.tooWide_iff hkz, Dec.tooWide, hd]
    by_cases hwide : 0 < v.normalize.exp ∧ decMaxExp < v.normalize.exp + (x :: xs).length - 1
    · rw [parseMag_wide hwide]
      exact iff_of_false (by simp) (not_not.mpr hwide)
    · refine iff_of_true ?_ hwide
      rw [Dec.value_shifted hk]
      rcases parseMag_magText (by omega) hwide with ⟨j, hj⟩ | ⟨hpos, hj⟩
      · refine ⟨_, by rw [hj]; rfl, ?_⟩
        show (Dec.make v.neg (List.replicate j 0 ++ x :: xs) v.normalize.exp).value = _
        rw [make_zeros _ _ hx, Dec.value, Dec.value, ← hk.neg, hd]
      · refine ⟨_, by rw [hj]; rfl, ?_⟩
        show (Dec.make v.neg (x :: xs ++ List.replicate v.normalize.exp.toNat 0) 0).value = _
        rw [cons_append, make_cons hx]
        refine Dec.value_shifted (k := v.normalize.exp.toNat) ⟨hk.neg, ?_, ?_⟩
        · rw [hd]
          rfl
        · show (0 : Int) = v.normalize.exp - v.normalize.exp.toNat
          omega

/-- The text of `12e999999999` is `1.2E+1000000000`. -/
theorem parse_str_wide : ∃ v, vlDecParse [49, 50, 101, 57, 57, 57, 57, 57, 57, 57, 57, 57] = some v ∧
    vlDecParse (vlDecStr v) = none := by
  refine ⟨_, rfl, ?_⟩
  decide +kernel

/-- `1.50` is read back. -/
theorem parse_str_plain : ∃ w, vlDecParse (vlDecStr (.make false [1, 5, 0] (-2))) = some w ∧
    w.value = (Dec.make false [1, 5, 0] (-2)).value :=
  (parse_str_iff (s := [49, 46, 53, 48]) rfl).mpr (by decide)

end Voila.Rt
