import Voila.Rt.DecOps
import Voila.Rt.JsonString

/-!
# Voila.Rt.JsonNum

The numbers of JSON texts: `jnumber` accepts the grammar's numbers, as far as decimals hold them,
and gives the integer or the decimal that is written (`jnumber_text`, `jnumber_ok`).
-/

open List

namespace Voila.Rt.Json

/-! ### Digits -/

theorem digitByte_byteDigit {b : UInt8} (h : isDigit b = true) : digitByte (byteDigit b) = b := by
  simp only [isDigit, Bool.and_eq_true, decide_eq_true_eq, UInt8.le_iff_toNat_le] at h
  have h48 : (48 : UInt8).toNat = 48 := rfl
  have h57 : (57 : UInt8).toNat = 57 := rfl
  have all : ∀ x : Fin 10, digitByte (byteDigit (UInt8.ofNat (x.val + 48))) = UInt8.ofNat (x.val + 48) := by
    decide
  have hb : b = UInt8.ofNat (b.toNat - 48 + 48) := by
    rw [Nat.sub_add_cancel (by omega), UInt8.ofNat_toNat]
  rw [hb]
  exact all ⟨b.toNat - 48, by omega⟩

@[simp] theorem digitNext_nil : digitNext [] = false := rfl

@[simp] theorem digitNext_cons (b : UInt8) (s : Bytes) : digitNext (b :: s) = isDigit b := rfl

variable {s rest : Bytes} {ds : List (Fin 10)} {b : Bool}

theorem dropWhile_digits (ds : List (Fin 10)) (h : digitNext s = false) :
    (ds.map digitByte ++ s).dropWhile isDigit = s := by
  rw [dropWhile_append_of_pos]
  · cases s with
    | nil => rfl
    | cons b s => rw [dropWhile_cons_of_neg (by simpa using h)]
  · intro b hb
    obtain ⟨x, -, rfl⟩ := mem_map.mp hb
    exact isDigit_digitByte x

/-- The digits in front of a text. -/
theorem digits_split (s : Bytes) :
    ∃ ds : List (Fin 10), s = ds.map digitByte ++ s.dropWhile isDigit ∧
      digitNext (s.dropWhile isDigit) = false ∧ (digitNext s = true → ds ≠ []) := by
  induction s with
  | nil => exact ⟨[], rfl, rfl, by simp⟩
  | cons b s ih =>
    by_cases hb : isDigit b = true
    · obtain ⟨ds, hs, hnext, -⟩ := ih
      rw [dropWhile_cons_of_pos hb]
      refine ⟨byteDigit b :: ds, ?_, hnext, by simp⟩
      rw [map_cons, digitByte_byteDigit hb, cons_append, ← hs]
    · rw [dropWhile_cons_of_neg hb]
      exact ⟨[], rfl, by simpa using hb, fun h => absurd h hb⟩

theorem readNat_digits (ds : List (Fin 10)) : readNat (ds.map digitByte) = coef ds := by
  have value : ∀ x : Fin 10, (digitByte x).toNat - 48 = x.val := by decide
  unfold readNat coef
  rw [foldl_map]
  simp only [value]

theorem coef_append (ds es : List (Fin 10)) : coef (ds ++ es) = coef ds * 10 ^ es.length + coef es := by
  rw [coef_eq, coef_eq, coef_eq, reverse_append, map_append, Nat.ofDigits_append]
  simp only [length_map, length_reverse]
  ring

/-- `strtoll` of a sign and digits alone. -/
theorem strtoll_digits (h : ds ≠ []) (sign : Option Bool) :
    strtoll (signText sign ++ ds.map digitByte) =
      some (if sign = some true then -(coef ds : Int) else coef ds, []) := by
  obtain ⟨x, xs, rfl⟩ := exists_cons_of_ne_nil h
  have htake : ((x :: xs).map digitByte).takeWhile isDigit = (x :: xs).map digitByte :=
    takeWhile_eq_self_iff.mpr fun b hb => by
      obtain ⟨y, -, rfl⟩ := mem_map.mp hb
      exact isDigit_digitByte y
  have hdrop : ((x :: xs).map digitByte).dropWhile isDigit = [] := by
    simpa using dropWhile_digits (x :: xs) (s := []) rfl
  have hne : (x :: xs).map digitByte ≠ [] := by simp
  have hsign : readSign ((signText sign ++ (x :: xs).map digitByte).dropWhile isSpace) =
      (decide (sign = some true), (x :: xs).map digitByte) := by
    cases sign with
    | none =>
      have space : ∀ y : Fin 10, isSpace (digitByte y) = false := by decide
      obtain ⟨-, -, plus, minus, -⟩ := digitByte_plain x
      show readSign ((digitByte x :: xs.map digitByte).dropWhile isSpace) = _
      rw [dropWhile_cons_of_neg (by simp [space]), readSign, if_neg plus, if_neg minus]
      rfl
    | some neg =>
      cases neg with
      | false =>
        show readSign ((ch '+' :: (x :: xs).map digitByte).dropWhile isSpace) = _
        rw [dropWhile_cons_of_neg (by decide)]
        rfl
      | true =>
        show readSign ((ch '-' :: (x :: xs).map digitByte).dropWhile isSpace) = _
        rw [dropWhile_cons_of_neg (by decide)]
        rfl
  simp only [strtoll, hsign, htake, hdrop, readNat_digits, if_neg hne, decide_eq_true_eq]

/-! ### The value of a number's text -/

theorem readExp_text (e : JExp) :
    readExp (signText e.sign ++ e.digits.map digitByte) =
      if e.num > decMaxExp ∨ e.num < -decMaxExp then none else some e.num := by
  rw [readExp, strtoll_digits e.nonempty]
  rfl

/-- The digits of a number with their point. -/
theorem readMant_mant (whole frac : List (Fin 10)) :
    readMant false (whole.map digitByte ++ fracText frac) = some (whole ++ frac, frac.length) := by
  by_cases h : frac = []
  · simpa [fracText, h] using readMant_whole whole
  · rw [fracText, if_neg h]
    exact readMant_point whole frac

theorem not_isExp_mant (whole frac : List (Fin 10)) :
    ∀ b ∈ whole.map digitByte ++ fracText frac, (!isExp b) = true := by
  by_cases h : frac = []
  · simpa [fracText, h] using not_isExp_digits whole
  · rw [fracText, if_neg h]
    exact not_isExp_point whole frac

theorem JNum.whole_ne (n : JNum) : n.whole ≠ [] := by
  cases n.leading with
  | inl h => simp [h]
  | inr h =>
    obtain ⟨x, xs, h, -⟩ := h
    simp [h]

/-- What the number's digits and exponent are read as. -/
theorem parseMag_body (n : JNum) :
    parseMag (n.whole.map digitByte ++ (fracText n.frac ++ expText n.exp)) =
      if n.InBound then some (n.whole ++ n.frac, n.expNum - n.frac.length) else none := by
  have hne : n.whole ++ n.frac ≠ [] := by simp [n.whole_ne]
  have hdec : decMaxExp = 999999999 := rfl
  rw [← append_assoc]
  cases he : n.exp with
  | none =>
    have zero : n.expNum = 0 := by simp [JNum.expNum, he]
    rw [expText, Option.map_none, Option.getD_none, append_nil,
      parseMag_plain (not_isExp_mant _ _), readMant_mant]
    simp only [Option.bind_some, if_neg hne, JNum.InBound, zero]
    by_cases hlow : 0 - (n.frac.length : Int) < -decMaxExp
    · rw [if_pos hlow, if_neg (by omega)]
    · rw [if_neg hlow, if_pos (by omega)]
  | some e =>
    have num : n.expNum = e.num := by simp [JNum.expNum, he]
    have letter : isExp (if e.big then ch 'E' else ch 'e') = true := by cases e.big <;> decide
    rw [expText, Option.map_some, Option.getD_some, JExp.text,
      parseMag_exp (not_isExp_mant _ _) letter, readExp_text, readMant_mant]
    simp only [JNum.InBound, num]
    by_cases high : e.num > decMaxExp ∨ e.num < -decMaxExp
    · rw [if_pos high, if_neg (by omega)]
      rfl
    · rw [if_neg high]
      simp only [Option.bind_some, if_neg hne]
      by_cases hlow : e.num - (n.frac.length : Int) < -decMaxExp
      · rw [if_pos hlow, if_neg (by omega)]
      · rw [if_neg hlow, if_pos (by omega)]

/-- A number's text is the decimal that is written, where its exponent is within the bound. -/
theorem vlDecParse_text (n : JNum) : vlDecParse n.text = if n.InBound then some n.dec else none := by
  obtain ⟨x, xs, hx⟩ := exists_cons_of_ne_nil n.whole_ne
  have head : n.whole.map digitByte ++ (fracText n.frac ++ expText n.exp) =
      digitByte x :: (xs.map digitByte ++ (fracText n.frac ++ expText n.exp)) := by
    rw [hx]
    rfl
  have body := parseMag_body n
  rw [head] at body
  have sign := parseInto_sign n.neg x (xs.map digitByte ++ (fracText n.frac ++ expText n.exp))
  rw [body] at sign
  rw [vlDecParse, JNum.text, head]
  show (parseInto ((if n.neg then [45] else []) ++ _)).map _ = _
  rw [sign]
  by_cases h : n.InBound
  · rw [if_pos h, if_pos h]
    rfl
  · rw [if_neg h, if_neg h]
    rfl

/-- The decimal is exact. -/
theorem JNum.dec_value (n : JNum) : n.dec.value = n.value := by
  have ten : (10 : ℚ) ^ (n.expNum - n.frac.length) = 10 ^ n.expNum / 10 ^ n.frac.length := by
    rw [zpow_sub₀ (by norm_num), zpow_natCast]
  rw [JNum.dec, make_value, coef_append, JNum.value, ten]
  push_cast
  field_simp

theorem strtoll_text {n : JNum} (h : n.frac = []) (he : n.exp = none) :
    strtoll n.text = some (if n.neg then -(coef n.whole : Int) else coef n.whole, []) := by
  have text : n.text = signText (if n.neg then some true else none) ++ n.whole.map digitByte := by
    rw [JNum.text, h, he]
    cases n.neg <;> simp [signText, fracText, expText]
  rw [text, strtoll_digits n.whole_ne]
  cases n.neg <;> rfl

/-- What the number of a text is. -/
theorem numVal_text (n : JNum) :
    numVal (n.frac = [] && n.exp = none) n.text = if n.InBound then some n.denote else none := by
  unfold numVal JNum.denote JNum.int64
  by_cases h : n.frac = [] ∧ n.exp = none
  · have bound : n.InBound := by
      simp [JNum.InBound, JNum.expNum, h, decMaxExp]
    have whole : (decide (n.frac = []) && decide (n.exp = none)) = true := by simp [h]
    rw [whole, if_pos rfl, if_pos h, strtoll_text h.1 h.2, if_pos bound, vlDecParse_text, if_pos bound]
    by_cases hfit : fitsInt64 (if n.neg then -(coef n.whole : Int) else coef n.whole) = true
    · simp [Option.filter, hfit]
    · simp [Option.filter, hfit]
  · have whole : (decide (n.frac = []) && decide (n.exp = none)) = false := by
      by_contra hc
      rw [Bool.not_eq_false] at hc
      exact h (by simpa using hc)
    rw [whole, if_neg h, vlDecParse_text]
    by_cases bound : n.InBound <;> simp [bound]

/-! ### Reading numbers -/

/-- What is behind a number does not go on with it. -/
def NumEnds (s : Bytes) : Prop :=
  digitNext s = false ∧ s.head? ≠ some (ch '.') ∧ s.head? ≠ some (ch 'e') ∧ s.head? ≠ some (ch 'E')

theorem jwhole_text (h : ds = [0] ∨ ∃ x xs, ds = x :: xs ∧ x ≠ 0)
    (hs : digitNext s = false) : jwhole (ds.map digitByte ++ s) = .ok s := by
  cases h with
  | inl h =>
    subst h
    have next : digitNext (ch '0' :: s) = true := rfl
    show jwhole (ch '0' :: s) = _
    rw [jwhole, if_neg (not_not.mpr next), head?_cons, if_pos rfl, tail_cons, if_neg (by simp [hs])]
  | inr h =>
    obtain ⟨x, xs, rfl, hx⟩ := h
    have nonzero : ∀ y : Fin 10, y ≠ 0 → digitByte y ≠ ch '0' := by decide
    have next : digitNext ((x :: xs).map digitByte ++ s) = true := isDigit_digitByte x
    have head : ((x :: xs).map digitByte ++ s).head? ≠ some (ch '0') := by
      simpa using nonzero x hx
    rw [jwhole, if_neg (not_not.mpr next), if_neg head, dropWhile_digits _ hs]

theorem jwhole_ok (h : jwhole s = .ok rest) :
    ∃ ds : List (Fin 10), (ds = [0] ∨ ∃ x xs, ds = x :: xs ∧ x ≠ 0) ∧
      s = ds.map digitByte ++ rest := by
  unfold jwhole at h
  split_ifs at h with hnone hzero hnext
  · cases h
    cases s with
    | nil => simp at hzero
    | cons b s =>
      obtain rfl : b = ch '0' := by simpa using hzero
      exact ⟨[0], .inl rfl, rfl⟩
  · cases h
    obtain ⟨ds, hs, -, hne⟩ := digits_split s
    obtain ⟨x, xs, rfl⟩ := exists_cons_of_ne_nil (hne (by simpa using hnone))
    refine ⟨x :: xs, .inr ⟨x, xs, rfl, ?_⟩, hs⟩
    intro hx
    subst hx
    rw [hs] at hzero
    exact hzero rfl

theorem jfrac_text (ds : List (Fin 10)) (hs : digitNext s = false)
    (hpoint : ds = [] → s.head? ≠ some (ch '.')) :
    jfrac (fracText ds ++ s) = .ok (decide (ds = []), s) := by
  by_cases h : ds = []
  · subst h
    show jfrac s = _
    rw [jfrac, if_neg (hpoint rfl)]
    rfl
  · obtain ⟨x, xs, rfl⟩ := exists_cons_of_ne_nil h
    have next : digitNext ((x :: xs).map digitByte ++ s) = true := isDigit_digitByte x
    rw [fracText, if_neg h, cons_append, jfrac, head?_cons, if_pos rfl, tail_cons,
      if_pos next, dropWhile_digits _ hs]
    rfl

theorem jfrac_ok (h : jfrac s = .ok (b, rest)) :
    ∃ ds : List (Fin 10), s = fracText ds ++ rest ∧ b = decide (ds = []) := by
  unfold jfrac at h
  split_ifs at h with hpoint hnext
  · cases h
    cases s with
    | nil => simp at hpoint
    | cons c s =>
      obtain rfl : c = ch '.' := by simpa using hpoint
      obtain ⟨ds, hs, -, hne⟩ := digits_split s
      have nonempty := hne hnext
      refine ⟨ds, ?_, by simp [nonempty]⟩
      rw [fracText, if_neg nonempty, cons_append, tail_cons, ← hs]
  · cases h
    exact ⟨[], rfl, rfl⟩

/-- A sign, or none. -/
theorem sign_split (s : Bytes) : ∃ sign : Option Bool, s = signText sign ++ skipSign s := by
  cases s with
  | nil => exact ⟨none, rfl⟩
  | cons c s =>
    by_cases plus : c = ch '+'
    · exact ⟨some false, by simp [plus, signText, skipSign]⟩
    · by_cases minus : c = ch '-'
      · exact ⟨some true, by simp [minus, signText, skipSign]⟩
      · exact ⟨none, by simp [plus, minus, signText, skipSign]⟩

theorem sign_text {sign : Option Bool} (hs : digitNext s = true) :
    skipSign (signText sign ++ s) = s := by
  cases sign with
  | some neg => cases neg <;> rfl
  | none =>
    cases s with
    | nil => simp at hs
    | cons b s =>
      have unsigned : ¬ (b = ch '+' ∨ b = ch '-') := by
        intro hb
        have digit : isDigit b = true := hs
        cases hb with
        | inl hb => rw [hb] at digit; exact absurd digit (by decide)
        | inr hb => rw [hb] at digit; exact absurd digit (by decide)
      simp only [skipSign, signText, nil_append, head?_cons, Option.some.injEq]
      rw [if_neg unsigned]

theorem jexp_text (e : Option JExp) (hs : NumEnds s) :
    jexp (expText e ++ s) = .ok (decide (e = none), s) := by
  cases e with
  | none =>
    show jexp s = _
    rw [jexp, if_neg (by simp [hs.2.2])]
    rfl
  | some e =>
    obtain ⟨x, xs, hx⟩ := exists_cons_of_ne_nil e.nonempty
    have next : digitNext (e.digits.map digitByte ++ s) = true := by
      rw [hx]
      exact isDigit_digitByte x
    obtain ⟨c, hc, letter⟩ : ∃ c, (if e.big then ch 'E' else ch 'e') = c ∧
        (some c = some (ch 'e') ∨ some c = some (ch 'E')) := by
      cases e.big <;> simp
    have shape : expText (some e) ++ s =
        c :: (signText e.sign ++ (e.digits.map digitByte ++ s)) := by
      simp [expText, JExp.text, hc]
    rw [shape, jexp, head?_cons, if_pos letter, tail_cons, sign_text next, if_pos next,
      dropWhile_digits _ hs.1]
    rfl

theorem jexp_ok (h : jexp s = .ok (b, rest)) :
    ∃ e : Option JExp, s = expText e ++ rest ∧ b = decide (e = none) := by
  cases s with
  | nil =>
    cases h
    exact ⟨none, rfl, rfl⟩
  | cons c s =>
    unfold jexp at h
    by_cases letter : (c :: s).head? = some (ch 'e') ∨ (c :: s).head? = some (ch 'E')
    · rw [if_pos letter] at h
      rw [tail_cons] at h
      obtain ⟨sign, hsign⟩ := sign_split s
      generalize skipSign s = t at h hsign
      by_cases next : digitNext t = true
      · rw [if_pos next] at h
        cases h
        obtain ⟨ds, ht, -, hne⟩ := digits_split t
        obtain ⟨big, hbig⟩ : ∃ big : Bool, c = if big then ch 'E' else ch 'e' := by
          simp only [head?_cons, Option.some.injEq] at letter
          cases letter with
          | inl letter => exact ⟨false, letter⟩
          | inr letter => exact ⟨true, letter⟩
        refine ⟨some ⟨big, sign, ds, hne next⟩, ?_, rfl⟩
        rw [hsign, hbig]
        simp only [expText, JExp.text, Option.map_some, Option.getD_some, cons_append,
          append_assoc, ← ht]
      · rw [if_neg next] at h
        cases h
    · rw [if_neg letter] at h
      cases h
      exact ⟨none, rfl, rfl⟩

/-- What is behind a number does not go on with its exponent. -/
theorem digitNext_exp (e : Option JExp) (hs : NumEnds s) :
    digitNext (expText e ++ s) = false ∧ (expText e ++ s).head? ≠ some (ch '.') := by
  cases e with
  | none => exact ⟨hs.1, hs.2.1⟩
  | some e =>
    cases hbig : e.big with
    | true => simp [expText, JExp.text, hbig]; decide
    | false => simp [expText, JExp.text, hbig]; decide

theorem digitNext_frac (ds : List (Fin 10)) (hs : digitNext s = false) :
    digitNext (fracText ds ++ s) = false := by
  by_cases h : ds = []
  · simpa [fracText, h] using hs
  · rw [fracText, if_neg h]
    rfl

/-- The sign of a number. -/
theorem minus_text (neg : Bool) (hs : digitNext s = true) :
    skipMinus ((if neg then [ch '-'] else []) ++ s) = s := by
  cases neg with
  | true => rfl
  | false =>
    cases s with
    | nil => rfl
    | cons b s =>
      have unsigned : b ≠ ch '-' := by
        intro hb
        have digit : isDigit b = true := hs
        rw [hb] at digit
        exact absurd digit (by decide)
      simp [unsigned, skipMinus]

theorem jnumber_text (n : JNum) (hs : NumEnds s) :
    jnumber (n.text ++ s) = if n.InBound then .ok (n.denote, s)
      else .error ⟨"number out of range (the exponent is beyond 999999999)", n.text ++ s⟩ := by
  obtain ⟨x, xs, hx⟩ := exists_cons_of_ne_nil n.whole_ne
  obtain ⟨expNext, expPoint⟩ := digitNext_exp n.exp hs
  have text : n.text ++ s = (if n.neg then [ch '-'] else []) ++
      (n.whole.map digitByte ++ (fracText n.frac ++ (expText n.exp ++ s))) := by
    simp [JNum.text]
  have next : digitNext (n.whole.map digitByte ++ (fracText n.frac ++ (expText n.exp ++ s))) = true := by
    rw [hx]
    exact isDigit_digitByte x
  have tmp : (n.text ++ s).take ((n.text ++ s).length - s.length) = n.text := by simp
  have whole : jwhole (skipMinus (n.text ++ s)) =
      .ok (fracText n.frac ++ (expText n.exp ++ s)) := by
    rw [text, minus_text n.neg next]
    exact jwhole_text n.leading (digitNext_frac n.frac expNext)
  unfold jnumber
  rw [whole]
  show (jfrac _).bind _ = _
  rw [jfrac_text n.frac expNext fun _ => expPoint]
  show (jexp _).bind _ = _
  rw [jexp_text n.exp hs]
  dsimp only [Except.bind]
  rw [tmp, numVal_text]
  by_cases bound : n.InBound
  · rw [if_pos bound, if_pos bound]
  · rw [if_neg bound, if_neg bound]

/-- What `jnumber` accepts is a number within the bound. -/
theorem jnumber_ok {v : JVal} (h : jnumber s = .ok (v, rest)) :
    ∃ n : JNum, n.InBound ∧ s = n.text ++ rest ∧ v = n.denote := by
  unfold jnumber at h
  obtain ⟨r₁, h₁, h⟩ := bind_ok h
  obtain ⟨⟨noPoint, r₂⟩, h₂, h⟩ := bind_ok h
  obtain ⟨⟨noExp, r₃⟩, h₃, h⟩ := bind_ok h
  obtain ⟨whole, leading, hs₁⟩ := jwhole_ok h₁
  obtain ⟨frac, hr₁, rfl⟩ := jfrac_ok h₂
  obtain ⟨exp, hr₂, rfl⟩ := jexp_ok h₃
  obtain ⟨neg, hneg⟩ : ∃ neg : Bool, s = (if neg then [ch '-'] else []) ++ skipMinus s := by
    cases s with
    | nil => exact ⟨false, rfl⟩
    | cons b s =>
      by_cases minus : b = ch '-'
      · exact ⟨true, by simp [minus, skipMinus]⟩
      · exact ⟨false, by simp [minus, skipMinus]⟩
  let n : JNum := ⟨neg, whole, frac, exp, leading⟩
  have text : s = n.text ++ r₃ := by
    rw [hneg, hs₁, hr₁, hr₂]
    simp [n, JNum.text]
  have tmp : s.take (s.length - r₃.length) = n.text := by simp [text]
  dsimp only at h
  rw [tmp, numVal_text n] at h
  by_cases bound : n.InBound
  · rw [if_pos bound] at h
    cases h
    exact ⟨n, bound, text, rfl⟩
  · rw [if_neg bound] at h
    cases h

end Voila.Rt.Json
