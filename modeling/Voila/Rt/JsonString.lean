import Voila.Rt.JsonText

/-!
# Voila.Rt.JsonString

The strings of JSON texts: what `jstring` accepts, what it makes of it (`jstring_iff`), and when
that is what the string denotes (`readChars_cases`).
-/

open List

namespace Voila.Rt.Json

/-! ### Code points -/

/-- A code point that is a character. -/
def Scalar (r : Nat) : Prop := r < 0xD800 ∨ 0xDFFF < r ∧ r < 0x110000

theorem lead_or {b k : Nat} (hb : b = 0xC0 ∧ k < 32 ∨ b = 0xE0 ∧ k < 16 ∨ b = 0xF0 ∧ k < 8 ∨
    b = 0x80 ∧ k < 64) : UInt8.ofNat (b ||| k) = UInt8.ofNat (k + b) := by
  have hC : ∀ x : Fin 32, UInt8.ofNat (0xC0 ||| x.val) = UInt8.ofNat (x.val + 0xC0) := by decide
  have hE : ∀ x : Fin 16, UInt8.ofNat (0xE0 ||| x.val) = UInt8.ofNat (x.val + 0xE0) := by decide
  have hF : ∀ x : Fin 8, UInt8.ofNat (0xF0 ||| x.val) = UInt8.ofNat (x.val + 0xF0) := by decide
  have h8 : ∀ x : Fin 64, UInt8.ofNat (0x80 ||| x.val) = UInt8.ofNat (x.val + 0x80) := by decide
  rcases hb with ⟨rfl, hk⟩ | ⟨rfl, hk⟩ | ⟨rfl, hk⟩ | ⟨rfl, hk⟩
  · exact hC ⟨k, hk⟩
  · exact hE ⟨k, hk⟩
  · exact hF ⟨k, hk⟩
  · exact h8 ⟨k, hk⟩

variable {r n : Nat} {cs : List JChar} {c : JChar} {u : Hex4} {same : Bool} {ds rest s : Bytes}
  {b : UInt8}

/-- `put_utf8` is the UTF-8 of a character. -/
theorem putUtf8_eq (h : Scalar r) : putUtf8 r = utf8 r := by
  have hval : (Char.ofNat r).val.toNat = r := by
    rw [Char.ofNat, dif_pos (by unfold Nat.isValidChar; unfold Scalar at h; omega)]
    rfl
  have hlow : ∀ x : Nat, x &&& 0x3F = x % 64 := fun x => Nat.and_two_pow_sub_one_eq_mod x 6
  unfold putUtf8 utf8 String.utf8EncodeChar
  simp only [hval, hlow, Nat.shiftRight_eq_div_pow]
  have hr : r < 0x110000 := by unfold Scalar at h; omega
  have tail : ∀ x : Nat, UInt8.ofNat (0x80 ||| x % 64) = UInt8.ofNat (x % 64 + 0x80) := fun x =>
    lead_or (.inr (.inr (.inr ⟨rfl, Nat.mod_lt x (by decide)⟩)))
  by_cases h1 : r < 0x80
  · rw [if_pos h1, if_pos (by omega : r ≤ 0x7f)]
  · rw [if_neg h1, if_neg (by omega : ¬ r ≤ 0x7f)]
    by_cases h2 : r < 0x800
    · rw [if_pos h2, if_pos (by omega : r ≤ 0x7ff), tail, lead_or (.inl ⟨rfl, by omega⟩),
        Nat.mod_eq_of_lt (by omega : r / 64 < 32)]
    · rw [if_neg h2, if_neg (by omega : ¬ r ≤ 0x7ff)]
      by_cases h3 : r < 0x10000
      · rw [if_pos h3, if_pos (by omega : r ≤ 0xffff), tail, tail,
          lead_or (.inr (.inl ⟨rfl, by omega⟩)), Nat.mod_eq_of_lt (by omega : r / 4096 < 16)]
      · rw [if_neg h3, if_neg (by omega : ¬ r ≤ 0xffff), tail, tail, tail,
          lead_or (.inr (.inr (.inl ⟨rfl, by omega⟩))),
          Nat.mod_eq_of_lt (by omega : r / 262144 < 8)]

theorem utf8_length (h : Scalar r) : (utf8 r).length = if r < 0x80 then 1 else
    if r < 0x800 then 2 else if r < 0x10000 then 3 else 4 := by
  rw [← putUtf8_eq h]
  unfold putUtf8
  split_ifs <;> rfl

theorem hexv_small (b : UInt8) : (hexv b).getD 0 < 16 := by
  have h9 : (ch '9').toNat = 57 := rfl
  have hf : (ch 'f').toNat = 102 := rfl
  have hF : (ch 'F').toNat = 70 := rfl
  unfold hexv
  split_ifs with h h h
  all_goals simp only [UInt8.le_iff_toNat_le, Option.getD_some, Option.getD_none] at h ⊢
  all_goals omega

theorem Hex4.num_lt (u : Hex4) : u.num < 0x10000 := by
  obtain ⟨digits, four, hex⟩ := u
  match digits, four with
  | [a, b, c, d], _ =>
    have ha := hexv_small a
    have hb := hexv_small b
    have hc := hexv_small c
    have hd := hexv_small d
    simp only [Hex4.num, foldl_cons, foldl_nil]
    omega

theorem Hex4.lone_scalar (u : Hex4) : Scalar (lonePoint u.num) := by
  have hlt := u.num_lt
  unfold lonePoint isSurrogate Scalar
  split_ifs with h
  · decide
  · simp only [Bool.and_eq_true, decide_eq_true_eq, not_and, not_le] at h
    omega

theorem pair_scalar {h l : Nat} (hh : isHigh h = true) (hl : isLow l = true) :
    Scalar (pairPoint h l) ∧ 0x10000 ≤ pairPoint h l := by
  simp only [isHigh, isLow, Bool.and_eq_true, decide_eq_true_eq] at hh hl
  unfold Scalar pairPoint
  omega

/-! ### Surrogates -/

theorem isSurrogate_of_high (h : isHigh r = true) : isSurrogate r = true := by
  simp only [isHigh, isSurrogate, Bool.and_eq_true, decide_eq_true_eq] at h ⊢
  omega

theorem isSurrogate_of_low (h : isLow r = true) : isSurrogate r = true := by
  simp only [isLow, isSurrogate, Bool.and_eq_true, decide_eq_true_eq] at h ⊢
  omega

theorem not_low_of_high (h : isHigh r = true) : isLow r = false := by
  simp only [isHigh, isLow, Bool.and_eq_true, decide_eq_true_eq] at h ⊢
  simp only [Bool.and_eq_false_iff, decide_eq_false_iff_not]
  omega

theorem lonePoint_high (h : isHigh r = true) : lonePoint r = 0xFFFD :=
  if_pos (isSurrogate_of_high h)

/-- The parity of a run of high surrogates is all that counts of it. -/
theorem paired_two (k : Nat) (cs : List JChar) : Paired (k + 3) cs = Paired (k + 1) cs := by
  induction cs generalizing k with
  | nil => rfl
  | cons c cs ih =>
    unfold Paired
    by_cases hc : c.high = true
    · rw [if_pos hc, if_pos hc]
      exact ih (k + 1)
    · have parity : (0 < k + 3 ∧ (k + 3) % 2 = 0) ↔ (0 < k + 1 ∧ (k + 1) % 2 = 0) := by omega
      rw [if_neg hc, if_neg hc]
      simp only [parity]

/-- An odd run counts as none before what is no high surrogate. -/
theorem paired_odd (h : ∀ c, cs.head? = some c → c.high = false) :
    Paired 1 cs = Paired 0 cs.tail := by
  cases cs with
  | nil => rfl
  | cons c cs =>
    have hc := h c rfl
    simp [Paired, hc]

theorem paired_zero_cons (h : c.high = false) : Paired 0 (c :: cs) = Paired 0 cs := by
  simp [Paired, h]

theorem utf8_fffd : (utf8 0xFFFD).length = 3 := by decide

/-- The first character is a low surrogate. -/
def headLow (cs : List JChar) : Bool := (cs.head?.map JChar.low).getD false

theorem denoteChars_lone (h : isHigh u.num = false ∨ headLow cs = false) :
    denoteChars (.unit u :: cs) = utf8 (lonePoint u.num) ++ denoteChars cs := by
  cases cs with
  | nil => rfl
  | cons c cs =>
    cases c with
    | plain b hb => rfl
    | letter e => rfl
    | unit l =>
      rw [denoteChars, if_neg]
      intro both
      cases h with
      | inl h => simp [both.1] at h
      | inr h => simp [headLow, JChar.low, both.2] at h

theorem readChars_lone (h : isHigh u.num = false ∨ ∀ v cs', cs ≠ .unit v :: cs') :
    readChars (.unit u :: cs) = utf8 (lonePoint u.num) ++ readChars cs := by
  cases cs with
  | nil => rfl
  | cons c cs =>
    cases c with
    | plain b hb => rfl
    | letter e => rfl
    | unit l =>
      cases h with
      | inl h => rw [readChars, if_neg (by simp [h])]
      | inr h => exact absurd rfl (h l cs)

/-- Two texts are equal, or the second is the shorter. -/
def Reads (same : Bool) (a b : Bytes) : Prop := if same then a = b else b.length < a.length

theorem Reads.append {a b : Bytes} (h : Reads same a b) (x : Bytes) :
    Reads same (x ++ a) (x ++ b) := by
  cases same with
  | true => exact congrArg (x ++ ·) h
  | false => simpa [Reads] using h

theorem Reads.le {a b : Bytes} (h : Reads same a b) : b.length ≤ a.length := by
  cases same with
  | true => exact (congrArg List.length h).ge
  | false => exact Nat.le_of_lt h

theorem paired_head (h : c.low = false) : Paired 2 (c :: cs) = Paired 0 (c :: cs) := by
  unfold Paired
  by_cases hc : c.high = true
  · rw [if_pos hc, if_pos hc, paired_two]
  · rw [if_neg hc, if_neg hc]
    simp [h]

/-- Behind an even run of high surrogates, of which `h` is the last, nothing is lost unless a low one
comes next. -/
theorem reads_behind {h : Hex4} (hh : isHigh h.num = true)
    (all : Reads (Paired 0 cs) (readChars cs) (denoteChars cs))
    (shorter : ∀ cs', cs'.length < cs.length →
      Reads (Paired 0 cs') (readChars cs') (denoteChars cs')) :
    Reads (Paired 2 cs) (utf8 0xFFFD ++ readChars cs) (denoteChars (.unit h :: cs)) := by
  by_cases low : headLow cs = true
  · cases cs with
    | nil => simp [headLow] at low
    | cons c cs =>
      cases c with
      | plain b hb => simp [headLow, JChar.low] at low
      | letter e => simp [headLow, JChar.low] at low
      | unit l =>
        have hl : isLow l.num = true := low
        have hlh : isHigh l.num = false := by
          by_contra hc
          rw [Bool.not_eq_false] at hc
          simp [not_low_of_high hc] at hl
        have unpaired : Paired 2 (.unit l :: cs) = false := by
          simp [Paired, JChar.high, JChar.low, hl, hlh]
        have tail := (shorter cs (by simp)).le
        obtain ⟨pair, above⟩ := pair_scalar hh hl
        have four : (utf8 (pairPoint h.num l.num)).length = 4 := by
          rw [utf8_length pair, if_neg (by omega), if_neg (by omega), if_neg (by omega)]
        have lone : lonePoint l.num = 0xFFFD := if_pos (isSurrogate_of_low hl)
        rw [unpaired, denoteChars, if_pos ⟨hh, hl⟩, readChars_lone (.inl hlh), lone]
        simp only [Reads, Bool.false_eq_true, if_false, length_append, utf8_fffd, four]
        omega
  · have split : denoteChars (.unit h :: cs) = utf8 0xFFFD ++ denoteChars cs := by
      rw [denoteChars_lone (.inr (by simpa using low)), lonePoint_high hh]
    have same : Paired 2 cs = Paired 0 cs := by
      cases cs with
      | nil => rfl
      | cons c cs => exact paired_head (by simpa [headLow] using low)
    rw [split, same]
    exact all.append _

/-- What the decoder makes of a string is what it denotes where the string is paired, and else
longer. -/
theorem readChars_reads (cs : List JChar) : Reads (Paired 0 cs) (readChars cs) (denoteChars cs) := by
  induction hn : cs.length using Nat.strongRecOn generalizing cs with
  | ind n ih =>
    have shorter : ∀ cs' : List JChar, cs'.length < cs.length →
        Reads (Paired 0 cs') (readChars cs') (denoteChars cs') :=
      fun cs' hlt => ih cs'.length (hn ▸ hlt) cs' rfl
    cases cs with
    | nil => rfl
    | cons c cs =>
      have tail := shorter cs (by simp)
      cases c with
      | plain b hb => exact tail.append [b]
      | letter e => exact tail.append [e.means]
      | unit u =>
        by_cases hu : isHigh u.num = true
        · have zero : Paired 0 (.unit u :: cs) = Paired 1 cs := by simp [Paired, JChar.high, hu]
          rw [zero]
          cases cs with
          | nil => rfl
          | cons c cs =>
            cases c with
            | plain b hb => exact tail.append _
            | letter e => exact tail.append _
            | unit v =>
              have rest := shorter cs (by simp only [length_cons]; omega)
              by_cases hl : isLow v.num = true
              · have odd : Paired 1 (.unit v :: cs) = Paired 0 cs :=
                  paired_odd fun c hc => by
                    cases hc
                    by_contra hv
                    rw [Bool.not_eq_false] at hv
                    simp [not_low_of_high hv] at hl
                rw [odd, readChars, denoteChars, if_pos hu, if_pos hl, if_pos ⟨hu, hl⟩]
                exact rest.append _
              · have hl' : isLow v.num = false := by simpa using hl
                have split : denoteChars (.unit u :: .unit v :: cs) =
                    utf8 0xFFFD ++ denoteChars (.unit v :: cs) := by
                  have next : headLow (.unit v :: cs) = false := hl'
                  rw [denoteChars_lone (.inr next), lonePoint_high hu]
                rw [split, readChars, if_pos hu, if_neg hl, append_assoc]
                by_cases hv : isHigh v.num = true
                · have two : Paired 1 (.unit v :: cs) = Paired 2 cs := by
                    simp [Paired, JChar.high, hv]
                  rw [two, lonePoint_high hv]
                  exact (reads_behind hv rest fun cs' hlt =>
                    shorter cs' (by simp only [length_cons]; omega)).append _
                · have odd : Paired 1 (.unit v :: cs) = Paired 0 cs :=
                    paired_odd fun c hc => by
                      cases hc
                      simpa [JChar.high] using hv
                  rw [odd, denoteChars_lone (.inl (by simpa using hv))]
                  exact (rest.append _).append _
        · have hu' : isHigh u.num = false := by simpa using hu
          have high : (JChar.unit u).high = false := hu'
          rw [paired_zero_cons high, readChars_lone (.inl hu'), denoteChars_lone (.inl hu')]
          exact tail.append _

/-! ### Reading strings -/

theorem hexNum_digits (v : Nat) (ds : Bytes) (h : ∀ b ∈ ds, (hexv b).isSome) :
    hexNum v ds = some (ds.foldl (fun v b => v * 16 + (hexv b).getD 0) v) := by
  induction ds generalizing v with
  | nil => rfl
  | cons b ds ih =>
    obtain ⟨x, hx⟩ := Option.isSome_iff_exists.mp (h b (by simp))
    rw [hexNum, hx, Option.bind_some, ih _ fun c hc => h c (by simp [hc]), foldl_cons, hx]
    rfl

theorem hex_of_hexNum {v n : Nat} (h : hexNum v ds = some n) : ∀ b ∈ ds, (hexv b).isSome := by
  induction ds generalizing v with
  | nil => simp
  | cons b ds ih =>
    rw [hexNum, Option.bind_eq_some_iff] at h
    obtain ⟨x, hx, h⟩ := h
    intro c hc
    cases mem_cons.mp hc with
    | inl hc => rw [hc, hx]; rfl
    | inr hc => exact ih h c hc

theorem read4_digits (u : Hex4) (s : Bytes) : read4 (u.digits ++ s) = .ok (u.num, s) := by
  have htake : (u.digits ++ s).take 4 = u.digits := by rw [← u.four, take_left]
  have hdrop : (u.digits ++ s).drop 4 = s := by rw [← u.four, drop_left]
  rw [read4, if_neg (by simp [u.four]), htake, hexNum_digits 0 _ u.hex, hdrop]
  rfl

/-- Four digits are read where they are. -/
theorem read4_ok (h : read4 s = .ok (n, rest)) : ∃ u : Hex4, s = u.digits ++ rest := by
  unfold read4 at h
  split_ifs at h with hlen
  cases hnum : hexNum 0 (s.take 4) with
  | none => simp [hnum] at h
  | some v =>
    simp only [hnum, Except.ok.injEq, Prod.mk.injEq] at h
    refine ⟨⟨s.take 4, by rw [length_take]; omega, hex_of_hexNum hnum⟩, ?_⟩
    rw [← h.2, take_append_drop]

theorem Letter.escape_byte (e : Letter) : escape e.byte = some e.means := by
  cases e <;> decide

theorem letter_of_escape {b c : UInt8} (h : escape b = some c) : ∃ e : Letter, b = e.byte := by
  unfold escape at h
  split_ifs at h with h1 h2 h3 h4 h5 h6 h7 h8
  · exact ⟨.quote, h1⟩
  · exact ⟨.backslash, h2⟩
  · exact ⟨.slash, h3⟩
  · exact ⟨.backspace, h4⟩
  · exact ⟨.formFeed, h5⟩
  · exact ⟨.lineFeed, h6⟩
  · exact ⟨.carriageReturn, h7⟩
  · exact ⟨.tab, h8⟩

theorem escape_u : escape (ch 'u') = none := by decide

@[simp] theorem charsText_nil : charsText [] = [] := rfl

theorem charsText_cons (c : JChar) (cs : List JChar) : charsText (c :: cs) = c.text ++ charsText cs :=
  rfl

/-- An escape that is read alone. -/
theorem jescape_lone (h : isHigh u.num = false ∨ s.take 2 ≠ [ch '\\', ch 'u']) :
    jescape (u.digits ++ s) = .ok (utf8 (lonePoint u.num), s) := by
  have alone : ¬ (isHigh u.num = true ∧ 6 ≤ s.length ∧ s.take 2 = [ch '\\', ch 'u']) := by
    intro both
    cases h with
    | inl h => simp [h] at both
    | inr h => exact h both.2.2
  have scalar := u.lone_scalar
  show (read4 (u.digits ++ s)).bind _ = _
  rw [read4_digits]
  show (if isHigh u.num = true ∧ 6 ≤ s.length ∧ s.take 2 = [ch '\\', ch 'u'] then _ else _) = _
  rw [if_neg alone]
  unfold lonePoint at scalar ⊢
  split_ifs at scalar ⊢ with hs
  · rw [putUtf8_eq scalar]
  · rw [putUtf8_eq scalar]

/-- A high surrogate is read with the escape behind it. -/
theorem jescape_two {u l : Hex4} (h : isHigh u.num = true) :
    jescape (u.digits ++ (JChar.unit l).text ++ s) =
      .ok (if isLow l.num then utf8 (pairPoint u.num l.num)
        else utf8 0xFFFD ++ utf8 (lonePoint l.num), s) := by
  have shape : (JChar.unit l).text ++ s = ch '\\' :: ch 'u' :: (l.digits ++ s) := rfl
  have four := l.four
  rw [append_assoc, shape]
  show (read4 (u.digits ++ ch '\\' :: ch 'u' :: (l.digits ++ s))).bind _ = _
  rw [read4_digits]
  show (if isHigh u.num = true ∧ 6 ≤ (ch '\\' :: ch 'u' :: (l.digits ++ s)).length ∧
    (ch '\\' :: ch 'u' :: (l.digits ++ s)).take 2 = [ch '\\', ch 'u'] then _ else _) = _
  rw [if_pos ⟨h, by simp only [length_cons, length_append]; omega, rfl⟩]
  show (read4 (l.digits ++ s)).bind _ = _
  rw [read4_digits]
  show (if isLow l.num = true then _ else _) = _
  by_cases hl : isLow l.num = true
  · obtain ⟨pair, -⟩ := pair_scalar h hl
    have point : 0x10000 + ((u.num - 0xD800) <<< 10) + (l.num - 0xDC00) = pairPoint u.num l.num := by
      rw [Nat.shiftLeft_eq]
      rfl
    rw [if_pos hl, if_pos hl, point, putUtf8_eq pair]
  · have scalar := l.lone_scalar
    have fffd : putUtf8 0xFFFD = utf8 0xFFFD := putUtf8_eq (by unfold Scalar; omega)
    rw [if_neg hl, if_neg hl, fffd]
    show Except.ok (_ ++ putUtf8 (lonePoint l.num), s) = _
    rw [putUtf8_eq scalar]

/-- One escape is read, or two. -/
theorem jescape_ok {s us rest : Bytes} (h : jescape s = .ok (us, rest)) :
    ∃ u cs, ch '\\' :: ch 'u' :: s = charsText (.unit u :: cs) ++ rest := by
  cases hr : read4 s with
  | error e => simp [jescape, hr, bind, Except.bind] at h
  | ok r =>
    obtain ⟨n, s₁⟩ := r
    obtain ⟨u, rfl⟩ := read4_ok hr
    by_cases two : isHigh n = true ∧ 6 ≤ s₁.length ∧ s₁.take 2 = [ch '\\', ch 'u']
    · cases hl : read4 (s₁.drop 2) with
      | error e => simp [jescape, hr, bind, Except.bind, two, hl] at h
      | ok r =>
        obtain ⟨m, s₂⟩ := r
        obtain ⟨l, hs₂⟩ := read4_ok hl
        have hrest : s₂ = rest := by
          simp only [jescape, hr, bind, Except.bind, two, and_self, if_true, hl] at h
          split_ifs at h <;> exact (Prod.mk.inj (Except.ok.inj h)).2
        have hs₁ : s₁ = ch '\\' :: ch 'u' :: (l.digits ++ rest) := by
          rw [← take_append_drop 2 s₁, two.2.2, hs₂, hrest]
          rfl
        refine ⟨u, [.unit l], ?_⟩
        simp [hs₁, charsText_cons, JChar.text]
    · have hrest : s₁ = rest := by
        simp only [jescape, hr, bind, Except.bind, if_neg two] at h
        split_ifs at h <;> exact (Prod.mk.inj (Except.ok.inj h)).2
      refine ⟨u, [], ?_⟩
      simp [hrest, charsText_cons, JChar.text]

/-! ### The two loops of a string -/

/-- A turn of the loop. -/
theorem jchars_cons (n : Nat) (c : UInt8) (s : Bytes) :
    jchars (n + 1) (c :: s) =
      if c = ch '"' then .ok ([], s)
      else if c < 0x20 then .error ⟨"control character in a string", c :: s⟩
      else if c ≠ ch '\\' then (jchars n s).map fun (bs, s) => (c :: bs, s)
      else
        match s with
        | [] => .error ⟨"unterminated string", []⟩
        | e :: s =>
          match escape e with
          | some b => (jchars n s).map fun (bs, s) => (b :: bs, s)
          | none =>
            if e = ch 'u' then (jescape s).bind fun (us, s) =>
              (jchars n s).map fun (bs, s) => (us ++ bs, s)
            else .error ⟨"unknown escape in a string", e :: s⟩ := by
  have bind (s : Bytes) : ((jescape s).bind fun (us, s) => (jchars n s).map fun (bs, s) => (us ++ bs, s)) =
      (do let (us, s) ← jescape s
          let (bs, s) ← jchars n s
          .ok (us ++ bs, s)) := by
    cases jescape s with
    | error e => rfl
    | ok r =>
      show (jchars n r.2).map _ = (jchars n r.2).bind _
      cases jchars n r.2 <;> rfl
  cases s with
  | nil => rfl
  | cons e s =>
    simp only [bind]
    rfl

theorem jchars_plain (h : 0x20 ≤ b ∧ b ≠ ch '"' ∧ b ≠ ch '\\') (n : Nat) (s : Bytes) :
    jchars (n + 1) (b :: s) = (jchars n s).map fun (bs, s) => (b :: bs, s) := by
  rw [jchars_cons, if_neg h.2.1, if_neg (by simpa using h.1), if_pos h.2.2]

theorem jchars_letter (e : Letter) (n : Nat) (s : Bytes) :
    jchars (n + 1) ((JChar.letter e).text ++ s) =
      (jchars n s).map fun (bs, s) => (e.means :: bs, s) := by
  show jchars (n + 1) (ch '\\' :: e.byte :: s) = _
  rw [jchars_cons, if_neg (by decide), if_neg (by decide), if_neg (by decide)]
  simp only [Letter.escape_byte]

theorem jchars_unit (n : Nat) (s : Bytes) :
    jchars (n + 1) (ch '\\' :: ch 'u' :: s) = (jescape s).bind fun (us, s) =>
      (jchars n s).map fun (bs, s) => (us ++ bs, s) := by
  rw [jchars_cons, if_neg (by decide), if_neg (by decide), if_neg (by decide)]
  simp only [escape_u, if_true]

/-- What is behind a character that is no escape of a code unit. -/
theorem not_unit_next (h : ∀ v cs', cs ≠ .unit v :: cs') (rest : Bytes) :
    (charsText cs ++ ch '"' :: rest).take 2 ≠ [ch '\\', ch 'u'] := by
  cases cs with
  | nil =>
    intro h2
    have first : some (ch '"') = some (ch '\\') := congrArg List.head? h2
    exact absurd first (by decide)
  | cons c cs =>
    cases c with
    | unit v => exact absurd rfl (h v cs)
    | plain b hb =>
      intro h2
      have first : some b = some (ch '\\') := congrArg List.head? h2
      exact hb.2.2 (Option.some.inj first)
    | letter e =>
      intro h2
      have second : some e.byte = some (ch 'u') := congrArg (·[1]?) h2
      cases e <;> exact absurd second (by decide)

/-- A string that is written is read, up to its closing quote. -/
theorem jchars_text (h : (charsText cs).length < n) :
    jchars n (charsText cs ++ ch '"' :: rest) = .ok (readChars cs, rest) := by
  induction n generalizing cs with
  | zero => exact absurd h (Nat.not_lt_zero _)
  | succ n ih =>
    cases cs with
    | nil => rw [charsText_nil, nil_append, jchars_cons, if_pos rfl]; rfl
    | cons c cs =>
      rw [charsText_cons, length_append] at h
      rw [charsText_cons, append_assoc]
      cases c with
      | plain b hb =>
        have tail : jchars n (charsText cs ++ ch '"' :: rest) = .ok (readChars cs, rest) :=
          ih (by simp only [JChar.text, length_singleton] at h; omega)
        show jchars (n + 1) (b :: _) = _
        rw [jchars_plain hb]
        show (jchars n (charsText cs ++ ch '"' :: rest)).map _ = _
        rw [tail]
        rfl
      | letter e =>
        have tail : jchars n (charsText cs ++ ch '"' :: rest) = .ok (readChars cs, rest) :=
          ih (by simp only [JChar.text, length_cons] at h; omega)
        rw [jchars_letter, tail]
        rfl
      | unit u =>
        have hu : (JChar.unit u).text.length = 6 := by simp [JChar.text, u.four]
        show jchars (n + 1) (ch '\\' :: ch 'u' :: (u.digits ++ (charsText cs ++ _))) = _
        rw [jchars_unit]
        by_cases two : isHigh u.num = true ∧ ∃ l cs', cs = .unit l :: cs'
        · obtain ⟨high, l, cs, rfl⟩ := two
          rw [charsText_cons, length_append] at h
          have tail : jchars n (charsText cs ++ ch '"' :: rest) = .ok (readChars cs, rest) :=
            ih (by omega)
          rw [charsText_cons, append_assoc, ← append_assoc u.digits, jescape_two high]
          show (jchars n (charsText cs ++ ch '"' :: rest)).map _ = _
          rw [tail, readChars, if_pos high]
          rfl
        · have tail : jchars n (charsText cs ++ ch '"' :: rest) = .ok (readChars cs, rest) :=
            ih (by omega)
          have lone : isHigh u.num = false ∨ ∀ v cs', cs ≠ .unit v :: cs' := by
            by_cases high : isHigh u.num = true
            · exact .inr fun v cs' hcs => two ⟨high, v, cs', hcs⟩
            · exact .inl (by simpa using high)
          rw [jescape_lone (lone.imp id fun hcs => not_unit_next hcs rest), readChars_lone lone]
          show (jchars n (charsText cs ++ ch '"' :: rest)).map _ = _
          rw [tail]
          rfl

theorem map_ok {α β : Type} {x : Except JErr α} {f : α → β} {b : β} (h : x.map f = .ok b) :
    ∃ a, x = .ok a ∧ f a = b := by
  cases x with
  | error e => cases h
  | ok a => exact ⟨a, rfl, Except.ok.inj h⟩

theorem bind_ok {α β : Type} {x : Except JErr α} {f : α → Except JErr β} {b : β}
    (h : x.bind f = .ok b) : ∃ a, x = .ok a ∧ f a = .ok b := by
  cases x with
  | error e => cases h
  | ok a => exact ⟨a, rfl, h⟩

/-- What the loop accepts is the text of a string. -/
theorem jchars_ok {s k rest : Bytes} (h : jchars n s = .ok (k, rest)) :
    ∃ cs, s = charsText cs ++ ch '"' :: rest := by
  induction n generalizing s k with
  | zero => cases h
  | succ n ih =>
    cases s with
    | nil => cases h
    | cons c s =>
      rw [jchars_cons] at h
      split_ifs at h with hquote hcontrol hplain
      · obtain ⟨-, rfl⟩ := Prod.mk.inj (Except.ok.inj h)
        exact ⟨[], by rw [hquote]; rfl⟩
      · obtain ⟨⟨k', s'⟩, hs, heq⟩ := map_ok h
        obtain ⟨-, rfl⟩ := Prod.mk.inj heq
        obtain ⟨cs, rfl⟩ := ih hs
        exact ⟨.plain c ⟨by simpa using hcontrol, hquote, hplain⟩ :: cs, rfl⟩
      · have hc : c = ch '\\' := by simpa using hplain
        subst hc
        cases s with
        | nil => cases h
        | cons e s =>
          cases he : escape e with
          | some b =>
            simp only [he] at h
            obtain ⟨⟨k', s'⟩, hs, heq⟩ := map_ok h
            obtain ⟨-, rfl⟩ := Prod.mk.inj heq
            obtain ⟨cs, rfl⟩ := ih hs
            obtain ⟨l, rfl⟩ := letter_of_escape he
            exact ⟨.letter l :: cs, rfl⟩
          | none =>
            simp only [he] at h
            split_ifs at h with hu
            obtain ⟨⟨us, s₁⟩, hs₁, h⟩ := bind_ok h
            obtain ⟨⟨k', s'⟩, hs, heq⟩ := map_ok h
            obtain ⟨-, rfl⟩ := Prod.mk.inj heq
            obtain ⟨cs, rfl⟩ := ih hs
            obtain ⟨u, ds, htext⟩ := jescape_ok hs₁
            refine ⟨.unit u :: ds ++ cs, ?_⟩
            rw [hu, htext]
            simp [charsText]

/-! ### The fast path -/

/-- A byte that the search for the quote passes. -/
def Passed (b : UInt8) : Prop := 0x20 ≤ b ∧ b ≠ ch '"' ∧ b ≠ ch '\\'

theorem scanEnd_cons (c : UInt8) (s : Bytes) :
    scanEnd (c :: s) =
      if c = ch '"' ∨ c < 0x20 then (c :: s, false)
      else if c = ch '\\' then
        match s with
        | [] => ([], true)
        | _ :: s => ((scanEnd s).1, true)
      else scanEnd s := by
  cases s <;> rfl

theorem scanEnd_passed (h : Passed b) (s : Bytes) : scanEnd (b :: s) = scanEnd s := by
  have stop : ¬ (b = ch '"' ∨ b < 0x20) := by
    intro hb
    cases hb with
    | inl hb => exact h.2.1 hb
    | inr hb => exact absurd hb (by simpa using h.1)
  rw [scanEnd_cons, if_neg stop, if_neg h.2.2]

theorem scanEnd_append (h : ∀ b ∈ ds, Passed b) (s : Bytes) : scanEnd (ds ++ s) = scanEnd s := by
  induction ds with
  | nil => rfl
  | cons b ds ih =>
    rw [cons_append, scanEnd_passed (h b (by simp)), ih fun c hc => h c (by simp [hc])]

theorem scanEnd_escape (e : UInt8) (s : Bytes) :
    scanEnd (ch '\\' :: e :: s) = ((scanEnd s).1, true) := by
  rw [scanEnd_cons, if_neg (by decide), if_pos rfl]

theorem passed_of_hex (h : (hexv b).isSome) : Passed b := by
  have h0 : (ch '0').toNat = 48 := rfl
  have hq : (ch '"').toNat = 34 := rfl
  have hs : (ch '\\').toNat = 92 := rfl
  have h9 : (ch '9').toNat = 57 := rfl
  have ha : (ch 'a').toNat = 97 := rfl
  have hA : (ch 'A').toNat = 65 := rfl
  have hF : (ch 'F').toNat = 70 := rfl
  have h20 : (0x20 : UInt8).toNat = 32 := rfl
  unfold Passed
  simp only [UInt8.le_iff_toNat_le, ne_eq, ← UInt8.toNat_inj]
  unfold hexv at h
  simp only [UInt8.le_iff_toNat_le] at h
  split_ifs at h
  · omega
  · omega
  · omega
  · simp at h

/-- No character of the string is an escape. -/
def Unescaped (cs : List JChar) : Bool := cs.all fun c => match c with | .plain .. => true | _ => false

/-- The search finds the closing quote. -/
theorem scanEnd_text (cs : List JChar) (rest : Bytes) :
    scanEnd (charsText cs ++ ch '"' :: rest) = (ch '"' :: rest, !Unescaped cs) := by
  induction cs with
  | nil => rw [charsText_nil, nil_append, scanEnd_cons]; rfl
  | cons c cs ih =>
    rw [charsText_cons, append_assoc]
    cases c with
    | plain b hb =>
      show scanEnd (b :: (charsText cs ++ _)) = _
      rw [scanEnd_passed hb, ih]
      rfl
    | letter e =>
      show scanEnd (ch '\\' :: e.byte :: (charsText cs ++ _)) = _
      rw [scanEnd_escape, ih]
      rfl
    | unit u =>
      show scanEnd (ch '\\' :: ch 'u' :: (u.digits ++ (charsText cs ++ _))) = _
      rw [scanEnd_escape, scanEnd_append fun b hb => passed_of_hex (u.hex b hb), ih]
      rfl

theorem readChars_unescaped (h : Unescaped cs = true) : readChars cs = charsText cs := by
  induction cs with
  | nil => rfl
  | cons c cs ih =>
    simp only [Unescaped, all_cons, Bool.and_eq_true] at h
    cases c with
    | plain b hb => exact congrArg (b :: ·) (ih h.2)
    | letter e => exact absurd h.1 (by simp)
    | unit u => exact absurd h.1 (by simp)

theorem scanEnd_ok {s close : Bytes} (h : scanEnd s = (close, false)) :
    ∃ cs, s = charsText cs ++ close := by
  induction s with
  | nil =>
    obtain ⟨rfl, -⟩ := Prod.mk.inj h
    exact ⟨[], rfl⟩
  | cons c s ih =>
    by_cases stop : c = ch '"' ∨ c < 0x20
    · have hs : scanEnd (c :: s) = (c :: s, false) := by rw [scanEnd_cons, if_pos stop]
      obtain ⟨rfl, -⟩ := Prod.mk.inj (hs.symm.trans h)
      exact ⟨[], rfl⟩
    · by_cases hslash : c = ch '\\'
      · subst hslash
        cases s with
        | nil => rw [scanEnd_cons, if_neg stop, if_pos rfl] at h; cases h
        | cons e s => rw [scanEnd_escape] at h; cases h
      · push Not at stop
        have passed : Passed c := ⟨by simpa using stop.2, stop.1, hslash⟩
        rw [scanEnd_passed passed] at h
        obtain ⟨cs, rfl⟩ := ih h
        exact ⟨.plain c passed :: cs, rfl⟩

/-- `jstring` reads a string that is written. -/
theorem jstring_text (cs : List JChar) (rest : Bytes) :
    jstring (strText cs ++ rest) = .ok (readChars cs, rest) := by
  have shape : strText cs ++ rest = ch '"' :: (charsText cs ++ ch '"' :: rest) := by
    simp [strText]
  rw [shape, jstring, if_neg (by simp)]
  simp only [scanEnd_text]
  by_cases plain : Unescaped cs = true
  · rw [if_pos ⟨by simp [plain], rfl⟩, readChars_unescaped plain]
    simp
  · rw [if_neg (by simp [plain])]
    exact jchars_text (by simp only [length_append]; omega)

/-- What `jstring` accepts is a string. -/
theorem jstring_ok {s k rest : Bytes} (h : jstring s = .ok (k, rest)) :
    ∃ cs, s = strText cs ++ rest ∧ k = readChars cs := by
  have split : ∃ cs, s = strText cs ++ rest := by
    cases s with
    | nil => cases h
    | cons c s =>
      rw [jstring] at h
      split_ifs at h with hquote
      obtain rfl : c = ch '"' := by simpa using hquote
      cases hscan : scanEnd s with
      | mk close escaped =>
        simp only [hscan] at h
        split_ifs at h with fast
        · obtain ⟨-, rfl⟩ := Prod.mk.inj (Except.ok.inj h)
          have plain : escaped = false := by simpa using fast.1
          obtain ⟨cs, rfl⟩ := scanEnd_ok (plain ▸ hscan)
          refine ⟨cs, ?_⟩
          cases close with
          | nil => simp at fast
          | cons c r =>
            obtain rfl : c = ch '"' := by simpa using fast.2
            simp [strText]
        · obtain ⟨cs, rfl⟩ := jchars_ok h
          exact ⟨cs, by simp [strText]⟩
  obtain ⟨cs, rfl⟩ := split
  rw [jstring_text] at h
  exact ⟨cs, rfl, (Prod.mk.inj (Except.ok.inj h)).1.symm⟩

end Voila.Rt.Json
