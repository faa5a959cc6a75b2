import Voila.Chk.Verbs
import Voila.Lib.Words
import Voila.Rt.Fmt

/-!
# Voila.Rt.FmtSound

The compiler's count of the arguments of a format against the run that takes them.

Both cut a format into the same directives, each a run of flags and what follows it (`pieces`), and read what
follows alike. They differ in the flags: the run has room for seven, and takes a NUL for one, since `strchr` finds
the end of its string.
-/

namespace Voila.Rt.Fmt

open Chk.Verbs List

variable {F O : Type}

/-! ### Directives -/

/-- The arguments of a directive before its verb, and the text from the verb on, once the flags are read. -/
def tailOf (s : Bytes) : Nat × Bytes :=
  let width := starOrDigits s
  let prec := precision width.2
  (width.1 + prec.1, trailingPlus prec.2)

theorem tailOf_eq (s : Bytes) : tailOf s = ((starOrDigits s).1 + (precision (starOrDigits s).2).1,
    trailingPlus (precision (starOrDigits s).2).2) := rfl

theorem beforeVerb_eq (s : Bytes) : beforeVerb s = tailOf (s.dropWhile (hasByte flagBytes)) := rfl

theorem tailOf_length (s : Bytes) : (tailOf s).2.length ≤ s.length :=
  calc (tailOf s).2.length
      ≤ (precision (starOrDigits s).2).2.length := trailingPlus_length _
    _ ≤ (starOrDigits s).2.length := precision_length _
    _ ≤ s.length := starOrDigits_length s

/-- What follows the flags ends with a verb. -/
def ends (t : Bytes) : Bool := (tailOf t).2.head?.any (hasByte verbBytes)

/-- The directives of a format, up to the first that does not end with a verb: a run of flags and NULs, and what
follows it. -/
def pieces : Bytes → List (Bytes × Bytes)
  | [] => []
  | 37 :: 37 :: s => pieces s
  | 37 :: s =>
    let t := s.dropWhile strchrFlags
    (s.takeWhile strchrFlags, t) :: match _h : (tailOf t).2 with
      | [] => []
      | verb :: rest => if hasByte verbBytes verb then pieces rest else []
  | _ :: s => pieces s
termination_by s => s.length
decreasing_by
  · exact Nat.lt_succ_of_lt (Nat.lt_succ_self _)
  · have hle := tailOf_length (s.dropWhile strchrFlags)
    have hdrop : (s.dropWhile strchrFlags).length ≤ s.length := length_dropWhile_le ..
    rw [_h, length_cons] at hle
    simp only [length_cons]
    omega
  · exact Nat.lt_succ_self _

/-- The arguments of a directive. -/
def needs (p : Bytes × Bytes) : Nat := (tailOf p.2).1 + 1

/-- No flag is a NUL. -/
def clean (p : Bytes × Bytes) : Bool := p.1.all (· != 0)

/-- Flags that are read with the text behind them and make no difference: zeros are digits of a width that is
written out, a `+` may stand right before the verb. -/
def harmless (more t : Bytes) : Bool :=
  match more.dropWhile (· == 48) with
  | [] => more.isEmpty || t.head? != some 42
  | [43] => t.head?.any (hasByte verbBytes)
  | _ => false

/-- The flags fit into seven, but for harmless ones. -/
def roomy (p : Bytes × Bytes) : Bool := harmless (p.1.drop 7) p.2

/-! ### Bytes -/

theorem strchrFlags_eq (c : UInt8) : strchrFlags c = (hasByte flagBytes c || c == 0) := by
  revert c
  exact Str.uint8_all (by decide +kernel)

variable {c verb : UInt8} {b s rest text : Bytes} {a : Amount} {msg : String} {d : Directive}
  {spec : Spec} {A B : Type}

/-- A flag is no verb, begins neither a star nor a precision, and is a digit only if it is a zero. -/
theorem flag_byte (h : strchrFlags c = true) :
    hasByte verbBytes c = false ∧ c ≠ 42 ∧ c ≠ 46 ∧ (48 ≤ c && c ≤ 57) = (c == 48) := by
  have all : ∀ c : UInt8, strchrFlags c = true →
      hasByte verbBytes c = false ∧ c ≠ 42 ∧ c ≠ 46 ∧ (48 ≤ c && c ≤ 57) = (c == 48) :=
    Str.uint8_all (by decide +kernel)
  exact all c h

/-- A verb begins nothing else. -/
theorem verb_byte (h : hasByte verbBytes c = true) :
    strchrFlags c = false ∧ c ≠ 42 ∧ c ≠ 46 ∧ c ≠ 43 ∧ (48 ≤ c && c ≤ 57) = false := by
  have all : ∀ c : UInt8, hasByte verbBytes c = true →
      strchrFlags c = false ∧ c ≠ 42 ∧ c ≠ 46 ∧ c ≠ 43 ∧ (48 ≤ c && c ≤ 57) = false :=
    Str.uint8_all (by decide +kernel)
  exact all c h

/-! ### What follows the flags -/

theorem starOrDigits_of (h : c ≠ 42) (s : Bytes) :
    starOrDigits (c :: s) = (0, (c :: s).dropWhile fun c => 48 ≤ c && c ≤ 57) := by
  unfold starOrDigits
  split
  · rename_i heq
    exact absurd (List.cons.inj heq).1 h
  · rfl

theorem precision_of (h : c ≠ 46) (s : Bytes) : precision (c :: s) = (0, c :: s) := by
  unfold precision
  split
  · rename_i heq
    exact absurd (List.cons.inj heq).1 h
  · rfl

theorem trailingPlus_of (h : c ≠ 43) (s : Bytes) : trailingPlus (c :: s) = c :: s := by
  unfold trailingPlus
  split
  · rename_i heq
    exact absurd (List.cons.inj heq).1 h
  · rfl

/-- A byte that nothing else begins with is taken for the verb. -/
theorem tailOf_verb (hstar : c ≠ 42) (hdot : c ≠ 46) (hplus : c ≠ 43)
    (hdigit : (48 ≤ c && c ≤ 57) = false) (s : Bytes) : tailOf (c :: s) = (0, c :: s) := by
  rw [tailOf_eq, starOrDigits_of hstar, dropWhile_cons_of_neg (by simp [hdigit]), precision_of hdot,
    trailingPlus_of hplus]
  rfl

/-- Zeros in front belong to the width, unless it is a star. -/
theorem tailOf_zeros (hb : ∀ c ∈ b, c = 48) (hne : b ≠ []) (t : Bytes) :
    tailOf (b ++ t) = if t.head? = some 42 then (0, t) else tailOf t := by
  have hdigits : ∀ c ∈ b, (fun c : UInt8 => 48 ≤ c && c ≤ 57) c = true := by
    intro c hc
    rw [hb c hc]
    decide
  cases b with
  | nil => exact absurd rfl hne
  | cons c b =>
    have hc : c ≠ 42 := by rw [hb c mem_cons_self]; decide
    have hwidth : starOrDigits (c :: b ++ t) = (0, t.dropWhile fun c => 48 ≤ c && c ≤ 57) := by
      rw [cons_append, starOrDigits_of hc, ← cons_append, dropWhile_append_of_pos hdigits]
    split_ifs with hstar
    · cases t with
      | nil => cases hstar
      | cons d t =>
        obtain rfl : d = 42 := Option.some.inj hstar
        rw [tailOf_eq, hwidth]
        rfl
    · have hsame : starOrDigits t = (0, t.dropWhile fun c => 48 ≤ c && c ≤ 57) := by
        cases t with
        | nil => rfl
        | cons d t => exact starOrDigits_of (fun h => hstar (by rw [h]; rfl)) t
      rw [tailOf_eq, tailOf_eq, hwidth, hsame]

/-- Zeros and another flag: only a plus is left out, and what follows it is taken for the verb. -/
theorem tailOf_flag (hb : ∀ c ∈ b, c = 48) {d : UInt8} (hd : strchrFlags d = true)
    (hzero : d ≠ 48) (s : Bytes) : tailOf (b ++ d :: s) = (0, trailingPlus (d :: s)) := by
  obtain ⟨-, hstar, hdot, hdigit⟩ := flag_byte hd
  have hplain : tailOf (d :: s) = (0, trailingPlus (d :: s)) := by
    rw [tailOf_eq, starOrDigits_of hstar, dropWhile_cons_of_neg (by simp [hdigit, hzero]), precision_of hdot]
    rfl
  by_cases hne : b = []
  · rw [hne, nil_append, hplain]
  · rw [tailOf_zeros hb hne, if_neg (by simpa using hstar), hplain]

theorem ends_of_tailOf {s t : Bytes} {n : Nat} (h : tailOf s = (n, t)) :
    ends s = t.head?.any (hasByte verbBytes) := by
  rw [ends, h]

/-- The flags left when there is no room for more: the directive ends as without them just if they are harmless. -/
theorem ends_left {more t : Bytes} (hmore : ∀ c ∈ more, strchrFlags c = true) :
    ends (more ++ t) = (ends t && harmless more t) ∧ (ends (more ++ t) = true → tailOf (more ++ t) = tailOf t) := by
  have hzeros : ∀ c ∈ more.takeWhile (· == 48), c = 48 := by
    intro c hc
    simpa using mem_takeWhile_imp hc
  have hsplit := takeWhile_append_dropWhile (p := (· == (48 : UInt8))) (l := more)
  unfold harmless
  cases hrest : more.dropWhile (· == 48) with
  | nil =>
    rw [hrest, append_nil] at hsplit
    rw [hsplit] at hzeros
    by_cases hne : more = []
    · simp [hne]
    · have htail := tailOf_zeros hzeros hne t
      have hempty : more.isEmpty = false := by simpa using hne
      by_cases hstar : t.head? = some 42
      · -- zeros before a star: the star is taken for the verb
        rw [if_pos hstar] at htail
        rw [ends_of_tailOf htail, hstar, hempty]
        exact ⟨by simp [hasByte, verbBytes], fun h => absurd h (by decide)⟩
      · rw [if_neg hstar] at htail
        have hsame : ends (more ++ t) = ends t := by rw [ends, ends, htail]
        rw [hsame, hempty]
        exact ⟨by simp [hstar], fun _ => htail⟩
  | cons d rest =>
    have hd : strchrFlags d = true := hmore d (by rw [← hsplit, hrest]; simp)
    have hnot : d ≠ 48 := by simpa using Lib.head_dropWhile hrest
    rw [hrest] at hsplit
    have htail : tailOf (more ++ t) = (0, trailingPlus (d :: (rest ++ t))) := by
      rw [← hsplit, append_assoc, cons_append, tailOf_flag hzeros hd hnot]
    by_cases hplus : d = 43
    · subst hplus
      cases rest with
      | nil =>
        -- the verb has to follow at once
        have hthen : t.head?.any (hasByte verbBytes) = true → tailOf t = (0, t) := by
          intro h
          cases t with
          | nil => cases h
          | cons v t =>
            obtain ⟨-, hstar, hdot, hplus, hdigit⟩ := verb_byte h
            exact tailOf_verb hstar hdot hplus hdigit t
        have hleft : ends (more ++ t) = t.head?.any (hasByte verbBytes) := ends_of_tailOf htail
        rw [hleft]
        refine ⟨?_, fun h => htail.trans (hthen h).symm⟩
        cases h : t.head?.any (hasByte verbBytes) with
        | false => exact (Bool.and_false _).symm
        | true => rw [ends_of_tailOf (hthen h), h]; rfl
      | cons e rest =>
        have he := (flag_byte (hmore e (by rw [← hsplit]; simp))).1
        have hleft : ends (more ++ t) = false := (ends_of_tailOf htail).trans he
        rw [hleft]
        exact ⟨(Bool.and_false _).symm, fun h => absurd h (by decide)⟩
    · rw [trailingPlus_of hplus] at htail
      have hleft : ends (more ++ t) = false := (ends_of_tailOf htail).trans (flag_byte hd).1
      rw [hleft]
      refine ⟨?_, fun h => absurd h (by decide)⟩
      split
      · rename_i heq
        cases heq
      · rename_i heq
        exact absurd (List.cons.inj heq).1 hplus
      · rw [Bool.and_false]

/-! ### The count -/

/-- Without a NUL among the flags, the count sees what follows them. -/
theorem beforeVerb_clean (h : (s.takeWhile strchrFlags).all (· != 0) = true) :
    beforeVerb s = tailOf (s.dropWhile strchrFlags) := by
  rw [beforeVerb_eq]
  congr 1
  induction s with
  | nil => rfl
  | cons c s ih =>
    cases hc : strchrFlags c with
    | false =>
      have hflag : hasByte flagBytes c = false := by
        rw [strchrFlags_eq, Bool.or_eq_false_iff] at hc
        exact hc.1
      rw [dropWhile_cons_of_neg (by simp [hflag]), dropWhile_cons_of_neg (by simp [hc])]
    | true =>
      rw [takeWhile_cons_of_pos hc, all_cons, Bool.and_eq_true] at h
      have hflag : hasByte flagBytes c = true := by
        rw [strchrFlags_eq, Bool.or_eq_true] at hc
        exact hc.resolve_right (by simpa using h.1)
      rw [dropWhile_cons_of_pos hc, dropWhile_cons_of_pos hflag]
      exact ih h.2

/-- A NUL among the flags is taken for the verb. -/
theorem beforeVerb_nul (h : (s.takeWhile strchrFlags).all (· != 0) = false) :
    ∃ rest, (beforeVerb s).2 = 0 :: rest := by
  rw [beforeVerb_eq]
  induction s with
  | nil => cases h
  | cons c s ih =>
    cases hc : strchrFlags c with
    | false => rw [takeWhile_cons_of_neg (by simp [hc])] at h; cases h
    | true =>
      rw [takeWhile_cons_of_pos hc, all_cons, Bool.and_eq_false_iff] at h
      by_cases hzero : c = 0
      · subst hzero
        rw [dropWhile_cons_of_neg (by decide), tailOf_verb (by decide) (by decide) (by decide) (by decide)]
        exact ⟨s, rfl⟩
      · have hflag : hasByte flagBytes c = true := by
          rw [strchrFlags_eq, Bool.or_eq_true] at hc
          exact hc.resolve_right (by simpa using hzero)
        rw [dropWhile_cons_of_pos hflag]
        exact ih (h.resolve_left (by simpa using hzero))

/-! ### Formats -/

/-- The text begins with no percent, so that a percent before it begins a directive. -/
def Opens (s : Bytes) : Prop := ∀ s', s ≠ 37 :: s'

theorem pieces_percent (s : Bytes) : pieces (37 :: 37 :: s) = pieces s := by rw [pieces]

theorem pieces_plain (h : c ≠ 37) (s : Bytes) : pieces (c :: s) = pieces s := by
  rw [pieces]
  · intro s' hc
    exact absurd hc h
  · exact h

theorem pieces_directive (hs : Opens s) : pieces (37 :: s) =
    (s.takeWhile strchrFlags, s.dropWhile strchrFlags) ::
      match (tailOf (s.dropWhile strchrFlags)).2 with
      | [] => []
      | verb :: rest => if hasByte verbBytes verb then pieces rest else [] := by
  rw [pieces]
  · generalize (tailOf (s.dropWhile strchrFlags)).2 = r
    cases r <;> rfl
  · exact hs

theorem pieces_stops (hs : Opens s) (h : ends (s.dropWhile strchrFlags) = false) :
    pieces (37 :: s) = [(s.takeWhile strchrFlags, s.dropWhile strchrFlags)] := by
  rw [pieces_directive hs]
  rw [ends] at h
  cases hrest : (tailOf (s.dropWhile strchrFlags)).2 with
  | nil => rfl
  | cons verb rest =>
    rw [hrest] at h
    dsimp only
    rw [if_neg (by simpa using h)]

theorem pieces_goes (hs : Opens s)
    (hrest : (tailOf (s.dropWhile strchrFlags)).2 = verb :: rest) (hverb : hasByte verbBytes verb = true) :
    pieces (37 :: s) = (s.takeWhile strchrFlags, s.dropWhile strchrFlags) :: pieces rest := by
  rw [pieces_directive hs, hrest]
  dsimp only
  rw [if_pos hverb]

/-- What holds of the empty format and carries over to plain text, to two percents and to directives holds of all
formats. -/
theorem format_induct {P : Bytes → Prop} (nil : P []) (percent : ∀ s, P s → P (37 :: 37 :: s))
    (plain : ∀ c s, c ≠ 37 → P s → P (c :: s))
    (stops : ∀ s, Opens s → ends (s.dropWhile strchrFlags) = false → P (37 :: s))
    (goes : ∀ s verb rest, Opens s → (tailOf (s.dropWhile strchrFlags)).2 = verb :: rest →
      hasByte verbBytes verb = true → P rest → P (37 :: s)) (f : Bytes) : P f := by
  induction f using pieces.induct with
  | case1 => exact nil
  | case2 s ih => exact percent s ih
  | case3 s hs t ih =>
    cases hends : ends t with
    | false => exact stops s hs hends
    | true =>
      cases hrest : (tailOf t).2 with
      | nil => rw [ends, hrest] at hends; cases hends
      | cons verb rest =>
        rw [ends, hrest] at hends
        exact goes s verb rest hs hrest hends (ih verb rest hrest)
  | case4 c s _ hc ih => exact plain c s hc ih

/-- The directives all end with a verb. -/
def Ended (f : Bytes) : Prop := ∀ p ∈ pieces f, ends p.2 = true

def Clean (f : Bytes) : Prop := ∀ p ∈ pieces f, clean p = true

def Roomy (f : Bytes) : Prop := ∀ p ∈ pieces f, roomy p = true

/-- The arguments of all directives. -/
def total (f : Bytes) : Nat := ((pieces f).map needs).sum

/-- What is asked of the directives of a format is asked of its first and of those behind it. -/
theorem directives_cons {p : Bytes × Bytes} (h : pieces s = p :: pieces rest) :
    (Ended s ↔ ends p.2 = true ∧ Ended rest) ∧ (Clean s ↔ clean p = true ∧ Clean rest) ∧
      (Roomy s ↔ roomy p = true ∧ Roomy rest) ∧ total s = needs p + total rest := by
  unfold Ended Clean Roomy total
  rw [h]
  simp only [forall_mem_cons, map_cons, sum_cons, and_self]

theorem directives_same {s s' : Bytes} (h : pieces s = pieces s') :
    (Ended s ↔ Ended s') ∧ (Clean s ↔ Clean s') ∧ (Roomy s ↔ Roomy s') ∧ total s = total s' := by
  unfold Ended Clean Roomy total
  rw [h]
  simp only [and_self]

/-! ### The count -/

theorem countLoop_directive (n : Nat) (hs : Opens s) : countLoop n (37 :: s) =
    match (beforeVerb s).2 with
    | [] => (n + (beforeVerb s).1, endText)
    | verb :: rest =>
      if !hasByte verbBytes verb then (n + (beforeVerb s).1, utf8Put verb.toNat)
      else countLoop (n + (beforeVerb s).1 + 1) rest := by
  rw [countLoop]
  · generalize (beforeVerb s).2 = r
    cases r <;> rfl
  · exact hs

/-- A directive without a verb that is one is refused. -/
theorem countLoop_refused {n m : Nat} (hs : Opens s)
    (h : (beforeVerb s).2.head?.any (hasByte verbBytes) = false) : countLoop n (37 :: s) ≠ (m, []) := by
  rw [countLoop_directive n hs]
  cases hrest : (beforeVerb s).2 with
  | nil => exact fun h => nomatch h
  | cons verb rest =>
    rw [hrest] at h
    dsimp only
    rw [if_pos (by simpa using h)]
    intro heq
    exact utf8Put_ne_nil verb.toNat (Prod.mk.inj heq).2

/-- The count goes through if every directive ends with a verb and has no NUL among its flags. -/
theorem countLoop_iff (f : Bytes) (n m : Nat) :
    countLoop n f = (m, []) ↔ Ended f ∧ Clean f ∧ m = n + total f := by
  induction f using format_induct generalizing n with
  | nil =>
    rw [countLoop, Prod.mk.injEq]
    have hnone : Ended [] ∧ Clean [] ∧ total [] = 0 := by
      rw [Ended, Clean, total, pieces]
      simp
    rw [hnone.2.2]
    exact ⟨fun h => ⟨hnone.1, hnone.2.1, h.1.symm⟩, fun h => ⟨h.2.2.symm, rfl⟩⟩
  | percent s ih =>
    obtain ⟨hended, hclean, -, htotal⟩ := directives_same (pieces_percent s)
    rw [countLoop, ih, hended, hclean, htotal]
  | plain c s hc ih =>
    obtain ⟨hended, hclean, -, htotal⟩ := directives_same (pieces_plain hc s)
    rw [countLoop, ih, hended, hclean, htotal]
    · intro s' h
      exact absurd h hc
    · exact hc
  | stops s hs hstops =>
    have hpieces := pieces_stops hs hstops
    refine iff_of_false (countLoop_refused hs ?_) ?_
    · cases hclean : (s.takeWhile strchrFlags).all (· != 0) with
      | true => rw [beforeVerb_clean hclean]; exact hstops
      | false =>
        obtain ⟨rest, hnul⟩ := beforeVerb_nul hclean
        rw [hnul]
        rfl
    · rintro ⟨hended, _⟩
      have := hended _ (hpieces ▸ mem_cons_self)
      rw [hstops] at this
      cases this
  | goes s verb rest hs hrest hverb ih =>
    have hpieces := pieces_goes hs hrest hverb
    obtain ⟨hended, hclean, -, htotal⟩ := directives_cons hpieces
    have hends : ends (s.dropWhile strchrFlags) = true := by rw [ends, hrest]; exact hverb
    cases hnul : (s.takeWhile strchrFlags).all (· != 0) with
    | true =>
      rw [countLoop_directive n hs, beforeVerb_clean hnul, hrest]
      dsimp only
      rw [if_neg (by simp [hverb]), ih, hended, hclean, htotal]
      have hneeds : needs (s.takeWhile strchrFlags, s.dropWhile strchrFlags) =
          (tailOf (s.dropWhile strchrFlags)).1 + 1 := rfl
      rw [hneeds, ← Nat.add_assoc, ← Nat.add_assoc]
      constructor
      · rintro ⟨h, h', hm⟩
        exact ⟨⟨hends, h⟩, ⟨hnul, h'⟩, hm⟩
      · rintro ⟨⟨_, h⟩, ⟨_, h'⟩, hm⟩
        exact ⟨h, h', hm⟩
    | false =>
      obtain ⟨y, hy⟩ := beforeVerb_nul hnul
      refine iff_of_false (countLoop_refused hs (by rw [hy]; rfl)) ?_
      rintro ⟨_, h, _⟩
      have := (hclean.mp h).1
      rw [clean, hnul] at this
      cases this

/-! ### What the run reads -/

theorem takeFlags_eq (k : Nat) (s : Bytes) : takeFlags k s =
    ((s.takeWhile strchrFlags).take k, (s.takeWhile strchrFlags).drop k ++ s.dropWhile strchrFlags) := by
  induction k generalizing s with
  | zero =>
    rw [take_zero, drop_zero, takeWhile_append_dropWhile]
    cases s <;> rfl
  | succ k ih =>
    cases s with
    | nil => rfl
    | cons c s =>
      cases hc : strchrFlags c with
      | true =>
        rw [takeFlags, if_pos hc, ih, takeWhile_cons_of_pos hc, dropWhile_cons_of_pos hc]
        rfl
      | false =>
        rw [takeFlags, if_neg (by simp [hc]), takeWhile_cons_of_neg (by simp [hc]),
          dropWhile_cons_of_neg (by simp [hc])]
        rfl

/-- The arguments that a width or a precision takes. -/
def Amount.stars : Amount → Nat
  | .star => 1
  | .digits _ => 0

def Directive.stars (d : Directive) : Nat := d.width.stars + (d.prec.map Amount.stars).getD 0

theorem amount_eq (s : Bytes) : ((amount s).1.stars, (amount s).2) = starOrDigits s := by
  unfold amount starOrDigits
  split
  · rfl
  · rename_i hstar
    first
    | rfl
    | split
      · exact absurd rfl (hstar _)
      · rfl

theorem precAmount_eq (s : Bytes) :
    (((precAmount s).1.map Amount.stars).getD 0, (precAmount s).2) = precision s := by
  unfold precAmount precision
  split
  · exact amount_eq _
  · rename_i hdot
    first
    | rfl
    | split
      · exact absurd rfl (hdot _)
      · rfl

theorem skipPlus_eq (s : Bytes) : skipPlus s = trailingPlus s := by
  unfold skipPlus trailingPlus
  split
  · rfl
  · rename_i hplus
    first
    | rfl
    | split
      · exact absurd rfl (hplus _)
      · rfl

/-- Behind the flags the run reads what the count reads. -/
theorem scan_eq (s : Bytes) : ((scan s).1.stars, (scan s).2) =
    tailOf ((s.takeWhile strchrFlags).drop 7 ++ s.dropWhile strchrFlags) := by
  have hflags : (takeFlags 7 s).2 = (s.takeWhile strchrFlags).drop 7 ++ s.dropWhile strchrFlags := by
    rw [takeFlags_eq]
  rw [← hflags, tailOf_eq, ← amount_eq, ← precAmount_eq, ← skipPlus_eq]
  rfl

theorem mem_drop_flags : ∀ c ∈ (s.takeWhile strchrFlags).drop 7, strchrFlags c = true :=
  fun _ hc => mem_takeWhile_imp (mem_of_mem_drop hc)

/-- The verb that the run comes to is one if the directive ends with one and has room for its flags. -/
theorem scan_verb (s : Bytes) : (scan s).2.head?.any (hasByte verbBytes) =
    (ends (s.dropWhile strchrFlags) && roomy (s.takeWhile strchrFlags, s.dropWhile strchrFlags)) := by
  rw [roomy, ← (ends_left mem_drop_flags).1, ends, ← scan_eq]

theorem scan_roomy (h : (scan s).2.head?.any (hasByte verbBytes) = true) :
    ((scan s).1.stars, (scan s).2) = tailOf (s.dropWhile strchrFlags) := by
  rw [scan_eq]
  refine (ends_left mem_drop_flags).2 ?_
  rw [ends, ← scan_eq]
  exact h

/-! ### Arguments -/

variable {host : Host F O}

theorem wantInt_format (v : Value F O) (msg : String) : wantInt host v ≠ .error (.format msg) := by
  unfold wantInt
  split
  · exact nofun
  · exact nofun
  · split_ifs
    · split <;> exact nofun
    · exact nofun
  · exact nofun

theorem value_ok {dflt w : Int32} {args args' : List (Value F O)}
    (h : a.value host dflt args = .ok (w, args')) : args.length = a.stars + args'.length := by
  cases a with
  | digits ds => cases h; simp [Amount.stars]
  | star =>
    cases args with
    | nil => cases h
    | cons v args =>
      rw [Amount.value] at h
      cases hv : wantInt host v with
      | error e => rw [hv] at h; cases h
      | ok n =>
        rw [hv] at h
        cases h
        rw [length_cons, Amount.stars, Nat.add_comm]

variable {args : List (Value F O)}

theorem value_format {dflt : Int32}
    (h : a.value host dflt args = .error (.format msg)) : args.length < a.stars := by
  cases a with
  | digits ds => cases h
  | star =>
    cases args with
    | nil => exact Nat.one_pos
    | cons v args =>
      rw [Amount.value] at h
      cases hv : wantInt host v with
      | error e =>
        rw [hv] at h
        cases h
        exact absurd hv (wantInt_format v msg)
      | ok n => rw [hv] at h; cases h

theorem value_ints (host : Host F O) (dflt : Int32) (a : Amount) (args : List (Value F O)) :
    ∃ w, a.value host dflt (List.replicate a.stars (.int 0) ++ args) = .ok (w, args) := by
  cases a with
  | digits ds => exact ⟨_, rfl⟩
  | star => exact ⟨_, rfl⟩

theorem amounts_ok {width prec : Int32} {args args' : List (Value F O)}
    (h : d.amounts host args = .ok (width, prec, args')) : args.length = d.stars + args'.length := by
  unfold Directive.amounts at h
  cases hwidth : d.width.value host (-1) args with
  | error e => rw [hwidth] at h; cases h
  | ok p =>
    obtain ⟨w, rest⟩ := p
    have hw := value_ok hwidth
    rw [hwidth] at h
    rw [Directive.stars]
    cases hd : d.prec with
    | none =>
      rw [hd] at h
      cases h
      simpa using hw
    | some a =>
      rw [hd] at h
      change (a.value host 0 rest >>= fun q => _) = _ at h
      cases hprec : a.value host 0 rest with
      | error e => rw [hprec] at h; cases h
      | ok q =>
        have hp := value_ok hprec
        rw [hprec] at h
        cases h
        rw [hw, hp, Option.map_some, Option.getD_some, Nat.add_assoc]

theorem amounts_format
    (h : d.amounts host args = .error (.format msg)) : args.length < d.stars := by
  unfold Directive.amounts at h
  rw [Directive.stars]
  cases hwidth : d.width.value host (-1) args with
  | error e =>
    rw [hwidth] at h
    cases h
    exact Nat.lt_add_right _ (value_format hwidth)
  | ok p =>
    obtain ⟨w, rest⟩ := p
    have hw := value_ok hwidth
    rw [hwidth] at h
    cases hd : d.prec with
    | none => rw [hd] at h; cases h
    | some a =>
      rw [hd] at h
      change (a.value host 0 rest >>= fun q => _) = _ at h
      cases hprec : a.value host 0 rest with
      | error e =>
        rw [hprec] at h
        cases h
        have hp := value_format hprec
        rw [hw, Option.map_some, Option.getD_some]
        exact Nat.add_lt_add_left hp _
      | ok q => rw [hprec] at h; cases h

theorem amounts_ints (host : Host F O) (d : Directive) (args : List (Value F O)) :
    ∃ w p, d.amounts host (List.replicate d.stars (.int 0) ++ args) = .ok (w, p, args) := by
  unfold Directive.amounts
  rw [Directive.stars, replicate_add, append_assoc]
  obtain ⟨w, hw⟩ := value_ints host (-1) d.width
    (List.replicate ((d.prec.map Amount.stars).getD 0) (.int 0) ++ args)
  rw [hw]
  cases hd : d.prec with
  | none => exact ⟨w, -1, rfl⟩
  | some a =>
    obtain ⟨p, hp⟩ := value_ints host 0 a args
    refine ⟨w, p, ?_⟩
    change (a.value host 0 (List.replicate a.stars (.int 0) ++ args) >>= fun q => _) = _
    rw [hp]
    rfl

/-! ### Verbs -/

theorem integer_format (spec : Spec) (v : Value F O) (msg : String) :
    integer host spec v ≠ .error (.format msg) := by
  unfold integer
  cases h : wantInt host v with
  | error e =>
    intro heq
    cases heq
    exact wantInt_format v msg h
  | ok n => exact nofun

theorem obj_format (spec : Spec) (o : O) (msg : String) : host.obj spec o ≠ .error (.format msg) := by
  unfold Host.obj
  cases host.objText spec o <;> exact nofun

/-- A verb is refused if it is none. -/
theorem convert_unknown (host : Host F O) (h : hasByte verbBytes spec.verb = false) (v : Value F O) :
    ∃ msg, convert host spec v = .error (.format msg) := by
  unfold convert
  split
  case h_19 => exact ⟨_, rfl⟩
  all_goals
    rename_i heq
    rw [heq] at h
    exact absurd h (by decide)

theorem tostr_format (spec : Spec) (v : Value F O) (msg : String) : tostr host spec v ≠ .error (.format msg) := by
  unfold tostr
  split
  · exact obj_format spec _ msg
  · exact nofun

theorem fixed_format (spec : Spec) (v : Value F O) (msg : String) : fixed host spec v ≠ .error (.format msg) := by
  unfold fixed
  split
  case h_3 o =>
    dsimp only
    split_ifs
    · exact obj_format spec o msg
    · exact nofun
  all_goals exact nofun

theorem general_format (spec : Spec) (v : Value F O) (msg : String) :
    general host spec v ≠ .error (.format msg) := by
  unfold general
  split
  case h_3 o =>
    split_ifs
    · exact obj_format spec o msg
    · exact nofun
  all_goals exact nofun

theorem hexadecimal_format (spec : Spec) (v : Value F O) (msg : String) :
    hexadecimal host spec v ≠ .error (.format msg) := by
  unfold hexadecimal
  split
  · split_ifs
    · exact obj_format spec _ msg
    · exact integer_format spec _ msg
  · exact integer_format spec v msg

theorem character_format (spec : Spec) (v : Value F O) (msg : String) :
    character host spec v ≠ .error (.format msg) := by
  unfold character
  split
  · exact nofun
  · cases h : wantInt host v with
    | error e =>
      intro heq
      cases heq
      exact wantInt_format v msg h
    | ok n => exact nofun

theorem truth_format (spec : Spec) (v : Value F O) (msg : String) : truth host spec v ≠ .error (.format msg) := by
  unfold truth
  split <;> exact nofun

/-- A verb that is one never finds fault with the format. -/
theorem convert_format (h : hasByte verbBytes spec.verb = true) (v : Value F O) (msg : String) :
    convert host spec v ≠ .error (.format msg) := by
  unfold convert
  split
  case h_19 =>
    rename_i hverb
    simp only [hasByte, verbBytes, any_cons, any_nil, Bool.or_false, Bool.or_eq_true, beq_iff_eq] at h
    grind
  all_goals
    first
    | exact integer_format spec v msg
    | exact fixed_format spec v msg
    | exact general_format spec v msg
    | exact tostr_format spec v msg
    | exact hexadecimal_format spec v msg
    | exact character_format spec v msg
    | exact truth_format spec v msg

/-- A run that stops, if it does, for the format alone: the arguments are of the kinds that their verbs accept, and
no `show` method throws. -/
def Suits {A : Type} (r : Except Raised A) : Prop := ∀ e, r = .error e → ∃ msg, e = .format msg

/-- There is a value for every verb. -/
theorem exists_suiting (host : Host F O) (verb : UInt8) :
    ∃ v, ∀ spec : Spec, spec.verb = verb → Suits (convert host spec v) := by
  refine ⟨if verb = 116 then .bool true else .int 0, ?_⟩
  intro spec hspec e he
  subst hspec
  unfold convert at he
  split at he
  case h_19 => exact ⟨_, (Except.error.inj he).symm⟩
  all_goals
    rename_i hverb
    rw [hverb] at he
    cases he

/-! ### The run -/

/-- What a directive comes to, once its width and precision are read: its verb is applied to the next argument. -/
def afterAmounts (host : Host F O) (s : Bytes) (width prec : Int32) (args : List (Value F O)) :
    Except Raised Bytes :=
  match (scan s).2 with
  | [] => .error (.format "printf: missing verb at end of format")
  | verb :: rest =>
    match args with
    | [] => .error (.format "printf: not enough arguments for format")
    | v :: args => do
      let text ← convert host ⟨(scan s).1.flags, width, prec, verb⟩ v
      let more ← sprintfLoop host args rest
      return text ++ more

theorem sprintfLoop_directive (args : List (Value F O)) (hs : Opens s) :
    sprintfLoop host args (37 :: s) =
      (scan s).1.amounts host args >>= fun p => afterAmounts host s p.1 p.2.1 p.2.2 := by
  rw [sprintfLoop]
  · congr 1
    funext p
    obtain ⟨width, prec, rest⟩ := p
    unfold afterAmounts
    dsimp only
    generalize (scan s).2 = r
    cases r <;> rfl
  · exact hs

theorem bind_ok {x : Except Raised A} {f : A → Except Raised B} {b : B} (h : x >>= f = .ok b) :
    ∃ a, x = .ok a ∧ f a = .ok b := by
  cases x with
  | error e => cases h
  | ok a => exact ⟨a, rfl, h⟩

theorem bind_format {x : Except Raised A} {f : A → Except Raised B}
    (h : x >>= f = .error (.format msg)) :
    x = .error (.format msg) ∨ ∃ a, x = .ok a ∧ f a = .error (.format msg) := by
  cases x with
  | error e => cases h; exact Or.inl rfl
  | ok a => exact Or.inr ⟨a, rfl, h⟩

/-- A directive whose verb is none is refused. -/
theorem run_refused (hs : Opens s) (h : (scan s).2.head?.any (hasByte verbBytes) = false) :
    sprintfLoop host args (37 :: s) ≠ .ok text := by
  rw [sprintfLoop_directive args hs]
  intro hok
  obtain ⟨p, -, hafter⟩ := bind_ok hok
  unfold afterAmounts at hafter
  cases hrest : (scan s).2 with
  | nil => rw [hrest] at hafter; cases hafter
  | cons verb rest =>
    rw [hrest] at h hafter
    cases hargs : p.2.2 with
    | nil => rw [hargs] at hafter; cases hafter
    | cons v args =>
      rw [hargs] at hafter
      dsimp only at hafter
      have hspec : hasByte verbBytes (Spec.mk (scan s).1.flags p.1 p.2.1 verb).verb = false := h
      obtain ⟨msg, hmsg⟩ := convert_unknown host hspec v
      rw [hmsg] at hafter
      cases hafter

/-- A directive that goes through takes its arguments, and the run goes on behind it. -/
theorem run_goes (hs : Opens s)
    (hrest : (scan s).2 = verb :: rest) (h : sprintfLoop host args (37 :: s) = .ok text) :
    ∃ args' more, args.length = (scan s).1.stars + 1 + args'.length ∧ sprintfLoop host args' rest = .ok more := by
  rw [sprintfLoop_directive args hs] at h
  obtain ⟨⟨width, prec, args'⟩, hamounts, hafter⟩ := bind_ok h
  have hlen := amounts_ok hamounts
  rw [afterAmounts, hrest] at hafter
  cases args' with
  | nil => cases hafter
  | cons v args' =>
    obtain ⟨t, -, hmore⟩ := bind_ok hafter
    obtain ⟨more, hmore, -⟩ := bind_ok hmore
    refine ⟨args', more, ?_, hmore⟩
    rw [hlen, length_cons]
    omega

/-- A run that goes through has every directive end with a verb, with room for its flags, and takes all the
arguments. -/
theorem run_ok (f : Bytes) (h : sprintfLoop host args f = .ok text) :
    Ended f ∧ Roomy f ∧ args.length = total f := by
  induction f using format_induct generalizing args text with
  | nil =>
    rw [sprintfLoop] at h
    split_ifs at h with hlen
    rw [Ended, Roomy, total, pieces]
    exact ⟨by simp, by simp, hlen⟩
  | percent s ih =>
    obtain ⟨hended, -, hroomy, htotal⟩ := directives_same (pieces_percent s)
    rw [sprintfLoop] at h
    obtain ⟨more, hmore, -⟩ := bind_ok h
    rw [hended, hroomy, htotal]
    exact ih hmore
  | plain c s hc ih =>
    obtain ⟨hended, -, hroomy, htotal⟩ := directives_same (pieces_plain hc s)
    rw [sprintfLoop] at h
    · obtain ⟨more, hmore, -⟩ := bind_ok h
      rw [hended, hroomy, htotal]
      exact ih hmore
    · intro s' h
      exact absurd h hc
    · exact hc
  | stops s hs hstops =>
    refine absurd h (run_refused hs ?_)
    rw [scan_verb, hstops]
    rfl
  | goes s verb rest hs hrest hverb ih =>
    have hends : ends (s.dropWhile strchrFlags) = true := by rw [ends, hrest]; exact hverb
    obtain ⟨hended, -, hroomy, htotal⟩ := directives_cons (pieces_goes hs hrest hverb)
    cases hroom : roomy (s.takeWhile strchrFlags, s.dropWhile strchrFlags) with
    | false =>
      refine absurd h (run_refused hs ?_)
      rw [scan_verb, hroom, Bool.and_false]
    | true =>
      have hscan := scan_roomy (by rw [scan_verb, hends, hroom]; rfl)
      have hstars : (scan s).1.stars = (tailOf (s.dropWhile strchrFlags)).1 := congrArg Prod.fst hscan
      have hbehind : (scan s).2 = verb :: rest := (congrArg Prod.snd hscan).trans hrest
      obtain ⟨args', more, hlen, hmore⟩ := run_goes hs hbehind h
      obtain ⟨h1, h2, h3⟩ := ih hmore
      rw [hended, hroomy, htotal, hlen, hstars, h3]
      exact ⟨⟨hends, h1⟩, ⟨hroom, h2⟩, rfl⟩

/-- With every directive in order and as many arguments as they take, nothing is wrong with the format. -/
theorem run_format (f : Bytes) (hended : Ended f) (hroomy : Roomy f)
    (hlen : args.length = total f) (msg : String) : sprintfLoop host args f ≠ .error (.format msg) := by
  induction f using format_induct generalizing args with
  | nil =>
    have hzero : args.length = 0 := by rw [hlen, total, pieces]; rfl
    rw [sprintfLoop, if_pos hzero]
    simp
  | percent s ih =>
    obtain ⟨he, -, hr, ht⟩ := directives_same (pieces_percent s)
    rw [sprintfLoop]
    intro h
    rcases bind_format h with h | ⟨more, -, h⟩
    · exact ih (he.mp hended) (hr.mp hroomy) (ht ▸ hlen) h
    · cases h
  | plain c s hc ih =>
    obtain ⟨he, -, hr, ht⟩ := directives_same (pieces_plain hc s)
    rw [sprintfLoop]
    · intro h
      rcases bind_format h with h | ⟨more, -, h⟩
      · exact ih (he.mp hended) (hr.mp hroomy) (ht ▸ hlen) h
      · cases h
    · intro s' h
      exact absurd h hc
    · exact hc
  | stops s hs hstops =>
    have := hended _ (pieces_stops hs hstops ▸ mem_cons_self)
    rw [hstops] at this
    cases this
  | goes s verb rest hs hrest hverb ih =>
    obtain ⟨he, -, hr, ht⟩ := directives_cons (pieces_goes hs hrest hverb)
    obtain ⟨hends, hended'⟩ := he.mp hended
    obtain ⟨hroom, hroomy'⟩ := hr.mp hroomy
    have hscan := scan_roomy (by rw [scan_verb, hends, hroom]; rfl)
    have hstars : (scan s).1.stars = (tailOf (s.dropWhile strchrFlags)).1 := congrArg Prod.fst hscan
    have hbehind : (scan s).2 = verb :: rest := (congrArg Prod.snd hscan).trans hrest
    rw [ht, needs, ← hstars] at hlen
    rw [sprintfLoop_directive args hs]
    intro h
    rcases bind_format h with h | ⟨⟨width, prec, args'⟩, hamounts, h⟩
    · have := amounts_format h
      omega
    · have hargs := amounts_ok hamounts
      rw [afterAmounts, hbehind] at h
      cases args' with
      | nil => rw [length_nil] at hargs; omega
      | cons v args' =>
        rw [length_cons] at hargs
        rcases bind_format h with h | ⟨t, -, h⟩
        · exact convert_format hverb v msg h
        · rcases bind_format h with h | ⟨more, -, h⟩
          · exact ih hended' hroomy' (by omega) h
          · cases h

theorem Suits.map {x : Except Raised A} (h : Suits x) (f : A → B) :
    Suits (x >>= fun a => pure (f a)) := by
  cases x with
  | error e =>
    intro e' he'
    cases he'
    exact h e rfl
  | ok a =>
    intro e he
    cases he

theorem suits_format (msg : String) : Suits (Except.error (.format msg) : Except Raised A) := by
  intro e he
  exact ⟨msg, (Except.error.inj he).symm⟩

theorem value_suits (host : Host F O) (dflt : Int32) (a : Amount) (m : Nat) :
    Suits (a.value host dflt (List.replicate m (.int 0))) ∧
      ∀ p, a.value host dflt (List.replicate m (.int 0)) = .ok p → ∃ k, p.2 = List.replicate k (.int 0) := by
  cases a with
  | digits ds => exact ⟨nofun, fun p hp => ⟨m, by cases hp; rfl⟩⟩
  | star =>
    cases m with
    | zero => exact ⟨suits_format _, nofun⟩
    | succ m => exact ⟨nofun, fun p hp => ⟨m, by cases hp; rfl⟩⟩

theorem amounts_suits (host : Host F O) (d : Directive) (m : Nat) :
    Suits (d.amounts host (List.replicate m (.int 0))) := by
  unfold Directive.amounts
  obtain ⟨hsuits, hints⟩ := value_suits host (-1) d.width m
  cases hwidth : d.width.value host (-1) (List.replicate m (.int 0)) with
  | error e =>
    rw [hwidth] at hsuits
    intro e' he'
    cases he'
    exact hsuits e rfl
  | ok p =>
    obtain ⟨w, rest⟩ := p
    obtain ⟨k, hk⟩ := hints _ hwidth
    obtain rfl : rest = List.replicate k (.int 0) := hk
    cases d.prec with
    | none => exact nofun
    | some a => exact (value_suits host 0 a k).1.map _

/-- Arguments for a directive, given some for what is behind it. -/
theorem exists_args_directive (hs : Opens s)
    (ih : ∀ rest : Bytes, rest.length ≤ s.length → ∀ m, ∃ args : List (Value F O), args.length = m ∧
      Suits (sprintfLoop host args rest)) (m : Nat) :
    ∃ args : List (Value F O), args.length = m ∧ Suits (sprintfLoop host args (37 :: s)) := by
  rcases Nat.lt_or_ge m (scan s).1.stars with hfew | hmany
  · -- too few even for the width and the precision
    refine ⟨List.replicate m (.int 0), length_replicate, ?_⟩
    rw [sprintfLoop_directive _ hs]
    have hsuits := amounts_suits host (scan s).1 m
    cases hamounts : (scan s).1.amounts host (List.replicate m (.int 0)) with
    | error e =>
      rw [hamounts] at hsuits
      intro e' he'
      cases he'
      exact hsuits e rfl
    | ok p =>
      have hlen := amounts_ok hamounts
      rw [length_replicate] at hlen
      omega
  · obtain ⟨j, rfl⟩ := Nat.exists_eq_add_of_le hmany
    -- what is left for the verb and what is behind it decides
    have hrest : ∀ args : List (Value F O), args.length = j →
        (∀ w p, Suits (afterAmounts host s w p args)) →
        ∃ args : List (Value F O), args.length = (scan s).1.stars + j ∧
          Suits (sprintfLoop host args (37 :: s)) := by
      intro args hlen hsuits
      obtain ⟨w, p, hamounts⟩ := amounts_ints host (scan s).1 args
      refine ⟨List.replicate (scan s).1.stars (.int 0) ++ args, by simp [hlen], ?_⟩
      rw [sprintfLoop_directive _ hs, hamounts]
      exact hsuits w p
    cases hverb : (scan s).2 with
    | nil =>
      refine hrest (List.replicate j (.int 0)) length_replicate ?_
      intro w p
      rw [afterAmounts, hverb]
      exact suits_format _
    | cons verb rest =>
      cases j with
      | zero =>
        refine hrest [] rfl ?_
        intro w p
        rw [afterAmounts, hverb]
        exact suits_format _
      | succ j =>
        have hle := scan_length s
        rw [hverb, length_cons] at hle
        obtain ⟨args, hlen, hsuits⟩ := ih rest (by omega) j
        obtain ⟨v, hv⟩ := exists_suiting host verb
        refine hrest (v :: args) (by rw [length_cons, hlen]) ?_
        intro w p
        rw [afterAmounts, hverb]
        dsimp only
        have htext := hv ⟨(scan s).1.flags, w, p, verb⟩ rfl
        cases hconvert : convert host ⟨(scan s).1.flags, w, p, verb⟩ v with
        | error e =>
          rw [hconvert] at htext
          intro e' he'
          cases he'
          exact htext e rfl
        | ok text => exact hsuits.map _

/-- Integers, and booleans where the verb wants one, suit any format. -/
theorem exists_args (host : Host F O) (f : Bytes) (m : Nat) :
    ∃ args, args.length = m ∧ Suits (sprintfLoop host args f) := by
  induction hn : f.length using Nat.strong_induction_on generalizing f m with
  | _ n ih =>
    subst hn
    match f with
    | [] =>
      refine ⟨List.replicate m (.int 0), length_replicate, ?_⟩
      intro e he
      rw [sprintfLoop] at he
      split_ifs at he
      exact ⟨_, (Except.error.inj he).symm⟩
    | c :: s =>
      by_cases hc : c = 37
      · subst hc
        by_cases hs : Opens s
        · refine exists_args_directive hs ?_ m
          intro rest hle m
          exact ih rest.length (Nat.lt_succ_of_le hle) rest m rfl
        · obtain ⟨s', hs'⟩ := not_forall.mp hs
          obtain rfl := not_not.mp hs'
          obtain ⟨args, hlen, hsuits⟩ := ih s'.length (by simp) s' m rfl
          refine ⟨args, hlen, ?_⟩
          rw [sprintfLoop]
          exact hsuits.map _
      · obtain ⟨args, hlen, hsuits⟩ := ih s.length (by simp) s m rfl
        refine ⟨args, hlen, ?_⟩
        rw [sprintfLoop]
        · exact hsuits.map _
        · intro s' h
          exact absurd h hc
        · exact hc

/-! ### The count and the run -/

/-- The format is accepted with as many arguments as the run takes: with arguments of the kinds that the verbs
accept, it is counted to their number just if the run goes through with them, none too few or too many. -/
def Counts (host : Host F O) (f : Bytes) : Prop :=
  ∀ args : List (Value F O), Suits (sprintf host f args) →
    (countVerbs f = (args.length, []) ↔ ∃ text, sprintf host f args = .ok text)

theorem run_iff {f : Bytes} (h : Suits (sprintf host f args)) :
    (∃ text, sprintf host f args = .ok text) ↔ Ended f ∧ Roomy f ∧ args.length = total f := by
  constructor
  · intro ⟨text, htext⟩
    exact run_ok f htext
  · intro ⟨hended, hroomy, hlen⟩
    cases hrun : sprintf host f args with
    | ok text => exact ⟨text, rfl⟩
    | error e =>
      obtain ⟨msg, rfl⟩ := h e hrun
      exact absurd hrun (run_format f hended hroomy hlen msg)

theorem countVerbs_iff (f : Bytes) (m : Nat) : countVerbs f = (m, []) ↔ Ended f ∧ Clean f ∧ m = total f := by
  rw [countVerbs, countLoop_iff, Nat.zero_add]

/-- The count and the run agree unless the directives are in order but for their flags, and a NUL among the flags
or more of them than there is room for makes the difference. -/
theorem counts_iff (host : Host F O) (f : Bytes) : Counts host f ↔ (Ended f → (Clean f ↔ Roomy f)) := by
  constructor
  · intro h hended
    obtain ⟨args, hlen, hsuits⟩ := exists_args host f (total f)
    have hagree := h args hsuits
    rw [countVerbs_iff, run_iff hsuits] at hagree
    constructor
    · intro hclean
      exact (hagree.mp ⟨hended, hclean, hlen⟩).2.1
    · intro hroomy
      exact (hagree.mpr ⟨hended, hroomy, hlen⟩).2.1
  · intro h args hsuits
    rw [countVerbs_iff, run_iff hsuits]
    constructor
    · intro ⟨hended, hclean, hlen⟩
      exact ⟨hended, (h hended).mp hclean, hlen⟩
    · intro ⟨hended, hroomy, hlen⟩
      exact ⟨hended, (h hended).mpr hroomy, hlen⟩

/-- `%--------d`: eight flags, the last of which the run takes for the verb. -/
theorem counts_eight :
    ¬ Counts (F := Unit) (O := Empty) ⟨nofun, nofun, nofun, fun _ => "", fun _ _ => [], nofun⟩
      [37, 45, 45, 45, 45, 45, 45, 45, 45, 100] := by
  intro h
  have hpieces : pieces [37, 45, 45, 45, 45, 45, 45, 45, 45, 100] =
      [([45, 45, 45, 45, 45, 45, 45, 45], [100])] := by
    have hopens : Opens [45, 45, 45, 45, 45, 45, 45, 45, 100] :=
      fun s h => absurd (List.cons.inj h).1 (by decide)
    have htail : (tailOf (([45, 45, 45, 45, 45, 45, 45, 45, 100] : Bytes).dropWhile strchrFlags)).2 = [100] := by
      decide
    rw [pieces_goes hopens htail (by decide), pieces]
    rfl
  have hagree := (counts_iff _ _).mp h
  unfold Ended Clean Roomy at hagree
  rw [hpieces] at hagree
  have hroomy := (hagree (by decide)).mp (by decide) _ mem_cons_self
  exact absurd hroomy (by decide)

end Voila.Rt.Fmt
