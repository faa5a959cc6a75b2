import Voila.Http.Text

/-!
# Voila.Http.TextSound

Which calls end in an exception: a call is `Calm` where it gives a result or an error value.

Every error text that quotes through `brief` is a format without verbs (`brief_safe`), and so
`errf` gives it as an error value. A number is read calmly unless its running value leaves the `int`
range before it is beyond its limit (`numLoop_calm_iff`).
-/

open List

namespace Voila.Http

open Voila.Rt (Bytes printNat)
open Voila.Rt.Json (ch)

/-! ### Calm calls -/

/-- A result, or an error value. -/
def Calm {α : Type} (x : Except Fail α) : Prop :=
  x ≠ .error .hangs ∧ ∀ exc, x ≠ .error (.throws exc)

variable {α β : Type} {c sep : UInt8} {a b s what : Bytes}

theorem Calm.ok (a : α) : Calm (.ok a : Except Fail α) := ⟨nofun, nofun⟩

theorem Calm.err (msg : Bytes) : Calm (.error (.err msg) : Except Fail α) :=
  ⟨by simp, by simp⟩

theorem Calm.bind {x : Except Fail α} {f : α → Except Fail β} (hx : Calm x)
    (hf : ∀ a, x = .ok a → Calm (f a)) : Calm (x.bind f) := by
  cases x with
  | ok a => exact hf a rfl
  | error e =>
    cases e with
    | err msg => exact Calm.err msg
    | throws exc => exact absurd rfl (hx.2 exc)
    | hangs => exact absurd rfl hx.1

theorem bind_ok (a : α) (f : α → Except Fail β) : (Except.ok a).bind f = f a := rfl

theorem bind_of {x : Except Fail α} {f : α → Except Fail β} {a : α} {r : Except Fail β}
    (h : x = .ok a) (h' : f a = r) : (x >>= f) = r := by
  rw [h]
  exact h'

theorem bind_eq_ok {x : Except Fail α} {f : α → Except Fail β} {b : β}
    (h : (x >>= f) = .ok b) : ∃ a, x = .ok a ∧ f a = .ok b := by
  cases x with
  | error e => cases h
  | ok a => exact ⟨a, rfl, h⟩

theorem ok_of_toOption {x : Except Fail α} {a : α} (h : x.toOption = some a) : x = .ok a := by
  cases x with
  | error e => cases h
  | ok b => exact congrArg Except.ok (Option.some.inj h)

theorem Calm.of_bind {x : Except Fail α} {f : α → Except Fail β}
    (h : Calm (x.bind f)) : Calm x ∧ ∀ a, x = .ok a → Calm (f a) := by
  cases x with
  | ok a =>
    refine ⟨Calm.ok a, fun b hb => ?_⟩
    cases hb
    exact h
  | error e =>
    cases e with
    | err msg => exact ⟨Calm.err msg, nofun⟩
    | throws exc => exact absurd rfl (h.2 exc)
    | hangs => exact absurd rfl h.1

theorem calm_bind_iff {x : Except Fail α} {f : α → Except Fail β} :
    Calm (x.bind f) ↔ Calm x ∧ ∀ a, x = .ok a → Calm (f a) :=
  ⟨Calm.of_bind, fun h => Calm.bind h.1 h.2⟩

theorem calm_ok_forall {a : α} {f : α → Except Fail β} :
    (∀ b, (.ok a : Except Fail α) = .ok b → Calm (f b)) ↔ Calm (f a) :=
  ⟨fun h => h a rfl, fun h _ hb => Except.ok.inj hb ▸ h⟩

/-! ### Formats without verbs -/

/-- A format that can be printed without arguments. -/
def Safe (fmt : Bytes) : Prop := (sprintf fmt).isSome = true

instance (fmt : Bytes) : Decidable (Safe fmt) := inferInstanceAs (Decidable (_ = true))

theorem sprintf_cons (b : UInt8) (s : Bytes) :
    sprintf (b :: s) =
      if b ≠ ch '%' then (sprintf s).map (b :: ·)
      else
        match s with
        | [] => none
        | c :: s => if c = ch '%' then (sprintf s).map (c :: ·) else none := by
  cases s <;> rfl

theorem safe_cons {b : UInt8} (h : b ≠ ch '%') (s : Bytes) : Safe (b :: s) ↔ Safe s := by
  unfold Safe
  rw [sprintf_cons, if_pos h, Option.isSome_map]

theorem safe_percent (s : Bytes) : Safe (ch '%' :: ch '%' :: s) ↔ Safe s := by
  unfold Safe
  rw [sprintf_cons, if_neg (by simp)]
  simp only [if_true, Option.isSome_map]

theorem not_safe_verb (h : c ≠ ch '%') (s : Bytes) : ¬ Safe (ch '%' :: c :: s) := by
  unfold Safe
  rw [sprintf_cons, if_neg (by simp)]
  simp [h]

/-- What is printed for a format stands in front of what is printed for the rest. -/
theorem sprintf_append {a' : Bytes} (h : sprintf a = some a') (b : Bytes) :
    sprintf (a ++ b) = (sprintf b).map (a' ++ ·) := by
  induction a using sprintf.induct generalizing a' with
  | case1 =>
    cases h
    simp
  | case2 x a plain ih =>
    rw [sprintf_cons, if_pos plain] at h
    obtain ⟨t, ht, rfl⟩ := Option.map_eq_some_iff.mp h
    rw [cons_append, sprintf_cons, if_pos plain, ih ht, Option.map_map]
    rfl
  | case3 x verb =>
    rw [sprintf_cons, if_neg verb] at h
    cases h
  | case4 x verb a ih =>
    rw [sprintf_cons, if_neg verb] at h
    obtain ⟨t, ht, rfl⟩ := Option.map_eq_some_iff.mp ((if_pos rfl).symm.trans h)
    rw [cons_append, cons_append, sprintf_cons, if_neg verb]
    dsimp only
    rw [if_pos rfl, ih ht, Option.map_map]
    rfl
  | case5 x verb c a other =>
    rw [sprintf_cons, if_neg verb] at h
    cases (if_neg other).symm.trans h

theorem Safe.append_iff (ha : Safe a) : Safe (a ++ b) ↔ Safe b := by
  obtain ⟨a', ha⟩ := Option.isSome_iff_exists.mp ha
  rw [Safe, sprintf_append ha, Option.isSome_map]
  rfl

/-- A format is safe if its parts are. -/
theorem Safe.append (ha : Safe a) (hb : Safe b) : Safe (a ++ b) := ha.append_iff.mpr hb

/-- A part before a byte that is no `%` must be safe, and so must be what follows. -/
theorem safe_append_iff (hc : c ≠ ch '%') : Safe (a ++ c :: b) ↔ Safe a ∧ Safe b := by
  constructor
  · intro h
    induction hn : a.length using Nat.strongRecOn generalizing a with
    | ind n ih =>
      cases a with
      | nil => exact ⟨rfl, (safe_cons hc b).mp h⟩
      | cons x a =>
        by_cases hx : x = ch '%'
        · subst hx
          cases a with
          | nil => exact absurd h (not_safe_verb hc b)
          | cons y a =>
            by_cases hy : y = ch '%'
            · subst hy
              rw [cons_append, cons_append, safe_percent] at h
              rw [safe_percent]
              exact ih a.length (by simp only [length_cons] at hn; omega) h rfl
            · exact absurd h (not_safe_verb hy (a ++ c :: b))
        · rw [cons_append, safe_cons hx] at h
          rw [safe_cons hx]
          exact ih a.length (by simp only [length_cons] at hn; omega) h rfl
  · intro h
    exact h.1.append ((safe_cons hc b).mpr h.2)

/-- A text without a `%`. -/
def Plain (s : Bytes) : Prop := ∀ b ∈ s, b ≠ ch '%'

theorem plain_append : Plain (a ++ b) ↔ Plain a ∧ Plain b := forall_mem_append

theorem plain_cons : Plain (c :: s) ↔ c ≠ ch '%' ∧ Plain s := forall_mem_cons

/-- A text without a `%` is printed as it is. -/
theorem Plain.sprintf {s : Bytes} (h : Plain s) : sprintf s = some s := by
  induction s with
  | nil => rfl
  | cons b s ih =>
    obtain ⟨first, rest⟩ := plain_cons.mp h
    rw [sprintf_cons, if_pos first, ih rest]
    rfl

theorem safe_of_plain (h : Plain s) : Safe s := Option.isSome_iff_exists.mpr ⟨s, h.sprintf⟩

theorem Plain.safe_append (h : Plain a) : Safe (a ++ b) ↔ Safe b := (safe_of_plain h).append_iff

/-- A text stands between texts without a `%`. -/
theorem safe_between {pre post : Bytes} (hpre : Plain pre) (hpost : Plain post) (some_ : post ≠ []) :
    Safe (pre ++ s ++ post) ↔ Safe s := by
  obtain ⟨c, post, rfl⟩ := exists_cons_of_ne_nil some_
  obtain ⟨first, rest⟩ := plain_cons.mp hpost
  rw [append_assoc, hpre.safe_append, safe_append_iff first]
  exact and_iff_left (safe_of_plain rest)

/-- A byte of ASCII in the UTF-8 of a character is that character. -/
theorem utf8EncodeChar_ascii {c : Char} {b : UInt8} (hb : b ∈ String.utf8EncodeChar c)
    (h : b < 0x80) : c.toNat = b.toNat := by
  have high : ∀ n : Nat, 128 ≤ n → n < 256 → b ≠ UInt8.ofNat n := by
    intro n low small hn
    have value := congrArg UInt8.toNat hn
    rw [UInt8.toNat_ofNat', Nat.mod_eq_of_lt (by omega)] at value
    have ascii : b.toNat < 128 := h
    omega
  unfold String.utf8EncodeChar at hb
  dsimp only at hb
  split_ifs at hb with h1
  · obtain rfl := mem_singleton.mp hb
    rw [UInt8.toNat_ofNat', Nat.mod_eq_of_lt (by omega)]
    rfl
  all_goals
    simp only [mem_cons, not_mem_nil, or_false] at hb
  · rcases hb with hb | hb <;> exact absurd hb (high _ (by omega) (by omega))
  · rcases hb with hb | hb | hb <;> exact absurd hb (high _ (by omega) (by omega))
  · rcases hb with hb | hb | hb | hb <;> exact absurd hb (high _ (by omega) (by omega))

/-- A literal without a `%`. -/
theorem lit_plain {s : String} (h : '%' ∉ s.toList) : Plain (lit s) := by
  intro b hb hp
  subst hp
  obtain ⟨c, hc, hb⟩ := mem_flatMap.mp hb
  have value := utf8EncodeChar_ascii hb (by decide)
  have percent : c = '%' := Char.ext (UInt32.toNat_inj.mp value)
  exact h (percent ▸ hc)

theorem lit_safe {s : String} (h : '%' ∉ s.toList) : Safe (lit s) := safe_of_plain (lit_plain h)

theorem lit_safe_append {s : String} (h : '%' ∉ s.toList) : Safe (lit s ++ b) ↔ Safe b :=
  (lit_plain h).safe_append

/-- A literal between two texts keeps them apart. -/
theorem safe_append_lit {s : String} (h : '%' ∉ s.toList) (hs : lit s ≠ []) :
    Safe (a ++ (lit s ++ b)) ↔ Safe a ∧ Safe b := by
  obtain ⟨c, rest, hlit⟩ := exists_cons_of_ne_nil hs
  have hc : c ≠ ch '%' := lit_plain h c (hlit ▸ mem_cons_self)
  have hb : Safe (c :: (rest ++ b)) ↔ Safe b := by rw [← cons_append, ← hlit, lit_safe_append h]
  rw [hlit, cons_append, safe_append_iff hc, ← safe_cons hc (rest ++ b), hb]

theorem safe_append_end {s : String} (h : '%' ∉ s.toList) (hs : lit s ≠ []) :
    Safe (a ++ lit s) ↔ Safe a := by
  rw [← List.append_nil (lit s), safe_append_lit h hs]
  exact and_iff_left rfl

theorem errf_calm_iff (fmt : Bytes) : Calm (errf fmt : Except Fail α) ↔ Safe fmt := by
  unfold errf Safe
  cases sprintf fmt with
  | none => exact ⟨fun h => absurd rfl (h.2 _), nofun⟩
  | some msg => exact ⟨fun _ => rfl, fun _ => Calm.err msg⟩

theorem Safe.calm {fmt : Bytes} (h : Safe fmt) : Calm (errf fmt : Except Fail α) :=
  (errf_calm_iff fmt).mpr h

theorem errf_bind (fmt : Bytes) (f : α → Except Fail β) : (errf fmt >>= f) = errf fmt := by
  unfold errf
  cases sprintf fmt <;> rfl

/-- `errf` gives no result. -/
theorem errf_ne_ok (fmt : Bytes) (a : α) : (errf fmt : Except Fail α) ≠ .ok a := by
  unfold errf
  cases sprintf fmt <;> simp

theorem intText_plain (n : Int) : Plain (intText n) := by
  have digits : ∀ k : Nat, Plain (printNat k) := by
    intro k b hb hp
    subst hp
    exact absurd (all_eq_true.mp (Voila.Rt.printNat_digits k).1 _ hb) (by decide)
  unfold intText
  split
  · exact plain_cons.mpr ⟨by decide, digits _⟩
  · exact digits _

theorem intText_safe (n : Int) : Safe (intText n) := safe_of_plain (intText_plain n)

variable (past : Past)

theorem briefLoop_safe (n : Nat) (cs : List Nat) : Safe (briefLoop n cs).1 := by
  induction cs generalizing n with
  | nil => rfl
  | cons c cs ih =>
    have rest := ih (n + 1)
    rw [briefLoop]
    by_cases full : 40 ≤ n
    · rw [if_pos full]
      rfl
    · rw [if_neg full]
      dsimp only
      split_ifs with other percent
      · exact (safe_cons (by decide) _).mpr rest
      · exact (safe_percent _).mpr rest
      · have byte : UInt8.ofNat c ≠ ch '%' := by
          intro h
          have value := congrArg UInt8.toNat h
          have c25 : (ch '%').toNat = 0x25 := rfl
          rw [UInt8.toNat_ofNat', c25, Nat.mod_eq_of_lt (by omega)] at value
          exact percent value
        exact (safe_cons byte _).mpr rest

theorem brief_safe (s : Bytes) : Safe (brief past s) := by
  unfold brief
  dsimp only
  rw [cons_append, safe_cons (by decide)]
  refine Safe.append ((briefLoop_safe 0 _).append ?_) (by decide)
  cases (briefLoop 0 (runes past s)).2 with
  | true => exact lit_safe (by simp)
  | false => rfl

/-! ### Cutting -/

theorem cutAt_some (h : cutAt sep s = some (a, b)) : s = a ++ sep :: b ∧ sep ∉ a := by
  unfold cutAt at h
  have whole := takeWhile_append_dropWhile (p := (· != sep)) (l := s)
  cases hd : s.dropWhile (· != sep) with
  | nil => rw [hd] at h; exact absurd h (by simp)
  | cons c t =>
    rw [hd] at h whole
    cases h
    have stop := List.head?_dropWhile_not (· != sep) s
    rw [hd] at stop
    have found : c = sep := by simpa using stop
    refine ⟨by rw [found] at whole; exact whole.symm, fun hm => ?_⟩
    simpa using mem_takeWhile_imp hm

theorem cutAt_none (h : cutAt sep s = none) : sep ∉ s := by
  unfold cutAt at h
  cases hd : s.dropWhile (· != sep) with
  | nil =>
    intro hm
    simpa using dropWhile_eq_nil_iff.mp hd sep hm
  | cons c t => rw [hd] at h; exact absurd h (by simp)

theorem cutAt_append (ha : sep ∉ a) (b : Bytes) : cutAt sep (a ++ sep :: b) = some (a, b) := by
  have all : ∀ x ∈ a, (x != sep) = true := by
    intro x hx
    simpa using fun h : x = sep => ha (h ▸ hx)
  unfold cutAt
  rw [dropWhile_append_of_pos all, takeWhile_append_of_pos all]
  simp

theorem cutAt_eq_none (h : sep ∉ s) : cutAt sep s = none := by
  unfold cutAt
  rw [dropWhile_eq_nil_iff.mpr fun x hx => by simpa using fun e : x = sep => h (e ▸ hx)]

/-! ### Runes -/

/-- A byte of ASCII. -/
def Ascii (s : Bytes) : Prop := ∀ b ∈ s, b < 0x80

instance (s : Bytes) : Decidable (Ascii s) := inferInstanceAs (Decidable (∀ b ∈ s, b < 0x80))

theorem runesFrom_ascii_cons (behind : Bytes) (n : Nat) {a : UInt8} (ha : a < 0x80) (s : Bytes) :
    runesFrom behind (n + 1) (a :: s) = a.toNat :: runesFrom behind n s := by
  have h80 : a.toNat < 128 := ha
  have lead (k : UInt8) (hk : 128 ≤ k.toNat) : ¬ k ≤ a := by
    rw [UInt8.le_iff_toNat_le]
    omega
  rw [runesFrom, if_neg (lead 0xF0 (by decide)), if_neg (lead 0xE0 (by decide)), if_neg (lead 0xC0 (by decide))]

/-- The runes of ASCII are its bytes. -/
theorem runes_ascii (h : Ascii s) : runes past s = s.map UInt8.toNat := by
  have go : ∀ behind : Bytes, runesFrom behind s.length s = s.map UInt8.toNat := by
    intro behind
    induction s with
    | nil => rfl
    | cons a s ih =>
      rw [length_cons, runesFrom_ascii_cons behind _ (h a (by simp)),
        ih fun b hb => h b (by simp [hb])]
      rfl
  exact go _

theorem runes_cons_ne (a : UInt8) (s : Bytes) : runes past (a :: s) ≠ [] := by
  unfold runes
  rw [length_cons, runesFrom]
  split_ifs <;> simp

/-! ### Numbers -/

section

variable (digit : Nat → Option Int) (base limit : Int)

/-- The running value leaves the `int` range before it is beyond the limit. -/
def Overflows : Int → List Nat → Bool
  | _, [] => false
  | v, c :: cs =>
    match digit c with
    | none => false
    | some d =>
      if v * base + d > maxInt then true
      else if v * base + d > limit then false
      else Overflows (v * base + d) cs

variable {digit base limit}

theorem addDigit_eq {v d : Int} (hd : 0 ≤ d) :
    addDigit base v d = if v * base + d > maxInt then .error (.throws "OverflowError")
      else .ok (v * base + d) := by
  unfold addDigit
  by_cases h : v * base + d > maxInt
  · rw [if_pos (.inr h), if_pos h]
  · rw [if_neg (by omega), if_neg h]

theorem numLoop_cons {d v : Int} {c : Nat} {noDigit tooBig : Bytes} (hc : digit c = some d) (hd : 0 ≤ d)
    (cs : List Nat) :
    numLoop digit base limit noDigit tooBig v (c :: cs) =
      if v * base + d > maxInt then .error (.throws "OverflowError")
      else if v * base + d > limit then errf tooBig
      else numLoop digit base limit noDigit tooBig (v * base + d) cs := by
  rw [numLoop, hc]
  dsimp only
  rw [addDigit_eq hd]
  by_cases h : v * base + d > maxInt
  · rw [if_pos h, if_pos h]
    rfl
  · rw [if_neg h, if_neg h]
    rfl

/-- A number is read calmly unless it overflows. -/
theorem numLoop_calm_iff (hdigit : ∀ c d, digit c = some d → 0 ≤ d) {noDigit tooBig : Bytes}
    (hno : Safe noDigit) (hbig : Safe tooBig) (v : Int) (cs : List Nat) :
    Calm (numLoop digit base limit noDigit tooBig v cs) ↔ Overflows digit base limit v cs = false := by
  induction cs generalizing v with
  | nil => exact ⟨fun _ => rfl, fun _ => Calm.ok v⟩
  | cons c cs ih =>
    cases hc : digit c with
    | none =>
      have loop : numLoop digit base limit noDigit tooBig v (c :: cs) = errf noDigit := by
        rw [numLoop, hc]
      rw [loop, Overflows, hc]
      exact ⟨fun _ => rfl, fun _ => hno.calm⟩
    | some d =>
      rw [numLoop_cons hc (hdigit c d hc), Overflows, hc]
      dsimp only
      by_cases large : v * base + d > maxInt
      · rw [if_pos large, if_pos large]
        exact ⟨fun h => absurd rfl (h.2 _), nofun⟩
      · rw [if_neg large, if_neg large]
        by_cases big : v * base + d > limit
        · rw [if_pos big, if_pos big]
          exact ⟨fun _ => rfl, fun _ => hbig.calm⟩
        · rw [if_neg big, if_neg big]
          exact ih _

/-- What a run of digits says. -/
theorem numLoop_ok (hdigit : ∀ c d, digit c = some d → 0 ≤ d) {noDigit tooBig : Bytes} {v n : Int}
    {cs : List Nat} (h : numLoop digit base limit noDigit tooBig v cs = .ok n) :
    (∀ c ∈ cs, (digit c).isSome = true) ∧
      n = cs.foldl (fun v c => v * base + (digit c).getD 0) v ∧ (cs ≠ [] → n ≤ limit) := by
  induction cs generalizing v with
  | nil =>
    cases h
    exact ⟨nofun, rfl, fun h => absurd rfl h⟩
  | cons c cs ih =>
    cases hc : digit c with
    | none =>
      rw [numLoop, hc] at h
      exact absurd h (errf_ne_ok _ _)
    | some d =>
      rw [numLoop_cons hc (hdigit c d hc)] at h
      split_ifs at h with large big
      · exact absurd h (errf_ne_ok _ _)
      · obtain ⟨all, value, bound⟩ := ih h
        refine ⟨?_, by rw [foldl_cons, hc]; exact value, fun _ => ?_⟩
        · intro x hx
          cases mem_cons.mp hx with
          | inl hx => rw [hx, hc]; rfl
          | inr hx => exact all x hx
        · by_cases hcs : cs = []
          · rw [hcs] at value
            rw [value]
            exact Int.not_lt.mp big
          · exact bound hcs

end

theorem decDigit_bounds (c : Nat) (d : Int) (h : decDigit c = some d) : 0 ≤ d ∧ d < 10 := by
  unfold decDigit at h
  split_ifs at h with hc
  cases h
  omega

theorem hexDigit_bounds (c : Nat) (d : Int) (h : hexDigit c = some d) : 0 ≤ d ∧ d < 16 := by
  unfold hexDigit at h
  split_ifs at h with h1 h2 h3
  · cases h
    omega
  · cases h
    omega
  · cases h
    omega

theorem tooBig_safe (s : Bytes) (limit : Int) (hw : Safe what) : Safe (tooBig past s limit what) :=
  (((((lit_safe (by simp)).append hw).append (lit_safe (by simp))).append
    (brief_safe past s)).append (lit_safe (by simp))).append (intText_safe limit)

/-- The number loop of `parse_dec` and `parse_hex`, an empty text apart. -/
theorem number_calm_iff {digit : Nat → Option Int} {base limit : Int} {s what kind : Bytes}
    (hdigit : ∀ c d, digit c = some d → 0 ≤ d) (hw : Safe what) (hk : Safe kind) :
    Calm (if s = [] then errf (lit "http: empty " ++ what)
      else numLoop digit base limit (lit "http: " ++ what ++ lit " " ++ brief past s ++ kind)
        (tooBig past s limit what) 0 (runes past s)) ↔
      Overflows digit base limit 0 (runes past s) = false := by
  by_cases h : s = []
  · rw [if_pos h, h]
    exact ⟨fun _ => rfl, fun _ => ((lit_safe (by simp)).append hw).calm⟩
  · rw [if_neg h]
    refine numLoop_calm_iff hdigit ?_ (tooBig_safe past s limit hw) 0 _
    exact ((((lit_safe (by simp)).append hw).append (lit_safe (by simp))).append
      (brief_safe past s)).append hk

theorem parseDec_calm_iff {limit : Int} (hw : Safe what) :
    Calm (parseDec past s limit what) ↔ Overflows decDigit 10 limit 0 (runes past s) = false :=
  number_calm_iff past (fun c d hc => (decDigit_bounds c d hc).1) hw (lit_safe (by simp))

theorem parseHex_calm_iff {limit : Int} (hw : Safe what) :
    Calm (parseHex past s limit what) ↔ Overflows hexDigit 16 limit 0 (runes past s) = false :=
  number_calm_iff past (fun c d hc => (hexDigit_bounds c d hc).1) hw (lit_safe (by simp))

end Voila.Http
