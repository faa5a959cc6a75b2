import Voila.Lib.Pieces

/-!
# Voila.Ir.Text

The text of IR operands. The IR is an assembly language whose simple operands are
text (`r3`, `K7`, `L2`, `^name`, `(r1,name:r2,r3...)`), so three parts of the
compiler read registers back out of text, each with a scanner of its own:

* the C backend (`cg`): `reg_slot`, `parse_args`, which say what the emitted C
  really reads;
* the optimizer (`opt`): `reg_slot`, `mark_regs_in`;
* the KILL pass (`low/kill.voi`): `reg_exact`, `regs_of`.

The last two scan a whole argument for `rN` tokens and never parse it. What makes
that enough is `mem_regTokens`: whatever `parse_args` takes out of an argument
stands between non-word characters, so the scanners see it too.

A `str` is the list of its bytes.
-/

open List

namespace Voila

open Lib

/-- A `str`, byte by byte. -/
abbrev Str := List Char

instance str_lawful : LawfulBEq Str := inferInstance

/-- `str.starts_with(s, start)`. -/
def Str.startsWith (s start : Str) : Bool := decide (s.take start.length = start)

theorem Str.eq_append_of_startsWith {s start : Str} (h : s.startsWith start = true) :
    s = start ++ s.drop start.length := by
  have htake := of_decide_eq_true h
  conv_lhs => rw [← take_append_drop start.length s, htake]

namespace Ir

/-- `c >= '0' and c <= '9'`. -/
def isDigit (c : Char) : Bool := c.isDigit

/-- `opt.is_word_byte`. -/
def isWordByte (c : Char) : Bool := c.isDigit || c.isLower || c.isUpper || c == '_'

/-- `low.word_byte`: the same with `$`, which names minted by the lowerer hold. -/
def wordByte (c : Char) : Bool := isWordByte c || c == '$'

/-- The register `rN` (`Lowerer.new_reg`). -/
def newReg (n : Nat) : Str := 'r' :: Nat.toDigits 10 n

/-- The label `LN` (`Lowerer.new_label`). -/
def newLabel (n : Nat) : Str := 'L' :: Nat.toDigits 10 n

/-- The pool constant `KN` (`Module.Constant`). -/
def constName (n : Nat) : Str := 'K' :: Nat.toDigits 10 n

/-- The digits of a non-empty decimal text, as a number (`atoi`). -/
def atoi (s : Str) : Option Nat :=
  if s ≠ [] ∧ s.all isDigit then some (Nat.ofDigitChars 10 s 0) else none

/-- `opt.reg_slot`: `rN` to `N`; also the test `cg.operand` makes for a register. -/
def regSlot : Str → Option Nat
  | 'r' :: ds => atoi ds
  | _ => none

/-- The constant index of `KN`, as `cg.operand` and `opt.const_type` read it. -/
def constSlot : Str → Option Nat
  | 'K' :: ds => atoi ds
  | _ => none

/-- The register token that starts right after an `r`, if the text there is one:
digits, then the end or a non-word byte. -/
def tokenAt (word : Char → Bool) (s : Str) : List Nat :=
  let ds := s.takeWhile isDigit
  if ds ≠ [] ∧ (s.dropWhile isDigit).head?.all (!word ·) then [Nat.ofDigitChars 10 ds 0] else []

/-- The scanning loop of `mark_regs_in` and `regs_of`: every `rN` token, `prev`
being the byte before the text. The loops jump over a token's digits; a digit
starts no token, so stepping through them finds the same ones. -/
def regTokens (word : Char → Bool) : Option Char → Str → List Nat
  | _, [] => []
  | prev, c :: cs =>
    (if c = 'r' ∧ prev.all (!word ·) then tokenAt word cs else []) ++
      regTokens word (some c) cs

/-- `low.regs_of`. -/
def regsOf (a : Str) : List Nat := regTokens wordByte none a

/-- The registers `opt.mark_regs_in` marks (those within `used`). -/
def markRegsIn (a : Str) : List Nat := regTokens isWordByte none a

/-! ### The scanners see every delimited register -/

variable {c : Char} {word : Char → Bool} {s chars : Str}

theorem isDigit_isWordByte (h : isDigit c = true) : isWordByte c = true := by
  simp only [isDigit] at h
  simp [isWordByte, h]

theorem isDigit_wordByte (h : isDigit c = true) : wordByte c = true := by
  simp [wordByte, isDigit_isWordByte h]

theorem tokenAt_append (hword : ∀ c, isDigit c = true → word c = true)
    {ds post : Str} (hne : ds ≠ []) (hds : ∀ c ∈ ds, isDigit c = true)
    (hpost : ∀ c ∈ post.head?, word c = false) :
    tokenAt word (ds ++ post) = [Nat.ofDigitChars 10 ds 0] := by
  have hhead : post.takeWhile isDigit = [] ∧ post.dropWhile isDigit = post := by
    cases post with
    | nil => simp
    | cons c cs =>
      have hc : isDigit c = false := by
        by_contra hd
        have := hword c (by simpa using hd)
        simp [hpost c (by simp)] at this
      simp [hc]
  have htake : (ds ++ post).takeWhile isDigit = ds := by
    rw [takeWhile_append_of_pos hds, hhead.1, List.append_nil]
  have hdrop : (ds ++ post).dropWhile isDigit = post := by
    rw [dropWhile_append_of_pos hds, hhead.2]
  have hall : post.head?.all (!word ·) = true := by
    cases hp : post.head? with
    | none => rfl
    | some c => simp [hpost c (by simp [hp])]
  simp [tokenAt, htake, hdrop, hne, hall]

private theorem regTokens_append {word : Char → Bool}
    (hword : ∀ c, isDigit c = true → word c = true) {ds post : Str} (hne : ds ≠ [])
    (hds : ∀ c ∈ ds, isDigit c = true) (hpost : ∀ c ∈ post.head?, word c = false) :
    ∀ (pre : Str) (prev : Option Char), (∀ c ∈ (prev.toList ++ pre).getLast?, word c = false) →
      Nat.ofDigitChars 10 ds 0 ∈ regTokens word prev (pre ++ 'r' :: ds ++ post)
  | [], prev, hprev => by
    have hp : prev.all (!word ·) = true := by
      cases prev with
      | none => rfl
      | some c => simp [hprev c (by simp)]
    simp [regTokens, hp, tokenAt_append hword hne hds hpost]
  | c :: pre, prev, hprev => by
    have ih := regTokens_append hword hne hds hpost pre (some c) (by
      intro d hd
      refine hprev d ?_
      cases prev with
      | none => simpa using hd
      | some p => simpa [List.getLast?_cons_cons] using hd)
    simp only [cons_append, regTokens, mem_append]
    exact Or.inr (by simpa using ih)

/-- A register between non-word bytes (or the ends) of an argument is a token of it. -/
theorem mem_regTokens (hword : ∀ c, isDigit c = true → word c = true)
    {a t : Str} {n : Nat} (hd : Delimited (fun c => word c = false) a t)
    (ht : regSlot t = some n) : n ∈ regTokens word none a := by
  obtain ⟨pre, post, rfl, hpre, hpost⟩ := hd
  unfold regSlot at ht
  split at ht
  · rename_i ds
    unfold atoi at ht
    split at ht
    · rename_i hds
      cases ht
      exact regTokens_append hword hds.1 (by simpa using hds.2) hpost pre none (by simpa using hpre)
    · exact absurd ht (by simp)
  · exact absurd ht (by simp)

@[simp] theorem regSlot_newReg (n : Nat) : regSlot (newReg n) = some n := by
  have hall : (Nat.toDigits 10 n).all isDigit = true := by
    simp only [all_eq_true]
    exact fun c hc => Nat.isDigit_of_mem_toDigits (by decide) (by decide) hc
  simp [regSlot, newReg, atoi, Nat.toDigits_ne_nil, hall, Nat.ofDigitChars_ten_toDigits]

/-! ### Argument lists -/

/-- One argument of a rendered call: `r1`, `name:r1`, `r1...`. -/
structure CallArg where
  reg : Str
  name : Str
  spread : Bool
  deriving DecidableEq, Repr

/-- Drop a final `c`, if there is one. -/
def chopEnd (c : Char) (s : Str) : Str := if s.getLast? = some c then s.dropLast else s

/-- Drop a first `c`, if there is one. -/
def chopStart (c : Char) : Str → Str
  | [] => []
  | d :: ds => if d = c then ds else d :: ds

/-- One comma-separated part of an argument list. -/
def parseArg (part0 : Str) : CallArg :=
  let spread := part0.drop (part0.length - 3) = ['.', '.', '.']
  let part := if spread then part0.take (part0.length - 3) else part0
  if ':' ∈ part then
    { reg := (part.dropWhile (· ≠ ':')).tail, name := part.takeWhile (· ≠ ':'), spread := spread }
  else
    { reg := part, name := [], spread := spread }

/-- The parts of an argument list without its brackets. -/
def splitArgs (s : Str) : List CallArg :=
  if s = [] then [] else (s.splitOn ',').map parseArg

/-- `cg.parse_args`: the parts of a rendered `(r1,name:r2,r3...)`. -/
def parseArgs (spec : Str) : List CallArg :=
  splitArgs (chopStart '(' (chopEnd ')' spec))

/-- `str.strip(s, chars)`. -/
def strip (chars : Str) (s : Str) : Str :=
  ((s.dropWhile (· ∈ chars)).reverse.dropWhile (· ∈ chars)).reverse

/-- The second half of `str.split_n(s, "=", 2)`, when there is one. -/
def afterEq (s : Str) : Option Str :=
  if '=' ∈ s then some (s.dropWhile (· ≠ '=')).tail else none

/-- The bytes that separate the registers of a composite argument. -/
def isPunct (c : Char) : Prop :=
  c ∈ ['(', ')', ',', ':', '.', '[', ']', '=']

instance : DecidablePred isPunct := fun c =>
  inferInstanceAs (Decidable (c ∈ ['(', ')', ',', ':', '.', '[', ']', '=']))

theorem isPunct.not_wordByte (h : isPunct c) : wordByte c = false := by
  simp only [isPunct, mem_cons, not_mem_nil, or_false] at h
  rcases h with rfl | rfl | rfl | rfl | rfl | rfl | rfl | rfl <;> decide

theorem isPunct.not_isWordByte (h : isPunct c) : isWordByte c = false := by
  have hw := h.not_wordByte
  simp only [wordByte, Bool.or_eq_false_iff] at hw
  exact hw.1

theorem delimited_chopEnd (hc : isPunct c) (s : Str) : Delimited isPunct s (chopEnd c s) := by
  unfold chopEnd
  split
  · rename_i h
    obtain ⟨t, rfl⟩ : ∃ t, s = t ++ [c] := by
      rw [List.getLast?_eq_some_iff] at h
      exact h
    rw [dropLast_concat]
    exact Delimited.left hc
  · exact Delimited.refl _ _

theorem delimited_chopStart (hc : isPunct c) (s : Str) : Delimited isPunct s (chopStart c s) := by
  cases s with
  | nil => exact Delimited.refl _ _
  | cons d ds =>
    simp only [chopStart]
    split
    · rename_i h
      subst h
      exact Delimited.tail hc
    · exact Delimited.refl _ _

/-- Cutting `"..."` off the end. -/
theorem delimited_spread (h : s.drop (s.length - 3) = ['.', '.', '.']) :
    Delimited isPunct s (s.take (s.length - 3)) := by
  have hcut : s = s.take (s.length - 3) ++ '.' :: ['.', '.'] := by
    rw [← h, take_append_drop]
  have hd : Delimited isPunct (s.take (s.length - 3) ++ '.' :: ['.', '.'])
      (s.take (s.length - 3)) := Delimited.left (by decide)
  rwa [← hcut] at hd

/-- What stands after the first `c`. -/
theorem delimited_after (hc : isPunct c) (h : c ∈ s) :
    Delimited isPunct s (s.dropWhile (· ≠ c)).tail := by
  have hcut := takeWhile_append_dropWhile (p := (· ≠ c)) (l := s)
  cases hd : s.dropWhile (· ≠ c) with
  | nil =>
    have hall : ∀ d ∈ s, d ≠ c := by simpa [dropWhile_eq_nil_iff] using hd
    exact absurd rfl (hall c h)
  | cons d ds =>
    have hdc : d = c := by
      have hhead := List.head?_dropWhile_not (· ≠ c) s
      rw [hd] at hhead
      simpa using hhead
    rw [hd, hdc] at hcut
    conv_lhs => rw [← hcut]
    exact Delimited.right hc

theorem delimited_parseArg (part0 : Str) : Delimited isPunct part0 (parseArg part0).reg := by
  unfold parseArg
  extract_lets spread part
  have hpart : Delimited isPunct part0 part := by
    simp only [part]
    split
    · rename_i h
      exact delimited_spread (by simpa [spread] using h)
    · exact Delimited.refl _ _
  split
  · rename_i hmem
    exact hpart.trans (delimited_after (by decide) hmem)
  · exact hpart

theorem delimited_dropWhile (hc : ∀ c ∈ chars, isPunct c) (s : Str) :
    Delimited isPunct s (s.dropWhile (· ∈ chars)) := by
  induction s with
  | nil => exact Delimited.refl _ _
  | cons c cs ih =>
    by_cases h : c ∈ chars
    · rw [dropWhile_cons_of_pos (by simpa using h)]
      exact (Delimited.tail (hc c h)).trans ih
    · rw [dropWhile_cons_of_neg (by simpa using h)]
      exact Delimited.refl _ _

theorem delimited_strip (hc : ∀ c ∈ chars, isPunct c) (s : Str) :
    Delimited isPunct s (strip chars s) := by
  refine (delimited_dropWhile hc s).trans ?_
  have hback := (delimited_dropWhile hc (s.dropWhile (· ∈ chars)).reverse).reverse
  rwa [reverse_reverse] at hback

theorem delimited_afterEq {s t : Str} (h : afterEq s = some t) : Delimited isPunct s t := by
  unfold afterEq at h
  split at h
  · rename_i hmem
    cases h
    exact delimited_after (by decide) hmem
  · exact absurd h (by simp)

variable {x : CallArg}

theorem delimited_splitArgs (h : x ∈ splitArgs s) : Delimited isPunct s x.reg := by
  unfold splitArgs at h
  split at h
  · simp at h
  · obtain ⟨p, hp, rfl⟩ := mem_map.mp h
    exact (delimited_splitOn (by decide) hp).trans (delimited_parseArg p)

/-- The register text of every parsed argument is delimited in the argument list. -/
theorem delimited_parseArgs {spec : Str} (h : x ∈ parseArgs spec) : Delimited isPunct spec x.reg :=
  ((delimited_chopEnd (by decide) spec).trans (delimited_chopStart (by decide) _)).trans
    (delimited_splitArgs h)

/-- An opening bracket is chopped whatever becomes of the closing one. -/
theorem parseArgs_open (s : Str) : parseArgs ('(' :: s) = splitArgs (chopEnd ')' s) := by
  have hchop : chopEnd ')' ('(' :: s) = '(' :: chopEnd ')' s := by
    cases s with
    | nil => rfl
    | cons c cs =>
      simp only [chopEnd, List.getLast?_cons_cons, dropLast_cons_cons]
      split <;> rfl
  rw [parseArgs, hchop]
  rfl

end Ir
end Voila
