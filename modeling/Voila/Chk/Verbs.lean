import Voila.Rt.CaseMap

/-!
# Voila.Chk.Verbs

How many arguments the compiler expects for a format string (`count_verbs` of `chk/checks.voi`).
-/

namespace Voila.Chk.Verbs

open Rt

/-- `has_byte`. -/
def hasByte (s : Bytes) (c : UInt8) : Bool := s.any (· == c)

/-- `"-+0 #"`. -/
def flagBytes : Bytes := [45, 43, 48, 32, 35]

/-- `"diufFeEgGsqxXobctv"`. -/
def verbBytes : Bytes := [100, 105, 117, 102, 70, 101, 69, 103, 71, 115, 113, 120, 88, 111, 98, 99, 116, 118]

/-- `"<end>"`. -/
def endText : Bytes := [60, 101, 110, 100, 62]

/-- A `*`, which is an argument, or digits. -/
def starOrDigits : Bytes → Nat × Bytes
  | 42 :: s => (1, s)
  | s => (0, s.dropWhile fun c => 48 ≤ c && c ≤ 57)

/-- A `.` and what follows it. -/
def precision : Bytes → Nat × Bytes
  | 46 :: s => starOrDigits s
  | s => (0, s)

/-- A trailing `+`. -/
def trailingPlus : Bytes → Bytes
  | 43 :: s => s
  | s => s

/-- The arguments before the verb of a directive, and the text from the verb on. -/
def beforeVerb (s : Bytes) : Nat × Bytes :=
  let width := starOrDigits (s.dropWhile (hasByte flagBytes))
  let prec := precision width.2
  (width.1 + prec.1, trailingPlus prec.2)

theorem starOrDigits_length (s : Bytes) : (starOrDigits s).2.length ≤ s.length := by
  unfold starOrDigits
  split
  · exact Nat.le_succ _
  · exact List.length_dropWhile_le ..

theorem precision_length (s : Bytes) : (precision s).2.length ≤ s.length := by
  unfold precision
  split
  · exact Nat.le_trans (starOrDigits_length _) (Nat.le_succ _)
  · exact le_rfl

theorem trailingPlus_length (s : Bytes) : (trailingPlus s).length ≤ s.length := by
  unfold trailingPlus
  split
  · exact Nat.le_succ _
  · exact le_rfl

theorem beforeVerb_length (s : Bytes) : (beforeVerb s).2.length ≤ s.length :=
  calc (beforeVerb s).2.length
      ≤ (precision (starOrDigits (s.dropWhile (hasByte flagBytes))).2).2.length := trailingPlus_length _
    _ ≤ (starOrDigits (s.dropWhile (hasByte flagBytes))).2.length := precision_length _
    _ ≤ (s.dropWhile (hasByte flagBytes)).length := starOrDigits_length _
    _ ≤ s.length := List.length_dropWhile_le ..

/-- The loop of `count_verbs`, with `n` arguments counted. -/
def countLoop (n : Nat) : Bytes → Nat × Bytes
  | [] => (n, [])
  | 37 :: 37 :: s => countLoop n s
  | 37 :: s =>
    let n := n + (beforeVerb s).1
    match _h : (beforeVerb s).2 with
    | [] => (n, endText)
    | verb :: rest => if !hasByte verbBytes verb then (n, utf8Put verb.toNat) else countLoop (n + 1) rest
  | _ :: s => countLoop n s
termination_by s => s.length
decreasing_by
  · exact Nat.lt_succ_of_lt (Nat.lt_succ_self _)
  · have hle := beforeVerb_length s
    rw [_h, List.length_cons] at hle
    exact Nat.lt_succ_of_lt hle
  · exact Nat.lt_succ_self _

/-- `count_verbs`. -/
def countVerbs (f : Bytes) : Nat × Bytes := countLoop 0 f

end Voila.Chk.Verbs
