import Mathlib

/-!
# Voila.Lib.Pieces

Where the pieces of a separated text sit in it. `List.splitOn sep s` cuts `s` at
every `sep`; what a scanner of the whole text needs to know about one piece is
only its *context*: what stands right before it and right after it.

`Delimited ok s t` says that `t` occurs in `s` between two characters satisfying
`ok`, or the ends of `s`. It composes (`Delimited.trans`), so a text taken apart
in several steps (brackets off, split at commas, a suffix dropped) is handled one
step at a time.
-/

namespace Voila.Lib

variable {α : Type*}

/-- `t` occurs in `s` with, on each side, the end of `s` or an element satisfying `ok`. -/
def Delimited (ok : α → Prop) (s t : List α) : Prop :=
  ∃ pre post, s = pre ++ t ++ post ∧ (∀ c ∈ pre.getLast?, ok c) ∧ (∀ c ∈ post.head?, ok c)

theorem Delimited.refl (ok : α → Prop) (s : List α) : Delimited ok s s :=
  ⟨[], [], by simp, by simp, by simp⟩

variable {s t : List α} {a : α} {ok : α → Prop}

theorem Delimited.mono {ok ok' : α → Prop} (h : Delimited ok s t)
    (hok : ∀ c, ok c → ok' c) : Delimited ok' s t := by
  obtain ⟨pre, post, hcut, hpre, hpost⟩ := h
  exact ⟨pre, post, hcut, fun c hc => hok c (hpre c hc), fun c hc => hok c (hpost c hc)⟩

theorem Delimited.trans {ok : α → Prop} {s t u : List α} (hst : Delimited ok s t)
    (htu : Delimited ok t u) : Delimited ok s u := by
  obtain ⟨p₁, q₁, rfl, hp₁, hq₁⟩ := hst
  obtain ⟨p₂, q₂, rfl, hp₂, hq₂⟩ := htu
  refine ⟨p₁ ++ p₂, q₂ ++ q₁, by simp, ?_, ?_⟩
  · intro c hc
    rcases List.eq_nil_or_concat p₂ with rfl | ⟨p, a, rfl⟩
    · exact hp₁ c (by simpa using hc)
    · exact hp₂ c (by simpa using hc)
  · intro c hc
    cases q₂ with
    | nil => exact hq₁ c (by simpa using hc)
    | cons a q => exact hq₂ c (by simpa using hc)

/-- Dropping a first element that satisfies `ok`. -/
theorem Delimited.tail (ha : ok a) : Delimited ok (a :: s) s :=
  ⟨[a], [], by simp, by simpa using ha, by simp⟩

/-- Dropping what follows, when it starts with an element that satisfies `ok`. -/
theorem Delimited.left (ha : ok a) : Delimited ok (s ++ a :: t) s :=
  ⟨[], a :: t, by simp, by simp, by simpa using ha⟩

/-- Dropping what comes before, when it ends with an element that satisfies `ok`. -/
theorem Delimited.right (ha : ok a) : Delimited ok (s ++ a :: t) t :=
  ⟨s ++ [a], [], by simp, by simpa using ha, by simp⟩

theorem Delimited.reverse (h : Delimited ok s t) : Delimited ok s.reverse t.reverse := by
  obtain ⟨pre, post, rfl, hpre, hpost⟩ := h
  refine ⟨post.reverse, pre.reverse, by simp, ?_, ?_⟩
  · simpa using hpost
  · simpa using hpre

private theorem delimited_intercalate {ok : α → Prop} {sep : α} (hsep : ok sep) :
    ∀ {ps : List (List α)} {p : List α}, p ∈ ps → Delimited ok ([sep].intercalate ps) p
  | [q], p, h => by
    rw [List.mem_singleton.mp h]
    simpa using Delimited.refl ok q
  | q :: r :: ps, p, h => by
    have hcut : [sep].intercalate (q :: r :: ps) = q ++ sep :: [sep].intercalate (r :: ps) := by
      simp [List.intercalate]
    rw [hcut]
    rcases List.mem_cons.mp h with rfl | h
    · exact Delimited.left hsep
    · exact (Delimited.right hsep).trans (delimited_intercalate hsep h)

/-- Every piece of `s` cut at `sep` is delimited by `sep` or the ends of `s`. -/
theorem delimited_splitOn [DecidableEq α] {ok : α → Prop} {sep : α} (hsep : ok sep) {s p : List α}
    (h : p ∈ s.splitOn sep) : Delimited ok s p := by
  have hd := delimited_intercalate hsep h
  rwa [List.intercalate_splitOn] at hd

end Voila.Lib
