import Mathlib

/-!
# Voila.Lib.Frames

Records of a key and a content, written one behind the other with a separator closing each part. Keys without
the separator are found again one by one (`frames_head`), and so are contents without it (`frames_injective`).
A content with the separator in it may hold further records, so that a record takes in the one behind it
(`frames_merge`), and a single record is another list's text just if its content holds a key between two
separators (`frames_single`).
-/

open List

namespace Voila.Lib

variable {α : Type*} {sep : α}

/-- The text of records. -/
def frames (sep : α) (rs : List (List α × List α)) : List α :=
  rs.flatMap fun r => r.1 ++ sep :: (r.2 ++ [sep])

theorem frames_cons (key content : List α) (rs : List (List α × List α)) :
    frames sep ((key, content) :: rs) = key ++ sep :: (content ++ sep :: frames sep rs) := by
  simp [frames]

theorem frames_eq_nil_iff (rs : List (List α × List α)) : frames sep rs = [] ↔ rs = [] := by
  cases rs with
  | nil => exact ⟨fun _ => rfl, fun _ => rfl⟩
  | cons r rs =>
    rw [frames_cons]
    exact ⟨fun h => absurd h (by simp), fun h => (nomatch h)⟩

theorem frames_merge (key content key' content' : List α) (rs : List (List α × List α)) :
    frames sep ((key, content ++ sep :: (key' ++ sep :: content')) :: rs) =
      frames sep ((key, content) :: (key', content') :: rs) := by
  simp [frames_cons]

/-- Where a text is first cut. -/
theorem cut_unique {p s p' s' : List α} (hp : sep ∉ p) (hp' : sep ∉ p') (h : p ++ sep :: s = p' ++ sep :: s') :
    p = p' ∧ s = s' := by
  induction p generalizing p' with
  | nil =>
    cases p' with
    | nil => exact ⟨rfl, (List.cons.inj h).2⟩
    | cons c p' => exact absurd (mem_cons.mpr (Or.inl (List.cons.inj h).1)) hp'
  | cons c p ih =>
    cases p' with
    | nil => exact absurd (mem_cons.mpr (Or.inl (List.cons.inj h).1.symm)) hp
    | cons c' p' =>
      obtain ⟨same, rest⟩ := List.cons.inj h
      rw [mem_cons, not_or] at hp hp'
      obtain ⟨keys, tails⟩ := ih hp.2 hp'.2 rest
      exact ⟨by rw [same, keys], tails⟩

/-- The first keys of two lists with one text. -/
theorem frames_head {key content : List α} {rs ss : List (List α × List α)} (hkey : sep ∉ key)
    (hss : ∀ s ∈ ss, sep ∉ s.1) (h : frames sep ((key, content) :: rs) = frames sep ss) :
    ∃ content' ss', ss = (key, content') :: ss' ∧
      content ++ sep :: frames sep rs = content' ++ sep :: frames sep ss' := by
  cases ss with
  | nil => exact absurd ((frames_eq_nil_iff _).mp h) (cons_ne_nil _ _)
  | cons s ss =>
    obtain ⟨key', content'⟩ := s
    rw [frames_cons, frames_cons] at h
    obtain ⟨rfl, rest⟩ := cut_unique hkey (hss _ mem_cons_self) h
    exact ⟨content', ss, rfl, rest⟩

theorem frames_injective {rs ss : List (List α × List α)} (hrs : ∀ r ∈ rs, sep ∉ r.1 ∧ sep ∉ r.2)
    (hss : ∀ s ∈ ss, sep ∉ s.1 ∧ sep ∉ s.2) (h : frames sep rs = frames sep ss) : rs = ss := by
  induction rs generalizing ss with
  | nil => exact ((frames_eq_nil_iff ss).mp h.symm).symm
  | cons r rs ih =>
    obtain ⟨content, ss, rfl, rest⟩ :=
      frames_head (hrs r mem_cons_self).1 (fun s hs => (hss s hs).1) h
    obtain ⟨key, own⟩ := r
    have same : own = content ∧ frames sep rs = frames sep ss :=
      cut_unique (hrs _ mem_cons_self).2 (hss _ mem_cons_self).2 rest
    rw [same.1, ih (fun r hr => hrs r (mem_cons_of_mem _ hr))
      (fun s hs => hss s (mem_cons_of_mem _ hs)) same.2]

/-- What a list with the text of a single record is. -/
theorem frames_single {key content : List α} {ss : List (List α × List α)} (hkey : sep ∉ key)
    (hss : ∀ s ∈ ss, sep ∉ s.1) (h : frames sep ss = frames sep [(key, content)]) :
    ss = [(key, content)] ∨ ∃ content' key' rest ss', ss = (key, content') :: key' :: ss' ∧
      content = content' ++ sep :: (key'.1 ++ sep :: rest) := by
  obtain ⟨content', ss, rfl, rest⟩ := frames_head hkey hss h.symm
  have closed : content ++ [sep] = content' ++ sep :: frames sep ss := rest
  cases ss with
  | nil =>
    refine Or.inl ?_
    have same : content ++ [sep] = content' ++ [sep] := closed
    rw [append_cancel_right same]
  | cons s ss =>
    refine Or.inr ⟨content', s, (s.2 ++ sep :: frames sep ss).dropLast, ss, rfl, ?_⟩
    obtain ⟨key', content''⟩ := s
    rw [frames_cons] at closed
    have cut := congrArg List.dropLast closed
    rw [dropLast_concat] at cut
    rw [cut]
    simp [dropLast_append_of_ne_nil, dropLast_cons_of_ne_nil]

end Voila.Lib
