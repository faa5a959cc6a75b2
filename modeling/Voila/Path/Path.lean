import Voila.Rt.Json

/-!
# Voila.Path.Path

`path.voi`: paths as text, cut at every `/` and glued together again, and what `clean` leaves of one.

A path whose elements are all `Plain` (none empty, `.` or `..`) is what `clean` makes of itself, and
joined to a directory it stays below it (`join_plain`).
-/

open List

namespace Voila.Path

open Voila.Rt (Bytes)
open Voila.Rt.Json (ch)

/-- `SEP`. -/
def sep : UInt8 := ch '/'

def dot : Bytes := [ch '.']

def dotdot : Bytes := [ch '.', ch '.']

/-- `str.split(s, SEP)`. -/
def split (s : Bytes) : List Bytes := s.splitOn sep

/-- `str.join(parts, SEP)`. -/
def glue (parts : List Bytes) : Bytes := [sep].intercalate parts

/-- `is_abs`. -/
def isAbs (p : Bytes) : Bool := p.head? == some sep

/-- The loop of `clean`. -/
def cleanLoop (rooted : Bool) (out : List Bytes) : List Bytes → List Bytes
  | [] => out
  | part :: parts =>
    if part = [] ∨ part = dot then cleanLoop rooted out parts
    else if part = dotdot then
      if out ≠ [] ∧ out.getLast? ≠ some dotdot then cleanLoop rooted out.dropLast parts
      else if rooted then cleanLoop rooted out parts
      else cleanLoop rooted (out ++ [part]) parts
    else cleanLoop rooted (out ++ [part]) parts

/-- The elements that are left of a path. -/
abbrev kept (p : Bytes) : List Bytes := cleanLoop (isAbs p) [] (split p)

/-- `clean`. -/
def clean (p : Bytes) : Bytes :=
  let joined := glue (kept p)
  if isAbs p then sep :: joined
  else if joined = [] then dot
  else joined

/-- The loop of `join`. -/
def joinLoop (out : Bytes) : List Bytes → Bytes
  | [] => out
  | p :: parts =>
    if p = [] then joinLoop out parts
    else if out = [] then joinLoop p parts
    else joinLoop (out ++ sep :: p) parts

/-- `join`. -/
def join (parts : List Bytes) : Bytes :=
  let out := joinLoop [] parts
  if out = [] then [] else clean out

/-- `clean_trailing`. -/
def cleanTrailing : Bytes → Bytes
  | [] => []
  | a :: p => a :: (p.reverse.dropWhile (· == sep)).reverse

/-- `dir`. -/
def dir (p : Bytes) : Bytes :=
  match (cleanTrailing p).reverse.dropWhile (· != sep) with
  | [] => dot
  | _ :: before => if before = [] then [sep] else before.reverse

/-! ### Cut and glued -/

theorem glue_split (s : Bytes) : glue (split s) = s := intercalate_splitOn sep

variable {ps : List Bytes} {p : Bytes} {rooted : Bool}

theorem split_glue (hps : ∀ p ∈ ps, sep ∉ p) (h : ps ≠ []) : split (glue ps) = ps :=
  splitOn_intercalate sep hps h

theorem split_slash (a b : Bytes) : split (a ++ sep :: b) = split a ++ split b :=
  splitOn_append_cons_self a b

theorem not_mem_split {s p : Bytes} (h : p ∈ split s) : sep ∉ p := by
  induction s generalizing p with
  | nil =>
    obtain rfl : p = [] := by simpa [split] using h
    exact not_mem_nil
  | cons x s ih =>
    rw [split, splitOn_cons_eq_if_modifyHead] at h
    split at h
    · rcases mem_cons.mp h with rfl | h
      · exact not_mem_nil
      · exact ih h
    · next hx =>
        have hx : sep ≠ x := fun h => hx (h ▸ BEq.refl sep)
        obtain ⟨q, qs, hq⟩ := exists_cons_of_ne_nil (splitOn_ne_nil sep s)
        have hmem : ∀ p ∈ q :: qs, sep ∉ p := fun p hp => ih (by rwa [split, hq])
        rw [hq, modifyHead_cons] at h
        rcases mem_cons.mp h with rfl | h
        · exact not_mem_cons_of_ne_of_not_mem hx (hmem q mem_cons_self)
        · exact hmem p (mem_cons_of_mem _ h)

theorem split_ne_nil (s : Bytes) : split s ≠ [] := splitOn_ne_nil sep s

theorem glue_cons (h : ps ≠ []) : glue (p :: ps) = p ++ sep :: glue ps := by
  rw [glue, intercalate_cons_of_ne_nil h]
  simp only [append_assoc, singleton_append, glue]

theorem glue_append {ps qs : List Bytes} (hp : ps ≠ []) (hq : qs ≠ []) :
    glue (ps ++ qs) = glue ps ++ sep :: glue qs := by
  induction ps with
  | nil => exact absurd rfl hp
  | cons p ps ih =>
    cases ps with
    | nil => simpa [glue] using glue_cons (p := p) hq
    | cons p' ps =>
      rw [cons_append, glue_cons (by simp), glue_cons (cons_ne_nil _ _),
        ih (cons_ne_nil _ _), append_assoc, cons_append]

theorem glue_eq_nil (h : ∀ p ∈ ps, p ≠ []) : glue ps = [] ↔ ps = [] := by
  refine ⟨fun hglue => ?_, fun hps => hps ▸ rfl⟩
  cases ps with
  | nil => rfl
  | cons p ps =>
    have hp : p ≠ [] := h p mem_cons_self
    cases ps with
    | nil => exact absurd hglue (by simpa [glue] using hp)
    | cons p' ps =>
      rw [glue_cons (cons_ne_nil _ _)] at hglue
      exact absurd (append_eq_nil_iff.mp hglue).1 hp

/-- A text without a slash goes on with the last element. -/
theorem split_append {t : Bytes} (ht : sep ∉ t) (s : Bytes) :
    ∃ init last, split s = init ++ [last] ∧ split (s ++ t) = init ++ [last ++ t] := by
  obtain ⟨init, last, hsplit⟩ := (eq_nil_or_concat (split s)).resolve_left (split_ne_nil s)
  rw [concat_eq_append] at hsplit
  refine ⟨init, last, hsplit, ?_⟩
  have hglue : s ++ t = glue (init ++ [last ++ t]) := by
    conv_lhs => rw [← glue_split s, hsplit]
    by_cases hinit : init = []
    · simp [hinit, glue]
    · rw [glue_append hinit (by simp), glue_append hinit (by simp), append_assoc, cons_append]
      simp [glue]
  have hmem : ∀ p ∈ init ++ [last], sep ∉ p := fun p hp => not_mem_split (hsplit ▸ hp)
  rw [hglue]
  refine split_glue (fun p hp => ?_) (by simp)
  rcases mem_append.mp hp with hp | hp
  · exact hmem p (mem_append_left _ hp)
  · rw [mem_singleton.mp hp]
    exact fun h => (mem_append.mp h).elim (hmem last (by simp)) ht

/-! ### Plain elements -/

/-- An element that `clean` leaves alone. -/
def Plain (p : Bytes) : Prop := p ≠ [] ∧ p ≠ dot ∧ p ≠ dotdot

instance (p : Bytes) : Decidable (Plain p) := inferInstanceAs (Decidable (_ ∧ _))

theorem cleanLoop_append (rooted : Bool) (ps qs out : List Bytes) :
    cleanLoop rooted out (ps ++ qs) = cleanLoop rooted (cleanLoop rooted out ps) qs := by
  fun_induction cleanLoop rooted out ps with
  | case1 out => rfl
  | case2 out part parts hskip ih => rw [cons_append, cleanLoop, if_pos hskip, ih]
  | case3 out parts hup hskip ih =>
    rw [cons_append, cleanLoop, if_neg hskip, if_pos rfl, if_pos hup, ih]
  | case4 out parts hup hroot hskip ih =>
    rw [cons_append, cleanLoop, if_neg hskip, if_pos rfl, if_neg hup, if_pos hroot, ih]
  | case5 out parts hup hroot hskip ih =>
    rw [cons_append, cleanLoop, if_neg hskip, if_pos rfl, if_neg hup, if_neg hroot, ih]
  | case6 out part parts hskip hdd ih =>
    rw [cons_append, cleanLoop, if_neg hskip, if_neg hdd, ih]

theorem cleanLoop_plain (h : ∀ p ∈ ps, Plain p) (out : List Bytes) :
    cleanLoop rooted out ps = out ++ ps := by
  induction ps generalizing out with
  | nil => rw [cleanLoop, append_nil]
  | cons p ps ih =>
    obtain ⟨hne, hdot, hdd⟩ := h p mem_cons_self
    rw [cleanLoop, if_neg (not_or.mpr ⟨hne, hdot⟩), if_neg hdd,
      ih (fun q hq => h q (mem_cons_of_mem _ hq)), append_assoc, singleton_append]

/-- What `clean` keeps is an element that is neither empty nor a dot. -/
theorem cleanLoop_kept {parts out : List Bytes} {q : Bytes}
    (hq : q ∈ cleanLoop rooted out parts) : q ∈ out ∨ (q ∈ parts ∧ q ≠ [] ∧ q ≠ dot) := by
  fun_induction cleanLoop rooted out parts with
  | case1 out => exact .inl hq
  | case2 out part parts hskip ih =>
    exact (ih hq).imp_right fun h => ⟨mem_cons_of_mem _ h.1, h.2⟩
  | case3 out parts hup hskip ih =>
    exact (ih hq).imp mem_of_mem_dropLast fun h => ⟨mem_cons_of_mem _ h.1, h.2⟩
  | case4 out parts hup hroot hskip ih =>
    exact (ih hq).imp_right fun h => ⟨mem_cons_of_mem _ h.1, h.2⟩
  | case5 out parts hup hroot hskip ih =>
    rcases ih hq with h | h
    · rcases mem_append.mp h with h | h
      · exact .inl h
      · exact .inr ⟨mem_singleton.mp h ▸ mem_cons_self, mem_singleton.mp h ▸ not_or.mp hskip⟩
    · exact .inr ⟨mem_cons_of_mem _ h.1, h.2⟩
  | case6 out part parts hskip hdd ih =>
    rcases ih hq with h | h
    · rcases mem_append.mp h with h | h
      · exact .inl h
      · exact .inr ⟨mem_singleton.mp h ▸ mem_cons_self, mem_singleton.mp h ▸ not_or.mp hskip⟩
    · exact .inr ⟨mem_cons_of_mem _ h.1, h.2⟩

theorem kept_spec {p q : Bytes} (hq : q ∈ kept p) : q ≠ [] ∧ q ≠ dot ∧ sep ∉ q := by
  rcases cleanLoop_kept hq with h | ⟨hmem, hne, hdot⟩
  · exact absurd h not_mem_nil
  · exact ⟨hne, hdot, not_mem_split hmem⟩

theorem split_kept (h : kept p ≠ []) : split (glue (kept p)) = kept p :=
  split_glue (fun _ hq => (kept_spec hq).2.2) h

theorem clean_eq (p : Bytes) :
    clean p = if isAbs p then sep :: glue (kept p) else if kept p = [] then dot else glue (kept p) := by
  unfold clean
  simp only [glue_eq_nil fun _ hq => (kept_spec hq).1]

theorem forall_mem_snoc {α : Type} {P : α → Prop} {xs : List α} {x : α} (hxs : ∀ y ∈ xs, P y) (hx : P x) :
    ∀ y ∈ xs ++ [x], P y := by
  intro y hy
  rcases mem_append.mp hy with hy | hy
  · exact hxs y hy
  · exact mem_singleton.mp hy ▸ hx

/-- What is kept is kept again. -/
theorem cleanLoop_stable {parts out : List Bytes} (hout : ∀ q ∈ out, ¬ (q = [] ∨ q = dot))
    (h : cleanLoop rooted [] out = out) :
    cleanLoop rooted [] (cleanLoop rooted out parts) = cleanLoop rooted out parts := by
  fun_induction cleanLoop rooted out parts with
  | case1 out => exact h
  | case2 out part parts hskip ih => exact ih hout h
  | case3 out parts hup hskip ih =>
    obtain ⟨init, last, rfl⟩ := (eq_nil_or_concat out).resolve_left hup.1
    have hlast : last ≠ dotdot := by simpa using hup.2
    rw [concat_eq_append] at hout h ih ⊢
    rw [cleanLoop_append, cleanLoop, if_neg (hout last (by simp)), if_neg hlast, cleanLoop] at h
    rw [dropLast_concat] at ih ⊢
    exact ih (fun q hq => hout q (mem_append_left _ hq)) (append_cancel_right h)
  | case4 out parts hup hroot hskip ih => exact ih hout h
  | case5 out parts hup hroot hskip ih =>
    refine ih (forall_mem_snoc hout hskip) ?_
    rw [cleanLoop_append, h, cleanLoop, if_neg hskip, if_pos rfl, if_neg hup, if_neg hroot, cleanLoop]
  | case6 out part parts hskip hdd ih =>
    refine ih (forall_mem_snoc hout hskip) ?_
    rw [cleanLoop_append, h, cleanLoop, if_neg hskip, if_neg hdd, cleanLoop]

theorem cleanLoop_glue_kept (p : Bytes) : cleanLoop (isAbs p) [] (split (glue (kept p))) = kept p := by
  by_cases h : kept p = []
  · rw [h]
    cases isAbs p <;> rfl
  · rw [split_kept h]
    exact cleanLoop_stable nofun rfl

theorem isAbs_glue (hps : ∀ q ∈ ps, q ≠ [] ∧ sep ∉ q) : isAbs (glue ps) = false := by
  cases ps with
  | nil => rfl
  | cons q qs =>
    obtain ⟨hne, hsep⟩ := hps q mem_cons_self
    obtain ⟨x, q, rfl⟩ := exists_cons_of_ne_nil hne
    have hx : x ≠ sep := fun hx => hsep (hx ▸ mem_cons_self)
    have hhead : (glue ((x :: q) :: qs)).head? = some x := by
      cases qs with
      | nil => rw [glue, intercalate_singleton, head?_cons]
      | cons q' qs => rw [glue_cons (cons_ne_nil _ _), cons_append, head?_cons]
    rw [isAbs, hhead]
    simpa using hx

theorem isAbs_glue_kept (p : Bytes) : isAbs (glue (kept p)) = false :=
  isAbs_glue fun _ hq => ⟨(kept_spec hq).1, (kept_spec hq).2.2⟩

/-- `clean` says where a path leads. -/
theorem isAbs_clean (p : Bytes) : isAbs (clean p) = isAbs p := by
  rw [clean_eq]
  cases h : isAbs p with
  | true => rfl
  | false =>
    rw [if_neg nofun]
    split
    · rfl
    · exact isAbs_glue_kept p

theorem kept_clean (p : Bytes) : kept (clean p) = kept p := by
  have hglue := cleanLoop_glue_kept p
  rw [kept, isAbs_clean, clean_eq]
  by_cases h : isAbs p = true
  · have hsplit : split (sep :: glue (kept p)) = [] :: split (glue (kept p)) := split_slash [] _
    rw [if_pos h, hsplit, cleanLoop, if_pos (.inl rfl), hglue]
  · rw [if_neg h]
    by_cases hkept : kept p = []
    · rw [if_pos hkept, hkept]
      cases isAbs p <;> rfl
    · rw [if_neg hkept, hglue]

/-- A path below a cleaned directory. -/
def below (d rel : Bytes) : Bytes :=
  if d = dot then rel else if d = [sep] then sep :: rel else d ++ sep :: rel

section

variable {rel : Bytes} (hrel : ∀ p ∈ split rel, Plain p)

include hrel

theorem ne_nil_of_plain : rel ≠ [] := by
  rintro rfl
  exact (hrel [] (by simp [split])).1 rfl

theorem isAbs_of_plain : isAbs rel = false := by
  cases rel with
  | nil => rfl
  | cons x rel =>
    simp only [isAbs, head?_cons, beq_eq_false_iff_ne, ne_eq, Option.some.injEq]
    rintro rfl
    have hsplit : split (sep :: rel) = [] :: split rel := split_slash [] rel
    exact (hrel [] (hsplit ▸ mem_cons_self)).1 rfl

theorem clean_plain : clean rel = rel := by
  have hkept : kept rel = split rel := cleanLoop_plain hrel []
  rw [clean_eq, isAbs_of_plain hrel, if_neg nofun, hkept, if_neg (split_ne_nil rel), glue_split]

theorem kept_below {d : Bytes} (hd : d ≠ []) : kept (d ++ sep :: rel) = kept d ++ split rel := by
  have habs : isAbs (d ++ sep :: rel) = isAbs d := by rw [isAbs, head?_append_of_ne_nil d hd, isAbs]
  rw [kept, habs, split_slash, cleanLoop_append, cleanLoop_plain hrel]

/-- Where a plain path joined to a directory leads. -/
theorem kept_join (d : Bytes) : kept (join [d, rel]) = kept d ++ split rel := by
  have hne := ne_nil_of_plain hrel
  by_cases hd : d = []
  · subst hd
    have hjoin : join [[], rel] = clean rel := by simp [join, joinLoop, hne]
    rw [hjoin, kept_clean]
    exact cleanLoop_plain hrel []
  · have hjoin : join [d, rel] = clean (d ++ sep :: rel) := by simp [join, joinLoop, hne, hd]
    rw [hjoin, kept_clean, kept_below hrel hd]

/-- Joined to a directory, a plain path lies below it. -/
theorem join_plain (d : Bytes) : join [d, rel] = below (clean d) rel := by
  have hne := ne_nil_of_plain hrel
  by_cases hd : d = []
  · subst hd
    have hjoin : join [[], rel] = clean rel := by simp [join, joinLoop, hne]
    rw [hjoin, clean_plain hrel]
    rfl
  · have hjoin : join [d, rel] = clean (d ++ sep :: rel) := by simp [join, joinLoop, hne, hd]
    have habs : isAbs (d ++ sep :: rel) = isAbs d := by rw [isAbs, head?_append_of_ne_nil d hd, isAbs]
    rw [hjoin, clean_eq, clean_eq, habs, kept_below hrel hd,
      if_neg (show kept d ++ split rel ≠ [] by simp [split_ne_nil])]
    by_cases hkept : kept d = []
    · rw [hkept, nil_append, glue_split]
      cases isAbs d <;> rfl
    · rw [glue_append hkept (split_ne_nil rel), glue_split, if_neg hkept]
      cases isAbs d with
      | true =>
        have hglue : glue (kept d) ≠ [] := fun h => hkept ((glue_eq_nil fun _ hq => (kept_spec hq).1).mp h)
        have hdot : sep :: glue (kept d) ≠ dot := fun h => absurd (List.cons.inj h).1 (by decide)
        have hsep : sep :: glue (kept d) ≠ [sep] := by simpa using hglue
        rw [if_pos rfl, if_pos rfl, below, if_neg hdot, if_neg hsep]
        rfl
      | false =>
        have hdot : glue (kept d) ≠ dot := by
          intro h
          have hmem : dot ∈ kept d := by rw [← split_kept hkept, h]; decide
          exact (kept_spec hmem).2.1 rfl
        have hsep : glue (kept d) ≠ [sep] := by
          intro h
          have hmem : [] ∈ kept d := by rw [← split_kept hkept, h]; decide
          exact (kept_spec hmem).1 rfl
        rw [if_neg nofun, if_neg nofun, below, if_neg hdot, if_neg hsep]

end

end Voila.Path
