import Mathlib

/-!
# Voila.Lib.Rows

Matrices of patterns: what a row accepts, and the vectors that every row misses.

A usefulness check takes a matrix apart column by column. Each of its steps is a
rewriting of the rows under which the missed vectors correspond: alternatives are
listed (`misses_flatMap`), the head of the vector is taken apart together with the
patterns over it (`Misses.to_takeApart`, `Misses.of_takeApart`).
-/

open List

namespace Voila.Lib

variable {P V : Type*} (m : P → V → Bool)

/-- The row's patterns match the values, one by one. -/
def Accepts (row : List P) (vs : List V) : Prop := List.Forall₂ (fun p v => m p v = true) row vs

/-- No row accepts the vector. -/
def Misses (rows : List (List P)) (vs : List V) : Prop := ∀ r ∈ rows, ¬ Accepts m r vs

variable {m}

@[simp] theorem accepts_nil : Accepts m [] [] := List.Forall₂.nil

@[simp] theorem accepts_cons {p : P} {row : List P} {v : V} {vs : List V} :
    Accepts m (p :: row) (v :: vs) ↔ m p v = true ∧ Accepts m row vs := forall₂_cons

@[simp] theorem not_accepts_nil_cons {v : V} {vs : List V} : ¬ Accepts m [] (v :: vs) := nofun

theorem accepts_append {as bs : List P} {us vs : List V} (hlen : as.length = us.length) :
    Accepts m (as ++ bs) (us ++ vs) ↔ Accepts m as us ∧ Accepts m bs vs := by
  induction as generalizing us with
  | nil =>
    obtain rfl := length_eq_zero_iff.mp hlen.symm
    simp
  | cons a as ih =>
    cases us with
    | nil => simp at hlen
    | cons u us => simp [ih (by simpa using hlen), and_assoc]

/-- Each row is rewritten to rows that accept the vector exactly when it does. -/
theorem misses_flatMap {f : List P → List (List P)} {rows : List (List P)} {vs : List V}
    (h : ∀ r ∈ rows, Accepts m r vs ↔ ∃ r' ∈ f r, Accepts m r' vs) :
    Misses m (rows.flatMap f) vs ↔ Misses m rows vs := by
  constructor
  · intro hmiss r hr hacc
    obtain ⟨r', hr', hacc'⟩ := (h r hr).mp hacc
    exact hmiss r' (mem_flatMap.mpr ⟨r, hr, hr'⟩) hacc'
  · intro hmiss r' hr' hacc'
    obtain ⟨r, hr, hf⟩ := mem_flatMap.mp hr'
    exact hmiss r hr ((h r hr).mpr ⟨r', hf, hacc'⟩)

/-! ### Taking the head of the vector apart

A pattern over `v` is dropped, or replaced by patterns over the parts `us` of `v`. With no
parts at all this is also how a column is left out. -/

section

variable {sub : P → Option (List P)} {rows : List (List P)} {v : V} {us vs : List V}

/-- The rows with their first pattern replaced. -/
def takeApart (sub : P → Option (List P)) (rows : List (List P)) : List (List P) :=
  rows.filterMap fun r => match r with
    | [] => none
    | p :: rest => (sub p).map (· ++ rest)

theorem mem_takeApart {r' : List P} :
    r' ∈ takeApart sub rows ↔ ∃ p rest qs, p :: rest ∈ rows ∧ qs ∈ sub p ∧ r' = qs ++ rest := by
  constructor
  · intro hr'
    obtain ⟨r, hr, hg⟩ := mem_filterMap.mp hr'
    cases r with
    | nil => simp at hg
    | cons p rest =>
      obtain ⟨qs, hqs, rfl⟩ := Option.map_eq_some_iff.mp hg
      exact ⟨p, rest, qs, hr, hqs, rfl⟩
  · rintro ⟨p, rest, qs, hr, hqs, rfl⟩
    exact mem_filterMap.mpr ⟨_, hr, Option.mem_map_of_mem _ hqs⟩

/-- No replacement accepts more than the pattern did. -/
theorem Misses.to_takeApart
    (hlen : ∀ p rest, p :: rest ∈ rows → ∀ qs ∈ sub p, qs.length = us.length)
    (hsub : ∀ p rest, p :: rest ∈ rows → ∀ qs ∈ sub p, Accepts m qs us → m p v = true)
    (h : Misses m rows (v :: vs)) : Misses m (takeApart sub rows) (us ++ vs) := by
  intro r' hr' hacc
  obtain ⟨p, rest, qs, hr, hqs, rfl⟩ := mem_takeApart.mp hr'
  obtain ⟨hqsacc, hrest⟩ := (accepts_append (hlen p rest hr qs hqs)).mp hacc
  exact h _ hr (accepts_cons.mpr ⟨hsub p rest hr qs hqs hqsacc, hrest⟩)

/-- The replacements accept all that the patterns did. -/
theorem Misses.of_takeApart
    (hlen : ∀ p rest, p :: rest ∈ rows → ∀ qs ∈ sub p, qs.length = us.length)
    (hsub : ∀ p rest, p :: rest ∈ rows → m p v = true → ∃ qs ∈ sub p, Accepts m qs us)
    (h : Misses m (takeApart sub rows) (us ++ vs)) : Misses m rows (v :: vs) := by
  intro r hr hacc
  cases r with
  | nil => exact not_accepts_nil_cons hacc
  | cons p rest =>
    obtain ⟨hp, hrest⟩ := accepts_cons.mp hacc
    obtain ⟨qs, hqs, hqsacc⟩ := hsub p rest hr hp
    exact h _ (mem_takeApart.mpr ⟨p, rest, qs, hr, hqs, rfl⟩)
      ((accepts_append (hlen p rest hr qs hqs)).mpr ⟨hqsacc, hrest⟩)

end

end Voila.Lib
