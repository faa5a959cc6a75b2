import Voila.Str.Str

/-!
# Voila.Path.Glob

`matches` and `match_one` (`path.voi`): a name against a shell pattern, one character at a time.

Patterns and names are their runes from a place on, so that an index of the source is here what is left from
there.
-/

open List

namespace Voila.Path.Glob

open Voila.Rt (Bytes)

def slash : Nat := '/'.toNat

def asterisk : Nat := '*'.toNat

def question : Nat := '?'.toNat

def backslash : Nat := '\\'.toNat

def opening : Nat := '['.toNat

def closing : Nat := ']'.toNat

def hyphen : Nat := '-'.toNat

/-- `lo`, at the member `e` of a class with `q` after it, and what comes next. -/
def classLo (e : Nat) (q : List Nat) : Nat × List Nat :=
  if e = backslash ∧ q ≠ [] then (q.headD 0, q.tail) else (e, q)

/-- `hi`, after `lo`, and what comes next. -/
def classHi (lo : Nat) : List Nat → Nat × List Nat
  | d :: h :: q => if d = hyphen ∧ h ≠ closing then (h, q) else (lo, d :: h :: q)
  | q => (lo, q)

theorem classLo_length (e : Nat) (q : List Nat) : (classLo e q).2.length ≤ q.length := by
  unfold classLo
  split
  · simp
  · exact le_rfl

theorem classHi_length (lo : Nat) (q : List Nat) : (classHi lo q).2.length ≤ q.length := by
  unfold classHi
  split
  · split
    · simp
      omega
    · exact le_rfl
  · exact le_rfl

/-- The loop over a class: whether `c` is in it, and what is left from its end on. -/
def classLoop (c : Nat) (first hit : Bool) : List Nat → Bool × List Nat
  | [] => (hit, [])
  | e :: q =>
    if first ∨ e ≠ closing then
      let lo := classLo e q
      let hi := classHi lo.1 lo.2
      classLoop c false (hit || (lo.1 ≤ c && c ≤ hi.1)) hi.2
    else (hit, e :: q)
  termination_by q => q.length
  decreasing_by exact Nat.lt_succ_of_le ((classHi_length _ _).trans (classLo_length e q))

/-- `match_one`, at the head of the pattern. -/
def matchOne (p : List Nat) (c : Nat) : Nat :=
  match p with
  | [] => 0
  | e :: q =>
    if e = question then if c = slash then 0 else 1
    else if e = backslash ∧ q ≠ [] then if q.head? = some c then 2 else 0
    else if e ≠ opening then if e = c then 1 else 0
    else
      let neg : Bool := q.head? = some '!'.toNat ∨ q.head? = some '^'.toNat
      let (hit, rest) := classLoop c true false (if neg then q.tail else q)
      if rest = [] then 0
      else if c = slash then 0
      else if hit ≠ neg then p.length - rest.length + 1
      else 0

/-- The walk of `matches`, from `p` and `s` on. `star` is the place after the last `*` with the `mark`; `none` is
out of fuel. -/
def walk : Nat → List Nat → List Nat → Option (List Nat × List Nat) → Option Bool
  | 0, _, _, _ => none
  | _ + 1, p, [], _ => some (p.dropWhile (· = asterisk) = [])
  | n + 1, p, c :: s, star =>
    if p.head? = some asterisk then walk n p.tail (c :: s) (some (p.tail, c :: s))
    else if matchOne p c > 0 then walk n (p.drop (matchOne p c)) s star
    else
      match star with
      | some (p, m :: mark) => if m ≠ slash then walk n p mark (some (p, mark)) else some false
      | _ => some false

/-- `matches`, with so many turns to go. -/
def matchesIn (turns : Nat) (pattern name : Bytes) : Option Bool :=
  walk turns (Str.runes pattern) (Str.runes name) none

end Voila.Path.Glob

/-!
`matches` ends, and finds a name that can be cut into pieces as the pattern says (`matches_iff`).

The walk keeps one `*` to come back to. What an earlier one could still take is not lost (`Span.later`): the
elements between the two match again as many characters later, and no element that matches a `/` matches anything
else, so that the later `*` can take what is in between.
-/

namespace Voila.Path.Glob

open Voila.Rt (Bytes)

/-! ### Elements -/

/-- How many runes the element at the head of a pattern spans. A class without an end spans all the rest. -/
def span : List Nat → Nat
  | [] => 0
  | e :: q =>
    if e = question ∨ e = asterisk then 1
    else if e = backslash ∧ q ≠ [] then 2
    else if e ≠ opening then 1
    else
      let neg : Bool := q.head? = some '!'.toNat ∨ q.head? = some '^'.toNat
      let rest := (classLoop 0 true false (if neg then q.tail else q)).2
      if rest = [] then q.length + 1 else q.length + 1 - rest.length + 1

/-- The end of a class does not depend on what is looked for in it. -/
theorem classLoop_end (c d : Nat) (first hit hit' : Bool) (q : List Nat) :
    (classLoop c first hit q).2 = (classLoop d first hit' q).2 := by
  fun_induction classLoop c first hit q generalizing hit' with
  | case1 first hit => rw [classLoop]
  | case2 first hit e q more lo hi ih => rw [classLoop, if_pos more]; exact ih _
  | case3 first hit e q more => rw [classLoop, if_neg more]

variable {p : List Nat} {c : Nat}

theorem span_pos (h : p ≠ []) : 0 < span p := by
  cases p with
  | nil => exact absurd rfl h
  | cons e q =>
    rw [span]
    dsimp only
    split_ifs <;> omega

/-- What a class looks for: all but its members, or its members. -/
def negated (q : List Nat) : Bool := q.head? = some '!'.toNat ∨ q.head? = some '^'.toNat

/-- The members of a class, and what comes from its end on. -/
def members (c : Nat) (q : List Nat) : Bool × List Nat :=
  classLoop c true false (if negated q then q.tail else q)

/-- How an element matches a character. -/
inductive Matched (c : Nat) : List Nat → Nat → Prop
  | any {q : List Nat} : c ≠ slash → Matched c (question :: q) 1
  | escaped {q : List Nat} : Matched c (backslash :: c :: q) 2
  | plain {q : List Nat} : c ≠ question → c ≠ opening → ¬ (c = backslash ∧ q ≠ []) → Matched c (c :: q) 1
  | cls {q : List Nat} : c ≠ slash → (members c q).2 ≠ [] → (members c q).1 ≠ negated q →
      Matched c (opening :: q) (q.length + 1 - (members c q).2.length + 1)

theorem matchOne_cases (h : 0 < matchOne p c) : Matched c p (matchOne p c) := by
  cases p with
  | nil => exact absurd h (lt_irrefl 0)
  | cons e q =>
    unfold matchOne at h ⊢
    dsimp only at h ⊢
    by_cases any : e = question
    · rw [if_pos any] at h ⊢
      by_cases hc : c = slash
      · rw [if_pos hc] at h
        exact absurd h (lt_irrefl 0)
      · rw [if_neg hc, any]
        exact .any hc
    rw [if_neg any] at h ⊢
    by_cases escaped : e = backslash ∧ q ≠ []
    · rw [if_pos escaped] at h ⊢
      by_cases hc : q.head? = some c
      · obtain ⟨q, rfl⟩ : ∃ r, q = c :: r := ⟨q.tail, (List.cons_head?_tail hc).symm⟩
        rw [if_pos hc, escaped.1]
        exact .escaped
      · rw [if_neg hc] at h
        exact absurd h (lt_irrefl 0)
    rw [if_neg escaped] at h ⊢
    by_cases plain : e ≠ opening
    · rw [if_pos plain] at h ⊢
      by_cases hc : e = c
      · subst hc
        rw [if_pos rfl]
        exact .plain any plain escaped
      · rw [if_neg hc] at h
        exact absurd h (lt_irrefl 0)
    rw [if_neg plain] at h ⊢
    change 0 < (if (members c q).2 = [] then 0 else if c = slash then 0
      else if (members c q).1 ≠ negated q then _ else 0) at h
    change Matched c (e :: q) (if (members c q).2 = [] then 0 else if c = slash then 0
      else if (members c q).1 ≠ negated q then _ else 0)
    by_cases ended : (members c q).2 = []
    · rw [if_pos ended] at h
      exact absurd h (lt_irrefl 0)
    rw [if_neg ended] at h ⊢
    by_cases hc : c = slash
    · rw [if_pos hc] at h
      exact absurd h (lt_irrefl 0)
    rw [if_neg hc] at h ⊢
    by_cases hit : (members c q).1 ≠ negated q
    · rw [if_pos hit, not_not.mp plain]
      exact .cls hc ended hit
    · rw [if_neg hit] at h
      exact absurd h (lt_irrefl 0)

/-- An element that matches a character is matched by all of its runes. -/
theorem matchOne_span (h : 0 < matchOne p c) : matchOne p c = span p := by
  have matched := matchOne_cases h
  generalize matchOne p c = n at matched
  cases matched with
  | any _ => rfl
  | escaped => rfl
  | plain any plain escaped =>
    rw [span]
    dsimp only
    split_ifs <;> rfl
  | @cls q _ ended _ =>
    have same : (members 0 q).2 = (members c q).2 := classLoop_end 0 c true false false _
    change _ = if (members 0 q).2 = [] then q.length + 1 else q.length + 1 - (members 0 q).2.length + 1
    rw [same, if_neg ended]

/-- An element that matches a `/` matches nothing else. -/
theorem matchOne_slash (h : 0 < matchOne p slash) (hc : 0 < matchOne p c) : c = slash := by
  have here := matchOne_cases h
  have there := matchOne_cases hc
  generalize matchOne p slash = m at here
  generalize matchOne p c = n at there
  generalize hs : slash = d at here
  cases here with
  | any ne => exact absurd hs.symm ne
  | escaped =>
    cases there with
    | escaped => rfl
    | plain _ _ unescaped => exact absurd ⟨rfl, cons_ne_nil _ _⟩ unescaped
  | plain any plain escaped =>
    cases there with
    | any _ => exact absurd rfl any
    | escaped => exact absurd ⟨rfl, cons_ne_nil _ _⟩ escaped
    | plain _ _ _ => rfl
    | cls _ _ _ => exact absurd rfl plain
  | cls ne _ _ => exact absurd hs.symm ne

/-! ### Names in pieces -/

/-- The elements of a pattern: the pattern from each of them on. -/
def elements : List Nat → List (List Nat)
  | [] => []
  | e :: q => (e :: q) :: elements ((e :: q).drop (span (e :: q)))
  termination_by p => p.length
  decreasing_by
    have pos := span_pos (cons_ne_nil e q)
    simp only [length_drop, length_cons]
    omega

/-- What the element at the head of a pattern takes of a name: a `*` any characters but `/`, each other element one
that it matches. -/
def Takes (p piece : List Nat) : Prop :=
  if p.head? = some asterisk then slash ∉ piece else ∃ c, piece = [c] ∧ 0 < matchOne p c

/-- A name is cut into consecutive pieces, one for each element. -/
def Cut (p s : List Nat) : Prop := ∃ pieces : List (List Nat), pieces.flatten = s ∧ List.Forall₂ Takes (elements p) pieces

theorem cut_nil (s : List Nat) : Cut [] s ↔ s = [] := by
  rw [Cut, elements]
  constructor
  · intro h
    obtain ⟨pieces, rfl, all⟩ := h
    cases all
    rfl
  · intro h
    exact ⟨[], h.symm, .nil⟩

theorem span_star (p : List Nat) : span (asterisk :: p) = 1 := by
  rw [span, if_pos (.inr rfl)]

theorem takes_star (p piece : List Nat) : Takes (asterisk :: p) piece ↔ slash ∉ piece := by
  rw [Takes, List.head?_cons, if_pos rfl]

theorem cut_star (p s : List Nat) : Cut (asterisk :: p) s ↔ ∃ run rest, s = run ++ rest ∧ slash ∉ run ∧ Cut p rest := by
  have head : elements (asterisk :: p) = (asterisk :: p) :: elements p := by
    rw [elements, span_star, drop_succ_cons, drop_zero]
  rw [Cut, head]
  constructor
  · intro h
    obtain ⟨pieces, rfl, all⟩ := h
    cases all with
    | @cons _ run _ pieces takes all =>
      exact ⟨run, pieces.flatten, rfl, (takes_star p run).mp takes, pieces, rfl, all⟩
  · intro h
    obtain ⟨run, rest, rfl, free, pieces, rfl, all⟩ := h
    exact ⟨run :: pieces, rfl, .cons ((takes_star p run).mpr free) all⟩

theorem cut_one (more : p ≠ []) (other : p.head? ≠ some asterisk) (s : List Nat) :
    Cut p s ↔ ∃ c rest, s = c :: rest ∧ 0 < matchOne p c ∧ Cut (p.drop (matchOne p c)) rest := by
  have head : elements p = p :: elements (p.drop (span p)) := by
    cases p with
    | nil => exact absurd rfl more
    | cons e q => rw [elements]
  rw [Cut, head]
  constructor
  · intro h
    obtain ⟨pieces, rfl, all⟩ := h
    cases all with
    | @cons _ piece _ pieces takes all =>
      rw [Takes, if_neg other] at takes
      obtain ⟨c, rfl, matched⟩ := takes
      exact ⟨c, pieces.flatten, rfl, matched, pieces, rfl, by rwa [matchOne_span matched]⟩
  · intro h
    obtain ⟨c, rest, rfl, matched, pieces, rfl, all⟩ := h
    rw [matchOne_span matched] at all
    exact ⟨[c] :: pieces, rfl, .cons (by rw [Takes, if_neg other]; exact ⟨c, rfl, matched⟩) all⟩

/-- At the end of the name only `*`s are left. -/
theorem cut_end (p : List Nat) : Cut p [] ↔ p.dropWhile (· = asterisk) = [] := by
  induction p with
  | nil => simp [cut_nil]
  | cons e p ih =>
    by_cases he : e = asterisk
    · subst he
      rw [cut_star, dropWhile_cons_of_pos (by simp), ← ih]
      constructor
      · intro h
        obtain ⟨run, rest, whole, -, cut⟩ := h
        rwa [(append_eq_nil_iff.mp whole.symm).2] at cut
      · intro cut
        exact ⟨[], [], rfl, not_mem_nil, cut⟩
    · rw [cut_one (cons_ne_nil e p) (by simpa using he), dropWhile_cons_of_neg (by simpa using he)]
      simp

/-- A `*` at a character takes nothing, or the character and more. -/
theorem cut_star_cons (p : List Nat) (c : Nat) (s : List Nat) :
    Cut (asterisk :: p) (c :: s) ↔ Cut p (c :: s) ∨ c ≠ slash ∧ Cut (asterisk :: p) s := by
  rw [cut_star, cut_star]
  constructor
  · intro h
    obtain ⟨run, rest, whole, free, cut⟩ := h
    cases run with
    | nil => exact .inl (whole ▸ cut)
    | cons d run =>
      obtain ⟨rfl, rfl⟩ := List.cons.inj whole
      exact .inr ⟨fun h => free (h ▸ mem_cons_self), run, rest, rfl, fun h => free (mem_cons_of_mem _ h), cut⟩
  · intro h
    obtain cut | ⟨hc, run, rest, rfl, free, cut⟩ := h
    · exact ⟨[], c :: s, rfl, not_mem_nil, cut⟩
    · exact ⟨c :: run, rest, rfl, fun h => (mem_cons.mp h).elim (fun h => hc h.symm) free, cut⟩

/-- What a `*` can take before the rest, it can take. -/
theorem cut_star_append {p run s : List Nat} (free : slash ∉ run) (cut : Cut (asterisk :: p) s) :
    Cut (asterisk :: p) (run ++ s) := by
  induction run with
  | nil => exact cut
  | cons c run ih =>
    refine (cut_star_cons p c (run ++ s)).mpr (.inr ⟨fun h => free (h ▸ mem_cons_self), ?_⟩)
    exact ih fun h => free (mem_cons_of_mem _ h)

/-! ### Between the last star and the place of the walk -/

/-- From the place of the star, elements that each match one character lead to the place of the walk. -/
inductive Span (p mark : List Nat) : List Nat → List Nat → Prop
  | refl : Span p mark p mark
  | step {q s : List Nat} {c : Nat} : Span p mark q (c :: s) → q.head? ≠ some asterisk → 0 < matchOne q c →
      Span p mark (q.drop (matchOne q c)) s

theorem Span.length {p mark q s : List Nat} (h : Span p mark q s) : q.length ≤ p.length ∧ s.length ≤ mark.length := by
  induction h with
  | refl => exact ⟨le_rfl, le_rfl⟩
  | step _ _ _ ih =>
    simp only [length_drop, length_cons] at ih ⊢
    omega

/-- What the star can take more, with the elements after it matching as much later, the place of the walk can be
moved on by. -/
theorem Span.later {p mark q s : List Nat} (h : Span p mark q s) {j : Nat} (pos : 0 < j) (inside : j ≤ mark.length)
    (free : slash ∉ mark.take j) (cut : Cut p (mark.drop j)) :
    j ≤ s.length ∧ slash ∉ s.take j ∧ Cut q (s.drop j) := by
  induction h with
  | refl => exact ⟨inside, free, cut⟩
  | @step q s c _ other matched ih =>
    obtain ⟨k, rfl⟩ : ∃ k, j = k + 1 := ⟨j - 1, by omega⟩
    obtain ⟨-, free, cut⟩ := ih
    have more : q ≠ [] := by
      intro none
      rw [none] at matched
      exact absurd matched (lt_irrefl 0)
    rw [drop_succ_cons] at cut
    rw [take_succ_cons] at free
    obtain ⟨d, rest, hd, later, cut⟩ := (cut_one more other _).mp cut
    have hc : c ≠ slash := fun h => free (h ▸ mem_cons_self)
    have whole : s = s.take k ++ d :: rest := by rw [← hd, take_append_drop]
    have length : k < s.length := by
      by_contra more
      rw [drop_eq_nil_of_le (Nat.not_lt.mp more)] at hd
      cases hd
    have taken : s.take (k + 1) = s.take k ++ [d] := by
      rw [take_succ_eq_append_getElem length]
      congr 2
      have first := congrArg List.head? hd
      rw [List.head?_drop, List.getElem?_eq_getElem length] at first
      exact Option.some.inj first
    have left : s.drop (k + 1) = rest := by rw [← drop_drop, hd, drop_succ_cons, drop_zero]
    refine ⟨length, ?_, ?_⟩
    · rw [taken]
      intro h
      cases mem_append.mp h with
      | inl h => exact free (mem_cons_of_mem _ h)
      | inr h =>
        -- an element that matches this `/` has matched `c`
        rw [← mem_singleton.mp h] at later
        exact hc (matchOne_slash later matched)
    · rw [left]
      rwa [matchOne_span matched, ← matchOne_span later]

/-! ### The walk -/

/-- The star that the walk would come back to can take one more character, and the rest of the name after it be cut. -/
def Later : Option (List Nat × List Nat) → Prop
  | some (p, m :: mark) => m ≠ slash ∧ Cut (asterisk :: p) mark
  | _ => False

/-- A `*` takes nothing, or it is one that can take more. -/
theorem cut_star_later (p s : List Nat) : Cut (asterisk :: p) s ↔ Cut p s ∨ Later (some (p, s)) := by
  cases s with
  | nil =>
    rw [cut_end, cut_end, dropWhile_cons_of_pos (by simp)]
    exact (or_iff_left id).symm
  | cons c s => exact cut_star_cons p c s

/-- An earlier star that can take more leaves nothing that the place of the walk cannot. -/
theorem Span.of_later {p mark q s : List Nat} (h : Span p mark q s) (later : Later (some (p, mark))) :
    ∃ run rest, run ≠ [] ∧ s = run ++ rest ∧ slash ∉ run ∧ Cut q rest := by
  cases mark with
  | nil => exact later.elim
  | cons m mark =>
    obtain ⟨hm, star⟩ := later
    obtain ⟨run, rest, rfl, free, cut⟩ := (cut_star p mark).mp star
    have taken : (m :: (run ++ rest)).take (run.length + 1) = m :: run := by simp
    have left : (m :: (run ++ rest)).drop (run.length + 1) = rest := by simp
    obtain ⟨inside, free, cut⟩ := h.later (j := run.length + 1) (Nat.succ_pos _) (by simp)
      (by rw [taken]; exact fun h => (mem_cons.mp h).elim (fun h => hm h.symm) free) (by rwa [left])
    refine ⟨s.take (run.length + 1), s.drop (run.length + 1), ?_, (take_append_drop _ s).symm, free, cut⟩
    exact ne_nil_of_length_pos (by rw [length_take]; omega)

theorem walk_star (h : p.head? = some asterisk) (n c : Nat) (s : List Nat)
    (star : Option (List Nat × List Nat)) :
    walk (n + 1) p (c :: s) star = walk n p.tail (c :: s) (some (p.tail, c :: s)) := by
  conv_lhs => unfold walk
  exact if_pos h

theorem walk_one (h : p.head? ≠ some asterisk) (matched : matchOne p c > 0) (n : Nat)
    (s : List Nat) (star : Option (List Nat × List Nat)) :
    walk (n + 1) p (c :: s) star = walk n (p.drop (matchOne p c)) s star := by
  conv_lhs => unfold walk
  rw [if_neg h, if_pos matched]

theorem walk_back (h : p.head? ≠ some asterisk) (stuck : ¬ matchOne p c > 0) (n : Nat)
    (s : List Nat) (star : Option (List Nat × List Nat)) :
    walk (n + 1) p (c :: s) star = match star with
      | some (q, m :: mark) => if m ≠ slash then walk n q mark (some (q, mark)) else some false
      | _ => some false := by
  conv_lhs => unfold walk
  rw [if_neg h, if_neg stuck]

/-- How far the walk still is from its end: what the star has before it, what comes after the star, and what is left
of the name. -/
def toGo (s : List Nat) : Option (List Nat × List Nat) → ℕ ×ₗ ℕ ×ₗ ℕ
  | none => toLex (s.length + 1, toLex (0, s.length))
  | some (p, mark) => toLex (mark.length, toLex (p.length, s.length))

theorem toGo_star {p s : List Nat} {star : Option (List Nat × List Nat)}
    (back : ∀ q mark, star = some (q, mark) → Span q mark (asterisk :: p) s) :
    toGo s (some (p, s)) < toGo s star := by
  cases star with
  | none => exact Prod.Lex.toLex_lt_toLex.mpr (.inl (Nat.lt_succ_self _))
  | some place =>
    obtain ⟨shorter, inside⟩ := (back place.1 place.2 rfl).length
    refine Prod.Lex.toLex_lt_toLex.mpr ((Nat.lt_or_eq_of_le inside).imp_right fun same => ⟨same, ?_⟩)
    exact Prod.Lex.toLex_lt_toLex.mpr (.inl shorter)

theorem toGo_one (c : Nat) (s : List Nat) (star : Option (List Nat × List Nat)) : toGo s star < toGo (c :: s) star := by
  cases star with
  | none => exact Prod.Lex.toLex_lt_toLex.mpr (.inl (Nat.lt_succ_self _))
  | some place =>
    exact Prod.Lex.toLex_lt_toLex.mpr (.inr ⟨rfl, Prod.Lex.toLex_lt_toLex.mpr (.inr ⟨rfl, Nat.lt_succ_self _⟩)⟩)

theorem toGo_back (q mark s t : List Nat) (m : Nat) : toGo t (some (q, mark)) < toGo s (some (q, m :: mark)) :=
  Prod.Lex.toLex_lt_toLex.mpr (.inl (Nat.lt_succ_self _))

/-- **The walk ends**, and says whether the name can be cut from its place on, or by the star's taking more. -/
theorem walk_ends (p s : List Nat) (star : Option (List Nat × List Nat))
    (back : ∀ q mark, star = some (q, mark) → Span q mark p s) :
    ∃ b N, (∀ n, N ≤ n → walk n p s star = some b) ∧ (b = true ↔ Cut p s ∨ Later star) := by
  generalize hm : toGo s star = measure
  induction measure using WellFoundedLT.induction generalizing p s star
  rename_i ih
  subst hm
  have on {b : Bool} {N : Nat} {q t : List Nat} {star' : Option (List Nat × List Nat)}
      (one : ∀ n, walk (n + 1) p s star = walk n q t star') (rest : ∀ n, N ≤ n → walk n q t star' = some b) :
      ∀ n, N + 1 ≤ n → walk n p s star = some b := by
    intro n hn
    obtain ⟨n, rfl⟩ : ∃ m, n = m + 1 := ⟨n - 1, by omega⟩
    rw [one, rest n (by omega)]
  have stop {b : Bool} (one : ∀ n, walk (n + 1) p s star = some b) : ∀ n, 1 ≤ n → walk n p s star = some b := by
    intro n hn
    obtain ⟨n, rfl⟩ : ∃ m, n = m + 1 := ⟨n - 1, by omega⟩
    exact one n
  have later (h : Later star) : ∃ run rest, run ≠ [] ∧ s = run ++ rest ∧ slash ∉ run ∧ Cut p rest := by
    cases star with
    | none => exact h.elim
    | some place => exact (back place.1 place.2 rfl).of_later h
  cases s with
  | nil =>
    refine ⟨_, 1, stop fun n => rfl, ?_⟩
    have ended : ¬ Later star := by
      intro h
      obtain ⟨run, rest, more, whole, -⟩ := later h
      exact more (append_eq_nil_iff.mp whole.symm).1
    rw [decide_eq_true_eq, cut_end]
    exact (or_iff_left ended).symm
  | cons c t =>
    by_cases hstar : p.head? = some asterisk
    · obtain ⟨q, rfl⟩ : ∃ q, p = asterisk :: q := ⟨p.tail, (List.cons_head?_tail hstar).symm⟩
      obtain ⟨b, N, ends, cut⟩ := ih _ (toGo_star back) q (c :: t) (some (q, c :: t)) (fun q' mark h => by
        cases h
        exact .refl) rfl
      refine ⟨b, N + 1, on (fun n => walk_star hstar n c t star) ends, cut.trans ?_⟩
      rw [← cut_star_later]
      refine ⟨.inl, fun h => h.elim id fun h => ?_⟩
      obtain ⟨run, rest, -, whole, free, cut⟩ := later h
      exact whole ▸ cut_star_append free cut
    · by_cases matched : matchOne p c > 0
      · have more : p ≠ [] := by
          intro none
          rw [none] at matched
          exact absurd matched (lt_irrefl 0)
        obtain ⟨b, N, ends, cut⟩ := ih _ (toGo_one c t star) (p.drop (matchOne p c)) t star
          (fun q mark h => (back q mark h).step hstar matched) rfl
        refine ⟨b, N + 1, on (fun n => walk_one hstar matched n t star) ends, cut.trans ?_⟩
        refine or_congr_left ((cut_one more hstar (c :: t)).trans ?_).symm
        constructor
        · intro h
          obtain ⟨d, rest, whole, -, cut⟩ := h
          obtain ⟨rfl, rfl⟩ := List.cons.inj whole
          exact cut
        · exact fun cut => ⟨c, t, rfl, matched, cut⟩
      · have stuck : ¬ Cut p (c :: t) := by
          intro cut
          by_cases none : p = []
          · exact absurd ((cut_nil _).mp (none ▸ cut)) (cons_ne_nil c t)
          · obtain ⟨d, rest, whole, found, -⟩ := (cut_one none hstar _).mp cut
            exact matched ((List.cons.inj whole).1 ▸ found)
        have fails (one : ∀ n, walk (n + 1) p (c :: t) star = some false) (no : ¬ Later star) :
            ∃ b N, (∀ n, N ≤ n → walk n p (c :: t) star = some b) ∧ (b = true ↔ Cut p (c :: t) ∨ Later star) :=
          ⟨false, 1, stop one, iff_of_false nofun (not_or.mpr ⟨stuck, no⟩)⟩
        match star with
        | none => exact fails (fun n => walk_back hstar matched n t none) id
        | some (q, []) => exact fails (fun n => walk_back hstar matched n t (some (q, []))) id
        | some (q, m :: mark) =>
          by_cases hm : m ≠ slash
          · obtain ⟨b, N, ends, cut⟩ := ih _ (toGo_back q mark _ mark m) q mark (some (q, mark)) (fun q' mark' h => by
              cases h
              exact .refl) rfl
            refine ⟨b, N + 1, on (fun n => (walk_back hstar matched n t _).trans (if_pos hm)) ends, ?_⟩
            rw [cut, ← cut_star_later]
            exact ⟨fun h => .inr ⟨hm, h⟩, fun h => (h.resolve_left stuck).2⟩
          · exact fails (fun n => (walk_back hstar matched n t _).trans (if_neg hm)) fun h => hm h.1

/-- **`matches` ends, and holds of the names that can be cut into consecutive pieces, one for each element of the
pattern.** -/
theorem matches_iff (pattern name : Bytes) : ∃ b N, (∀ n, N ≤ n → matchesIn n pattern name = some b) ∧
    (b = true ↔ ∃ pieces : List (List Nat), pieces.flatten = Str.runes name ∧
      List.Forall₂ Takes (elements (Str.runes pattern)) pieces) := by
  obtain ⟨b, N, ends, cut⟩ := walk_ends (Str.runes pattern) (Str.runes name) none nofun
  exact ⟨b, N, ends, cut.trans (or_iff_left id)⟩

end Voila.Path.Glob
