import Voila.Path.Path

/-!
# Voila.Path.Location

Where a path leads: from the root, or so many directories up from where it starts, and from there down through
names. `clean` writes that down (`clean_eq_text`), and a location has no other text that `clean` leaves alone.

* `join_dir_base`: `dir` and `base` take a path apart, and `join` puts it together.
* `hasPrefix_iff`: `has_prefix` is about the elements of two locations, but for bases without names.
-/

open List

namespace Voila.Path

open Voila.Rt (Bytes)
open Voila.Rt.Json (ch)

/-- `base`. -/
def base (p : Bytes) : Bytes := if p = [] then [] else (split (cleanTrailing p)).getLastD []

/-- `rel`. -/
def rel (base target : Bytes) : Bytes :=
  let b := clean base
  let t := clean target
  if b = t then dot
  else
    let pre := b ++ [sep]
    if t.length > pre.length ∧ t.take pre.length = pre then t.drop pre.length else t

/-- `has_prefix`. -/
def hasPrefix (base target : Bytes) : Bool :=
  let b := clean base
  let t := clean target
  let pre := b ++ [sep]
  b = t ∨ t.length > pre.length ∧ t.take pre.length = pre

/-! ### Locations -/

/-- An element that names something. -/
def IsName (e : Bytes) : Prop := Plain e ∧ sep ∉ e

instance (e : Bytes) : Decidable (IsName e) := inferInstanceAs (Decidable (_ ∧ _))

abbrev Name := { e : Bytes // IsName e }

inductive Start
  | root
  | here (ups : Nat)
  deriving DecidableEq

structure Location where
  start : Start
  names : List Name
  deriving DecidableEq

/-- `..`: the last name goes. Without one, the root stays and any other start goes up. -/
def Location.up (l : Location) : Location :=
  if l.names ≠ [] then { l with names := l.names.dropLast }
  else
    match l.start with
    | .root => l
    | .here ups => { l with start := .here (ups + 1) }

/-- One element of a path. -/
def Location.step (l : Location) (e : Bytes) : Location :=
  if h : IsName e then { l with names := l.names ++ [⟨e, h⟩] }
  else if e = dotdot then l.up
  else l

/-- Where a path starts. -/
def origin (p : Bytes) : Location := ⟨if isAbs p then .root else .here 0, []⟩

/-- Where a path leads, element by element. -/
def locate (p : Bytes) : Location := (split p).foldl Location.step (origin p)

/-- The steps up of a start. -/
def Start.ups : Start → List Bytes
  | .root => []
  | .here ups => List.replicate ups dotdot

/-- The elements that lead to a location. -/
def Location.pieces (l : Location) : List Bytes := l.start.ups ++ l.names.map Subtype.val

/-- The canonical text of a location. -/
def Location.text (l : Location) : Bytes :=
  match l.start with
  | .root => sep :: glue l.pieces
  | .here _ => if l.pieces = [] then dot else glue l.pieces

def Location.rooted (l : Location) : Bool := l.start = .root

/-! ### Elements -/

theorem not_isName_dotdot : ¬ IsName dotdot := fun h => h.1.2.2 rfl

theorem Location.step_name (l : Location) (n : Name) : l.step n = { l with names := l.names ++ [n] } := dif_pos n.2

variable {e : Bytes} {l : Location}

theorem Location.step_skip (l : Location) (h : e = [] ∨ e = dot) : l.step e = l := by
  have unnamed : ¬ IsName e := fun name => h.elim name.1.1 name.1.2.1
  have down : e ≠ dotdot := by
    obtain rfl | rfl := h <;> decide
  rw [step, dif_neg unnamed, if_neg down]

theorem Location.step_up (l : Location) : l.step dotdot = l.up := by
  rw [step, dif_neg not_isName_dotdot, if_pos rfl]

theorem Location.up_rooted (l : Location) : l.up.rooted = l.rooted := by
  obtain ⟨start, names⟩ := l
  unfold up rooted
  by_cases some : names ≠ []
  · rw [if_pos some]
  · rw [if_neg some]
    cases start <;> rfl

theorem Location.step_rooted (l : Location) (e : Bytes) : (l.step e).rooted = l.rooted := by
  unfold step
  split
  · rfl
  · split
    · exact l.up_rooted
    · rfl

theorem foldl_rooted (es : List Bytes) (l : Location) : (es.foldl Location.step l).rooted = l.rooted := by
  induction es generalizing l with
  | nil => rfl
  | cons e es ih => exact (ih (l.step e)).trans (l.step_rooted e)

theorem locate_rooted (p : Bytes) : (locate p).rooted = isAbs p := by
  rw [locate, foldl_rooted, origin, Location.rooted]
  cases isAbs p <;> rfl

theorem ups_spec {start : Start} (he : e ∈ start.ups) : e = dotdot := by
  cases start with
  | root => exact absurd he not_mem_nil
  | here ups => exact (mem_replicate.mp he).2

/-- Steps up and names are neither empty nor a dot. -/
theorem pieces_spec (he : e ∈ l.pieces) : e ≠ [] ∧ e ≠ dot ∧ sep ∉ e := by
  cases mem_append.mp he with
  | inl up => exact ups_spec up ▸ by decide
  | inr name =>
    obtain ⟨n, -, rfl⟩ := mem_map.mp name
    exact ⟨n.2.1.1, n.2.1.2.1, n.2.2⟩

theorem pieces_name (l : Location) (n : Name) :
    Location.pieces { l with names := l.names ++ [n] } = l.pieces ++ [n.1] := by
  simp [Location.pieces]

/-- What `clean` does at a `..`. -/
theorem pieces_up (l : Location) : l.up.pieces =
    if l.pieces ≠ [] ∧ l.pieces.getLast? ≠ some dotdot then l.pieces.dropLast
    else if l.rooted then l.pieces else l.pieces ++ [dotdot] := by
  obtain ⟨start, names⟩ := l
  obtain rfl | ⟨init, n, rfl⟩ := eq_nil_or_concat names
  · cases start with
    | root => rfl
    | here ups =>
      have last : ¬ ((Location.mk (.here ups) []).pieces ≠ [] ∧
          (Location.mk (.here ups) []).pieces.getLast? ≠ some dotdot) := by
        cases ups with
        | zero => exact fun h => h.1 rfl
        | succ ups => exact fun h => h.2 (by simp [Location.pieces, Start.ups, getLast?_replicate])
      rw [if_neg last, if_neg (by simp [Location.rooted])]
      simp [Location.up, Location.pieces, Start.ups, replicate_succ']
  · have name : n.1 ≠ dotdot := n.2.1.2.2
    rw [if_pos (by simp [Location.pieces, name])]
    simp [Location.up, Location.pieces]

/-- The loop of `clean` walks. -/
theorem cleanLoop_walk {es : List Bytes} (hes : ∀ e ∈ es, sep ∉ e) (l : Location) :
    cleanLoop l.rooted l.pieces es = (es.foldl Location.step l).pieces := by
  induction es generalizing l with
  | nil => rfl
  | cons e es ih =>
    have rest := ih (fun e he => hes e (mem_cons_of_mem _ he)) (l.step e)
    rw [foldl_cons, ← rest, l.step_rooted, cleanLoop]
    by_cases skip : e = [] ∨ e = dot
    · rw [if_pos skip, l.step_skip skip]
    · rw [if_neg skip]
      by_cases up : e = dotdot
      · subst up
        rw [if_pos rfl, l.step_up, pieces_up]
        by_cases back : l.pieces ≠ [] ∧ l.pieces.getLast? ≠ some dotdot
        · rw [if_pos back, if_pos back]
        · rw [if_neg back, if_neg back]
          split <;> rfl
      · have name : IsName e := ⟨⟨fun h => skip (.inl h), fun h => skip (.inr h), up⟩, hes e mem_cons_self⟩
        rw [if_neg up, l.step_name ⟨e, name⟩, pieces_name]

theorem kept_eq (p : Bytes) : kept p = (locate p).pieces := by
  have walk := cleanLoop_walk (fun e (he : e ∈ split p) => not_mem_split he) (origin p)
  have start : (origin p).pieces = [] := by
    cases h : isAbs p <;> simp [origin, h, Location.pieces, Start.ups]
  have root : (origin p).rooted = isAbs p := by
    cases h : isAbs p <;> simp [origin, h, Location.rooted]
  rw [start, root] at walk
  exact walk

/-- **`clean` writes down where a path leads.** -/
theorem clean_eq_text (p : Bytes) : clean p = (locate p).text := by
  have root := locate_rooted p
  rw [clean_eq, kept_eq, Location.text]
  cases start : (locate p).start with
  | root => rw [if_pos (root ▸ by simp [Location.rooted, start])]
  | here ups => rw [if_neg (root ▸ by simp [Location.rooted, start])]

/-! ### Texts of locations -/

theorem foldl_ups (ups k : ℕ) : (List.replicate ups dotdot).foldl Location.step ⟨.here k, []⟩ = ⟨.here (k + ups), []⟩ := by
  induction ups generalizing k with
  | zero => rfl
  | succ ups ih =>
    rw [replicate_succ, foldl_cons, Location.step_up]
    exact (ih (k + 1)).trans (by rw [Nat.add_assoc, Nat.add_comm 1])

theorem foldl_names (names : List Name) (l : Location) :
    (names.map Subtype.val).foldl Location.step l = { l with names := l.names ++ names } := by
  induction names generalizing l with
  | nil => simp
  | cons n names ih =>
    rw [map_cons, foldl_cons, l.step_name, ih]
    simp

theorem split_pieces (l : Location) (h : l.pieces ≠ []) : split (glue l.pieces) = l.pieces :=
  split_glue (fun _ he => (pieces_spec he).2.2) h

theorem Location.isAbs_pieces (l : Location) : isAbs (glue l.pieces) = false :=
  isAbs_glue fun _ he => ⟨(pieces_spec he).1, (pieces_spec he).2.2⟩

theorem Location.isAbs_text (l : Location) : isAbs l.text = l.rooted := by
  unfold Location.text Location.rooted
  cases l.start with
  | root => rfl
  | here ups =>
    dsimp only
    split
    · rfl
    · exact l.isAbs_pieces

/-- A path from which `split` cuts these elements, but for what `clean` skips. -/
theorem locate_slash {a : Bytes} (ha : a ≠ []) (b : Bytes) :
    locate (a ++ sep :: b) = (split b).foldl Location.step (locate a) := by
  have start : origin (a ++ sep :: b) = origin a := by
    rw [origin, origin, isAbs, head?_append_of_ne_nil a ha, isAbs]
  rw [locate, start, split_slash, foldl_append, locate]

theorem walk_pieces (l : Location) (h : l.pieces ≠ []) :
    (split (glue l.pieces)).foldl Location.step ⟨if l.rooted then .root else .here 0, []⟩ = l := by
  rw [split_pieces l h, Location.pieces, foldl_append]
  obtain ⟨start, names⟩ := l
  cases start with
  | root => exact foldl_names names ⟨.root, []⟩
  | here ups =>
    have up := foldl_ups ups 0
    rw [Nat.zero_add] at up
    exact (congrArg ((names.map Subtype.val).foldl Location.step) up).trans (foldl_names names ⟨.here ups, []⟩)

/-- The text of a location leads there, so that no two locations have the same text. -/
theorem locate_text (l : Location) : locate l.text = l := by
  by_cases none : l.pieces = []
  · obtain ⟨start, names⟩ := l
    obtain ⟨up, name⟩ := append_eq_nil_iff.mp none
    obtain rfl := map_eq_nil_iff.mp name
    cases start with
    | root => rfl
    | here ups =>
      obtain rfl : ups = 0 := replicate_eq_nil_iff _ |>.mp up
      rfl
  · have walk := walk_pieces l none
    have root := l.isAbs_text
    rw [locate, origin, root]
    unfold Location.text
    cases start : l.start with
    | root =>
      have cut : split (sep :: glue l.pieces) = [] :: split (glue l.pieces) := split_slash [] _
      rw [cut, foldl_cons, Location.step_skip _ (.inl rfl)]
      exact walk
    | here ups =>
      rw [if_neg none]
      exact walk

theorem locate_clean (p : Bytes) : locate (clean p) = locate p := by rw [clean_eq_text, locate_text]

/-- Two paths lead to one place if and only if `clean` makes the same of them. -/
theorem clean_eq_iff (p q : Bytes) : clean p = clean q ↔ locate p = locate q := by
  constructor
  · intro h
    rw [← locate_clean p, h, locate_clean]
  · intro h
    rw [clean_eq_text, h, ← clean_eq_text]

/-! ### The last element, and what stands before it -/

/-- The slashes that `clean_trailing` drops lead nowhere. -/
theorem locate_trailing (p : Bytes) : locate (cleanTrailing p) = locate p := by
  cases p with
  | nil => rfl
  | cons a p =>
    obtain ⟨k, hk⟩ : ∃ k, p = (p.reverse.dropWhile (· == sep)).reverse ++ List.replicate k sep := by
      have cut := congrArg List.reverse (takeWhile_append_dropWhile (p := (· == sep)) (l := p.reverse))
      rw [reverse_append, reverse_reverse] at cut
      refine ⟨(p.reverse.takeWhile (· == sep)).length, cut.symm.trans (congrArg _ ?_)⟩
      refine eq_replicate_iff.mpr ⟨length_reverse, fun b hb => ?_⟩
      simpa using mem_takeWhile_imp (mem_reverse.mp hb)
    rw [cleanTrailing]
    generalize (p.reverse.dropWhile (· == sep)).reverse = t at hk
    subst hk
    induction k with
    | zero => rw [replicate_zero, append_nil]
    | succ k ih =>
      have more := locate_slash (cons_ne_nil a (t ++ List.replicate k sep)) []
      rw [ih, replicate_succ', ← append_assoc]
      exact (more.trans (Location.step_skip _ (.inl rfl))).symm

theorem split_alone {b : Bytes} (hb : sep ∉ b) : split b = [b] := by
  have cut : split (glue [b]) = [b] := split_glue (by simpa using hb) (cons_ne_nil b [])
  rwa [glue, intercalate_singleton] at cut

theorem dir_cases (p : Bytes) : sep ∉ cleanTrailing p ∧ dir p = dot ∨
    ∃ a b, cleanTrailing p = a ++ sep :: b ∧ sep ∉ b ∧ dir p = if a = [] then [sep] else a := by
  have cut := takeWhile_append_dropWhile (p := (· != sep)) (l := (cleanTrailing p).reverse)
  have free : sep ∉ ((cleanTrailing p).reverse.takeWhile (· != sep)) := fun h => by
    simpa using mem_takeWhile_imp h
  unfold dir
  cases hdrop : (cleanTrailing p).reverse.dropWhile (· != sep) with
  | nil =>
    rw [hdrop, append_nil] at cut
    exact .inl ⟨fun h => free (by rwa [cut, mem_reverse]), rfl⟩
  | cons x before =>
    have last : x = sep := by
      have := head?_dropWhile_not (· != sep) (cleanTrailing p).reverse
      simpa [hdrop] using this
    rw [hdrop, last] at cut
    have whole := congrArg List.reverse cut
    rw [reverse_reverse, reverse_append, reverse_cons, append_assoc] at whole
    refine .inr ⟨before.reverse, _, whole.symm, fun h => free (mem_reverse.mp h), ?_⟩
    simp only [reverse_eq_nil_iff]

/-- From the directory of a path, its last element leads to where the path does. -/
theorem locate_dir_base (p : Bytes) : (split (base p)).foldl Location.step (locate (dir p)) = locate p := by
  by_cases empty : p = []
  · subst empty
    rfl
  · rw [← locate_trailing p, base, if_neg empty]
    obtain ⟨free, hdir⟩ | ⟨a, b, cut, free, hdir⟩ := dir_cases p
    · have alone := split_alone free
      have relative : isAbs (cleanTrailing p) = false := by
        rw [isAbs, beq_eq_false_iff_ne]
        exact fun h => free (mem_of_mem_head? h)
      rw [alone, hdir]
      change (split (cleanTrailing p)).foldl Location.step (locate dot) = locate (cleanTrailing p)
      rw [locate, locate, origin, origin, relative]
      rfl
    · have parts : split (cleanTrailing p) = split a ++ [b] := by rw [cut, split_slash, split_alone free]
      rw [parts, getLastD_concat, hdir, cut]
      by_cases root : a = []
      · subst root
        have cut' : split ([] ++ sep :: b) = [] :: split b := split_slash [] b
        rw [if_pos rfl, locate, locate, cut']
        rfl
      · rw [if_neg root, locate_slash root]

theorem dir_ne_nil (p : Bytes) : dir p ≠ [] := by
  obtain ⟨-, hdir⟩ | ⟨a, b, -, -, hdir⟩ := dir_cases p
  · rw [hdir]
    exact cons_ne_nil _ _
  · rw [hdir]
    split
    · exact cons_ne_nil _ _
    · assumption

/-- `join` of a directory and a path leads along the one and then along the other. -/
theorem join_two {d : Bytes} (hd : d ≠ []) (b : Bytes) :
    join [d, b] = ((split b).foldl Location.step (locate d)).text := by
  by_cases hb : b = []
  · subst hb
    have one : join [d, []] = clean d := by simp [join, joinLoop, hd]
    rw [one, clean_eq_text]
    exact congrArg Location.text (Location.step_skip _ (.inl rfl)).symm
  · have two : join [d, b] = clean (d ++ sep :: b) := by simp [join, joinLoop, hd, hb]
    rw [two, clean_eq_text, locate_slash hd]

/-- **The laws of `clean`**: `dir` and `base` part a path that `join` puts together, `clean` leaves alone what it has
cleaned, and writes down where the path leads, in the one way there is. -/
theorem clean_laws (p : Bytes) :
    join [dir p, base p] = clean p ∧ clean (clean p) = clean p ∧ clean p = (locate p).text ∧
      ∀ q, clean p = clean q ↔ locate p = locate q := by
  refine ⟨?_, ?_, clean_eq_text p, clean_eq_iff p⟩
  · rw [join_two (dir_ne_nil p), locate_dir_base, clean_eq_text]
  · exact (clean_eq_iff _ _).mpr (locate_clean p)

/-! ### Below a base -/

/-- The elements of a path: the pieces between its slashes that lead somewhere. -/
def elements (p : Bytes) : List Bytes := (split p).filter fun e => e ≠ [] ∧ e ≠ dot

theorem elements_slash (a b : Bytes) : elements (a ++ sep :: b) = elements a ++ elements b := by
  rw [elements, split_slash, filter_append, elements, elements]

theorem elements_text (l : Location) : elements l.text = l.pieces := by
  have all : (l.pieces.filter fun e => e ≠ [] ∧ e ≠ dot) = l.pieces :=
    filter_eq_self.mpr fun e he => by simpa using ⟨(pieces_spec he).1, (pieces_spec he).2.1⟩
  rw [elements, Location.text]
  by_cases none : l.pieces = []
  · rw [none]
    cases l.start <;> rfl
  · cases l.start with
    | root =>
      have cut : split (sep :: glue l.pieces) = [] :: split (glue l.pieces) := split_slash [] _
      rw [cut, split_pieces _ none, filter_cons_of_neg (by simp), all]
    | here ups =>
      rw [if_neg none, split_pieces _ none, all]

theorem elements_clean (p : Bytes) : elements (clean p) = (locate p).pieces := by
  rw [clean_eq_text, elements_text]

/-- The elements of the base are a prefix of those of the target, and no `..` is left. -/
def Under (base target : Bytes) : Prop :=
  isAbs (clean base) = isAbs (clean target) ∧
    ∃ rest, elements (clean target) = elements (clean base) ++ rest ∧ dotdot ∉ rest

theorem under_iff (base target : Bytes) : Under base target ↔
    (locate base).rooted = (locate target).rooted ∧
      ∃ rest, (locate target).pieces = (locate base).pieces ++ rest ∧ dotdot ∉ rest := by
  rw [Under, elements_clean, elements_clean, ← locate_rooted, ← locate_rooted, locate_clean, locate_clean]

/-- What `has_prefix` looks for in the texts of two locations. -/
theorem hasPrefix_text (base target : Bytes) : hasPrefix base target = true ↔
    clean base = clean target ∨ ∃ r, r ≠ [] ∧ clean target = clean base ++ sep :: r := by
  have text : ((clean target).length > (clean base ++ [sep]).length ∧
      (clean target).take (clean base ++ [sep]).length = clean base ++ [sep]) ↔
        ∃ r, r ≠ [] ∧ clean target = clean base ++ sep :: r := by
    constructor
    · intro h
      refine ⟨(clean target).drop (clean base ++ [sep]).length, ?_, ?_⟩
      · rw [ne_eq, drop_eq_nil_iff]
        exact Nat.not_le.mpr h.1
      · have whole := take_append_drop (clean base ++ [sep]).length (clean target)
        rw [h.2] at whole
        simpa using whole.symm
    · intro h
      obtain ⟨r, some, whole⟩ := h
      have longer := length_pos_iff.mpr some
      rw [whole]
      refine ⟨by simpa using longer, ?_⟩
      rw [append_cons (clean base) sep r]
      exact take_left
  rw [hasPrefix, decide_eq_true_eq, text]

theorem Location.ext_pieces {l m : Location} (root : l.rooted = m.rooted) (same : l.pieces = m.pieces) : l = m := by
  have texts : l.text = m.text := by
    unfold text
    rw [same]
    unfold rooted at root
    cases hl : l.start <;> cases hm : m.start <;> simp [hl, hm] at root ⊢
  rw [← locate_text l, texts, locate_text]

theorem Location.text_eq (l : Location) (h : l.pieces ≠ []) :
    l.text = (if l.rooted then [sep] else []) ++ glue l.pieces := by
  unfold text rooted
  cases l.start with
  | root => rfl
  | here ups => rw [if_neg h, if_neg (by simp), nil_append]

theorem Location.text_ne_nil (l : Location) : l.text ≠ [] := by
  unfold text
  cases l.start with
  | root => exact cons_ne_nil _ _
  | here ups =>
    dsimp only
    split
    · exact cons_ne_nil _ _
    · next some => exact fun h => some ((glue_eq_nil fun e he => (pieces_spec he).1).mp h)

theorem Location.text_none (l : Location) (h : l.pieces = []) : l.text = if l.rooted then [sep] else dot := by
  unfold text rooted
  rw [h]
  cases l.start <;> rfl

/-- No canonical text goes on after that of the root, or of where a path starts, and a slash. -/
theorem Location.text_short (none : l.pieces = []) (m : Location) (r : Bytes) :
    m.text ≠ l.text ++ sep :: r := by
  intro whole
  have same : m.rooted = l.rooted := by
    rw [← l.isAbs_text, ← m.isAbs_text, whole, isAbs, isAbs, head?_append_of_ne_nil _ l.text_ne_nil]
  rw [l.text_none none] at whole
  by_cases only : m.pieces = []
  · rw [m.text_none only, same] at whole
    exact absurd (congrArg List.length whole) (by simp)
  · rw [m.text_eq only, same] at whole
    by_cases root : l.rooted
    · rw [if_pos root, if_pos root, singleton_append, singleton_append] at whole
      have after := m.isAbs_pieces
      rw [(List.cons.inj whole).2] at after
      cases after
    · rw [if_neg root, if_neg root, nil_append] at whole
      have first : dot ∈ m.pieces := by
        rw [← split_pieces m only, whole, split_slash]
        exact mem_append_left _ (by decide)
      exact (pieces_spec first).2.1 rfl

/-- **What `has_prefix` tests**: the elements of the base begin those of the target, and a base without elements has
only itself below it. -/
theorem hasPrefix_iff (base target : Bytes) : hasPrefix base target = true ↔
    (locate base).rooted = (locate target).rooted ∧
      ∃ rest, (locate target).pieces = (locate base).pieces ++ rest ∧ ((locate base).pieces = [] → rest = []) := by
  rw [hasPrefix_text, clean_eq_iff, clean_eq_text, clean_eq_text]
  generalize locate base = l
  generalize locate target = m
  constructor
  · intro h
    obtain rfl | ⟨r, -, whole⟩ := h
    · exact ⟨rfl, [], by simp, fun _ => rfl⟩
    · have root : l.rooted = m.rooted := by
        rw [← l.isAbs_text, ← m.isAbs_text, whole, isAbs, isAbs, head?_append_of_ne_nil _ l.text_ne_nil]
      refine ⟨root, elements r, ?_, fun none => absurd whole (Location.text_short none m r)⟩
      rw [← elements_text m, whole, elements_slash, elements_text]
  · intro h
    obtain ⟨root, rest, whole, only⟩ := h
    by_cases more : rest = []
    · subst more
      rw [append_nil] at whole
      exact .inl (Location.ext_pieces root whole.symm)
    · have some : l.pieces ≠ [] := fun none => more (only none)
      have named : ∀ e ∈ rest, e ≠ [] := fun e he =>
        (pieces_spec (l := m) (whole ▸ mem_append_right _ he)).1
      refine .inr ⟨glue rest, fun h => more ((glue_eq_nil named).mp h), ?_⟩
      rw [m.text_eq (by simp [whole, some]), whole, glue_append some more, l.text_eq some, root, append_assoc]

/-- Where a base has no elements and the target goes on with a name, or the base has elements and the target goes on
with another step up. -/
def Misjudged (base target : Bytes) : Prop :=
  isAbs base = isAbs target ∧ ∃ e rest, elements (clean target) = elements (clean base) ++ e :: rest ∧
    (elements (clean base) = [] ↔ e ≠ dotdot)

/-- The steps up come first. -/
theorem Location.up_first {before rest : List Bytes}
    (cut : l.pieces = before ++ e :: rest) : dotdot ∉ e :: rest ↔ e ≠ dotdot := by
  refine ⟨fun h he => h (he ▸ mem_cons_self), fun he => ?_⟩
  have names : ∀ n ∈ l.names.map Subtype.val, n ≠ dotdot := by
    intro n hn
    obtain ⟨m, -, rfl⟩ := mem_map.mp hn
    exact m.2.1.2.2
  obtain ⟨more, -, tail⟩ | ⟨more, up, tail⟩ := append_eq_append_iff.mp cut
  · exact fun h => names dotdot (tail ▸ mem_append_right _ h) rfl
  · cases more with
    | nil => exact fun h => names dotdot (by rwa [← nil_append (l.names.map _), ← tail]) rfl
    | cons e' more =>
      have first : e ∈ l.start.ups := by
        rw [up, (List.cons.inj tail).1]
        exact mem_append_right _ mem_cons_self
      exact absurd (ups_spec first) he

/-- Joined to the base, what `rel` gives leads to the target. -/
theorem join_rel {base target : Bytes} (h : hasPrefix base target = true) :
    clean (join [base, rel base target]) = clean target := by
  have again := (clean_laws target).2.1
  by_cases same : clean base = clean target
  · rw [rel]
    dsimp only
    rw [if_pos same]
    by_cases empty : base = []
    · subst empty
      rw [← again, ← same]
      rfl
    · rw [join_two empty, ← again, ← same, clean_eq_text base]
      exact congrArg (fun l => clean (Location.text l)) (Location.step_skip _ (.inr rfl))
  · obtain ⟨r, some, whole⟩ := ((hasPrefix_text base target).mp h).resolve_left same
    have rest : rel base target = r := by
      rw [rel]
      dsimp only
      rw [if_neg same, whole, if_pos]
      · rw [append_cons (clean base) sep r, drop_left]
      · have longer := length_pos_iff.mpr some
        rw [append_cons (clean base) sep r, take_left]
        exact ⟨by simpa using longer, rfl⟩
    have texted : clean base ≠ [] := clean_eq_text base ▸ (locate base).text_ne_nil
    have target' : (split r).foldl Location.step (locate base) = locate target := by
      rw [← locate_clean base, ← locate_slash texted, ← whole, locate_clean]
    by_cases empty : base = []
    · subst empty
      rw [clean_eq_text target, clean_eq_text []] at whole
      exact absurd whole (Location.text_short rfl (locate target) r)
    · rw [rest, join_two empty, target', ← clean_eq_text, again]

/-- **`has_prefix` is about elements**, and `rel` leads from the base to the target, but for these two kinds of
bases. -/
theorem hasPrefix_under_iff (base target : Bytes) :
    ((hasPrefix base target = true ↔ Under base target) ∧
      (hasPrefix base target = true → clean (join [base, rel base target]) = clean target)) ↔
    ¬ Misjudged base target := by
  rw [and_iff_left fun h => join_rel h, hasPrefix_iff, under_iff, Misjudged, elements_clean, elements_clean,
    ← locate_rooted, ← locate_rooted]
  generalize locate base = l
  generalize locate target = m
  constructor
  · intro agree wrong
    obtain ⟨root, e, rest, cut, odd⟩ := wrong
    have first := m.up_first cut
    by_cases none : l.pieces = []
    · obtain ⟨-, rest', cut', only⟩ := agree.mpr ⟨root, e :: rest, cut, first.mpr (odd.mp none)⟩
      rw [only none, cut] at cut'
      simp at cut'
    · obtain ⟨-, rest', cut', below⟩ := agree.mp ⟨root, e :: rest, cut, fun h => absurd h none⟩
      rw [cut, append_cancel_left_eq] at cut'
      exact none (odd.mpr (first.mp (cut' ▸ below)))
  · intro right
    refine and_congr_right fun root => exists_congr fun rest => and_congr_right fun cut => ?_
    cases rest with
    | nil => simp
    | cons e rest =>
      rw [m.up_first cut]
      by_contra odd
      refine right ⟨root, e, rest, cut, ?_⟩
      simp only [cons_ne_nil, imp_false] at odd
      tauto

/-- The directory above is taken to have all directories above it below it, and the root nothing. -/
theorem hasPrefix_not :
    (hasPrefix dotdot ("../../etc".toList.map ch) = true ∧ ¬ Under dotdot ("../../etc".toList.map ch)) ∧
      hasPrefix [sep] ("/etc".toList.map ch) = false ∧ Under [sep] ("/etc".toList.map ch) := by
  refine ⟨⟨by decide, fun under => ?_⟩, by decide, by decide, ["etc".toList.map ch], by decide, by decide⟩
  obtain ⟨-, rest, cut, below⟩ := under
  have target : elements (clean ("../../etc".toList.map ch)) = dotdot :: dotdot :: ["etc".toList.map ch] := by decide
  have start : elements (clean dotdot) = [dotdot] := by decide
  rw [target, start] at cut
  obtain rfl : dotdot :: ["etc".toList.map ch] = rest := (List.cons.inj cut).2
  exact below mem_cons_self

end Voila.Path
