import Voila.Lib.Frames
import Voila.Path.Location

/-!
# Voila.Load.ModHash

The sum of a module (`mod.voi`): `ModHash`, `collect_mod_files` and `mod_fnv`.

A module directory is the files below it, each by its path from there. What `os.listdir`, `os.isdir` and
`os.read` say of a path follows from these; a directory without files is not seen, and adds nothing to the
sum.
-/

open List

namespace Voila.Load

open Voila.Rt (Bytes)
open Voila.Rt.Json (ch)
open Voila.Path (sep split IsName)

/-! ### Module directories -/

/-- A path from the module directory: names that a file system takes. -/
def IsRel (p : Bytes) : Prop := ∀ e ∈ split p, IsName e ∧ (0 : UInt8) ∉ e

instance (p : Bytes) : Decidable (IsRel p) := inferInstanceAs (Decidable (∀ e ∈ split p, _))

structure ModTree where
  /-- Each file with what reading it gives: none if it cannot be read. -/
  files : List (Bytes × Option Bytes)
  rel : ∀ f ∈ files, IsRel f.1
  distinct : (files.map Prod.fst).Nodup
  /-- A file has nothing below it. -/
  apart : ∀ f ∈ files, ∀ g ∈ files, ¬ f.1 ++ [sep] <+: g.1

namespace ModTree

variable (t : ModTree)

def paths : List Bytes := t.files.map Prod.fst

/-- What is left of a path below a directory. -/
def under (d p : Bytes) : Option Bytes :=
  if d = [] then some p
  else if d ++ [sep] <+: p then some (p.drop (d.length + 1))
  else none

/-- `os.listdir`. -/
def listdir (d : Bytes) : List Bytes :=
  (((t.paths.filterMap (under d)).map fun p => p.takeWhile (· ≠ sep)).dedup).insertionSort (· ≤ ·)

/-- `os.isdir`. -/
def isdir (p : Bytes) : Bool := t.paths.any fun q => p ++ [sep] <+: q

/-- `os.read`. -/
def read (p : Bytes) : Option Bytes := (t.files.find? fun f => f.1 = p).bind Prod.snd

end ModTree

/-! ### The sum -/

/-- The bytes of a literal. -/
def lit (s : String) : Bytes := s.toList.flatMap String.utf8EncodeChar

/-- A file that the sum covers, by its name. -/
def isModFile (e : Bytes) : Bool := lit ".voi" <:+ e ∨ e = lit "voila.mod"

/-- `collect_mod_files`, in directories that are not nested deeper than `fuel`. -/
def collectModFiles (t : ModTree) : Nat → Bytes → List Bytes
  | 0, _ => []
  | fuel + 1, rel =>
    ((t.listdir rel).insertionSort (· ≤ ·)).flatMap fun e =>
      if e.head? = some (ch '.') then []
      else
        let r := if rel ≠ [] then rel ++ sep :: e else e
        if t.isdir r then collectModFiles t fuel r
        else if isModFile e then [r]
        else []

/-- `mod_fnv`. -/
def modFnv (h : Int64) (s : Bytes) : Int64 :=
  s.foldl (fun h b => (h ^^^ b.toUInt64.toInt64) * 1099511628211) h

/-- The files of `ModHash`: no directory is nested deeper than a path is long. -/
def modFiles (t : ModTree) : List Bytes :=
  (collectModFiles t ((t.paths.map List.length).sum + 1) []).insertionSort (· ≤ ·)

/-- What stands for a file in the sum. -/
def modContent (t : ModTree) (rel : Bytes) : Bytes := (t.read rel).getD [1]

/-- A digit of `%x`. -/
def hexDigit (n : Nat) : UInt8 := if n < 10 then ch '0' + n.toUInt8 else ch 'a' + (n - 10).toUInt8

/-- `%016x`. -/
def hex16 (h : Int64) : Bytes :=
  (List.range 16).map fun i => hexDigit (h.toUInt64.toNat / 16 ^ (15 - i) % 16)

/-- `ModHash`. -/
def modHash (t : ModTree) : Bytes :=
  let h := (modFiles t).foldl (fun h rel =>
    let h := modFnv h rel
    let h := modFnv h [0]
    let h := modFnv h (modContent t rel)
    modFnv h [0]) (-3750763034362895579)
  lit "f1a64:" ++ hex16 h

/-- The bytes that go into the sum. -/
def modStream (t : ModTree) : Bytes := (modFiles t).flatMap fun rel => rel ++ 0 :: (modContent t rel ++ [0])

end Voila.Load

/-!
What the sum of a module tells apart. The files that it covers go in by their paths in order, each path and
each content closed by a NUL (`modStream_eq`). Contents without a NUL are told apart so
(`same_of_modStream`). A content may hold one, though, and then a path and another NUL: a module of two files
has the bytes of one where the first file has taken in the second, and only a single file without a path
inside it is told from every other module (`told_iff`).
-/

namespace Voila.Load

open Voila.Rt (Bytes)
open Voila.Rt.Json (ch)
open Voila.Path (sep split IsName glue)
open Voila.Lib (frames frames_cons frames_merge frames_single frames_injective)

/-! ### What the sum reads -/

theorem modFnv_append (h : Int64) (a b : Bytes) : modFnv h (a ++ b) = modFnv (modFnv h a) b := foldl_append

/-- The sum is that of its bytes. -/
theorem modHash_eq (t : ModTree) :
    modHash t = lit "f1a64:" ++ hex16 (modFnv (-3750763034362895579) (modStream t)) := by
  have loop : ∀ (files : List Bytes) (h : Int64),
      files.foldl (fun h rel => modFnv (modFnv (modFnv (modFnv h rel) [0]) (modContent t rel)) [0]) h =
        modFnv h (files.flatMap fun rel => rel ++ 0 :: (modContent t rel ++ [0])) := by
    intro files
    induction files with
    | nil => exact fun _ => rfl
    | cons rel files ih =>
      intro h
      rw [foldl_cons, ih, flatMap_cons, modFnv_append, modFnv_append,
        ← singleton_append (l := modContent t rel ++ [0]), modFnv_append, modFnv_append]
  unfold modHash modStream
  dsimp only
  rw [loop]

/-! ### Paths -/

variable {e d p c : Bytes} {fuel : Nat} {es : List (Bytes × Bytes)}

theorem split_name (he : sep ∉ e) : split e = [e] := by
  have single : ∀ e' ∈ [e], sep ∉ e' := by simpa using he
  have cut := Voila.Path.split_glue single (cons_ne_nil _ _)
  rwa [show glue [e] = e from by simp [glue]] at cut

theorem takeWhile_below (he : sep ∉ e) (rest : Bytes) :
    (e ++ sep :: rest).takeWhile (· ≠ sep) = e := by
  have other : ∀ c ∈ e, decide (c ≠ sep) = true := fun c hc =>
    decide_eq_true fun same : c = sep => he (same ▸ hc)
  rw [takeWhile_append_of_pos other]
  simp

theorem takeWhile_name (he : sep ∉ e) : e.takeWhile (· ≠ sep) = e :=
  takeWhile_eq_self_iff.mpr fun c hc => decide_eq_true fun same : c = sep => he (same ▸ hc)

/-- A path is a name, or the name of a directory and a path below it. -/
theorem path_cases (p : Bytes) : sep ∉ p ∨ ∃ e rest, sep ∉ e ∧ p = e ++ sep :: rest := by
  by_cases deep : sep ∈ p
  · obtain ⟨e, rest, cut, first⟩ := eq_append_cons_of_mem deep
    exact Or.inr ⟨e, rest, first, cut⟩
  · exact Or.inl deep

theorem split_below (he : sep ∉ e) (rest : Bytes) : split (e ++ sep :: rest) = e :: split rest := by
  rw [Voila.Path.split_slash, split_name he, singleton_append]

namespace ModTree

/-- A path below a directory. -/
def join (d e : Bytes) : Bytes := if d ≠ [] then d ++ sep :: e else e

theorem under_eq_some_iff (d p rest : Bytes) : under d p = some rest ↔ p = join d rest := by
  unfold under join
  by_cases top : d = []
  · rw [if_pos top, if_neg (not_not.mpr top), Option.some.injEq]
  · rw [if_neg top, if_pos top]
    constructor
    · intro h
      split at h
      · next below =>
          obtain ⟨rest', rfl⟩ := below
          rw [← Option.some.inj h]
          simp
      · cases h
    · intro h
      subst h
      rw [if_pos ⟨rest, by simp⟩]
      simp

variable {t : ModTree}

theorem mem_listdir {d e : Bytes} :
    e ∈ t.listdir d ↔ ∃ rest, join d rest ∈ t.paths ∧ rest.takeWhile (· ≠ sep) = e := by
  unfold listdir
  rw [mem_insertionSort, mem_dedup, mem_map]
  constructor
  · intro h
    obtain ⟨rest, found, first⟩ := h
    obtain ⟨p, hp, below⟩ := mem_filterMap.mp found
    rw [under_eq_some_iff] at below
    exact ⟨rest, below ▸ hp, first⟩
  · intro h
    obtain ⟨rest, hp, first⟩ := h
    exact ⟨rest, mem_filterMap.mpr ⟨_, hp, (under_eq_some_iff d _ rest).mpr rfl⟩, first⟩

variable {p : Bytes}

theorem isdir_iff : t.isdir p = true ↔ ∃ rest, p ++ sep :: rest ∈ t.paths := by
  unfold isdir
  rw [any_eq_true]
  constructor
  · intro h
    obtain ⟨q, hq, below⟩ := h
    obtain ⟨rest, rfl⟩ := of_decide_eq_true below
    exact ⟨rest, by rwa [append_assoc] at hq⟩
  · intro h
    obtain ⟨rest, hp⟩ := h
    exact ⟨_, hp, decide_eq_true ⟨rest, by simp⟩⟩

/-- A file is not a directory. -/
theorem not_isdir (hp : p ∈ t.paths) : t.isdir p = false := by
  by_contra dir
  obtain ⟨rest, hq⟩ := isdir_iff.mp (eq_true_of_ne_false dir)
  obtain ⟨f, hf, rfl⟩ := mem_map.mp hp
  obtain ⟨g, hg, below⟩ := mem_map.mp hq
  exact t.apart f hf g hg ⟨rest, by rw [below]; simp⟩

theorem isRel_of_mem {p : Bytes} (hp : p ∈ t.paths) : IsRel p := by
  obtain ⟨f, hf, rfl⟩ := mem_map.mp hp
  exact t.rel f hf

end ModTree

open ModTree (join mem_listdir isdir_iff not_isdir isRel_of_mem)

theorem join_ne_nil (he : e ≠ []) : join d e ≠ [] := by
  unfold join
  split
  · simp
  · exact he

theorem join_join (he : e ≠ []) (rest : Bytes) : join (join d e) rest = join d (e ++ sep :: rest) := by
  rw [join, if_pos (join_ne_nil he)]
  unfold join
  split
  · simp
  · rfl

theorem join_inj {d rest rest' : Bytes} (h : join d rest = join d rest') : rest = rest' := by
  unfold join at h
  split at h
  · exact (List.cons.inj (append_cancel_left h)).2
  · exact h

/-- Names of directories and at last of a file that a sum covers. -/
def coversNames : List Bytes → Bool
  | [] => false
  | [e] => e.head? ≠ some (ch '.') ∧ isModFile e
  | e :: es => e.head? ≠ some (ch '.') ∧ coversNames es

theorem coversNames_cons {es : List Bytes} (h : es ≠ []) :
    coversNames (e :: es) = true ↔ e.head? ≠ some (ch '.') ∧ coversNames es = true := by
  cases es with
  | nil => exact absurd rfl h
  | cons e' es => exact decide_eq_true_iff

/-- The elements of a path below a directory name something. -/
theorem ne_nil_of_split {d rest e : Bytes} (hd : IsRel (join d rest)) (h : e ∈ split rest) : e ≠ [] := by
  refine (hd e ?_).1.1.1
  unfold join
  split
  · rw [Voila.Path.split_slash]
    exact mem_append_right _ h
  · exact h

/-- The paths that begin with a name. -/
theorem exists_first {P : Bytes → Prop} (he : sep ∉ e) :
    (∃ rest, P rest ∧ rest.takeWhile (· ≠ sep) = e) ↔ P e ∨ ∃ more, P (e ++ sep :: more) := by
  constructor
  · intro h
    obtain ⟨rest, hrest, first⟩ := h
    obtain plain | ⟨e', more, he', rfl⟩ := path_cases rest
    · obtain rfl : rest = e := (takeWhile_name plain).symm.trans first
      exact Or.inl hrest
    · obtain rfl : e' = e := (takeWhile_below he' more).symm.trans first
      exact Or.inr ⟨more, hrest⟩
  · intro h
    obtain whole | ⟨more, hmore⟩ := h
    · exact ⟨e, whole, takeWhile_name he⟩
    · exact ⟨_, hmore, takeWhile_below he more⟩

/-- The step of `collect_mod_files` at one entry of a directory. -/
theorem mem_entry {t : ModTree} {d e r : Bytes} (he : sep ∉ e) (named : e ≠ [])
    (listed : join d e ∈ t.paths ∨ t.isdir (join d e) = true)
    (ih : ∀ {d r : Bytes}, r ∈ collectModFiles t fuel d ↔
      ∃ rest, r = join d rest ∧ r ∈ t.paths ∧ coversNames (split rest) = true ∧ (split rest).length ≤ fuel) :
    (r ∈ if e.head? = some (ch '.') then []
      else if t.isdir (join d e) then collectModFiles t fuel (join d e)
      else if isModFile e then [join d e] else []) ↔
    ∃ rest, (r = join d rest ∧ r ∈ t.paths ∧ coversNames (split rest) = true ∧ (split rest).length ≤ fuel + 1) ∧
      rest.takeWhile (· ≠ sep) = e := by
  rw [exists_first he, split_name he]
  have more : ∀ rest, coversNames (split (e ++ sep :: rest)) = true ↔
      e.head? ≠ some (ch '.') ∧ coversNames (split rest) = true := fun rest => by
    rw [split_below he, coversNames_cons (Voila.Path.split_ne_nil rest)]
  have file : coversNames [e] = true ↔ e.head? ≠ some (ch '.') ∧ isModFile e = true := decide_eq_true_iff
  by_cases hidden : e.head? = some (ch '.')
  · rw [if_pos hidden]
    refine ⟨fun none => absurd none not_mem_nil, fun h => ?_⟩
    obtain ⟨-, -, covers, -⟩ | ⟨rest, -, -, covers, -⟩ := h
    · exact absurd hidden (file.mp covers).1
    · exact absurd hidden ((more rest).mp covers).1
  · rw [if_neg hidden]
    by_cases dir : t.isdir (join d e) = true
    · rw [if_pos dir, ih]
      constructor
      · intro h
        obtain ⟨rest, rfl, hp, covers, short⟩ := h
        refine Or.inr ⟨rest, join_join named rest, hp, (more rest).mpr ⟨hidden, covers⟩, ?_⟩
        rw [split_below he, length_cons]
        omega
      · intro h
        obtain ⟨rfl, hp, -⟩ | ⟨rest, rfl, hp, covers, short⟩ := h
        · rw [not_isdir hp] at dir
          cases dir
        · rw [split_below he, length_cons] at short
          exact ⟨rest, (join_join named rest).symm, hp, ((more rest).mp covers).2, by omega⟩
    · rw [if_neg dir]
      have own : join d e ∈ t.paths := listed.resolve_right dir
      constructor
      · intro h
        split at h
        · next mod =>
            rw [mem_singleton.mp h]
            exact Or.inl ⟨rfl, own, file.mpr ⟨hidden, mod⟩, by simp⟩
        · exact absurd h not_mem_nil
      · intro h
        obtain ⟨rfl, -, covers, -⟩ | ⟨rest, rfl, hp, -⟩ := h
        · rw [if_pos (file.mp covers).2]
          exact mem_singleton_self _
        · rw [← join_join named, join, if_pos (join_ne_nil named)] at hp
          exact absurd (isdir_iff.mpr ⟨rest, hp⟩) dir

/-- The entries of a directory are names, of a file or of a directory with files. -/
theorem listdir_spec {t : ModTree} (h : e ∈ t.listdir d) :
    sep ∉ e ∧ e ≠ [] ∧ (join d e ∈ t.paths ∨ t.isdir (join d e) = true) := by
  obtain ⟨rest, hp, first⟩ := mem_listdir.mp h
  have named := fun e => ne_nil_of_split (e := e) (isRel_of_mem hp)
  obtain plain | ⟨e', more, he', rfl⟩ := path_cases rest
  · obtain rfl : rest = e := (takeWhile_name plain).symm.trans first
    refine ⟨plain, named rest ?_, Or.inl hp⟩
    rw [split_name plain]
    exact mem_singleton_self rest
  · obtain rfl : e' = e := (takeWhile_below he' more).symm.trans first
    have some : e' ≠ [] := named e' (by rw [split_below he']; exact mem_cons_self)
    refine ⟨he', some, Or.inr (isdir_iff.mpr ⟨more, ?_⟩)⟩
    rwa [← join_join some, join, if_pos (join_ne_nil some)] at hp

theorem mem_collectModFiles {t : ModTree} {d r : Bytes} : r ∈ collectModFiles t fuel d ↔
    ∃ rest, r = join d rest ∧ r ∈ t.paths ∧ coversNames (split rest) = true ∧ (split rest).length ≤ fuel := by
  induction fuel generalizing d r with
  | zero =>
    refine ⟨fun none => absurd none not_mem_nil, fun h => ?_⟩
    obtain ⟨rest, -, -, -, short⟩ := h
    exact absurd (eq_nil_of_length_eq_zero (Nat.le_zero.mp short)) (Voila.Path.split_ne_nil rest)
  | succ fuel ih =>
    rw [collectModFiles, mem_flatMap]
    constructor
    · intro h
      obtain ⟨e, entry, hr⟩ := h
      obtain ⟨he, named, listed⟩ := listdir_spec ((mem_insertionSort _).mp entry)
      obtain ⟨rest, found, -⟩ := (mem_entry he named listed ih).mp hr
      exact ⟨rest, found⟩
    · intro h
      obtain ⟨rest, rfl, found⟩ := h
      have entry : rest.takeWhile (· ≠ sep) ∈ t.listdir d := mem_listdir.mpr ⟨rest, found.1, rfl⟩
      obtain ⟨he, named, listed⟩ := listdir_spec entry
      exact ⟨_, (mem_insertionSort _).mpr entry,
        (mem_entry he named listed ih).mpr ⟨rest, ⟨rfl, found⟩, rfl⟩⟩

theorem collectModFiles_nodup (t : ModTree) (fuel : Nat) (d : Bytes) : (collectModFiles t fuel d).Nodup := by
  induction fuel generalizing d with
  | zero => exact nodup_nil
  | succ fuel ih =>
    rw [collectModFiles, nodup_flatMap]
    constructor
    · intro e _
      split
      · exact nodup_nil
      · show (if t.isdir (join d e) = true then collectModFiles t fuel (join d e)
          else if isModFile e = true then [join d e] else []).Nodup
        split
        · exact ih _
        · split
          · exact nodup_singleton _
          · exact nodup_nil
    · have entries : ((t.listdir d).insertionSort (· ≤ ·)).Nodup := by
        unfold ModTree.listdir
        rw [(perm_insertionSort _ _).nodup_iff, (perm_insertionSort _ _).nodup_iff]
        exact nodup_dedup _
      refine entries.imp_of_mem fun {e e'} he he' other r hr hr' => ?_
      obtain ⟨noSep, named, listed⟩ := listdir_spec ((mem_insertionSort _).mp he)
      obtain ⟨noSep', named', listed'⟩ := listdir_spec ((mem_insertionSort _).mp he')
      obtain ⟨rest, ⟨rfl, -⟩, first⟩ := (mem_entry noSep named listed mem_collectModFiles).mp hr
      obtain ⟨rest', ⟨same, -⟩, first'⟩ := (mem_entry noSep' named' listed' mem_collectModFiles).mp hr'
      refine other ?_
      rw [← first, ← first', join_inj same]

/-! ### The covered files in order -/

instance : Std.Total (α := Bytes) (· ≤ ·) := ⟨List.le_total⟩

instance : IsTrans Bytes (· ≤ ·) := ⟨fun _ _ _ => List.le_trans⟩

/-- A path that a sum covers. -/
def Covers (p : Bytes) : Prop := IsRel p ∧ coversNames (split p) = true

theorem modFiles_nodup (t : ModTree) : (modFiles t).Nodup :=
  (perm_insertionSort _ _).nodup_iff.mpr (collectModFiles_nodup t _ [])

theorem modFiles_sorted (t : ModTree) : (modFiles t).Pairwise (· < ·) := by
  have sorted : (modFiles t).Pairwise (· ≤ ·) := pairwise_insertionSort _ _
  refine (sorted.and (modFiles_nodup t)).imp fun both => ?_
  exact (List.le_iff_lt_or_eq.mp both.1).resolve_right both.2

theorem split_length_le (p : Bytes) : (split p).length ≤ p.length + 1 := by
  induction p with
  | nil => simp [split]
  | cons c p ih =>
    rw [split, splitOn_cons_eq_if_modifyHead]
    unfold split at ih
    split
    · rw [length_cons, length_cons]
      omega
    · rw [length_modifyHead, length_cons]
      omega

theorem mem_modFiles {t : ModTree} : p ∈ modFiles t ↔ p ∈ t.paths ∧ Covers p := by
  unfold modFiles
  rw [mem_insertionSort, mem_collectModFiles]
  constructor
  · intro h
    obtain ⟨rest, rfl, hp, covers, -⟩ := h
    exact ⟨hp, isRel_of_mem hp, covers⟩
  · intro h
    obtain ⟨hp, -, covers⟩ := h
    have deep : p.length ≤ (t.paths.map List.length).sum := le_sum_of_mem (mem_map_of_mem hp)
    have := split_length_le p
    exact ⟨p, rfl, hp, covers, by omega⟩

/-- The covered files with their contents, in the order of the sum. -/
def entries (t : ModTree) : List (Bytes × Bytes) := (modFiles t).map fun rel => (rel, modContent t rel)

theorem modStream_eq (t : ModTree) : modStream t = frames 0 (entries t) := by
  unfold modStream frames entries
  rw [flatMap_map]

/-- Each file can be read. -/
def ModTree.Readable (t : ModTree) : Prop := ∀ f ∈ t.files, f.2 ≠ none

theorem read_eq_some_iff {t : ModTree} : t.read p = some c ↔ (p, some c) ∈ t.files := by
  unfold ModTree.read
  constructor
  · intro h
    obtain ⟨f, found, content⟩ := Option.bind_eq_some_iff.mp h
    have key : f.1 = p := of_decide_eq_true (find?_some (p := fun f : Bytes × Option Bytes => decide (f.1 = p)) found)
    have file : f = (p, some c) := Prod.ext key content
    exact file ▸ mem_of_find?_eq_some found
  · intro file
    obtain ⟨f, found⟩ : ∃ f, t.files.find? (fun f => f.1 = p) = some f :=
      Option.isSome_iff_exists.mp (find?_isSome.mpr ⟨_, file, decide_eq_true rfl⟩)
    have key : f.1 = p := of_decide_eq_true (find?_some (p := fun f : Bytes × Option Bytes => decide (f.1 = p)) found)
    have same := inj_on_of_nodup_map t.distinct (mem_of_find?_eq_some found) file key
    rw [found, same]
    rfl

theorem mem_entries {t : ModTree} (readable : t.Readable) :
    (p, c) ∈ entries t ↔ Covers p ∧ t.read p = some c := by
  unfold entries
  rw [mem_map]
  constructor
  · intro h
    obtain ⟨rel, hrel, entry⟩ := h
    cases entry
    obtain ⟨hp, covers⟩ := mem_modFiles.mp hrel
    obtain ⟨⟨key, content⟩, file, rfl⟩ := mem_map.mp hp
    obtain ⟨c, rfl⟩ := Option.ne_none_iff_exists'.mp (readable _ file)
    have read := read_eq_some_iff.mpr file
    refine ⟨covers, ?_⟩
    unfold modContent
    rw [read]
    rfl
  · intro h
    obtain ⟨covers, read⟩ := h
    have file := read_eq_some_iff.mp read
    refine ⟨p, mem_modFiles.mpr ⟨mem_map_of_mem (f := Prod.fst) file, covers⟩, ?_⟩
    unfold modContent
    rw [read]
    rfl

/-! ### Lists of files as modules -/

/-- Covered files in order that one module can have. -/
structure FileList (es : List (Bytes × Bytes)) : Prop where
  covers : ∀ e ∈ es, Covers e.1
  sorted : es.Pairwise fun a b => a.1 < b.1
  apart : ∀ a ∈ es, ∀ b ∈ es, ¬ a.1 ++ [sep] <+: b.1

theorem FileList.nodup (h : FileList es) : (es.map Prod.fst).Nodup := by
  rw [List.Nodup, pairwise_map]
  exact h.sorted.imp fun {a b} before (same : a.1 = b.1) => List.lt_irrefl b.1 (same ▸ before)

theorem fileList_entries (t : ModTree) : FileList (entries t) := by
  have file : ∀ e ∈ entries t, e.1 ∈ modFiles t := fun e he => by
    obtain ⟨rel, hrel, rfl⟩ := mem_map.mp he
    exact hrel
  refine ⟨fun e he => (mem_modFiles.mp (file e he)).2, ?_, fun a ha b hb => ?_⟩
  · unfold entries
    rw [pairwise_map]
    exact modFiles_sorted t
  · obtain ⟨f, hf, first⟩ := mem_map.mp (mem_modFiles.mp (file a ha)).1
    obtain ⟨g, hg, second⟩ := mem_map.mp (mem_modFiles.mp (file b hb)).1
    rw [← first, ← second]
    exact t.apart f hf g hg

/-- The module of listed files. -/
def build (es : List (Bytes × Bytes)) (h : FileList es) : ModTree where
  files := es.map fun e => (e.1, some e.2)
  rel f hf := by
    obtain ⟨e, he, rfl⟩ := mem_map.mp hf
    exact (h.covers e he).1
  distinct := by
    rw [map_map]
    exact h.nodup
  apart f hf g hg := by
    obtain ⟨a, ha, rfl⟩ := mem_map.mp hf
    obtain ⟨b, hb, rfl⟩ := mem_map.mp hg
    exact h.apart a ha b hb

theorem build_readable (h : FileList es) : (build es h).Readable := by
  intro f hf
  obtain ⟨e, -, rfl⟩ := mem_map.mp hf
  exact Option.some_ne_none e.2

theorem entries_build (h : FileList es) : entries (build es h) = es := by
  have mem : ∀ e, e ∈ entries (build es h) ↔ e ∈ es := fun ⟨p, c⟩ => by
    rw [mem_entries (build_readable h), read_eq_some_iff]
    constructor
    · intro both
      obtain ⟨e, he, same⟩ := mem_map.mp both.2
      obtain ⟨rfl, content⟩ := Prod.mk.inj same
      rwa [← Option.some.inj content]
    · intro he
      exact ⟨h.covers _ he, mem_map.mpr ⟨_, he, rfl⟩⟩
  have distinct : ∀ {es : List (Bytes × Bytes)}, FileList es → es.Nodup := fun listed =>
    List.Nodup.of_map Prod.fst listed.nodup
  have perm : (entries (build es h)).Perm es :=
    (perm_ext_iff_of_nodup (distinct (fileList_entries _)) (distinct h)).mpr mem
  refine List.Perm.eq_of_pairwise (fun a b _ _ before after => ?_) (fileList_entries _).sorted h.sorted perm
  exact absurd (List.lt_trans before after) (List.lt_irrefl _)

/-! ### What is told apart -/

/-- The two modules have the same covered files. -/
def Same (t t' : ModTree) : Prop := ∀ p, Covers p → t.read p = t'.read p

theorem same_of_entries {t t' : ModTree} (readable : t.Readable) (readable' : t'.Readable)
    (h : entries t = entries t') : Same t t' := by
  intro p covers
  refine Option.ext fun c => ?_
  have both := mem_entries readable (p := p) (c := c)
  rw [h, mem_entries readable'] at both
  exact ⟨fun read => (both.mpr ⟨covers, read⟩).2, fun read => (both.mp ⟨covers, read⟩).2⟩

/-- Every readable module with the bytes of this one has its files. -/
def Told (t : ModTree) : Prop := ∀ t' : ModTree, t'.Readable → modStream t' = modStream t → Same t' t

/-- A content that holds a path between two NULs, of a file that can come behind the one of the content. -/
def Decoy (p c : Bytes) : Prop :=
  ∃ u q v, c = u ++ 0 :: (q ++ 0 :: v) ∧ Covers q ∧ p < q ∧ ¬ p ++ [sep] <+: q

/-- At most one covered file, without a further path in it. -/
structure Alone (t : ModTree) : Prop where
  single : ∀ p q c d, Covers p → Covers q → t.read p = some c → t.read q = some d → p = q
  clear : ∀ p c, Covers p → t.read p = some c → ¬ Decoy p c

/-- No content holds a NUL. -/
def NulFree (t : ModTree) : Prop := ∀ p c, Covers p → t.read p = some c → 0 ∉ c

theorem nul_notMem_glue {es : List Bytes} (h : ∀ e ∈ es, (0 : UInt8) ∉ e) : (0 : UInt8) ∉ glue es := by
  induction es with
  | nil => exact not_mem_nil
  | cons e es ih =>
    have first := h e mem_cons_self
    have rest := ih fun e' he' => h e' (mem_cons_of_mem _ he')
    by_cases last : es = []
    · rw [last, show glue [e] = e from by simp [glue]]
      exact first
    · rw [Voila.Path.glue_cons last, mem_append, mem_cons]
      exact fun other => other.elim first fun other => other.elim (by decide) rest

theorem nul_notMem (h : IsRel p) : (0 : UInt8) ∉ p := by
  rw [← Voila.Path.glue_split p]
  exact nul_notMem_glue fun e he => (h e he).2

theorem entry_nul {t : ModTree} {e : Bytes × Bytes} (he : e ∈ entries t) : (0 : UInt8) ∉ e.1 :=
  nul_notMem ((fileList_entries t).covers e he).1

/-- A module of one file without a further path in it is told from the others. -/
theorem told_of_alone {t : ModTree} (readable : t.Readable) (alone : Alone t) : Told t := by
  intro t' readable' same
  refine same_of_entries readable' readable ?_
  rw [modStream_eq, modStream_eq] at same
  cases own : entries t with
  | nil =>
    rw [own] at same
    exact (Voila.Lib.frames_eq_nil_iff _).mp same
  | cons e es =>
    obtain ⟨p, c⟩ := e
    have file : (p, c) ∈ entries t := own ▸ mem_cons_self
    obtain ⟨covers, read⟩ := (mem_entries readable).mp file
    -- it is the only file
    have last : es = [] := by
      cases es with
      | nil => rfl
      | cons e' es =>
        obtain ⟨p', c'⟩ := e'
        obtain ⟨covers', read'⟩ := (mem_entries readable (p := p') (c := c')).mp (own ▸ by simp)
        have before : p < p' := by
          have sorted := (fileList_entries t).sorted
          rw [own, pairwise_cons] at sorted
          exact sorted.1 _ mem_cons_self
        rw [alone.single p p' c c' covers covers' read read'] at before
        exact absurd before (List.lt_irrefl _)
    subst last
    rw [own] at same
    obtain equal | ⟨u, e', v, es', other, content⟩ := frames_single (entry_nul file) (fun e he => entry_nul he) same
    · exact equal
    · have listed := fileList_entries t'
      rw [other] at listed
      have sorted := pairwise_cons.mp listed.sorted
      refine absurd ⟨u, e'.1, v, content, listed.covers e' (by simp), sorted.1 e' mem_cons_self, ?_⟩
        (alone.clear p c covers read)
      exact listed.apart (p, u) mem_cons_self e' (by simp)

/-- A module of two files has the bytes of one. -/
theorem not_told_of_two {t : ModTree} {a b : Bytes × Bytes} (readable : t.Readable)
    (h : entries t = a :: b :: es) : ¬ Told t := by
  intro told
  have listed := fileList_entries t
  rw [h] at listed
  have sorted := pairwise_cons.mp listed.sorted
  have sorted' := pairwise_cons.mp sorted.2
  have swallowed : FileList ((a.1, a.2 ++ 0 :: (b.1 ++ 0 :: b.2)) :: es) := by
    have key : ∀ e ∈ (a.1, a.2 ++ 0 :: (b.1 ++ 0 :: b.2)) :: es, ∃ e' ∈ a :: b :: es, e.1 = e'.1 := by
      intro e he
      cases mem_cons.mp he with
      | inl first => exact ⟨a, mem_cons_self, by rw [first]⟩
      | inr later => exact ⟨e, by simp [later], rfl⟩
    refine ⟨fun e he => ?_, pairwise_cons.mpr ⟨fun e he => ?_, sorted'.2⟩, fun e he f hf => ?_⟩
    · obtain ⟨e', he', same⟩ := key e he
      exact same ▸ listed.covers e' he'
    · exact sorted.1 e (mem_cons_of_mem _ he)
    · obtain ⟨e', he', same⟩ := key e he
      obtain ⟨f', hf', same'⟩ := key f hf
      rw [same, same']
      exact listed.apart e' he' f' hf'
  have bytes : modStream (build _ swallowed) = modStream t := by
    rw [modStream_eq, modStream_eq, entries_build, h]
    exact frames_merge a.1 a.2 b.1 b.2 es
  obtain ⟨covers, read⟩ := (mem_entries readable (p := b.1) (c := b.2)).mp (by rw [h]; simp)
  rw [← told _ (build_readable swallowed) bytes b.1 covers] at read
  have file := (mem_entries (build_readable swallowed)).mpr ⟨covers, read⟩
  rw [entries_build] at file
  cases mem_cons.mp file with
  | inl first =>
    have before := sorted.1 b mem_cons_self
    rw [(Prod.mk.inj first).1] at before
    exact List.lt_irrefl _ before
  | inr later => exact List.lt_irrefl _ (sorted'.1 _ later)

/-- A file with a further path in it has the bytes of two. -/
theorem not_told_of_decoy {t : ModTree} (readable : t.Readable) (h : entries t = [(p, c)])
    (decoy : Decoy p c) : ¬ Told t := by
  intro told
  obtain ⟨u, q, v, rfl, covers, before, apart⟩ := decoy
  have listed := fileList_entries t
  rw [h] at listed
  have own := listed.covers _ mem_cons_self
  have two : FileList [(p, u), (q, v)] := by
    refine ⟨fun e he => ?_, by simpa using before, fun e he f hf => ?_⟩
    · simp only [mem_cons, not_mem_nil, or_false] at he
      obtain rfl | rfl := he
      · exact own
      · exact covers
    · simp only [mem_cons, not_mem_nil, or_false] at he hf
      have longer : ∀ q : Bytes, ¬ q ++ [sep] <+: q := fun q below => by
        have := below.length_le
        rw [length_append, length_singleton] at this
        omega
      obtain rfl | rfl := he
      · obtain rfl | rfl := hf
        · exact longer _
        · exact apart
      · obtain rfl | rfl := hf
        · -- a directory comes before what is below it
          intro below
          exact List.IsPrefix.le ((prefix_append _ _).trans below) before
        · exact longer _
  have bytes : modStream (build _ two) = modStream t := by
    rw [modStream_eq, modStream_eq, entries_build, h]
    exact (frames_merge p u q v []).symm
  have file : (q, v) ∈ entries (build _ two) := by
    rw [entries_build]
    simp
  have read := ((mem_entries (build_readable two)).mp file).2
  rw [told _ (build_readable two) bytes q covers] at read
  have only := (mem_entries readable).mpr ⟨covers, read⟩
  rw [h, mem_singleton] at only
  rw [(Prod.mk.inj only).1] at before
  exact List.lt_irrefl _ before

theorem alone_of_told {t : ModTree} (readable : t.Readable) (told : Told t) : Alone t := by
  have few : ∀ a b es, entries t ≠ a :: b :: es := fun a b es h => not_told_of_two readable h told
  constructor
  · intro p q c d covers covers' read read'
    have first := (mem_entries readable).mpr ⟨covers, read⟩
    have second := (mem_entries readable).mpr ⟨covers', read'⟩
    cases own : entries t with
    | nil =>
      rw [own] at first
      exact absurd first not_mem_nil
    | cons a es =>
      cases es with
      | nil =>
        rw [own, mem_singleton] at first second
        exact (Prod.mk.inj (first.trans second.symm)).1
      | cons b es => exact absurd own (few a b es)
  · intro p c covers read decoy
    have file := (mem_entries readable).mpr ⟨covers, read⟩
    cases own : entries t with
    | nil =>
      rw [own] at file
      exact absurd file not_mem_nil
    | cons a es =>
      cases es with
      | nil =>
        rw [own, mem_singleton] at file
        exact not_told_of_decoy readable (file ▸ own) decoy told
      | cons b es => exact few a b es own

theorem same_of_modStream {t t' : ModTree} (readable : t.Readable) (readable' : t'.Readable) (free : NulFree t)
    (free' : NulFree t') (h : modStream t' = modStream t) : Same t' t := by
  have parts : ∀ {t : ModTree}, t.Readable → NulFree t → ∀ e ∈ entries t, (0 : UInt8) ∉ e.1 ∧ (0 : UInt8) ∉ e.2 :=
    fun readable free e he =>
      have file := (mem_entries readable).mp he
      ⟨entry_nul he, free e.1 e.2 file.1 file.2⟩
  rw [modStream_eq, modStream_eq] at h
  exact same_of_entries readable' readable (frames_injective (parts readable' free') (parts readable free) h)

/-- Which modules are told from all others by the bytes that are summed, and that modules without NULs are
told from each other. -/
theorem told_iff {t : ModTree} (readable : t.Readable) : (Told t ↔ Alone t) ∧
    ∀ t' : ModTree, t'.Readable → NulFree t → NulFree t' → modStream t' = modStream t → Same t' t :=
  ⟨⟨alone_of_told readable, told_of_alone readable⟩, fun _ readable' free free' same =>
    same_of_modStream readable readable' free free' same⟩

/-- A module of the one file `a.voi`. -/
def oneFile (content : Bytes) : ModTree where
  files := [(lit "a.voi", some content)]
  rel f hf := by
    rw [mem_singleton.mp hf]
    show IsRel (lit "a.voi")
    decide
  distinct := nodup_singleton _
  apart f hf g hg := by
    rw [mem_singleton.mp hf, mem_singleton.mp hg]
    show ¬ lit "a.voi" ++ [sep] <+: lit "a.voi"
    decide

theorem oneFile_readable (content : Bytes) : (oneFile content).Readable := by
  intro f hf
  rw [mem_singleton.mp hf]
  exact Option.some_ne_none content

/-- A file without a NUL is told from every other module. -/
theorem told_oneFile : Told (oneFile [ch 'x']) := by
  have only : ∀ p c, (oneFile [ch 'x']).read p = some c → p = lit "a.voi" ∧ c = [ch 'x'] := by
    intro p c read
    obtain ⟨key, content⟩ := Prod.mk.inj (mem_singleton.mp (read_eq_some_iff.mp read))
    exact ⟨key, Option.some.inj content⟩
  refine (told_iff (oneFile_readable _)).1.mpr ⟨fun p q c d _ _ first second => ?_, fun p c _ read decoy => ?_⟩
  · exact (only p c first).1.trans (only q d second).1.symm
  · obtain ⟨u, q, v, cut, -⟩ := decoy
    have nul : (0 : UInt8) ∈ c := by simp [cut]
    rw [(only p c read).2] at nul
    revert nul
    decide

/-- A second file beside it. -/
def twoFiles : ModTree where
  files := [(lit "a.voi", some [ch 'x']), (lit "b.voi", some [ch 'y'])]
  rel := by decide
  distinct := by decide
  apart := by decide

/-- The second file and the first one with the second inside it have one sum. -/
theorem twoFiles_not_told :
    let swallowed := oneFile (ch 'x' :: 0 :: (lit "b.voi" ++ [0, ch 'y']))
    swallowed.Readable ∧ twoFiles.Readable ∧ modStream swallowed = modStream twoFiles ∧
      modHash swallowed = modHash twoFiles ∧ ¬ Same swallowed twoFiles := by
  have stream : modStream (oneFile (ch 'x' :: 0 :: (lit "b.voi" ++ [0, ch 'y']))) =
      modStream twoFiles := by
    decide
  refine ⟨oneFile_readable _, by unfold ModTree.Readable; decide, stream, ?_, fun same => ?_⟩
  · rw [modHash_eq, modHash_eq, stream]
  · have read := same (lit "b.voi") ⟨by decide, by decide⟩
    revert read
    decide

end Voila.Load
