import Voila.Compress.Archive
import Voila.Http.TextSound

/-!
# Voila.Compress.PlanSound

What `plan` accepts. A proper name is its plain elements, and the key of a member is their lower case, so
cutting a key gives the keys of the directories above it (`mem_above`). The loop over the members goes on
exactly while the members so far are `Accepted` (`planStep`), and so every pair of members that it lets
through stays apart (`plan_ok_iff`, `placed_of_plan`).

Its errors quote names as formats. One is thrown when the first member that is not accepted, or the first
file that is also a directory, has a verb in what is quoted of it (`plan_safe_iff`).
-/

open List

namespace Voila.Compress

open Voila.Rt (Bytes lower lower_slash lower_no_slash lower_ne_nil)
open Voila.Rt.Json (ch)
open Voila.Http (Fail errf lit Calm Safe bind_of bind_eq_ok bind_ok calm_bind_iff calm_ok_forall errf_ne_ok
  errf_calm_iff lit_safe lit_safe_append safe_append_lit safe_append_end)
open Voila.Path

/-! ### Names -/

/-- The elements that count. -/
def counted (ps : List Bytes) : List Bytes := ps.filter fun p => p ≠ [] ∧ p ≠ dot

/-- The elements of a name. -/
abbrev elements (name : Bytes) : List Bytes := counted (split name)

/-- A name that stays inside the directory it is extracted into. -/
structure Proper (name : Bytes) : Prop where
  relative : name.head? ≠ some sep
  clean : ch '\\' ∉ name ∧ 0 ∉ name
  inside : dotdot ∉ split name
  named : elements name ≠ []

/-- The path that a name stands for. -/
def relOf (name : Bytes) : Bytes := glue (elements name)

variable {α : Type} {name key q : Bytes} {m : Member} {set : List Bytes} {ms : List Member}
  {st : Plan}

theorem refuse_calm_iff (name : Bytes) : Calm (refuse name : Except Fail α) ↔ Safe name := by
  rw [refuse, errf_calm_iff, lit_safe_append (by decide)]

theorem refuse_ne_ok (name : Bytes) (a : α) : (refuse name : Except Fail α) ≠ .ok a :=
  errf_ne_ok _ a

theorem partsLoop_eq (name : Bytes) (parts ps : List Bytes) :
    partsLoop name parts ps = if dotdot ∈ ps then refuse name else .ok (parts ++ counted ps) := by
  induction ps generalizing parts with
  | nil => simp [partsLoop, counted]
  | cons p ps ih =>
    rw [partsLoop]
    by_cases hup : p = dotdot
    · rw [if_pos hup, if_pos (hup ▸ mem_cons_self)]
    · have hmem : dotdot ∈ p :: ps ↔ dotdot ∈ ps := by simp [Ne.symm hup]
      rw [if_neg hup]
      by_cases hp : p ≠ [] ∧ p ≠ dot
      · rw [if_pos hp, ih, counted, counted, filter_cons_of_pos (by simpa using hp)]
        simp only [hmem, append_assoc, singleton_append]
      · rw [if_neg hp, ih, counted, counted, filter_cons_of_neg (by simpa using hp)]
        simp only [hmem]

theorem safePath_proper (h : Proper name) : safePath name = .ok (relOf name) := by
  have hne : name ≠ [] := by
    rintro rfl
    exact h.named (by decide)
  have hclean : ¬ (name.head? = some sep ∨ ch '\\' ∈ name ∨ 0 ∈ name) :=
    not_or.mpr ⟨h.relative, not_or.mpr h.clean⟩
  rw [safePath, if_neg hne, if_neg hclean]
  refine bind_of (by rw [partsLoop_eq, if_neg h.inside, nil_append]) ?_
  rw [if_neg h.named]
  rfl

theorem safePath_improper (h : ¬ Proper name) :
    (Calm (safePath name) ↔ Safe name) ∧ ∀ rel, safePath name ≠ .ok rel := by
  by_cases hne : name = []
  · subst hne
    rw [safePath, if_pos rfl]
    exact ⟨iff_of_true ((errf_calm_iff _).mpr (lit_safe (by decide))) rfl, errf_ne_ok _⟩
  rw [safePath, if_neg hne]
  by_cases hclean : name.head? = some sep ∨ ch '\\' ∈ name ∨ 0 ∈ name
  · rw [if_pos hclean]
    exact ⟨refuse_calm_iff name, refuse_ne_ok name⟩
  rw [if_neg hclean, partsLoop_eq]
  by_cases hup : dotdot ∈ split name
  · rw [if_pos hup]
    refine ⟨?_, fun rel hrel => ?_⟩
    · refine calm_bind_iff.trans ((and_iff_left ?_).trans (refuse_calm_iff name))
      exact fun a ha => absurd ha (refuse_ne_ok name a)
    · obtain ⟨a, ha, -⟩ := bind_eq_ok hrel
      exact refuse_ne_ok name a ha
  · have hnamed : elements name = [] := by
      by_contra hnamed
      rw [not_or, not_or] at hclean
      exact h ⟨hclean.1, hclean.2, hup, hnamed⟩
    rw [if_neg hup, nil_append]
    change (Calm (if elements name = [] then refuse name else _) ↔ _) ∧
      ∀ rel, (if elements name = [] then refuse name else _) ≠ _
    rw [if_pos hnamed]
    exact ⟨refuse_calm_iff name, refuse_ne_ok name⟩

theorem elements_no_slash {name p : Bytes} (h : p ∈ elements name) : sep ∉ p :=
  not_mem_split (mem_of_mem_filter h)

theorem split_relOf (h : elements name ≠ []) : split (relOf name) = elements name :=
  split_glue (fun _ hp => elements_no_slash hp) h

theorem Proper.plain (h : Proper name) : ∀ p ∈ split (relOf name), Plain p := by
  intro p hp
  rw [split_relOf h.named] at hp
  obtain ⟨hmem, hkeep⟩ := mem_filter.mp hp
  obtain ⟨hne, hdot⟩ : p ≠ [] ∧ p ≠ dot := by simpa using hkeep
  exact ⟨hne, hdot, fun hup => h.inside (hup ▸ hmem)⟩

/-! ### Keys -/

theorem lower_glue (ps : List Bytes) : lower (glue ps) = glue (ps.map lower) := by
  induction ps with
  | nil => rfl
  | cons p ps ih =>
    by_cases hps : ps = []
    · subst hps
      simp [glue]
    · rw [glue_cons hps, map_cons, glue_cons (by simpa using hps), ← ih]
      exact lower_slash p (glue ps)

theorem split_lower (s : Bytes) : split (lower s) = (split s).map lower := by
  have hno : ∀ p ∈ (split s).map lower, sep ∉ p := by
    intro p hp
    obtain ⟨q, hq, rfl⟩ := mem_map.mp hp
    exact lower_no_slash (not_mem_split hq)
  rw [← split_glue hno (by simpa using split_ne_nil s), ← lower_glue, glue_split]

/-- The key of a member. -/
def keyOf (m : Member) : Bytes := lower (relOf m.name)

theorem split_key_ne_nil (h : Proper m.name) : ∀ p ∈ split (keyOf m), p ≠ [] := by
  intro p hp
  rw [keyOf, split_lower] at hp
  obtain ⟨q, hq, rfl⟩ := mem_map.mp hp
  exact lower_ne_nil (h.plain q hq).1

/-! ### The directories above a path -/

/-- `q` is a directory on the way to `p`. -/
def Above (q p : Bytes) : Prop := ∃ t, p = q ++ sep :: t

theorem Above.lower {q p : Bytes} (h : Above q p) : Above (lower q) (lower p) := by
  obtain ⟨t, rfl⟩ := h
  exact ⟨Rt.lower t, lower_slash q t⟩

theorem mem_add : q ∈ add set key ↔ q ∈ set ∨ q = key := by
  unfold add
  split
  · next h => exact ⟨.inl, fun hq => hq.elim id (· ▸ h)⟩
  · simp

/-- The loop adds what the elements before the last one make, behind those that are done. -/
theorem mem_aboveLoop {parts : List Bytes} (done : List Bytes) (hdone : ∀ p ∈ done, p ≠ []) (hparts : ∀ p ∈ parts, p ≠ [])
    (dirs : List Bytes) (q : Bytes) :
    q ∈ aboveLoop dirs (glue done) parts ↔
      q ∈ dirs ∨ ∃ a b, a ≠ [] ∧ b ≠ [] ∧ parts = a ++ b ∧ q = glue (done ++ a) := by
  induction parts generalizing dirs done with
  | nil =>
    refine ⟨.inl, fun h => h.elim id fun ⟨a, b, ha, _, hab, _⟩ => ?_⟩
    exact absurd (append_eq_nil_iff.mp hab.symm).1 ha
  | cons p parts ih =>
    cases parts with
    | nil =>
      refine ⟨.inl, fun h => h.elim id fun ⟨a, b, ha, hb, hab, _⟩ => ?_⟩
      rcases singleton_eq_append_iff.mp hab with h | h
      · exact absurd h.1 ha
      · exact absurd h.2 hb
    | cons p' parts =>
      have habove : (if glue done = [] then p else glue done ++ sep :: p) = glue (done ++ [p]) := by
        by_cases hnil : done = []
        · subst hnil
          simp [glue]
        · rw [if_neg (mt (glue_eq_nil hdone).mp hnil), glue_append hnil (cons_ne_nil _ _)]
          simp [glue]
      have hdone' : ∀ x ∈ done ++ [p], x ≠ [] := by
        intro x hx
        rcases mem_append.mp hx with hx | hx
        · exact hdone x hx
        · exact hparts x (mem_singleton.mp hx ▸ mem_cons_self)
      rw [aboveLoop, habove, ih (done ++ [p]) hdone' (fun x hx => hparts x (mem_cons_of_mem _ hx)), mem_add, or_assoc]
      refine or_congr_right ⟨?_, ?_⟩
      · rintro (rfl | ⟨a, b, ha, hb, hab, rfl⟩)
        · exact ⟨[p], p' :: parts, by simp, by simp, rfl, rfl⟩
        · exact ⟨p :: a, b, by simp, hb, by rw [hab, cons_append], by simp⟩
      · rintro ⟨a, b, ha, hb, hab, rfl⟩
        obtain ⟨x, a, rfl⟩ := exists_cons_of_ne_nil ha
        obtain ⟨rfl, htail⟩ := List.cons.inj hab
        by_cases hnil : a = []
        · exact .inl (hnil ▸ rfl)
        · exact .inr ⟨a, b, hnil, hb, htail, by simp⟩

theorem mem_above (hkey : ∀ p ∈ split key, p ≠ []) (dirs : List Bytes) (q : Bytes) :
    q ∈ aboveLoop dirs [] (split key) ↔ q ∈ dirs ∨ Above q key := by
  refine (mem_aboveLoop [] nofun hkey dirs q).trans (or_congr_right ⟨?_, ?_⟩)
  · rintro ⟨a, b, ha, hb, hab, rfl⟩
    exact ⟨glue b, by rw [nil_append, ← glue_append ha hb, ← hab, glue_split]⟩
  · rintro ⟨t, rfl⟩
    exact ⟨split q, split t, split_ne_nil q, split_ne_nil t, split_slash q t, (glue_split q).symm⟩

/-! ### What is accepted -/

/-- A kind that is extracted. -/
def Known (kind : Bytes) : Prop := kind = lit "file" ∨ kind = lit "dir"

/-- The keys of the files, in order. -/
def fileKeys (ms : List Member) : List Bytes := (ms.filter fun m => m.kind = lit "file").map keyOf

/-- Members that go together, each on its own and as files. -/
structure Accepted (ms : List Member) : Prop where
  each : ∀ m ∈ ms, Proper m.name ∧ Known m.kind
  once : (fileKeys ms).Nodup

/-- `q` is the key of a directory, or of one above a member. -/
def IsDir (ms : List Member) (q : Bytes) : Prop :=
  ∃ m ∈ ms, (m.kind ≠ lit "file" ∧ q = keyOf m) ∨ Above q (keyOf m)

theorem fileKeys_append (ms ms' : List Member) : fileKeys (ms ++ ms') = fileKeys ms ++ fileKeys ms' := by
  rw [fileKeys, filter_append, map_append]
  rfl

theorem fileKeys_file (h : m.kind = lit "file") : fileKeys [m] = [keyOf m] := by
  rw [fileKeys, filter_cons_of_pos (by simpa using h)]
  rfl

theorem fileKeys_other (h : m.kind ≠ lit "file") : fileKeys [m] = [] := by
  rw [fileKeys, filter_cons_of_neg (by simpa using h)]
  rfl

theorem mem_fileKeys (hm : m ∈ ms) (hfile : m.kind = lit "file") : keyOf m ∈ fileKeys ms :=
  mem_map_of_mem (mem_filter.mpr ⟨hm, by simpa using hfile⟩)

theorem Accepted.nil : Accepted [] := ⟨nofun, nodup_nil⟩

theorem Accepted.left {ms ms' : List Member} (h : Accepted (ms ++ ms')) : Accepted ms where
  each := fun m hm => h.each m (mem_append_left _ hm)
  once := by
    have honce := h.once
    rw [fileKeys_append] at honce
    exact honce.of_append_left

theorem accepted_snoc (h : Accepted ms) (m : Member) :
    Accepted (ms ++ [m]) ↔
      Proper m.name ∧ Known m.kind ∧ (m.kind = lit "file" → keyOf m ∉ fileKeys ms) := by
  refine ⟨fun h' => ?_, fun ⟨hname, hkind, hnew⟩ => ⟨?_, ?_⟩⟩
  · obtain ⟨hname, hkind⟩ := h'.each m (mem_append_right _ (mem_singleton.mpr rfl))
    refine ⟨hname, hkind, fun hfile hmem => ?_⟩
    have honce := h'.once
    rw [fileKeys_append, fileKeys_file hfile] at honce
    exact disjoint_of_nodup_append honce hmem mem_cons_self
  · intro x hx
    rcases mem_append.mp hx with hx | hx
    · exact h.each x hx
    · exact mem_singleton.mp hx ▸ ⟨hname, hkind⟩
  · rw [fileKeys_append]
    by_cases hfile : m.kind = lit "file"
    · rw [fileKeys_file hfile]
      exact nodup_append.mpr ⟨h.once, nodup_singleton _, fun a ha b hb hab =>
        hnew hfile (mem_singleton.mp hb ▸ hab ▸ ha)⟩
    · rw [fileKeys_other hfile, append_nil]
      exact h.once

theorem isDir_snoc :
    IsDir (ms ++ [m]) q ↔ IsDir ms q ∨ (m.kind ≠ lit "file" ∧ q = keyOf m) ∨ Above q (keyOf m) := by
  simp only [IsDir, mem_append, mem_singleton, or_and_right, exists_or, exists_eq_left]

/-! ### The loop over the members -/

/-- What the loop has found is what the members so far say. -/
structure Holds (ms : List Member) (st : Plan) : Prop where
  rels : st.rels = ms.map fun m => relOf m.name
  files : st.files = fileKeys ms
  dirs : ∀ q, q ∈ st.dirs ↔ IsDir ms q

theorem Holds.nil : Holds [] ⟨[], [], []⟩ where
  rels := rfl
  files := rfl
  dirs := fun _ => iff_of_false not_mem_nil fun ⟨_, hm, _⟩ => not_mem_nil hm

/-- What an error quotes of a member can be quoted. -/
def Quoted (m : Member) : Prop := Safe m.name ∧ (Proper m.name → Known m.kind ∨ Safe (what m.kind))

theorem add_new (h : key ∉ set) : add set key = set ++ [key] := if_neg h

/-- The loop goes on with a member that is accepted. -/
theorem planStep (hst : Holds ms st) (h : Accepted (ms ++ [m])) :
    ∃ st', Holds (ms ++ [m]) st' ∧ ∀ rest, planLoop st (m :: rest) = planLoop st' rest := by
  obtain ⟨hname, hkind, hnew⟩ := (accepted_snoc h.left m).mp h
  have hknown : ¬ (m.kind ≠ lit "file" ∧ m.kind ≠ lit "dir") := by
    rw [not_and_or, not_not, not_not]
    exact hkind
  have hrels : st.rels ++ [relOf m.name] = (ms ++ [m]).map fun m => relOf m.name := by
    rw [hst.rels, map_append]
    rfl
  by_cases hfile : m.kind = lit "file"
  · have hfresh : keyOf m ∉ st.files := hst.files ▸ hnew hfile
    refine ⟨⟨st.rels ++ [relOf m.name], add st.files (keyOf m), aboveLoop st.dirs [] (split (keyOf m))⟩,
      ⟨hrels, ?_, fun q => ?_⟩, fun rest => ?_⟩
    · rw [add_new hfresh, hst.files, fileKeys_append, fileKeys_file hfile]
    · refine (mem_above (split_key_ne_nil hname) st.dirs q).trans ?_
      rw [hst.dirs, isDir_snoc]
      simp [hfile]
    · refine bind_of (safePath_proper hname) ?_
      rw [if_neg hknown, if_pos hfile]
      exact if_neg hfresh
  · refine ⟨⟨st.rels ++ [relOf m.name], st.files, aboveLoop (add st.dirs (keyOf m)) [] (split (keyOf m))⟩,
      ⟨hrels, ?_, fun q => ?_⟩, fun rest => ?_⟩
    · rw [hst.files, fileKeys_append, fileKeys_other hfile, append_nil]
    · refine (mem_above (split_key_ne_nil hname) (add st.dirs (keyOf m)) q).trans ?_
      rw [mem_add, hst.dirs, isDir_snoc]
      simp [hfile, or_assoc]
    · refine bind_of (safePath_proper hname) ?_
      rw [if_neg hknown, if_neg hfile]
      rfl

/-- The loop ends with a member that is not accepted. -/
theorem planStop (hst : Holds ms st) (hms : Accepted ms)
    (h : ¬ Accepted (ms ++ [m])) (rest : List Member) :
    (Calm (planLoop st (m :: rest)) ↔ Quoted m) ∧ ∀ st', planLoop st (m :: rest) ≠ .ok st' := by
  rw [accepted_snoc hms] at h
  by_cases hname : Proper m.name
  · by_cases hkind : Known m.kind
    · have hknown : ¬ (m.kind ≠ lit "file" ∧ m.kind ≠ lit "dir") := by
        rw [not_and_or, not_not, not_not]
        exact hkind
      obtain ⟨hfile, htwice⟩ : m.kind = lit "file" ∧ keyOf m ∈ fileKeys ms := by
        by_contra hnot
        exact h ⟨hname, hkind, fun hfile htwice => hnot ⟨hfile, htwice⟩⟩
      have hloop : planLoop st (m :: rest) = errf (lit "compress: " ++ m.name ++ lit " appears twice") := by
        refine bind_of (safePath_proper hname) ?_
        rw [if_neg hknown, if_pos hfile]
        exact if_pos (hst.files ▸ htwice : keyOf m ∈ st.files)
      rw [hloop, errf_calm_iff, append_assoc, lit_safe_append (by decide),
        safe_append_end (by decide) (by decide)]
      exact ⟨(and_iff_left fun _ => .inl hkind).symm, errf_ne_ok _⟩
    · have hknown : m.kind ≠ lit "file" ∧ m.kind ≠ lit "dir" := not_or.mp hkind
      have hloop : planLoop st (m :: rest) = errf (lit "compress: refusing to extract " ++ m.name ++
          lit ": a " ++ what m.kind ++ lit ", not a file or a directory") := by
        refine bind_of (safePath_proper hname) ?_
        rw [if_pos hknown]
      rw [hloop, errf_calm_iff, append_assoc, append_assoc, append_assoc,
        lit_safe_append (by decide), safe_append_lit (by decide) (by decide),
        safe_append_end (by decide) (by decide)]
      exact ⟨and_congr_right fun _ => ⟨fun h _ => .inr h, fun h => (h hname).resolve_left hkind⟩, errf_ne_ok _⟩
  · obtain ⟨hcalm, hok⟩ := safePath_improper hname
    refine ⟨?_, fun st' hst' => ?_⟩
    · refine calm_bind_iff.trans ((and_iff_left fun rel hrel => absurd hrel (hok rel)).trans ?_)
      exact hcalm.trans (and_iff_left fun h => absurd h hname).symm
    · obtain ⟨rel, hrel, -⟩ := bind_eq_ok hst'
      exact hok rel hrel

/-- A whole run of the loop: it reads all the members, or ends at the first that is not accepted. -/
theorem planLoop_spec (rest : List Member) (hst : Holds ms st) (hms : Accepted ms) :
    (∃ st', planLoop st rest = .ok st' ∧ Holds (ms ++ rest) st' ∧ Accepted (ms ++ rest)) ∨
      ∃ a m b, ms ++ rest = a ++ m :: b ∧ Accepted a ∧ ¬ Accepted (a ++ [m]) ∧
        (Calm (planLoop st rest) ↔ Quoted m) ∧ ∀ st', planLoop st rest ≠ .ok st' := by
  induction rest generalizing ms st with
  | nil => exact .inl ⟨st, rfl, by rwa [append_nil], by rwa [append_nil]⟩
  | cons m rest ih =>
    by_cases h : Accepted (ms ++ [m])
    · obtain ⟨st', hst', hloop⟩ := planStep hst h
      have hrest := ih hst' h
      rw [append_assoc, singleton_append] at hrest
      rwa [hloop rest]
    · obtain ⟨hcalm, hok⟩ := planStop hst hms h rest
      exact .inr ⟨ms, m, rest, rfl, hms, h, hcalm, hok⟩

/-- Where a property of prefixes ends first. -/
theorem first_unique {Q : List α → Prop} (hQ : ∀ a b, Q (a ++ b) → Q a) {a a' b b' : List α}
    {x x' : α} (h : a ++ x :: b = a' ++ x' :: b') (ha : Q a) (hax : ¬ Q (a ++ [x])) (ha' : Q a')
    (hax' : ¬ Q (a' ++ [x'])) : x = x' := by
  rcases append_eq_append_iff.mp h with ⟨c, hc, hrest⟩ | ⟨c, hc, hrest⟩
  · cases c with
    | nil => exact (List.cons.inj hrest).1
    | cons y c =>
      obtain ⟨rfl, -⟩ := List.cons.inj hrest
      exact absurd (hQ (a ++ [x]) c (by rwa [append_assoc, singleton_append, ← hc])) hax
  · cases c with
    | nil => exact (List.cons.inj hrest).1.symm
    | cons y c =>
      obtain ⟨rfl, -⟩ := List.cons.inj hrest
      exact absurd (hQ (a' ++ [x']) c (by rwa [append_assoc, singleton_append, ← hc])) hax'

/-! ### The files among the directories -/

theorem clashLoop_spec (dirs files : List Bytes) :
    (clashLoop dirs files = .ok () ∧ ∀ f ∈ files, f ∉ dirs) ∨
      ∃ a f b, files = a ++ f :: b ∧ (∀ g ∈ a, g ∉ dirs) ∧ f ∈ dirs ∧
        (Calm (clashLoop dirs files) ↔ Safe f) ∧ clashLoop dirs files ≠ .ok () := by
  induction files with
  | nil => exact .inl ⟨rfl, nofun⟩
  | cons f files ih =>
    by_cases hf : f ∈ dirs
    · refine .inr ⟨[], f, files, rfl, nofun, hf, ?_⟩
      rw [clashLoop, if_pos hf, errf_calm_iff, append_assoc, lit_safe_append (by decide)]
      exact ⟨safe_append_end (by decide) (by decide), errf_ne_ok _ _⟩
    · rw [clashLoop, if_neg hf]
      rcases ih with ⟨hok, hnone⟩ | ⟨a, g, b, rfl, hnone, hg, hcalm, hok⟩
      · exact .inl ⟨hok, forall_mem_cons.mpr ⟨hf, hnone⟩⟩
      · exact .inr ⟨f :: a, g, b, rfl, forall_mem_cons.mpr ⟨hf, hnone⟩, hg, hcalm, hok⟩

/-! ### The plan -/

/-- Every error that `plan` may make quotes what can be quoted. -/
structure Quotable (ms : List Member) : Prop where
  /-- The first member that is not accepted. -/
  member : ∀ a m b, ms = a ++ m :: b → Accepted a → ¬ Accepted (a ++ [m]) → Quoted m
  /-- The first file that is also a directory. -/
  clash : Accepted ms → ∀ a f b, fileKeys ms = a ++ f :: b → (∀ g ∈ a, ¬ IsDir ms g) → IsDir ms f → Safe f

/-- Where the members go. -/
def rels (ms : List Member) : List Bytes := ms.map fun m => relOf m.name

/-- Accepted members of which no file is a directory too. -/
structure Together (ms : List Member) : Prop extends Accepted ms where
  apart : ∀ f ∈ fileKeys ms, ¬ IsDir ms f

theorem not_clash_iff {f : Bytes} {a : List Bytes} (ha : ∀ g ∈ a, ¬ IsDir ms g) :
    (¬ ∀ g ∈ a ++ [f], ¬ IsDir ms g) ↔ IsDir ms f := by
  refine ⟨fun h => ?_, fun hf h => h f (mem_append_right _ mem_cons_self) hf⟩
  by_contra hf
  refine h fun g hg => ?_
  rcases mem_append.mp hg with hg | hg
  · exact ha g hg
  · exact mem_singleton.mp hg ▸ hf

/-- `plan` gives the paths of members that go together, and otherwise an error that is calm where it can be
quoted. -/
theorem plan_spec (ms : List Member) :
    (plan ms = .ok (rels ms) ∧ Together ms) ∨
      ((∀ r, plan ms ≠ .ok r) ∧ ¬ Together ms ∧ (Calm (plan ms) ↔ Quotable ms)) := by
  rcases planLoop_spec ms Holds.nil Accepted.nil with
    ⟨st, hloop, hst, hms⟩ | ⟨a, m, b, hcut, ha, ham, hcalm, hok⟩
  · have hplan : plan ms = (clashLoop st.dirs st.files).bind fun _ => .ok st.rels := bind_of hloop rfl
    rw [nil_append] at hst hms
    rcases clashLoop_spec st.dirs st.files with ⟨hclash, hnone⟩ | ⟨a, f, b, hcut, hnone, hf, hcalm, hok⟩
    · refine .inl ⟨?_, hms, fun f hf hdir => ?_⟩
      · rw [hplan, hclash]
        exact congrArg Except.ok hst.rels
      · exact hnone f (hst.files ▸ hf) ((hst.dirs f).mpr hdir)
    · have hnone : ∀ g ∈ a, ¬ IsDir ms g := fun g hg hdir => hnone g hg ((hst.dirs g).mpr hdir)
      have hdir : IsDir ms f := (hst.dirs f).mp hf
      have hmem : f ∈ fileKeys ms := by
        rw [← hst.files, hcut]
        exact mem_append_right _ mem_cons_self
      refine .inr ⟨fun r hr => ?_, fun h => h.apart f hmem hdir, ?_⟩
      · obtain ⟨u, hu, -⟩ := bind_eq_ok (hplan ▸ hr)
        exact hok hu
      · rw [hplan, calm_bind_iff, and_iff_left fun u hu => absurd hu hok, hcalm]
        refine ⟨fun hsafe => ⟨?_, ?_⟩, fun h => h.clash hms a f b (hst.files ▸ hcut) hnone hdir⟩
        · rintro a m b rfl - ham
          rw [← singleton_append, ← append_assoc] at hms
          exact absurd hms.left ham
        · intro _ a' f' b' hcut' hnone' hdir'
          rw [hst.files, hcut'] at hcut
          have hsame : f' = f := first_unique (Q := fun l => ∀ g ∈ l, ¬ IsDir ms g)
            (fun a b h g hg => h g (mem_append_left b hg)) hcut hnone' ((not_clash_iff hnone').mpr hdir')
            hnone ((not_clash_iff hnone).mpr hdir)
          exact hsame ▸ hsafe
  · have hplan : plan ms = (planLoop ⟨[], [], []⟩ ms).bind fun st =>
        (clashLoop st.dirs st.files).bind fun _ => .ok st.rels := rfl
    rw [nil_append] at hcut
    have hnot : ¬ Accepted ms := by
      intro hms
      rw [hcut, ← singleton_append, ← append_assoc] at hms
      exact ham hms.left
    refine .inr ⟨fun r hr => ?_, fun h => hnot h.toAccepted, ?_⟩
    · obtain ⟨st, hst, -⟩ := bind_eq_ok (hplan ▸ hr)
      exact hok st hst
    · rw [hplan, calm_bind_iff, and_iff_left fun st hst => absurd hst (hok st), hcalm]
      refine ⟨fun hquoted => ⟨?_, ?_⟩, fun h => h.member a m b hcut ha ham⟩
      · intro a' m' b' hcut' ha' ham'
        have hsame : m' = m := first_unique (Q := Accepted) (fun _ _ h => h.left) (hcut' ▸ hcut) ha' ham' ha ham
        exact hsame ▸ hquoted
      · exact fun hms => absurd hms hnot

theorem plan_ok_iff (ms : List Member) (r : List Bytes) : plan ms = .ok r ↔ r = rels ms ∧ Together ms := by
  rcases plan_spec ms with ⟨hplan, hms⟩ | ⟨hnot, hms, -⟩
  · rw [hplan, and_iff_left hms, Except.ok.injEq, eq_comm]
  · exact iff_of_false (hnot r) fun h => hms h.2

theorem plan_calm_iff (ms : List Member) : Calm (plan ms) ↔ Quotable ms := by
  rcases plan_spec ms with ⟨hplan, hms⟩ | ⟨-, -, hcalm⟩
  · rw [hplan]
    refine iff_of_true (Calm.ok _) ⟨?_, fun _ a f b hcut _ hdir => ?_⟩
    · rintro a m b rfl - ham
      have hacc := hms.toAccepted
      rw [← singleton_append, ← append_assoc] at hacc
      exact absurd hacc.left ham
    · exact absurd hdir (hms.apart f (hcut ▸ mem_append_right _ mem_cons_self))
  · exact hcalm

/-! ### Where the members go -/

/-- `p` lies strictly under the directory `d`. -/
def Under (d p : Bytes) : Prop := ∃ rel, (∀ q ∈ split rel, Plain q) ∧ p = below (clean d) rel

/-- Two paths that are neither the same nor one above the other, also where case is not told apart. -/
structure Apart (p q : Bytes) : Prop where
  ne : lower p ≠ lower q
  above : ¬ Above p q
  folded : ¬ Above (lower p) (lower q)

/-- The destinations under `dir` are safe: each is under it, and a file is apart from every other member. -/
structure Placed (ms : List Member) (dir : Bytes) (r : List Bytes) : Prop where
  length : r.length = ms.length
  under : ∀ rel ∈ r, Under dir (join [dir, rel])
  apart : ∀ (i j : Nat) (m : Member) (rel rel' : Bytes), i ≠ j → ms[i]? = some m →
    m.kind = lit "file" → r[i]? = some rel → r[j]? = some rel' → Apart (join [dir, rel]) (join [dir, rel'])

theorem lower_cons_slash (s : Bytes) : lower (sep :: s) = sep :: lower s := lower_slash [] s

/-- Below one directory, keys are told apart as their destinations are. -/
theorem lower_below (d : Bytes) : ∃ pre : Bytes, ∀ rel, lower (below d rel) = pre ++ lower rel := by
  unfold below
  split_ifs
  · exact ⟨[], fun rel => rfl⟩
  · exact ⟨[sep], lower_cons_slash⟩
  · exact ⟨lower d ++ [sep], fun rel => by rw [append_assoc]; exact lower_slash d rel⟩

theorem apart_below (d : Bytes) {rel rel' : Bytes} (hne : lower rel ≠ lower rel')
    (habove : ¬ Above (lower rel) (lower rel')) : Apart (below d rel) (below d rel') := by
  obtain ⟨pre, hpre⟩ := lower_below d
  have hfolded : ¬ Above (lower (below d rel)) (lower (below d rel')) := by
    rintro ⟨t, ht⟩
    rw [hpre, hpre, append_assoc] at ht
    exact habove ⟨t, append_cancel_left ht⟩
  refine ⟨fun h => hne ?_, fun h => hfolded h.lower, hfolded⟩
  rw [hpre, hpre] at h
  exact append_cancel_left h

/-- The key of a file is the key of no other file. -/
theorem fileKeys_inj (h : (fileKeys ms).Nodup) {i j : Nat} {m m' : Member} (hij : i ≠ j)
    (hi : ms[i]? = some m) (hj : ms[j]? = some m') (hfile : m.kind = lit "file")
    (hfile' : m'.kind = lit "file") : keyOf m ≠ keyOf m' := by
  rw [fileKeys, List.Nodup, pairwise_map, pairwise_filter, pairwise_iff_getElem] at h
  obtain ⟨hil, rfl⟩ := List.getElem?_eq_some_iff.mp hi
  obtain ⟨hjl, rfl⟩ := List.getElem?_eq_some_iff.mp hj
  rcases Nat.lt_or_gt_of_ne hij with hlt | hgt
  · exact h i j hil hjl hlt (by simpa using hfile) (by simpa using hfile')
  · exact (h j i hjl hil hgt (by simpa using hfile') (by simpa using hfile)).symm

theorem Together.placed (h : Together ms) (dir : Bytes) : Placed ms dir (rels ms) where
  length := length_map _
  under := by
    intro rel hrel
    obtain ⟨m, hm, rfl⟩ := mem_map.mp hrel
    have hplain := (h.each m hm).1.plain
    exact ⟨relOf m.name, hplain, join_plain hplain dir⟩
  apart := by
    intro i j m rel rel' hij hi hfile hrel hrel'
    rw [rels, List.getElem?_map] at hrel hrel'
    rw [hi] at hrel
    obtain rfl : relOf m.name = rel := Option.some.inj hrel
    obtain ⟨m', hj, rfl⟩ := Option.map_eq_some_iff.mp hrel'
    have hm := mem_of_getElem? hi
    have hm' := mem_of_getElem? hj
    rw [join_plain (h.each m hm).1.plain, join_plain (h.each m' hm').1.plain]
    have hkey : ¬ IsDir ms (keyOf m) := h.apart _ (mem_fileKeys hm hfile)
    refine apart_below _ (fun hsame => ?_) fun habove => hkey ⟨m', hm', .inr habove⟩
    by_cases hfile' : m'.kind = lit "file"
    · exact fileKeys_inj h.once hij hi hj hfile hfile' hsame
    · exact hkey ⟨m', hm', .inl ⟨hfile', hsame⟩⟩

/-- Planning gives an error value or a safe plan exactly if every error it may make quotes what can be
quoted: otherwise it throws. -/
theorem plan_safe_iff (ms : List Member) (dir : Bytes) :
    (Calm (plan ms) ∧ ∀ r, plan ms = .ok r → Placed ms dir r) ↔ Quotable ms := by
  rw [plan_calm_iff]
  refine and_iff_left fun r hr => ?_
  obtain ⟨rfl, hms⟩ := (plan_ok_iff ms r).mp hr
  exact hms.placed dir

/-- A file with an absolute name. -/
def slashVerb : Member := { name := lit "/%d", kind := lit "file", data := [] }

/-- The name that is refused is a verb of the error that quotes it. -/
theorem slashVerb_throws : ¬ (Calm (plan [slashVerb]) ∧
    ∀ r, plan [slashVerb] = .ok r → Placed [slashVerb] (lit "out") r) := by
  intro h
  exact h.1.2 "FormatError" (by decide +kernel)

end Voila.Compress
