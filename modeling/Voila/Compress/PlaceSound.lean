import Voila.Compress.Place
import Voila.Compress.PlanSound

/-!
# Voila.Compress.PlaceSound

What an extraction leaves behind. While no call fails, the writing loop keeps a `Stage`: the temporary files
of the members so far hold their data, their directories are there, and the other files are as they were.
A turn ends the loop where a call fails, and in any case where something stands in its way (`Obstacle`).

So a failing call loses exactly the files that were there under the temporary names it had got to, and a
call that succeeds loses a member exactly where a later member's temporary name is its own
(`place_atomic_iff`).
-/

open List

namespace Voila.Compress

open Voila.Rt (Bytes)
open Voila.Rt.Json (ch)
open Voila.Http (Fail errf lit errf_ne_ok ok_of_toOption)
open Voila.Path (sep split join kept Plain dot dotdot)

/-! ### The file system -/

theorem Fs.get_cons (e : Loc × Node) (fs : Fs) (l : Loc) :
    Fs.get (e :: fs) l = if l = e.1 then some e.2 else fs.get l := by
  have hcons : Fs.get (e :: fs) l = match l == e.1 with | true => some e.2 | false => fs.get l :=
    lookup_cons
  rw [hcons]
  by_cases hl : l = e.1
  · rw [if_pos hl, beq_iff_eq.mpr hl]
  · rw [if_neg hl, beq_eq_false_iff_ne.mpr hl]

theorem Fs.get_erase (fs : Fs) (l l' : Loc) : (fs.erase l).get l' = if l' = l then none else fs.get l' := by
  induction fs with
  | nil => exact (ite_self none).symm
  | cons e fs ih =>
    rw [Fs.get_cons]
    by_cases he : e.1 = l
    · have herase : Fs.erase (e :: fs) l = Fs.erase fs l := filter_cons_of_neg (by simpa using he)
      rw [herase, ih, he]
      split_ifs <;> rfl
    · have herase : Fs.erase (e :: fs) l = e :: Fs.erase fs l := filter_cons_of_pos (by simpa using he)
      rw [herase, Fs.get_cons, ih]
      by_cases hl : l' = e.1
      · rw [if_pos hl, if_neg (fun h => he (hl ▸ h)), if_pos hl]
      · rw [if_neg hl, if_neg hl]

theorem Fs.get_put (fs : Fs) (l l' : Loc) (n : Node) :
    (fs.put l n).get l' = if l' = l then some n else fs.get l' := by
  rw [Fs.put, Fs.get_cons, Fs.get_erase]
  split_ifs <;> rfl

/-- The same files in both states. -/
def SameFiles (fs fs' : Fs) : Prop := ∀ l d, fs'.get l = some (.file d) ↔ fs.get l = some (.file d)

theorem SameFiles.refl (fs : Fs) : SameFiles fs fs := fun _ _ => Iff.rfl

theorem SameFiles.trans {fs fs' fs'' : Fs} (h : SameFiles fs fs') (h' : SameFiles fs' fs'') :
    SameFiles fs fs'' := fun l d => (h' l d).trans (h l d)

/-- A path that no file keeps `mkdir` from. -/
def Open (fs : Fs) (p : Bytes) : Prop := p ≠ [] ∧ ∀ d, fs.get (loc p) ≠ some (.file d)

section

variable (disk : Disk)

/-- Directories are made at some of the paths, and nothing else changes. -/
structure Makes (fs : Fs) (ps : List Bytes) (fs' : Fs) : Prop where
  files : SameFiles fs fs'
  keeps : ∀ l, fs.get l = some .dir → fs'.get l = some .dir
  only : ∀ l, fs'.get l = some .dir → fs.get l = some .dir ∨ l ∈ ps.map loc

theorem Makes.refl (fs : Fs) (ps : List Bytes) : Makes fs ps fs :=
  ⟨SameFiles.refl fs, fun _ h => h, fun _ h => .inl h⟩

theorem Makes.trans {fs fs' fs'' : Fs} {p : Bytes} {ps : List Bytes} (h : Makes fs [p] fs')
    (h' : Makes fs' ps fs'') : Makes fs (p :: ps) fs'' where
  files := h.files.trans h'.files
  keeps := fun l hl => h'.keeps l (h.keeps l hl)
  only := by
    intro l hl
    rcases h'.only l hl with hl | hl
    · refine (h.only l hl).imp_right fun hl => ?_
      rw [map_cons]
      exact mem_cons.mpr (.inl (mem_singleton.mp hl))
    · exact .inr (mem_cons_of_mem _ hl)

theorem mkdirOne_makes (fs : Fs) (p : Bytes) : Makes fs [p] (mkdirOne disk fs p).2 := by
  unfold mkdirOne
  split_ifs with hp
  · exact Makes.refl fs [p]
  cases hget : fs.get (loc p) with
  | some n => cases n <;> exact Makes.refl fs [p]
  | none =>
    cases disk.mkdirFails fs p with
    | some reason => exact Makes.refl fs [p]
    | none =>
      refine ⟨fun l d => ?_, fun l hl => ?_, fun l hl => ?_⟩
      · rw [Fs.get_put]
        split_ifs with h
        · exact iff_of_false nofun (by rw [h, hget]; exact nofun)
        · rfl
      · rw [Fs.get_put]
        split_ifs
        · rfl
        · exact hl
      · rw [Fs.get_put] at hl
        split_ifs at hl with h
        · exact .inr (mem_singleton.mpr h)
        · exact .inl hl

variable {p : Bytes} {ps : List Bytes}

theorem mkdirOne_none {fs : Fs} (h : (mkdirOne disk fs p).1 = none) :
    Open fs p ∧ (mkdirOne disk fs p).2.get (loc p) = some .dir := by
  unfold mkdirOne at h ⊢
  split_ifs at h ⊢ with hp
  cases hget : fs.get (loc p) with
  | some n =>
    cases n with
    | file d => rw [hget] at h; cases h
    | dir => exact ⟨⟨hp, fun d hd => by rw [hget] at hd; cases hd⟩, hget⟩
  | none =>
    rw [hget] at h
    refine ⟨⟨hp, fun d hd => by rw [hget] at hd; cases hd⟩, ?_⟩
    cases hfail : disk.mkdirFails fs p with
    | some reason => simp [hfail] at h
    | none => exact (Fs.get_put fs _ _ _).trans (if_pos rfl)

theorem mkdirOne_open (hdisk : ∀ fs p, disk.mkdirFails fs p = none) {fs : Fs} (h : Open fs p) :
    (mkdirOne disk fs p).1 = none := by
  unfold mkdirOne
  rw [if_neg h.1]
  cases hget : fs.get (loc p) with
  | some n =>
    cases n with
    | file d => exact absurd hget (h.2 d)
    | dir => rfl
  | none => simp [hdisk]

theorem mkdirLoop_cons (fs : Fs) (p : Bytes) (ps : List Bytes) :
    mkdirLoop disk fs (p :: ps) =
      if (mkdirOne disk fs p).1 = none then mkdirLoop disk (mkdirOne disk fs p).2 ps
      else mkdirOne disk fs p := by
  rw [mkdirLoop]
  rcases mkdirOne disk fs p with ⟨_ | reason, fs'⟩ <;> simp

theorem mkdirLoop_makes (ps : List Bytes) (fs : Fs) : Makes fs ps (mkdirLoop disk fs ps).2 := by
  induction ps generalizing fs with
  | nil => exact Makes.refl fs []
  | cons p ps ih =>
    rw [mkdirLoop_cons]
    split_ifs
    · exact (mkdirOne_makes disk fs p).trans (ih _)
    · exact (mkdirOne_makes disk fs p).trans (Makes.refl _ ps)

theorem Open.of_same {fs fs' : Fs} (h : SameFiles fs fs') : Open fs' p ↔ Open fs p :=
  and_congr_right fun _ => forall_congr' fun d => not_congr (h _ d)

theorem mkdirLoop_none {fs : Fs} (h : (mkdirLoop disk fs ps).1 = none) :
    ∀ p ∈ ps, Open fs p ∧ (mkdirLoop disk fs ps).2.get (loc p) = some .dir := by
  induction ps generalizing fs with
  | nil => exact nofun
  | cons p ps ih =>
    rw [mkdirLoop_cons] at h ⊢
    split_ifs at h ⊢ with hone
    · obtain ⟨hopen, hdir⟩ := mkdirOne_none disk hone
      intro q hq
      rcases mem_cons.mp hq with rfl | hq
      · exact ⟨hopen, (mkdirLoop_makes disk ps _).keeps _ hdir⟩
      · obtain ⟨hq, hdirq⟩ := ih h q hq
        exact ⟨(Open.of_same (mkdirOne_makes disk fs p).files).mp hq, hdirq⟩
    · exact absurd h hone

theorem mkdirLoop_open (hdisk : ∀ fs p, disk.mkdirFails fs p = none) {fs : Fs}
    (h : ∀ p ∈ ps, Open fs p) : (mkdirLoop disk fs ps).1 = none := by
  induction ps generalizing fs with
  | nil => rfl
  | cons p ps ih =>
    have hone := mkdirOne_open disk hdisk (h p mem_cons_self)
    rw [mkdirLoop_cons, if_pos hone]
    exact ih fun q hq =>
      (Open.of_same (mkdirOne_makes disk fs p).files).mpr (h q (mem_cons_of_mem _ hq))

theorem mkdirAll_snd (fs : Fs) (p : Bytes) : (mkdirAll disk fs p).2 = (mkdirLoop disk fs (stops p)).2 := by
  unfold mkdirAll
  rcases mkdirLoop disk fs (stops p) with ⟨_ | reason, fs'⟩ <;> rfl

theorem mkdirAll_none (fs : Fs) (p : Bytes) :
    (mkdirAll disk fs p).1 = none ↔ (mkdirLoop disk fs (stops p)).1 = none := by
  unfold mkdirAll
  rcases mkdirLoop disk fs (stops p) with ⟨_ | reason, fs'⟩ <;> simp

/-- An error of a call has a text. -/
theorem mkdirAll_some {fs : Fs} {p msg : Bytes} (h : (mkdirAll disk fs p).1 = some msg) : msg ≠ [] := by
  unfold mkdirAll at h
  split at h
  · cases h
  · cases h
    exact fun hnil => absurd (append_eq_nil_iff.mp hnil).1 (by decide)

end

/-! ### Writes and removes -/

variable {p : Bytes}

theorem osWrite_cases (disk : Disk) (fs : Fs) (hp : p ≠ []) (data : Bytes) :
    (fs.get (loc p) ≠ some .dir ∧ disk.writeFails fs p = none ∧
      osWrite disk fs p data = (none, fs.put (loc p) (.file data))) ∨
    ((fs.get (loc p) = some .dir ∨ disk.writeFails fs p ≠ none) ∧
      (osWrite disk fs p data).1 = some (lit "cannot write file") ∧
      (fs.get (loc p) = some .dir → (osWrite disk fs p data).2 = fs) ∧
      ∀ l, l ≠ loc p → (osWrite disk fs p data).2.get l = fs.get l) := by
  unfold osWrite
  by_cases hdir : fs.get (loc p) = some .dir
  · rw [if_pos (.inr hdir)]
    exact .inr ⟨.inl hdir, rfl, fun _ => rfl, fun _ _ => rfl⟩
  · rw [if_neg (not_or.mpr ⟨hp, hdir⟩)]
    cases hfail : disk.writeFails fs p with
    | none => exact .inl ⟨hdir, rfl, rfl⟩
    | some left =>
      refine .inr ⟨.inr nofun, ?_⟩
      cases left with
      | none => exact ⟨rfl, fun _ => rfl, fun _ _ => rfl⟩
      | some part =>
        exact ⟨rfl, fun h => absurd h hdir, fun l hl => (Fs.get_put fs _ _ _).trans (if_neg hl)⟩

theorem get_remove {fs : Fs} (hp : p ≠ []) (l : Loc) (d : Bytes) :
    (remove fs p).get l = some (.file d) ↔ l ≠ loc p ∧ fs.get l = some (.file d) := by
  have erased : (fs.erase (loc p)).get l = some (.file d) ↔ l ≠ loc p ∧ fs.get l = some (.file d) := by
    rw [Fs.get_erase]
    split_ifs with h
    · exact iff_of_false nofun fun h' => h'.1 h
    · exact (and_iff_right h).symm
  have unchanged : (∀ d, fs.get (loc p) ≠ some (.file d)) →
      (fs.get l = some (.file d) ↔ l ≠ loc p ∧ fs.get l = some (.file d)) := fun h =>
    ⟨fun hl => ⟨fun hlp => h d (hlp ▸ hl), hl⟩, fun hl => hl.2⟩
  unfold remove stat
  rw [if_neg hp]
  cases hget : fs.get (loc p) with
  | none => exact unchanged fun d hd => by rw [hget] at hd; cases hd
  | some n =>
    cases n with
    | file d' => exact erased
    | dir =>
      split_ifs
      · exact erased
      · exact unchanged fun d hd => by rw [hget] at hd; cases hd

/-- Removing the temporary files leaves the other files. -/
theorem get_removeAll {ts : List Bytes} (hts : ∀ t ∈ ts, t ≠ []) (fs : Fs) (l : Loc) (d : Bytes) :
    (ts.foldl remove fs).get l = some (.file d) ↔ l ∉ ts.map loc ∧ fs.get l = some (.file d) := by
  induction ts generalizing fs with
  | nil => simp
  | cons t ts ih =>
    rw [foldl_cons, ih (fun u hu => hts u (mem_cons_of_mem _ hu)),
      get_remove (hts t mem_cons_self), map_cons, mem_cons, not_or, and_left_comm, and_assoc]

/-! ### Where the members are written -/

section

variable (fs : Fs) (dir suffix : Bytes)

/-- The destination of a member. -/
def dest (m : Member) : Bytes := join [dir, relOf m.name]

/-- The temporary name of a member. -/
def temp (m : Member) : Bytes := dest dir m ++ suffix

def filesOf (ms : List Member) : List Member := ms.filter fun m => m.kind = lit "file"

def tempsOf (ms : List Member) : List Bytes := (filesOf ms).map (temp dir suffix)

/-- The paths where `mkdir` is called for a member. -/
def needs (m : Member) : List Bytes :=
  stops (if m.kind = lit "dir" then dest dir m else Path.dir (dest dir m))

/-- The directories that the members ask for. -/
def asked (ms : List Member) : List Loc := (stops dir ++ ms.flatMap (needs dir)).map loc

/-- What stands in the way of a member behind `ms`: a file where it needs a directory, an old one or a
temporary one, or a directory where its temporary file goes. -/
def Obstacle (ms : List Member) (m : Member) : Prop :=
  (∃ p ∈ needs dir m, ¬ Open fs p ∨ loc p ∈ (tempsOf dir suffix ms).map loc) ∨
    m.kind = lit "file" ∧
      (fs.get (loc (temp dir suffix m)) = some .dir ∨ loc (temp dir suffix m) ∈ asked dir (ms ++ [m]))

/-- Nothing stands in the way of the members. -/
def Free (ms : List Member) : Prop := ∀ a m b, ms = a ++ m :: b → ¬ Obstacle fs dir suffix a m

end

theorem filesOf_snoc_file {ms : List Member} {m : Member} (h : m.kind = lit "file") :
    filesOf (ms ++ [m]) = filesOf ms ++ [m] := by
  rw [filesOf, filter_append, filter_cons_of_pos (by simpa using h), filter_nil]
  rfl

theorem filesOf_snoc_other {ms : List Member} {m : Member} (h : m.kind ≠ lit "file") :
    filesOf (ms ++ [m]) = filesOf ms := by
  rw [filesOf, filter_append, filter_cons_of_neg (by simpa using h), filter_nil,
    append_nil]
  rfl

theorem mem_filesOf {ms : List Member} {m : Member} : m ∈ filesOf ms ↔ m ∈ ms ∧ m.kind = lit "file" := by
  rw [filesOf, mem_filter, decide_eq_true_iff]

theorem Free.snoc {fs : Fs} {dir suffix : Bytes} {ms : List Member} {m : Member}
    (h : Free fs dir suffix ms) (hm : ¬ Obstacle fs dir suffix ms m) : Free fs dir suffix (ms ++ [m]) := by
  intro a x b hcut
  rcases eq_nil_or_concat b with rfl | ⟨b, y, rfl⟩
  · obtain ⟨rfl, rfl⟩ := append_inj' hcut rfl |>.imp_right singleton_inj.mp
    exact hm
  · rw [concat_eq_append, ← cons_append, ← append_assoc] at hcut
    exact h a x b (append_inj' hcut rfl).1

theorem Free.left {fs : Fs} {dir suffix : Bytes} {ms ms' : List Member}
    (h : Free fs dir suffix (ms ++ ms')) : Free fs dir suffix ms := by
  intro a m b hcut
  exact h a m (b ++ ms') (by rw [hcut, append_assoc, cons_append])

/-! ### Destinations and temporary names -/

/-- An ending that keeps a path plain. -/
structure Ending (suffix : Bytes) : Prop where
  slash : sep ∉ suffix
  long : 3 ≤ suffix.length

section

variable {suffix : Bytes} (hs : Ending suffix) (dir : Bytes)

include hs

/-- A plain path with an ending is plain. -/
theorem Ending.plain {rel : Bytes} (hrel : ∀ p ∈ split rel, Plain p) :
    ∀ p ∈ split (rel ++ suffix), Plain p := by
  obtain ⟨init, last, hsplit, hsplit'⟩ := Path.split_append hs.slash rel
  rw [hsplit] at hrel
  rw [hsplit']
  refine Path.forall_mem_snoc (fun p hp => hrel p (mem_append_left _ hp)) ?_
  have hlong : ∀ q : Bytes, q.length < 3 → last ++ suffix ≠ q := by
    intro q hq h
    have hlen := congrArg List.length h
    have := hs.long
    rw [length_append] at hlen
    omega
  exact ⟨hlong [] (by decide), hlong dot (by decide), hlong dotdot (by decide)⟩

theorem temp_eq {m : Member} (hm : Proper m.name) :
    temp dir suffix m = join [dir, relOf m.name ++ suffix] := by
  rw [temp, dest, Path.join_plain hm.plain, Path.join_plain (hs.plain hm.plain)]
  unfold Path.below
  split_ifs
  · rfl
  · rfl
  · rw [append_assoc, cons_append]

theorem temp_ne_nil (m : Member) : temp dir suffix m ≠ [] := by
  intro h
  have hnil : suffix = [] := (append_eq_nil_iff.mp h).2
  have := hs.long
  rw [hnil] at this
  exact absurd this (by decide)

theorem kept_temp {m : Member} (hm : Proper m.name) :
    kept (temp dir suffix m) = kept dir ++ split (relOf m.name ++ suffix) := by
  rw [temp_eq hs dir hm, Path.kept_join (hs.plain hm.plain)]

omit hs in
theorem kept_dest {m : Member} (hm : Proper m.name) :
    kept (dest dir m) = kept dir ++ split (relOf m.name) := Path.kept_join hm.plain dir

omit hs in
theorem split_inj {s t : Bytes} (h : split s = split t) : s = t := by
  rw [← Path.glue_split s, h, Path.glue_split]

/-- Temporary names are as far apart as the paths of their members. -/
theorem loc_temp_inj {m m' : Member} (hm : Proper m.name) (hm' : Proper m'.name)
    (h : loc (temp dir suffix m) = loc (temp dir suffix m')) : relOf m.name = relOf m'.name := by
  have hkept : kept (temp dir suffix m) = kept (temp dir suffix m') := congrArg Prod.snd h
  rw [kept_temp hs dir hm, kept_temp hs dir hm'] at hkept
  exact append_cancel_right (split_inj (append_cancel_left hkept))

omit hs in
theorem loc_dest_inj {m m' : Member} (hm : Proper m.name) (hm' : Proper m'.name)
    (h : loc (dest dir m) = loc (dest dir m')) : relOf m.name = relOf m'.name := by
  have hkept : kept (dest dir m) = kept (dest dir m') := congrArg Prod.snd h
  rw [kept_dest dir hm, kept_dest dir hm'] at hkept
  exact split_inj (append_cancel_left hkept)

/-- A destination is a temporary name where the paths say so. -/
theorem loc_dest_temp {m m' : Member} (hm : Proper m.name) (hm' : Proper m'.name) :
    loc (dest dir m) = loc (temp dir suffix m') ↔ relOf m.name = relOf m'.name ++ suffix := by
  refine ⟨fun h => ?_, fun h => ?_⟩
  · have hkept : kept (dest dir m) = kept (temp dir suffix m') := congrArg Prod.snd h
    rw [kept_dest dir hm, kept_temp hs dir hm'] at hkept
    exact split_inj (append_cancel_left hkept)
  · rw [temp_eq hs dir hm', dest, h]

omit hs in
/-- What tells the paths of files apart tells apart what is made of them. -/
theorem Accepted.nodup_loc {ms : List Member} (h : Accepted ms) {f : Member → Bytes}
    (hf : ∀ m m', Proper m.name → Proper m'.name → loc (f m) = loc (f m') → relOf m.name = relOf m'.name) :
    (((filesOf ms).map f).map loc).Nodup := by
  have honce : ((filesOf ms).map keyOf).Nodup := h.once
  rw [map_map, List.Nodup, pairwise_map]
  rw [List.Nodup, pairwise_map] at honce
  refine honce.imp_of_mem fun {m m'} hm hm' hne hsame => hne ?_
  have hproper : ∀ x ∈ filesOf ms, Proper x.name := fun x hx => (h.each x (mem_filesOf.mp hx).1).1
  exact congrArg Rt.lower (hf m m' (hproper m hm) (hproper m' hm') hsame)

theorem Accepted.nodup_temps {ms : List Member} (h : Accepted ms) :
    ((tempsOf dir suffix ms).map loc).Nodup :=
  h.nodup_loc fun _ _ hm hm' => loc_temp_inj hs dir hm hm'

omit hs in
theorem Accepted.nodup_dests {ms : List Member} (h : Accepted ms) :
    (((filesOf ms).map (dest dir)).map loc).Nodup :=
  h.nodup_loc fun _ _ hm hm' => loc_dest_inj dir hm hm'

/-- The temporary name of a further file is new. -/
theorem Accepted.temp_fresh {ms : List Member} {m : Member} (h : Accepted (ms ++ [m]))
    (hfile : m.kind = lit "file") : loc (temp dir suffix m) ∉ (tempsOf dir suffix ms).map loc := by
  have hnodup := h.nodup_temps hs dir
  rw [tempsOf, filesOf_snoc_file hfile, map_append, map_append] at hnodup
  exact fun hmem => disjoint_of_nodup_append hnodup hmem (mem_singleton.mpr rfl)

end

/-! ### One turn of the writing loop -/

section

variable (fs : Fs) (dir suffix : Bytes)

/-- The state while the members `ms` are written and the directories `ls` are there. -/
structure Stage (ms : List Member) (ls : List Loc) (now : Fs) : Prop where
  temp : ∀ m ∈ filesOf ms, now.get (loc (temp dir suffix m)) = some (.file m.data)
  file : ∀ l, l ∉ (tempsOf dir suffix ms).map loc → ∀ d, now.get l = some (.file d) ↔ fs.get l = some (.file d)
  keeps : ∀ l, fs.get l = some .dir → now.get l = some .dir
  made : ∀ l ∈ ls, now.get l = some .dir
  only : ∀ l, now.get l = some .dir → fs.get l = some .dir ∨ l ∈ ls

/-- The loop goes on behind `ms`. -/
structure Going (ms : List Member) (st : Writing) : Prop where
  stage : Stage fs dir suffix ms (asked dir ms) st.fs
  temps : st.temps = tempsOf dir suffix ms
  finals : st.finals = (filesOf ms).map (dest dir)
  failure : st.failure = []

/-- The loop has ended when it had got to the temporary files of `c`. -/
structure Stopped (c : List Member) (st : Writing) : Prop where
  failure : st.failure ≠ []
  temps : st.temps = tempsOf dir suffix c
  file : ∀ l, l ∉ (tempsOf dir suffix c).map loc → ∀ d, st.fs.get l = some (.file d) ↔ fs.get l = some (.file d)

end

theorem asked_snoc (dir : Bytes) (ms : List Member) (m : Member) :
    asked dir (ms ++ [m]) = asked dir ms ++ (needs dir m).map loc := by
  simp [asked, flatMap_append]

section

variable {fs : Fs} {dir suffix : Bytes} {ms : List Member} {ls : List Loc} {now : Fs}

theorem Stage.open_iff (h : Stage fs dir suffix ms ls now) (p : Bytes) :
    Open now p ↔ Open fs p ∧ loc p ∉ (tempsOf dir suffix ms).map loc := by
  refine ⟨fun hp => ?_, fun ⟨hp, hnot⟩ => ⟨hp.1, fun d hd => hp.2 d ((h.file _ hnot d).mp hd)⟩⟩
  have hnot : loc p ∉ (tempsOf dir suffix ms).map loc := by
    intro hmem
    rw [tempsOf, map_map] at hmem
    obtain ⟨m, hm, hloc⟩ := mem_map.mp hmem
    exact hp.2 m.data (hloc ▸ h.temp m hm)
  exact ⟨⟨hp.1, fun d hd => hp.2 d ((h.file _ hnot d).mpr hd)⟩, hnot⟩

theorem Stage.of_files (h : Stage fs dir suffix ms ls now) {ms' : List Member}
    (hsame : filesOf ms' = filesOf ms) : Stage fs dir suffix ms' ls now where
  temp := fun m hm => h.temp m (hsame ▸ hm)
  file := fun l hl => h.file l (by rwa [tempsOf, hsame] at hl)
  keeps := h.keeps
  made := h.made
  only := h.only

theorem Stage.mkdir (h : Stage fs dir suffix ms ls now) {ps : List Bytes} {now' : Fs}
    (hmakes : Makes now ps now') (hmade : ∀ p ∈ ps, now'.get (loc p) = some .dir) :
    Stage fs dir suffix ms (ls ++ ps.map loc) now' where
  temp := fun m hm => (hmakes.files _ _).mpr (h.temp m hm)
  file := fun l hl d => (hmakes.files l d).trans (h.file l hl d)
  keeps := fun l hl => hmakes.keeps l (h.keeps l hl)
  made := by
    intro l hl
    rcases mem_append.mp hl with hl | hl
    · exact hmakes.keeps l (h.made l hl)
    · obtain ⟨p, hp, rfl⟩ := mem_map.mp hl
      exact hmade p hp
  only := by
    intro l hl
    rcases hmakes.only l hl with hl | hl
    · exact (h.only l hl).imp_right (mem_append_left _)
    · exact .inr (mem_append_right _ hl)

theorem Stage.write (h : Stage fs dir suffix ms ls now) {m : Member} (hfile : m.kind = lit "file")
    (hfresh : loc (Compress.temp dir suffix m) ∉ (tempsOf dir suffix ms).map loc)
    (hdir : now.get (loc (Compress.temp dir suffix m)) ≠ some .dir) :
    Stage fs dir suffix (ms ++ [m]) ls (now.put (loc (Compress.temp dir suffix m)) (.file m.data)) where
  temp := by
    intro x hx
    rw [filesOf_snoc_file hfile] at hx
    rw [Fs.get_put]
    rcases mem_append.mp hx with hx | hx
    · have hne : loc (Compress.temp dir suffix x) ≠ loc (Compress.temp dir suffix m) := by
        intro hsame
        exact hfresh (hsame ▸ mem_map_of_mem (mem_map_of_mem hx))
      rw [if_neg hne, h.temp x hx]
    · rw [mem_singleton.mp hx, if_pos rfl]
  file := by
    intro l hl d
    rw [tempsOf, filesOf_snoc_file hfile, map_append, map_append, mem_append, not_or] at hl
    rw [Fs.get_put, if_neg fun hsame => hl.2 (mem_singleton.mpr hsame), h.file l hl.1 d]
  keeps := by
    intro l hl
    have hne : l ≠ loc (Compress.temp dir suffix m) := fun hsame => hdir (hsame ▸ h.keeps l hl)
    rw [Fs.get_put, if_neg hne, h.keeps l hl]
  made := by
    intro l hl
    have hne : l ≠ loc (Compress.temp dir suffix m) := fun hsame => hdir (hsame ▸ h.made l hl)
    rw [Fs.get_put, if_neg hne, h.made l hl]
  only := by
    intro l hl
    rw [Fs.get_put] at hl
    split_ifs at hl
    · cases hl
    · exact h.only l hl

end

section

variable (disk : Disk) {fs : Fs} {dir suffix : Bytes} {ms : List Member} {m : Member} {st : Writing}

variable {p : Bytes} {c : List Member}

/-- The directories of a member are made, or the call ends. -/
theorem Going.mkdir (h : Going fs dir suffix ms st) (hp : stops p = needs dir m)
    (hnone : (mkdirAll disk st.fs p).1 = none) :
    Stage fs dir suffix ms (asked dir (ms ++ [m])) (mkdirAll disk st.fs p).2 ∧
      ∀ p ∈ needs dir m, Open fs p ∧ loc p ∉ (tempsOf dir suffix ms).map loc := by
  have hloop := mkdirLoop_none disk ((mkdirAll_none disk st.fs p).mp hnone)
  rw [mkdirAll_snd, asked_snoc, ← hp]
  refine ⟨h.stage.mkdir (mkdirLoop_makes disk (stops p) st.fs) fun q hq => (hloop q hq).2, fun q hq => ?_⟩
  exact (h.stage.open_iff q).mp (hloop q hq).1

theorem Going.mkdir_free (h : Going fs dir suffix ms st) (hdisk : ∀ fs p, disk.mkdirFails fs p = none)
    (hfree : ¬ Obstacle fs dir suffix ms m) (hp : stops p = needs dir m) :
    (mkdirAll disk st.fs p).1 = none := by
  rw [mkdirAll_none]
  refine mkdirLoop_open disk hdisk fun q hq => (h.stage.open_iff q).mpr ?_
  by_contra hnot
  rw [not_and_or, not_not] at hnot
  exact hfree (.inl ⟨q, hp ▸ hq, hnot⟩)

/-- A call that fails ends the loop. -/
theorem Going.stop (h : Going fs dir suffix ms st) (hsome : (mkdirAll disk st.fs p).1 ≠ none) :
    Stopped fs dir suffix ms (st.after (mkdirAll disk st.fs p)) where
  failure := by
    obtain ⟨msg, hmsg⟩ := Option.ne_none_iff_exists'.mp hsome
    have hne := mkdirAll_some disk hmsg
    rwa [Writing.after, hmsg]
  temps := h.temps
  file := by
    intro l hl d
    rw [Writing.after, mkdirAll_snd]
    exact ((mkdirLoop_makes disk (stops p) st.fs).files l d).trans (h.stage.file l hl d)

/-- A turn for a directory. -/
theorem dirTurn_spec (h : Going fs dir suffix ms st) (hdir : m.kind = lit "dir") :
    (Going fs dir suffix (ms ++ [m]) (placeTurn disk (writer disk) dir suffix st m (relOf m.name)) ∧
      ¬ Obstacle fs dir suffix ms m) ∨
    Stopped fs dir suffix ms (placeTurn disk (writer disk) dir suffix st m (relOf m.name)) := by
  have hfile : m.kind ≠ lit "file" := by
    rw [hdir]
    decide
  have hneeds : stops (dest dir m) = needs dir m := by rw [needs, if_pos hdir]
  have hturn : placeTurn disk (writer disk) dir suffix st m (relOf m.name) =
      st.after (mkdirAll disk st.fs (dest dir m)) := if_pos hdir
  rw [hturn]
  by_cases hnone : (mkdirAll disk st.fs (dest dir m)).1 = none
  · obtain ⟨hstage, hopen⟩ := h.mkdir disk hneeds hnone
    have hsame : filesOf (ms ++ [m]) = filesOf ms := filesOf_snoc_other hfile
    refine .inl ⟨⟨?_, ?_, ?_, ?_⟩, ?_⟩
    · exact hstage.of_files hsame
    · exact h.temps.trans (by rw [tempsOf, tempsOf, hsame])
    · exact h.finals.trans (by rw [hsame])
    · rw [Writing.after, hnone]
      exact h.failure
    · rintro (⟨p, hp, hp' | hp'⟩ | ⟨hkind, -⟩)
      · exact hp' (hopen p hp).1
      · exact (hopen p hp).2 hp'
      · exact hfile hkind
  · exact .inr (h.stop disk hnone)

/-- A file's turn behind the directories it needs. -/
theorem fileTurn_eq (hfile : m.kind = lit "file") (h : Going fs dir suffix ms st)
    (hnone : (mkdirAll disk st.fs (Path.dir (dest dir m))).1 = none) :
    placeTurn disk (writer disk) dir suffix st m (relOf m.name) =
      Writing.after ⟨st.fs, st.temps ++ [temp dir suffix m], st.finals ++ [dest dir m], []⟩
        (osWrite disk (mkdirAll disk st.fs (Path.dir (dest dir m))).2 (temp dir suffix m) m.data) := by
  have hdir : m.kind ≠ lit "dir" := by
    rw [hfile]
    decide
  have hfailure : (st.after (mkdirAll disk st.fs (Path.dir (dest dir m)))).failure = [] := by
    rw [Writing.after, hnone]
    exact h.failure
  rw [placeTurn, if_neg hdir]
  exact (if_pos hfailure).trans (congrArg (fun failure => Writing.after
    ⟨st.fs, st.temps ++ [temp dir suffix m], st.finals ++ [dest dir m], failure⟩
    (osWrite disk (mkdirAll disk st.fs (Path.dir (dest dir m))).2 (temp dir suffix m) m.data)) hfailure)

theorem fileTurn_stop (hfile : m.kind = lit "file") {st : Writing}
    (hsome : (mkdirAll disk st.fs (Path.dir (dest dir m))).1 ≠ none) :
    placeTurn disk (writer disk) dir suffix st m (relOf m.name) =
      st.after (mkdirAll disk st.fs (Path.dir (dest dir m))) := by
  have hdir : m.kind ≠ lit "dir" := by
    rw [hfile]
    decide
  obtain ⟨msg, hmsg⟩ := Option.ne_none_iff_exists'.mp hsome
  rw [placeTurn, if_neg hdir]
  refine if_neg ?_
  have hne := mkdirAll_some disk hmsg
  change (mkdirAll disk st.fs (Path.dir (dest dir m))).1.getD st.failure ≠ []
  rwa [hmsg]

/-- A turn for a file. -/
theorem fileTurn_spec (hs : Ending suffix) (h : Going fs dir suffix ms st) (hacc : Accepted (ms ++ [m]))
    (hfile : m.kind = lit "file") :
    (Going fs dir suffix (ms ++ [m]) (placeTurn disk (writer disk) dir suffix st m (relOf m.name)) ∧
      ¬ Obstacle fs dir suffix ms m) ∨
    Stopped fs dir suffix ms (placeTurn disk (writer disk) dir suffix st m (relOf m.name)) ∨
    (Stopped fs dir suffix (ms ++ [m]) (placeTurn disk (writer disk) dir suffix st m (relOf m.name)) ∧
      ((∃ d, fs.get (loc (temp dir suffix m)) = some (.file d)) → ¬ Obstacle fs dir suffix ms m)) := by
  have hneeds : stops (Path.dir (dest dir m)) = needs dir m := by
    rw [needs, if_neg (by rw [hfile]; decide)]
  by_cases hnone : (mkdirAll disk st.fs (Path.dir (dest dir m))).1 = none
  swap
  · rw [fileTurn_stop disk hfile hnone]
    exact .inr (.inl (h.stop disk hnone))
  have hfresh := hacc.temp_fresh hs dir hfile
  obtain ⟨hstage, hopen⟩ := h.mkdir disk hneeds hnone
  have hclear : ¬ ∃ p ∈ needs dir m, ¬ Open fs p ∨ loc p ∈ (tempsOf dir suffix ms).map loc := by
    rintro ⟨p, hp, hp' | hp'⟩
    · exact hp' (hopen p hp).1
    · exact (hopen p hp).2 hp'
  have htemps : st.temps ++ [temp dir suffix m] = tempsOf dir suffix (ms ++ [m]) := by
    rw [h.temps, tempsOf, tempsOf, filesOf_snoc_file hfile, map_append]
    rfl
  have hfinals : st.finals ++ [dest dir m] = (filesOf (ms ++ [m])).map (dest dir) := by
    rw [h.finals, filesOf_snoc_file hfile, map_append]
    rfl
  rw [fileTurn_eq disk hfile h hnone]
  rcases osWrite_cases disk (mkdirAll disk st.fs (Path.dir (dest dir m))).2 (temp_ne_nil hs dir m) m.data with
    ⟨hdir, -, hwrite⟩ | ⟨-, hmsg, -, hother⟩
  · rw [hwrite]
    refine .inl ⟨⟨hstage.write hfile hfresh hdir, htemps, hfinals, rfl⟩, ?_⟩
    rintro (hneed | ⟨-, hold | hasked⟩)
    · exact hclear hneed
    · exact hdir (hstage.keeps _ hold)
    · exact hdir (hstage.made _ hasked)
  · refine .inr (.inr ⟨⟨?_, htemps, fun l hl d => ?_⟩, ?_⟩)
    · rw [Writing.after, hmsg]
      exact (by decide : lit "cannot write file" ≠ [])
    · rw [tempsOf, filesOf_snoc_file hfile, map_append, map_append, mem_append, not_or] at hl
      have hne : l ≠ loc (temp dir suffix m) := fun hsame => hl.2 (mem_singleton.mpr hsame)
      rw [Writing.after, hother l hne]
      exact hstage.file l hl.1 d
    · rintro ⟨d, hd⟩ (hneed | ⟨-, hold | hasked⟩)
      · exact hclear hneed
      · rw [hd] at hold
        cases hold
      · have hnow := (hstage.file _ hfresh d).mpr hd
        rw [hstage.made _ hasked] at hnow
        cases hnow

/-! ### The writing loop -/

/-- The old files under the temporary names of `c` were got to by a free way. -/
def Reached (fs : Fs) (dir suffix : Bytes) (c : List Member) : Prop :=
  ∀ a m b, c = a ++ m :: b → m.kind = lit "file" →
    (∃ d, fs.get (loc (temp dir suffix m)) = some (.file d)) → Free fs dir suffix (a ++ [m])

omit disk in
theorem Free.reached (h : Free fs dir suffix c) : Reached fs dir suffix c := by
  intro a m b hcut _ _
  rw [hcut, ← singleton_append, ← append_assoc] at h
  exact h.left

omit disk in
theorem Free.reached_snoc (h : Free fs dir suffix c)
    (hm : (∃ d, fs.get (loc (temp dir suffix m)) = some (.file d)) → ¬ Obstacle fs dir suffix c m) :
    Reached fs dir suffix (c ++ [m]) := by
  intro a x b hcut hfile hold
  rcases eq_nil_or_concat b with rfl | ⟨b, y, rfl⟩
  · obtain ⟨rfl, hx⟩ := append_inj' hcut rfl
    obtain rfl := singleton_inj.mp hx
    exact h.snoc (hm hold)
  · rw [concat_eq_append, ← cons_append, ← append_assoc] at hcut
    exact h.reached a x b (append_inj' hcut rfl).1 hfile hold

/-- A whole run of the loop. -/
theorem placeLoop_spec (hs : Ending suffix) (rest : List Member) {ms : List Member} {st : Writing}
    (h : Going fs dir suffix ms st) (hfree : Free fs dir suffix ms) (hacc : Accepted (ms ++ rest)) :
    (Going fs dir suffix (ms ++ rest) (placeLoop disk (writer disk) dir suffix st (rest.zip (rels rest))) ∧
      Free fs dir suffix (ms ++ rest)) ∨
    ∃ c b, ms ++ rest = c ++ b ∧ Reached fs dir suffix c ∧
      Stopped fs dir suffix c (placeLoop disk (writer disk) dir suffix st (rest.zip (rels rest))) := by
  induction rest generalizing ms st with
  | nil =>
    rw [append_nil]
    exact .inl ⟨h, hfree⟩
  | cons m rest ih =>
    have hassoc : ms ++ m :: rest = (ms ++ [m]) ++ rest := by
      rw [append_assoc, singleton_append]
    have hacc' : Accepted (ms ++ [m]) := (hassoc ▸ hacc).left
    have hzip : (m :: rest).zip (rels (m :: rest)) = (m, relOf m.name) :: rest.zip (rels rest) := rfl
    rw [hzip, placeLoop]
    have hturn : (Going fs dir suffix (ms ++ [m])
        (placeTurn disk (writer disk) dir suffix st m (relOf m.name)) ∧ ¬ Obstacle fs dir suffix ms m) ∨
        ∃ c b, ms ++ m :: rest = c ++ b ∧ Reached fs dir suffix c ∧
          Stopped fs dir suffix c (placeTurn disk (writer disk) dir suffix st m (relOf m.name)) := by
      by_cases hfile : m.kind = lit "file"
      · rcases fileTurn_spec disk hs h hacc' hfile with hgo | hstop | ⟨hstop, hold⟩
        · exact .inl hgo
        · exact .inr ⟨ms, m :: rest, rfl, hfree.reached, hstop⟩
        · exact .inr ⟨ms ++ [m], rest, hassoc, hfree.reached_snoc hold, hstop⟩
      · have hdir : m.kind = lit "dir" := (hacc'.each m (by simp)).2.resolve_left hfile
        rcases dirTurn_spec disk h hdir with hgo | hstop
        · exact .inl hgo
        · exact .inr ⟨ms, m :: rest, rfl, hfree.reached, hstop⟩
    rcases hturn with ⟨hgo, hfree'⟩ | ⟨c, b, hcut, hreached, hstop⟩
    · rw [if_neg (not_not.mpr hgo.failure), hassoc]
      exact ih hgo (hfree.snoc hfree') (hassoc ▸ hacc)
    · rw [if_pos hstop.failure]
      exact .inr ⟨c, b, hcut, hreached, hstop⟩

/-! ### Runs that nothing stops -/

/-- On a disk that makes every directory and writes the member, a free way is enough. -/
theorem placeTurn_free (hs : Ending suffix) (hdisk : ∀ fs p, disk.mkdirFails fs p = none)
    (h : Going fs dir suffix ms st) (hacc : Accepted (ms ++ [m])) (hfree : ¬ Obstacle fs dir suffix ms m)
    (hwrite : m.kind = lit "file" → ∀ now, disk.writeFails now (temp dir suffix m) = none) :
    Going fs dir suffix (ms ++ [m]) (placeTurn disk (writer disk) dir suffix st m (relOf m.name)) := by
  by_cases hfile : m.kind = lit "file"
  · have hneeds : stops (Path.dir (dest dir m)) = needs dir m := by
      rw [needs, if_neg (by rw [hfile]; decide)]
    have hnone := h.mkdir_free disk hdisk hfree hneeds
    have hturn := fileTurn_eq disk hfile h hnone
    obtain ⟨hstage, -⟩ := h.mkdir disk hneeds hnone
    have hfailure : (placeTurn disk (writer disk) dir suffix st m (relOf m.name)).failure = [] := by
      rw [hturn]
      rcases osWrite_cases disk (mkdirAll disk st.fs (Path.dir (dest dir m))).2 (temp_ne_nil hs dir m) m.data with
        ⟨-, -, hok⟩ | ⟨hdir | hfails, -⟩
      · rw [hok]
        rfl
      · exact absurd (.inr ⟨hfile, hstage.only _ hdir⟩) hfree
      · exact absurd (hwrite hfile _) hfails
    rcases fileTurn_spec disk hs h hacc hfile with ⟨hgo, -⟩ | hstop | ⟨hstop, -⟩
    · exact hgo
    · exact absurd hfailure hstop.failure
    · exact absurd hfailure hstop.failure
  · have hdir : m.kind = lit "dir" := (hacc.each m (by simp)).2.resolve_left hfile
    have hneeds : stops (dest dir m) = needs dir m := by rw [needs, if_pos hdir]
    have hnone := h.mkdir_free disk hdisk hfree hneeds
    have hturn : placeTurn disk (writer disk) dir suffix st m (relOf m.name) =
        st.after (mkdirAll disk st.fs (dest dir m)) := if_pos hdir
    have hfailure : (placeTurn disk (writer disk) dir suffix st m (relOf m.name)).failure = [] := by
      rw [hturn, Writing.after, hnone]
      exact h.failure
    rcases dirTurn_spec disk h hdir with ⟨hgo, -⟩ | hstop
    · exact hgo
    · exact absurd hfailure hstop.failure

/-- A free way ends where the disk does not write a member. -/
theorem fileTurn_fails (hs : Ending suffix) (hdisk : ∀ fs p, disk.mkdirFails fs p = none)
    (h : Going fs dir suffix ms st) (hacc : Accepted (ms ++ [m])) (hfree : ¬ Obstacle fs dir suffix ms m)
    (hfile : m.kind = lit "file") (hwrite : ∀ now, disk.writeFails now (temp dir suffix m) ≠ none) :
    Stopped fs dir suffix (ms ++ [m]) (placeTurn disk (writer disk) dir suffix st m (relOf m.name)) := by
  have hneeds : stops (Path.dir (dest dir m)) = needs dir m := by
    rw [needs, if_neg (by rw [hfile]; decide)]
  have hnone := h.mkdir_free disk hdisk hfree hneeds
  have hturn := fileTurn_eq disk hfile h hnone
  have htemps : (placeTurn disk (writer disk) dir suffix st m (relOf m.name)).temps ≠ tempsOf dir suffix ms := by
    rw [hturn, ← h.temps]
    exact fun hsame => absurd (congrArg List.length hsame) (by simp [Writing.after])
  rcases fileTurn_spec disk hs h hacc hfile with ⟨hgo, -⟩ | hstop | ⟨hstop, -⟩
  · have hfailure := hgo.failure
    rw [hturn] at hfailure
    rcases osWrite_cases disk (mkdirAll disk st.fs (Path.dir (dest dir m))).2 (temp_ne_nil hs dir m) m.data with
      ⟨-, hok, -⟩ | ⟨-, hmsg, -⟩
    · exact absurd hok (hwrite _)
    · rw [Writing.after, hmsg] at hfailure
      exact absurd hfailure (by decide : lit "cannot write file" ≠ [])
  · exact absurd hstop.temps htemps
  · exact hstop

omit disk in
theorem Free.head {rest : List Member} (h : Free fs dir suffix (ms ++ m :: rest)) :
    ¬ Obstacle fs dir suffix ms m := h ms m rest rfl

theorem placeLoop_free (hs : Ending suffix) (hdisk : ∀ fs p, disk.mkdirFails fs p = none) (rest : List Member)
    {ms : List Member} {st : Writing} (h : Going fs dir suffix ms st)
    (hfree : Free fs dir suffix (ms ++ rest)) (hacc : Accepted (ms ++ rest))
    (hwrite : ∀ now p, disk.writeFails now p = none) :
    Going fs dir suffix (ms ++ rest) (placeLoop disk (writer disk) dir suffix st (rest.zip (rels rest))) := by
  induction rest generalizing ms st with
  | nil => rwa [append_nil]
  | cons m rest ih =>
    have hassoc : ms ++ m :: rest = (ms ++ [m]) ++ rest := by
      rw [append_assoc, singleton_append]
    have hgo := placeTurn_free disk hs hdisk h (hassoc ▸ hacc).left hfree.head fun _ now => hwrite now _
    have hzip : (m :: rest).zip (rels (m :: rest)) = (m, relOf m.name) :: rest.zip (rels rest) := rfl
    rw [hzip, placeLoop, if_neg (not_not.mpr hgo.failure), hassoc]
    exact ih hgo (hassoc ▸ hfree) (hassoc ▸ hacc)

/-- The loop ends at the member that the disk does not write. -/
theorem placeLoop_fails (hs : Ending suffix) (hdisk : ∀ fs p, disk.mkdirFails fs p = none) {m : Member}
    (hfile : m.kind = lit "file") (b a : List Member) {ms : List Member} {st : Writing}
    (h : Going fs dir suffix ms st) (hfree : Free fs dir suffix (ms ++ a ++ [m]))
    (hacc : Accepted (ms ++ a ++ m :: b))
    (hwrite : ∀ now p, disk.writeFails now p = none ↔ p ≠ temp dir suffix m) :
    Stopped fs dir suffix (ms ++ a ++ [m])
      (placeLoop disk (writer disk) dir suffix st ((a ++ m :: b).zip (rels (a ++ m :: b)))) := by
  induction a generalizing ms st with
  | nil =>
    rw [append_nil] at hfree hacc ⊢
    have hacc' : Accepted (ms ++ [m]) := by
      rw [← singleton_append, ← append_assoc] at hacc
      exact hacc.left
    have hstop := fileTurn_fails disk hs hdisk h hacc' hfree.head hfile
      fun now hnone => (hwrite now _).mp hnone rfl
    have hzip : (m :: b).zip (rels (m :: b)) = (m, relOf m.name) :: b.zip (rels b) := rfl
    rw [nil_append, hzip, placeLoop, if_pos hstop.failure]
    exact hstop
  | cons x a ih =>
    have hassoc : ms ++ x :: a ++ [m] = ms ++ [x] ++ a ++ [m] := by simp
    have hassoc' : ms ++ x :: a ++ m :: b = ms ++ [x] ++ a ++ m :: b := by simp
    have hhead : ms ++ x :: a ++ [m] = ms ++ x :: (a ++ [m]) := by simp
    have hother : x.kind = lit "file" → temp dir suffix x ≠ temp dir suffix m := by
      intro hx hsame
      have heq : ms ++ x :: a ++ m :: b = (ms ++ x :: a ++ [m]) ++ b := by simp
      have hacc' : Accepted (ms ++ x :: a ++ [m]) := (heq ▸ hacc).left
      have hmem : x ∈ filesOf (ms ++ x :: a) := mem_filesOf.mpr ⟨by simp, hx⟩
      exact hacc'.temp_fresh hs dir hfile (hsame ▸ mem_map_of_mem (mem_map_of_mem hmem))
    have hacc' : Accepted (ms ++ [x]) := by
      rw [hassoc', append_assoc] at hacc
      exact hacc.left
    have hgo := placeTurn_free disk hs hdisk h hacc' (hhead ▸ hfree).head
      fun hx now => (hwrite now _).mpr (hother hx)
    have hzip : (x :: a ++ m :: b).zip (rels (x :: a ++ m :: b)) =
        (x, relOf x.name) :: (a ++ m :: b).zip (rels (a ++ m :: b)) := rfl
    rw [hzip, placeLoop, if_neg (not_not.mpr hgo.failure), hassoc]
    exact ih hgo (hassoc ▸ hfree) (hassoc' ▸ hacc)

end

/-! ### Renaming -/

theorem get_renamed (fs : Fs) (l l' k : Loc) (n : Node) :
    ((fs.erase l).put l' n).get k = if k = l' then some n else if k = l then none else fs.get k := by
  rw [Fs.get_put, Fs.get_erase]

/-- The sources of renames are all there. -/
def Sources (fs : Fs) (ts : List (Bytes × Bytes)) : Prop := ∀ t ∈ ts, t.1 ≠ [] ∧ fs.get (loc t.1) ≠ none

section

variable {fs : Fs} {t : Bytes × Bytes} {ts : List (Bytes × Bytes)}

theorem renameLoop_cons (h : Sources fs (t :: ts)) (hnew : loc t.1 ∉ ts.map fun t => loc t.1) :
    ∃ n, fs.get (loc t.1) = some n ∧ Sources ((fs.erase (loc t.1)).put (loc t.2) n) ts ∧
      renameLoop fs (t :: ts) = renameLoop ((fs.erase (loc t.1)).put (loc t.2) n) ts := by
  obtain ⟨hne, hsome⟩ := h t mem_cons_self
  obtain ⟨n, hn⟩ := Option.ne_none_iff_exists'.mp hsome
  refine ⟨n, hn, fun u hu => ?_, ?_⟩
  · obtain ⟨hune, husome⟩ := h u (mem_cons_of_mem _ hu)
    have hother : loc u.1 ≠ loc t.1 := fun hsame => hnew (hsame ▸ mem_map_of_mem hu)
    rw [get_renamed, if_neg hother]
    refine ⟨hune, ?_⟩
    split_ifs
    · exact nofun
    · exact husome
  · have hrename : rename fs t.1 t.2 = (none, (fs.erase (loc t.1)).put (loc t.2) n) := by
      rw [rename, stat, if_neg hne, hn]
    rw [renameLoop, hrename]

variable (hnew : (ts.map fun t => loc t.1).Nodup)

include hnew

theorem renameLoop_none (h : Sources fs ts) : (renameLoop fs ts).1 = none := by
  induction ts generalizing fs with
  | nil => rfl
  | cons t ts ih =>
    rw [map_cons, nodup_cons] at hnew
    obtain ⟨n, -, hsrc, hloop⟩ := renameLoop_cons h hnew.1
    rw [hloop]
    exact ih hnew.2 hsrc

/-- Renames leave the places they are not about. -/
theorem renameLoop_other (h : Sources fs ts) {l : Loc} (hl : l ∉ ts.map fun t => loc t.1)
    (hl' : l ∉ ts.map fun t => loc t.2) : (renameLoop fs ts).2.get l = fs.get l := by
  induction ts generalizing fs with
  | nil => rfl
  | cons t ts ih =>
    rw [map_cons, nodup_cons] at hnew
    rw [map_cons, mem_cons, not_or] at hl hl'
    obtain ⟨n, -, hsrc, hloop⟩ := renameLoop_cons h hnew.1
    rw [hloop, ih hnew.2 hsrc hl.2 hl'.2, get_renamed, if_neg hl'.1, if_neg hl.1]

/-- Each destination gets what was under its temporary name, unless that is the destination of an earlier
rename. -/
theorem renameLoop_moved (h : Sources fs ts) (hdest : (ts.map fun t => loc t.2).Nodup)
    (horder : ts.Pairwise fun t u => loc t.2 ≠ loc u.1) :
    ∀ t ∈ ts, (renameLoop fs ts).2.get (loc t.2) = fs.get (loc t.1) := by
  induction ts generalizing fs with
  | nil => exact nofun
  | cons t ts ih =>
    rw [map_cons, nodup_cons] at hnew hdest
    obtain ⟨hfirst, hrest⟩ := pairwise_cons.mp horder
    obtain ⟨n, hn, hsrc, hloop⟩ := renameLoop_cons h hnew.1
    rw [hloop]
    intro u hu
    rcases mem_cons.mp hu with rfl | hu
    · have hout : loc u.2 ∉ ts.map fun t => loc t.1 := by
        intro hmem
        obtain ⟨v, hv, hsame⟩ := mem_map.mp hmem
        exact hfirst v hv hsame.symm
      rw [renameLoop_other hnew.2 hsrc hout hdest.1, get_renamed, if_pos rfl, hn]
    · have hother : loc u.1 ≠ loc t.1 := fun hsame => hnew.1 (hsame ▸ mem_map_of_mem hu)
      rw [ih hnew.2 hsrc hdest.2 hrest u hu, get_renamed, if_neg (hfirst u hu).symm, if_neg hother]

/-- A place is empty behind the rename that leaves it. -/
theorem renameLoop_left (h : Sources fs ts) {a b : List (Bytes × Bytes)} {t : Bytes × Bytes}
    (hcut : ts = a ++ t :: b) (hl : loc t.1 ∉ (t :: b).map fun t => loc t.2) :
    (renameLoop fs ts).2.get (loc t.1) = none := by
  induction a generalizing fs ts with
  | nil =>
    subst hcut
    rw [nil_append, map_cons, nodup_cons] at hnew
    rw [map_cons, mem_cons, not_or] at hl
    obtain ⟨n, -, hsrc, hloop⟩ := renameLoop_cons h hnew.1
    rw [nil_append, hloop, renameLoop_other hnew.2 hsrc hnew.1 hl.2, get_renamed, if_neg hl.1, if_pos rfl]
  | cons u a ih =>
    subst hcut
    rw [cons_append, map_cons, nodup_cons] at hnew
    rw [cons_append] at h ⊢
    obtain ⟨n, -, hsrc, hloop⟩ := renameLoop_cons h hnew.1
    rw [hloop]
    exact ih hnew.2 hsrc rfl

end

/-! ### Room in the directory -/

/-- A file is there. -/
def FileAt (fs : Fs) (p : Bytes) : Prop := ∃ d, stat fs p = some (.file d)

theorem exists_not_dir (fs : Fs) (p : Bytes) : (osExists fs p = true ∧ ¬ osIsdir fs p = true) ↔ FileAt fs p := by
  unfold osExists osIsdir FileAt
  cases stat fs p with
  | none => simp
  | some n => cases n <;> simp

/-- The paths of a member from a directory on. -/
def levels (above : Bytes) : List Bytes → List Bytes
  | [] => []
  | p :: parts => join [above, p] :: levels (join [above, p]) parts

/-- Nothing is in the way of a path: no file above it, and at its end none where a directory goes and no
directory where a file goes. -/
structure Room (fs : Fs) (kind : Bytes) (ps : List Bytes) : Prop where
  above : ∀ p ∈ ps.dropLast, ¬ FileAt fs p
  last : ∀ p ∈ ps.getLast?, if kind = lit "dir" then ¬ FileAt fs p else stat fs p ≠ some .dir

theorem room_cons {fs : Fs} {kind p q : Bytes} {ps : List Bytes} :
    Room fs kind (p :: q :: ps) ↔ ¬ FileAt fs p ∧ Room fs kind (q :: ps) := by
  refine ⟨fun h => ⟨h.above p (by simp), fun r hr => h.above r (by simp [hr]), fun r hr => h.last r ?_⟩,
    fun ⟨hp, h⟩ => ⟨fun r hr => ?_, fun r hr => h.last r ?_⟩⟩
  · rwa [getLast?_cons_cons]
  · rw [dropLast_cons_cons] at hr
    rcases mem_cons.mp hr with rfl | hr
    · exact hp
    · exact h.above r hr
  · rwa [getLast?_cons_cons] at hr

theorem roomLoop_ok (fs : Fs) (kind : Bytes) (parts : List Bytes) (above : Bytes) :
    roomLoop fs kind above parts = .ok () ↔ Room fs kind (levels above parts) := by
  induction parts generalizing above with
  | nil => exact iff_of_true rfl ⟨nofun, nofun⟩
  | cons p parts ih =>
    rw [roomLoop, levels]
    cases parts with
    | nil =>
      have hroom : Room fs kind [join [above, p]] ↔
          if kind = lit "dir" then ¬ FileAt fs (join [above, p]) else stat fs (join [above, p]) ≠ some .dir :=
        ⟨fun h => h.last _ rfl, fun h => ⟨nofun, fun q hq => by rwa [← Option.some.inj hq]⟩⟩
      rw [levels, hroom]
      by_cases hkind : kind = lit "dir"
      · rw [if_pos (.inr hkind), if_pos hkind]
        split_ifs with hfile
        · exact iff_of_false (errf_ne_ok _ _) (not_not.mpr ((exists_not_dir fs _).mp hfile))
        · exact iff_of_true rfl (mt (exists_not_dir fs _).mpr hfile)
      · rw [if_neg (by simpa using hkind), if_neg hkind]
        by_cases hdir : stat fs (join [above, p]) = some .dir
        · rw [if_pos (by simpa [osIsdir] using hdir)]
          exact iff_of_false (errf_ne_ok _ _) (not_not.mpr hdir)
        · rw [if_neg (by simpa [osIsdir] using hdir)]
          exact iff_of_true rfl hdir
    | cons q parts =>
      have hrest := ih (join [above, p])
      rw [levels] at hrest ⊢
      rw [if_pos (.inl (cons_ne_nil _ _)), room_cons, ← hrest]
      split_ifs with hfile
      · exact iff_of_false (errf_ne_ok _ _) fun h => h.1 ((exists_not_dir fs _).mp hfile)
      · exact (and_iff_right (mt (exists_not_dir fs _).mpr hfile)).symm

theorem checkLoop_ok (fs : Fs) (dir : Bytes) (ms : List Member) :
    checkLoop fs dir (ms.zip (rels ms)) = .ok () ↔
      ∀ m ∈ ms, Room fs m.kind (levels dir (split (relOf m.name))) := by
  induction ms with
  | nil => exact iff_of_true rfl nofun
  | cons m ms ih =>
    have hzip : (m :: ms).zip (rels (m :: ms)) = (m, relOf m.name) :: ms.zip (rels ms) := rfl
    rw [hzip, checkLoop, forall_mem_cons, ← ih, ← roomLoop_ok]
    cases roomLoop fs m.kind dir (split (relOf m.name)) with
    | error e => exact iff_of_false nofun fun h => nomatch h.1
    | ok u => exact (and_iff_right rfl).symm

theorem mem_stops_self (p : Bytes) : p ∈ stops p := by
  have loop : ∀ q before : Bytes, before ++ q ∈ stopsLoop before q := by
    intro q
    induction q with
    | nil => exact fun before => by simp [stopsLoop]
    | cons c q ih =>
      intro before
      have hmem := ih (before ++ [c])
      rw [append_assoc, singleton_append] at hmem
      rw [stopsLoop]
      split_ifs
      · exact mem_cons_of_mem _ hmem
      · exact hmem
  exact loop p []

/-! ### Extraction -/

/-- `place` gets to its first write: every directory can be made, and there is room for the members. -/
structure Ready (fs : Fs) (dir : Bytes) (ms : List Member) : Prop where
  made : ∀ p ∈ stops dir, Open fs p
  room : ∀ m ∈ ms, Room fs m.kind (levels dir (split (relOf m.name)))

/-- What a call owes: a success has every file in its place, a failure leaves the files as they were. -/
def Atomic (fs : Fs) (dir : Bytes) (ms : List Member) : Except Fail Nat × Fs → Prop
  | (.ok _, now) => ∀ m ∈ ms, m.kind = lit "file" → now.get (loc (dest dir m)) = some (.file m.data)
  | (.error _, now) => SameFiles fs now

/-- The temporary names meet nothing. Where `place` gets to its first write, a file that is there under the
temporary name of a member is one that it does not get to, and if nothing stops it, the path of no file is
that of a later one with the ending of the temporary names. -/
structure Clear (fs : Fs) (dir suffix : Bytes) (ms : List Member) : Prop where
  old : Ready fs dir ms → ∀ a m b, ms = a ++ m :: b → m.kind = lit "file" →
    (∃ d, fs.get (loc (temp dir suffix m)) = some (.file d)) → ¬ Free fs dir suffix (a ++ [m])
  order : Ready fs dir ms → Free fs dir suffix ms →
    (filesOf ms).Pairwise fun m m' => relOf m.name ≠ relOf m'.name ++ suffix

section

variable (disk : Disk) {fs : Fs} {dir suffix : Bytes} {ms : List Member} {st : Writing}

theorem Open.not_file {p : Bytes} (h : Open fs p) : ¬ FileAt fs p := by
  rintro ⟨d, hd⟩
  rw [stat, if_neg h.1] at hd
  exact h.2 d hd

theorem place_eq (pid : Int) (hfile : ¬ FileAt fs dir) (hcheck : checkLoop fs dir (ms.zip (rels ms)) = .ok ())
    (hnone : (mkdirAll disk fs dir).1 = none) :
    place disk (writer disk) pid fs ms (rels ms) dir =
      placeEnd (placeLoop disk (writer disk) dir (partSuffix pid) ⟨(mkdirAll disk fs dir).2, [], [], []⟩
        (ms.zip (rels ms))) := by
  rw [place, if_neg (mt (exists_not_dir fs dir).mp hfile), hcheck]
  cases hmk : mkdirAll disk fs dir with
  | mk o now =>
    rw [hmk] at hnone
    obtain rfl : o = none := hnone
    rfl

theorem going_nil (hnone : (mkdirAll disk fs dir).1 = none) :
    Going fs dir suffix [] ⟨(mkdirAll disk fs dir).2, [], [], []⟩ where
  stage := by
    have hstart : Stage fs dir suffix [] [] fs :=
      ⟨nofun, fun _ _ _ => Iff.rfl, fun _ h => h, nofun, fun _ h => .inl h⟩
    have hmade := mkdirLoop_none disk ((mkdirAll_none disk fs dir).mp hnone)
    have hstage := hstart.mkdir (mkdirLoop_makes disk (stops dir) fs) fun p hp => (hmade p hp).2
    rw [mkdirAll_snd, asked, flatMap_nil, append_nil]
    exact hstage
  temps := rfl
  finals := rfl
  failure := rfl

/-- `place` fails before its first write and changes no file, or it is ready. -/
theorem place_start (pid : Int) :
    (∃ e now, place disk (writer disk) pid fs ms (rels ms) dir = (.error e, now) ∧ SameFiles fs now) ∨
      Ready fs dir ms ∧ ∃ now, Going fs dir (partSuffix pid) [] ⟨now, [], [], []⟩ ∧
        place disk (writer disk) pid fs ms (rels ms) dir =
          placeEnd (placeLoop disk (writer disk) dir (partSuffix pid) ⟨now, [], [], []⟩ (ms.zip (rels ms))) := by
  by_cases hfile : FileAt fs dir
  · rw [place, if_pos ((exists_not_dir fs dir).mpr hfile)]
    cases herr : (errf (lit "compress: " ++ dir ++ lit " is not a directory") : Except Fail Nat) with
    | error e => exact .inl ⟨e, fs, rfl, SameFiles.refl fs⟩
    | ok n => exact absurd herr (errf_ne_ok _ n)
  cases hcheck : checkLoop fs dir (ms.zip (rels ms)) with
  | error e =>
    refine .inl ⟨e, fs, ?_, SameFiles.refl fs⟩
    rw [place, if_neg (mt (exists_not_dir fs dir).mp hfile), hcheck]
  | ok u =>
    by_cases hnone : (mkdirAll disk fs dir).1 = none
    · have hmade := mkdirLoop_none disk ((mkdirAll_none disk fs dir).mp hnone)
      exact .inr ⟨⟨fun p hp => (hmade p hp).1, (checkLoop_ok fs dir ms).mp hcheck⟩, _,
        going_nil disk hnone, place_eq disk pid hfile hcheck hnone⟩
    · obtain ⟨msg, hmsg⟩ := Option.ne_none_iff_exists'.mp hnone
      refine .inl ⟨.err msg, (mkdirAll disk fs dir).2, ?_, ?_⟩
      · rw [place, if_neg (mt (exists_not_dir fs dir).mp hfile), hcheck]
        cases hmk : mkdirAll disk fs dir with
        | mk o now =>
          rw [hmk] at hmsg
          obtain rfl : o = some msg := hmsg
          rfl
      · rw [mkdirAll_snd]
        exact (mkdirLoop_makes disk (stops dir) fs).files

/-- On a disk that makes every directory, `place` starts where it is ready. -/
theorem place_ready (hdisk : ∀ fs p, disk.mkdirFails fs p = none) (pid : Int) (h : Ready fs dir ms) :
    ∃ now, Going fs dir (partSuffix pid) [] ⟨now, [], [], []⟩ ∧
      place disk (writer disk) pid fs ms (rels ms) dir =
        placeEnd (placeLoop disk (writer disk) dir (partSuffix pid) ⟨now, [], [], []⟩ (ms.zip (rels ms))) := by
  have hnone : (mkdirAll disk fs dir).1 = none :=
    (mkdirAll_none disk fs dir).mpr (mkdirLoop_open disk hdisk h.made)
  exact ⟨_, going_nil disk hnone, place_eq disk pid (h.made dir (mem_stops_self dir)).not_file
    ((checkLoop_ok fs dir ms).mpr h.room) hnone⟩

variable {c : List Member}

omit disk in
/-- A failure takes exactly the files under the temporary names away. -/
theorem Stopped.files (hs : Ending suffix) (h : Stopped fs dir suffix c st) (l : Loc)
    (d : Bytes) : (st.temps.foldl remove st.fs).get l = some (.file d) ↔
      l ∉ (tempsOf dir suffix c).map loc ∧ fs.get l = some (.file d) := by
  have hne : ∀ t ∈ tempsOf dir suffix c, t ≠ [] := by
    intro t ht
    obtain ⟨m, -, rfl⟩ := mem_map.mp ht
    exact temp_ne_nil hs dir m
  rw [h.temps, get_removeAll hne]
  exact and_congr_right fun hl => h.file l hl d

omit disk in
theorem Stopped.atomic_iff (hs : Ending suffix) (h : Stopped fs dir suffix c st) :
    Atomic fs dir ms (placeEnd st) ↔
      ∀ m ∈ filesOf c, ∀ d, fs.get (loc (temp dir suffix m)) ≠ some (.file d) := by
  have hend : placeEnd st = (.error (.err st.failure), st.temps.foldl remove st.fs) := if_pos h.failure
  rw [hend]
  refine ⟨fun hsame m hm d hd => ?_, fun hnone l d => (h.files hs l d).trans (and_iff_right_of_imp ?_)⟩
  · have hmem : loc (temp dir suffix m) ∈ (tempsOf dir suffix c).map loc :=
      mem_map_of_mem (mem_map_of_mem hm)
    exact ((h.files hs _ d).mp ((hsame _ d).mpr hd)).1 hmem
  · intro hl hmem
    rw [tempsOf, map_map] at hmem
    obtain ⟨m, hm, rfl⟩ := mem_map.mp hmem
    exact hnone m hm d hl

/-- The renames of a call that succeeds. -/
def renames (dir suffix : Bytes) (ms : List Member) : List (Bytes × Bytes) :=
  (filesOf ms).map fun m => (temp dir suffix m, dest dir m)

omit disk in
theorem renames_new (hs : Ending suffix) (hacc : Accepted ms) :
    ((renames dir suffix ms).map fun t => loc t.1).Nodup := by
  have hnodup := hacc.nodup_temps hs dir
  rw [tempsOf, map_map] at hnodup
  rw [renames, map_map]
  exact hnodup

omit disk in
theorem renames_dests (hacc : Accepted ms) : ((renames dir suffix ms).map fun t => loc t.2).Nodup := by
  have hnodup := hacc.nodup_dests dir
  rw [map_map] at hnodup
  rw [renames, map_map]
  exact hnodup

omit disk in
theorem Going.sources (hs : Ending suffix) (h : Going fs dir suffix ms st) :
    Sources st.fs (renames dir suffix ms) := by
  intro t ht
  obtain ⟨m, hm, rfl⟩ := mem_map.mp ht
  refine ⟨temp_ne_nil hs dir m, ?_⟩
  rw [h.stage.temp m hm]
  exact nofun

omit disk in
/-- A call that goes on behind all the members succeeds, with their renames. -/
theorem Going.placeEnd_eq (hs : Ending suffix) (hacc : Accepted ms) (h : Going fs dir suffix ms st) :
    placeEnd st = (.ok st.temps.length, (renameLoop st.fs (renames dir suffix ms)).2) := by
  have hzip : st.temps.zip st.finals = renames dir suffix ms := by
    rw [h.temps, h.finals, tempsOf, zip_map', renames]
  have hnone := renameLoop_none (renames_new hs hacc) (h.sources hs)
  rw [placeEnd, if_neg (not_not.mpr h.failure), hzip]
  cases hloop : renameLoop st.fs (renames dir suffix ms) with
  | mk o now =>
    rw [hloop] at hnone
    obtain rfl : o = none := hnone
    rfl

omit disk in
theorem dests_apart (dir : Bytes) (hacc : Accepted ms) :
    (filesOf ms).Pairwise fun m m' => loc (dest dir m) ≠ loc (dest dir m') := by
  have hnodup := hacc.nodup_dests dir
  rwa [map_map, List.Nodup, pairwise_map] at hnodup

omit disk in
/-- The destination of an earlier file is lost where it is the temporary name of a later one. -/
theorem Going.lost (hs : Ending suffix) (hacc : Accepted ms) (h : Going fs dir suffix ms st)
    {a b : List Member} {x y : Member} (hcut : filesOf ms = a ++ y :: b) (hx : x ∈ a)
    (hloc : loc (dest dir x) = loc (temp dir suffix y)) :
    (renameLoop st.fs (renames dir suffix ms)).2.get (loc (dest dir x)) = none := by
  have hpair := dests_apart dir hacc
  have hcut' : renames dir suffix ms = (a.map fun m => (temp dir suffix m, dest dir m)) ++
      (temp dir suffix y, dest dir y) :: b.map fun m => (temp dir suffix m, dest dir m) := by
    rw [renames, hcut, map_append, map_cons]
  rw [hloc]
  refine renameLoop_left (renames_new hs hacc) (h.sources hs) hcut' fun hmem => ?_
  rw [map_cons, map_map] at hmem
  obtain ⟨z, hz, hsame⟩ : ∃ z ∈ y :: b, loc (dest dir z) = loc (temp dir suffix y) := mem_map.mp hmem
  rw [hcut] at hpair
  exact (pairwise_append.mp hpair).2.2 x hx z hz (hloc.trans hsame.symm)

omit disk in
/-- A success is atomic exactly if no member is written where a later temporary file waits. -/
theorem Going.atomic_iff (hs : Ending suffix) (hacc : Accepted ms) (h : Going fs dir suffix ms st) :
    Atomic fs dir ms (placeEnd st) ↔
      (filesOf ms).Pairwise fun m m' => relOf m.name ≠ relOf m'.name ++ suffix := by
  have hproper : ∀ m ∈ filesOf ms, Proper m.name := fun m hm => (hacc.each m (mem_filesOf.mp hm).1).1
  rw [h.placeEnd_eq hs hacc]
  constructor
  · intro hatomic
    rw [pairwise_iff_getElem]
    intro i j hi hj hij hsame
    have hmi := getElem_mem hi
    have hmj := getElem_mem hj
    have hcut : filesOf ms = (filesOf ms).take j ++ (filesOf ms)[j] :: (filesOf ms).drop (j + 1) := by
      rw [← drop_eq_getElem_cons hj, take_append_drop]
    have hearlier : (filesOf ms)[i] ∈ (filesOf ms).take j :=
      mem_take_iff_getElem.mpr ⟨i, by omega, rfl⟩
    have hlost := h.lost hs hacc hcut hearlier
      ((loc_dest_temp hs dir (hproper _ hmi) (hproper _ hmj)).mpr hsame)
    obtain ⟨hmem, hfile⟩ := mem_filesOf.mp hmi
    rw [hatomic _ hmem hfile] at hlost
    cases hlost
  · intro horder m hm hfile
    have hmem : m ∈ filesOf ms := mem_filesOf.mpr ⟨hm, hfile⟩
    have horder' : (renames dir suffix ms).Pairwise fun t u => loc t.2 ≠ loc u.1 := by
      rw [renames, pairwise_map]
      refine horder.imp_of_mem fun {x y} hx hy hne hsame => hne ?_
      exact (loc_dest_temp hs dir (hproper x hx) (hproper y hy)).mp hsame
    have hmoved := renameLoop_moved (renames_new hs hacc) (h.sources hs) (renames_dests hacc) horder'
      (temp dir suffix m, dest dir m) (mem_map_of_mem hmem)
    rw [hmoved]
    exact h.stage.temp m hmem

end

theorem ending (pid : Int) : Ending (partSuffix pid) where
  slash := by
    intro hmem
    rcases mem_append.mp hmem with hmem | hmem
    · exact absurd hmem (by decide)
    · unfold Http.intText at hmem
      rcases mem_append.mp hmem with hmem | hmem
      · split_ifs at hmem
        · exact absurd hmem (by decide)
        · cases hmem
      · have hdigit := all_eq_true.mp (Rt.printNat_digits pid.natAbs).1 sep hmem
        exact absurd hdigit (by decide)
  long := by
    rw [partSuffix, length_append]
    exact Nat.le_add_right_of_le (by decide)

/-- A disk on which only the writes to a path fail. -/
def failsAt (path : Bytes) : Disk where
  mkdirFails := fun _ _ => none
  writeFails := fun _ p => if p = path then some none else none

/-- A disk on which nothing fails. -/
def neverFails : Disk := ⟨fun _ _ => none, fun _ _ => none⟩

/-- Extraction is atomic on every disk exactly if the temporary names meet nothing. -/
theorem place_atomic_iff {ms : List Member} {r : List Bytes} (hplan : plan ms = .ok r) (pid : Int) (fs : Fs)
    (dir : Bytes) :
    (∀ disk, Atomic fs dir ms (place disk (writer disk) pid fs ms r dir)) ↔
      Clear fs dir (partSuffix pid) ms := by
  obtain ⟨rfl, htogether⟩ := (plan_ok_iff ms r).mp hplan
  have hacc := htogether.toAccepted
  have hs := ending pid
  constructor
  · refine fun hatomic => ⟨fun hready a m b hcut hfile ⟨d, hd⟩ hfree => ?_, fun hready hfree => ?_⟩
    · have hwrite : ∀ now p, (failsAt (temp dir (partSuffix pid) m)).writeFails now p = none ↔
          p ≠ temp dir (partSuffix pid) m := by
        intro now p
        simp [failsAt]
      obtain ⟨now, hgo, hplace⟩ := place_ready (failsAt (temp dir (partSuffix pid) m)) (fun _ _ => rfl) pid hready
      have hstop := placeLoop_fails _ hs (fun _ _ => rfl) hfile b a hgo hfree (hcut ▸ hacc) hwrite
      rw [nil_append, ← hcut] at hstop
      have hnone := (hstop.atomic_iff hs).mp (hplace ▸ hatomic (failsAt (temp dir (partSuffix pid) m)))
      exact hnone m (mem_filesOf.mpr ⟨by simp, hfile⟩) d hd
    · obtain ⟨now, hgo, hplace⟩ := place_ready neverFails (fun _ _ => rfl) pid hready
      have hgo := placeLoop_free neverFails hs (fun _ _ => rfl) ms hgo hfree hacc (fun _ _ => rfl)
      exact (hgo.atomic_iff hs hacc).mp (hplace ▸ hatomic neverFails)
  · intro hclear disk
    rcases place_start disk pid with ⟨e, now, hplace, hsame⟩ | ⟨hready, now, hgo, hplace⟩
    · rw [hplace]
      exact hsame
    · have hempty : Free fs dir (partSuffix pid) [] := by
        intro a m b hcut
        exact absurd hcut (by simp)
      rw [hplace]
      rcases placeLoop_spec disk hs ms hgo hempty hacc with ⟨hgo, hfree⟩ | ⟨c, b, hcut, hreached, hstop⟩
      · exact (Going.atomic_iff hs hacc hgo).mpr (hclear.order hready hfree)
      · refine (hstop.atomic_iff hs).mpr fun m hm d hd => ?_
        obtain ⟨hmem, hfile⟩ := mem_filesOf.mp hm
        obtain ⟨a, b', rfl⟩ := append_of_mem hmem
        rw [nil_append, append_assoc, cons_append] at hcut
        exact hclear.old hready a m (b' ++ b) hcut hfile ⟨d, hd⟩ (hreached a m b' rfl hfile ⟨d, hd⟩)

/-- A file of one byte. -/
def fileA : Member := { name := lit "a", kind := lit "file", data := lit "A" }

/-- A file that is named like the temporary file of `fileA` in the process 7. -/
def partA : Member := { name := lit "a.voila-part-7", kind := lit "file", data := lit "B" }

theorem fileA_atomic : Atomic [] (lit "out") [fileA]
    (place neverFails (writer neverFails) 7 [] [fileA] [lit "a"] (lit "out")) := by
  have hplan : plan [fileA] = .ok [lit "a"] := ok_of_toOption (by decide +kernel)
  refine (place_atomic_iff hplan 7 [] (lit "out")).mpr ⟨?_, fun _ _ => ?_⟩ neverFails
  · rintro - a m b - - ⟨d, hd⟩
    cases hd
  · rw [filesOf, filter_cons_of_pos (by decide), filter_nil]
    exact pairwise_singleton _ _

/-- The temporary file of the second member takes the place of the first, and is then renamed with what the
first has written. -/
theorem partA_not_atomic : ∃ r, plan [partA, fileA] = .ok r ∧
    ¬ Atomic [] (lit "out") [partA, fileA]
      (place neverFails (writer neverFails) 7 [] [partA, fileA] r (lit "out")) := by
  refine ⟨[lit "a.voila-part-7", lit "a"], ok_of_toOption (by decide +kernel), fun hatomic => ?_⟩
  have hok : (place neverFails (writer neverFails) 7 [] [partA, fileA] [lit "a.voila-part-7", lit "a"]
      (lit "out")).1.toOption.isSome = true := by decide +kernel
  have hdata : (place neverFails (writer neverFails) 7 [] [partA, fileA] [lit "a.voila-part-7", lit "a"]
      (lit "out")).2.get (loc (dest (lit "out") fileA)) = some (.file (lit "B")) := by decide +kernel
  generalize place neverFails (writer neverFails) 7 [] [partA, fileA] [lit "a.voila-part-7", lit "a"]
    (lit "out") = result at hatomic hok hdata
  obtain ⟨e | n, now⟩ := result
  · cases hok
  · have hplaced := hatomic fileA (by simp) rfl
    exact absurd (hdata.symm.trans hplaced) (by decide)

end Voila.Compress
