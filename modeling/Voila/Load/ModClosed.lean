import Voila.Load.Select

/-!
# Voila.Load.ModClosed

What the result of `ModulesOf` promises its readers: the directories are those of the selected versions, the
`voila.mod`s in them require nothing above what is selected, and the order of the `replace` lines does not
matter.

* `modulesOf_servedAs`, `modulesOf_orderFree`: two of these always hold.
* `modulesOf_meets_iff`: the third holds for all that is required in given versions if and only if `VerCmp` is
  transitive on them. `Line` has the module graphs that show the one direction.
-/

open List

namespace Voila.Load

variable {env : ModEnv} {mf : ModFile}

/-! ### The directories -/

/-- Each selected module has the directory that `mod_serve_dir` gives its selected version. -/
def ServedAs (env : ModEnv) (mf : ModFile) (mi : ModInfo) : Prop :=
  ∀ p ∈ mi.paths, mi.dir p = some (modServeDir env mf p (mi.modVer p)).1

theorem rounds_served {n : Nat} {w out : Walk} (listed : Listed w.mi) (placed : Placed env mf w)
    (hout : w.rounds env mf n = some out) : (Listed out.mi ∧ Placed env mf out) ∧ Settled out :=
  rounds_settle (P := fun w => Listed w.mi ∧ Placed env mf w) (fun w h => h.1) (fun w h => h)
    (fun w ps h _ => List.foldlRecOn (motive := fun w : Walk => Listed w.mi ∧ Placed env mf w) ps _ h
      fun w h p _ => ⟨expand_listed env mf h.1 p, h.2.expand p⟩)
    ⟨listed, placed⟩ hout

variable {mi : ModInfo} {reads : List (String × String)} {reps : List Replace}

theorem modulesOf_servedAs
    (hmi : modulesOf env mf = some (mi, reads)) : Listed mi ∧ ServedAs env mf mi := by
  obtain ⟨w, hw, out⟩ := Option.map_eq_some_iff.mp hmi
  cases out
  obtain ⟨⟨listed, placed⟩, settled⟩ :=
    rounds_served (startWalk_listed mf) (fun p v h => by simp [startWalk] at h) hw
  obtain ⟨ver, paths, dir⟩ := serveRest_eq env mf w.mi
  have listed' : Listed (serveRest env mf w.mi) := fun p => by rw [ver, paths, listed p]
  refine ⟨listed', fun p hp => ?_⟩
  obtain ⟨v, hv⟩ := Option.isSome_iff_exists.mp ((listed p).mp (paths ▸ hp))
  have served := placed p v (settled p v hv)
  rw [dir p (by simp [served]), served, modVer_of_ver (ver ▸ hv)]

/-! ### The order of the `replace` lines -/

/-- Permuting the `replace` lines, where they name distinct paths, changes nothing. -/
def OrderFree (env : ModEnv) (mf : ModFile) : Prop :=
  ∀ reps : List Replace, reps.Perm mf.reps → (mf.reps.map Replace.path).Nodup →
    modulesOf env { mf with reps := reps } = modulesOf env mf

/-- What is found in a list where only one element can be, is found in any order. -/
theorem find?_perm {α : Type} {P : α → Bool} {l l' : List α} (perm : l.Perm l')
    (one : ∀ a ∈ l, ∀ b ∈ l, P a → P b → a = b) : l.find? P = l'.find? P := by
  cases h : l.find? P with
  | none =>
    rw [find?_eq_none] at h
    exact (find?_eq_none.mpr fun a ha => h a (perm.mem_iff.mpr ha)).symm
  | some a =>
    have ha := mem_of_find?_eq_some h
    have Pa := find?_some h
    cases h' : l'.find? P with
    | none => exact absurd Pa (find?_eq_none.mp h' a (perm.mem_iff.mp ha))
    | some b =>
      have hb := perm.mem_iff.mpr (mem_of_find?_eq_some h')
      rw [one a ha b hb Pa (find?_some h')]

theorem eq_of_path (distinct : (reps.map Replace.path).Nodup) {a b : Replace} (ha : a ∈ reps)
    (hb : b ∈ reps) (same : a.path = b.path) : a = b :=
  inj_on_of_nodup_map distinct ha hb same

theorem modServeDir_perm (perm : reps.Perm mf.reps)
    (distinct : (mf.reps.map Replace.path).Nodup) (p ver : String) :
    modServeDir env { mf with reps := reps } p ver = modServeDir env mf p ver := by
  have one : ∀ a ∈ reps, ∀ b ∈ reps, a.path = p → b.path = p → a = b := fun a ha b hb hpa hpb =>
    eq_of_path distinct (perm.mem_iff.mp ha) (perm.mem_iff.mp hb) (hpa.trans hpb.symm)
  unfold modServeDir
  dsimp only
  rw [find?_perm perm fun a ha b hb Pa Pb => one a ha b hb (of_decide_eq_true Pa).1 (of_decide_eq_true Pb).1,
    find?_perm perm fun a ha b hb Pa Pb => one a ha b hb (of_decide_eq_true Pa).1 (of_decide_eq_true Pb).1]

/-- One turn of the loop over the `replace` lines. -/
theorem bumpReps_foldl (reps : List Replace) (mi : ModInfo) :
    bumpReps reps mi = reps.foldl (fun mi rp => bumpReps [rp] mi) mi := by
  induction reps generalizing mi with
  | nil => rfl
  | cons rp reps ih =>
    rw [foldl_cons, ← ih]
    rfl

theorem bumpReps_one (rp : Replace) (mi : ModInfo) : bumpReps [rp] mi =
    if mi.ver rp.path = none ∧ rp.ver ≠ "" ∧ rp.path ≠ "" then
      { mi with
        paths := (mi.paths ++ [rp.path]).insertionSort (· ≤ ·)
        ver := fun q => if q = rp.path then some rp.ver else mi.ver q }
    else mi := by
  simp only [bumpReps, modBump]
  by_cases free : mi.ver rp.path = none ∧ rp.ver ≠ ""
  · by_cases named : rp.path = ""
    · rw [if_pos free, if_pos (.inl named), if_neg fun h => h.2.2 named]
    · rw [if_pos free, if_neg (by simp [named, free.2]), if_pos ⟨free.1, free.2, named⟩, free.1]
  · rw [if_neg free, if_neg fun h => free ⟨h.1, h.2.1⟩]

theorem sort_comm (l : List String) (a b : String) :
    ((l ++ [a]).insertionSort (· ≤ ·) ++ [b]).insertionSort (· ≤ ·) =
      ((l ++ [b]).insertionSort (· ≤ ·) ++ [a]).insertionSort (· ≤ ·) := by
  refine List.Perm.eq_of_pairwise' (pairwise_insertionSort _ _) (pairwise_insertionSort _ _) ?_
  refine (perm_insertionSort _ _).trans (.trans ?_ (perm_insertionSort _ _).symm)
  refine ((perm_insertionSort _ _).append_right [b]).trans
    (.trans ?_ ((perm_insertionSort _ _).append_right [a]).symm)
  rw [append_assoc, append_assoc]
  exact List.Perm.append_left l (List.Perm.swap b a [])

/-- The lines of two modules are taken in either order. -/
theorem bumpReps_comm {a b : Replace} (differ : a.path ≠ b.path) (mi : ModInfo) :
    bumpReps [b] (bumpReps [a] mi) = bumpReps [a] (bumpReps [b] mi) := by
  simp only [bumpReps_one]
  by_cases ha : mi.ver a.path = none ∧ a.ver ≠ "" ∧ a.path ≠ ""
  · by_cases hb : mi.ver b.path = none ∧ b.ver ≠ "" ∧ b.path ≠ ""
    · rw [if_pos ha, if_pos hb, if_pos (by simpa [differ.symm] using hb), if_pos (by simpa [differ] using ha)]
      simp only [sort_comm mi.paths a.path b.path, ModInfo.mk.injEq, true_and, and_true]
      funext q
      by_cases hqa : q = a.path
      · simp [hqa, differ]
      · simp [hqa]
    · rw [if_pos ha, if_neg hb, if_pos ha, if_neg (by simpa [differ.symm] using hb)]
  · by_cases hb : mi.ver b.path = none ∧ b.ver ≠ "" ∧ b.path ≠ ""
    · rw [if_neg ha, if_pos hb, if_neg (by simpa [differ] using ha)]
    · rw [if_neg ha, if_neg hb, if_neg ha]

theorem bumpReps_perm {reps reps' : List Replace} (perm : reps.Perm reps')
    (distinct : (reps'.map Replace.path).Nodup) (mi : ModInfo) : bumpReps reps mi = bumpReps reps' mi := by
  rw [bumpReps_foldl, bumpReps_foldl]
  refine perm.foldl_eq' (fun a ha b hb mi => ?_) mi
  by_cases same : a.path = b.path
  · rw [eq_of_path distinct (perm.mem_iff.mp ha) (perm.mem_iff.mp hb) same]
  · exact bumpReps_comm same mi

theorem modulesOf_orderFree (env : ModEnv) (mf : ModFile) : OrderFree env mf := by
  intro reps perm distinct
  have serve : ∀ p ver, modServeDir env { mf with reps := reps } p ver = modServeDir env mf p ver :=
    modServeDir_perm perm distinct
  have turn : Walk.expand env { mf with reps := reps } = Walk.expand env mf := by
    funext w p
    simp only [Walk.expand, serve]
  have rounds : ∀ n w, Walk.rounds env { mf with reps := reps } n w = Walk.rounds env mf n w := by
    intro n
    induction n with
    | zero => exact fun w => rfl
    | succ n ih => intro w; simp only [Walk.rounds, turn, ih]
  have start : startWalk { mf with reps := reps } = startWalk mf := by
    simp only [startWalk, bumpReps_perm perm distinct]
  have rest : serveRest env { mf with reps := reps } = serveRest env mf := by
    funext mi
    simp only [serveRest, serve]
  simp only [modulesOf, rounds, start, rest]

/-! ### What the selected modules require -/

/-- What the `voila.mod`s in the directories of the selected modules require is selected, at that version or one
above it. -/
def Meets (env : ModEnv) (mi : ModInfo) : Prop :=
  ∀ p ∈ mi.paths, ∀ d, mi.dir p = some d → d ≠ "" → env.isdir d → ∀ q w, Requires (env.readMod d).reqs q w →
    ∃ v, mi.ver q = some v ∧ verCmp w v ≤ 0

theorem modulesOf_meets
    (hmi : modulesOf env mf = some (mi, reads)) (hS : VerOrdered (Reaches env mf)) : Meets env mi := by
  obtain ⟨listed, served⟩ := modulesOf_servedAs hmi
  obtain ⟨tops, -, read⟩ := modulesOf_tops hS hmi
  intro p hp d hd some isdir q w hreq
  obtain ⟨v, hv⟩ := Option.isSome_iff_exists.mp ((listed p).mp hp)
  have dir := served p hp
  rw [modVer_of_ver hv, hd] at dir
  cases dir
  refine tops.covers q w (.inr ⟨(p, v), read p v hv, ?_⟩)
  rw [reqsOf, if_neg (by simp [some, isdir])]
  exact hreq

theorem Reaches.named {q w : String} (h : Reaches env mf q w) : q ≠ "" ∧ w ≠ "" := by
  cases h with
  | root h =>
    cases h with
    | inl h => exact ⟨h.1, h.2.1⟩
    | inr h =>
      obtain ⟨hq, -, rp, hrp, rfl⟩ := h
      have pinned := find?_some hrp
      exact ⟨hq, (of_decide_eq_true pinned).2⟩
  | through _ h => exact ⟨h.1, h.2.1⟩

/-! ### Versions that are the same -/

theorem segCmp_eq_zero (x y : List Char) : segCmp x y = 0 ↔ x = y ∨ 0 ≤ verNum x ∧ verNum x = verNum y := by
  unfold segCmp
  by_cases both : verNum x ≥ 0 ∧ verNum y ≥ 0
  · rw [if_pos both]
    split_ifs with less more
    · refine iff_of_false (by decide) fun h => ?_
      obtain rfl | h := h
      · exact lt_irrefl _ less
      · omega
    · refine iff_of_false (by decide) fun h => ?_
      obtain rfl | h := h
      · exact lt_irrefl _ more
      · omega
    · exact iff_of_true rfl (.inr (by omega))
  · rw [if_neg both]
    have texts : ¬ (0 ≤ verNum x ∧ verNum x = verNum y) := by omega
    split_ifs with less more
    · exact iff_of_false (by decide) fun h => h.elim (fun h => List.lt_irrefl y (h ▸ less)) texts
    · exact iff_of_false (by decide) fun h => h.elim (fun h => List.lt_irrefl y (h ▸ more)) texts
    · exact iff_of_true rfl (.inl (List.le_antisymm (List.not_lt.mp more) (List.not_lt.mp less)))

theorem segCmp_zero_trans {x y z : List Char} (hxy : segCmp x y = 0) (hyz : segCmp y z = 0) : segCmp x z = 0 := by
  rw [segCmp_eq_zero] at *
  obtain rfl | hxy := hxy
  · exact hyz
  · obtain rfl | hyz := hyz
    · exact .inr hxy
    · exact .inr ⟨hxy.1, hxy.2.trans hyz.2⟩

theorem restCmp_eq_zero (ys : List (List Char)) : restCmp ys = 0 ↔ ∀ i, segCmp ['0'] (ys.getD i ['0']) = 0 := by
  induction ys with
  | nil => simp [restCmp, segCmp]
  | cons y ys ih =>
    rw [restCmp]
    constructor
    · intro h i
      by_cases hy : segCmp ['0'] y = 0
      · rw [if_neg (not_not.mpr hy)] at h
        cases i with
        | zero => exact hy
        | succ i => exact ih.mp h i
      · rw [if_pos hy] at h
        exact absurd h hy
    · intro h
      have head : segCmp ['0'] y = 0 := h 0
      rw [if_neg (not_not.mpr head)]
      exact ih.mpr fun i => h (i + 1)

/-- Two versions are the same where all their segments are. -/
theorem segsCmp_eq_zero (xs ys : List (List Char)) :
    segsCmp xs ys = 0 ↔ ∀ i, segCmp (xs.getD i ['0']) (ys.getD i ['0']) = 0 := by
  induction xs generalizing ys with
  | nil => exact restCmp_eq_zero ys
  | cons x xs ih =>
    have step : segsCmp (x :: xs) ys =
        if segCmp x (ys.getD 0 ['0']) ≠ 0 then segCmp x (ys.getD 0 ['0']) else segsCmp xs ys.tail := by
      cases ys <;> rfl
    have tail : ∀ i, ys.tail.getD i ['0'] = ys.getD (i + 1) ['0'] := by
      intro i
      cases ys <;> rfl
    rw [step]
    constructor
    · intro h i
      by_cases hx : segCmp x (ys.getD 0 ['0']) = 0
      · rw [if_neg (not_not.mpr hx)] at h
        cases i with
        | zero => exact hx
        | succ i => exact tail i ▸ (ih ys.tail).mp h i
      · rw [if_pos hx] at h
        exact absurd h hx
    · intro h
      have head : segCmp x (ys.getD 0 ['0']) = 0 := h 0
      rw [if_neg (not_not.mpr head)]
      exact (ih ys.tail).mpr fun i => (tail i).symm ▸ h (i + 1)

theorem verCmp_zero_trans {a b c : String} (hab : verCmp a b = 0) (hbc : verCmp b c = 0) : verCmp a c = 0 := by
  unfold verCmp at *
  rw [segsCmp_eq_zero] at *
  exact fun i => segCmp_zero_trans (hab i) (hbc i)

/-! ### Modules that all require one -/

/-- A module at a version, and the version at which it requires `q`. -/
structure Line where
  path : String
  ver : String
  asks : String

/-- Where a module of the list is replaced by. -/
def Line.dir (p : String) : String := "/r/" ++ p

/-- A cache without modules, and the directories of the modules of a list. -/
def lineEnv (q : String) (ls : List Line) : ModEnv where
  root := "/r"
  cacheRoot := "/c"
  isAbs := fun p => p.toList.head? = some '/'
  clean := id
  join := fun a b => a ++ "/" ++ b
  isdir := fun d => ls.any fun l => Line.dir l.path = d
  readMod := fun d =>
    { file := d ++ "/voila.mod"
      found := true
      module := ""
      reqs := (ls.filter fun l => Line.dir l.path = d).map fun l => ⟨q, l.asks, 1⟩
      reps := []
      errs := [] }

/-- A main module that requires the modules of a list, and replaces them by directories. -/
def lineRoot (ls : List Line) : ModFile :=
  { file := "/r/voila.mod"
    found := true
    module := "r"
    reqs := ls.map fun l => ⟨l.path, l.ver, 1⟩
    reps := ls.map fun l => ⟨l.path, "", Line.dir l.path, "", 1⟩
    errs := [] }

theorem Line.dir_inj {p r : String} : Line.dir p = Line.dir r ↔ p = r := by
  simp [Line.dir]

theorem lineServe (q : String) (ls : List Line) (p v : String) :
    (modServeDir (lineEnv q ls) (lineRoot ls) p v).1 = Line.dir p ∨
      (∀ l ∈ ls, l.path ≠ p) ∧ ∀ r, (modServeDir (lineEnv q ls) (lineRoot ls) p v).1 ≠ Line.dir r := by
  have first : (lineRoot ls).reps.find? (fun rp => rp.path = p ∧ rp.ver ≠ "" ∧ v ≠ "" ∧ verCmp rp.ver v = 0) =
      none := by
    simp [lineRoot]
  unfold modServeDir
  rw [first]
  dsimp only
  cases h : (lineRoot ls).reps.find? fun rp => rp.path = p ∧ rp.ver = "" with
  | none =>
    right
    constructor
    · intro l hl
      simpa [lineRoot] using find?_eq_none.mp h ⟨l.path, "", Line.dir l.path, "", 1⟩
        (mem_map.mpr ⟨l, hl, rfl⟩)
    · intro r hr
      dsimp only at hr
      split at hr
      · simp [Line.dir] at hr
      · have text := congrArg String.toList hr
        simp [modCacheDir, lineEnv, Line.dir] at text
  | some rp =>
    left
    obtain ⟨l, hl, rfl⟩ := mem_map.mp (mem_of_find?_eq_some h)
    have hp := find?_some h
    simp only [and_true, decide_eq_true_eq] at hp
    simp [replaced, lineEnv, hp, Line.dir]

theorem lineReqs (q : String) {ls : List Line} (p v : String) :
    reqsOf (lineEnv q ls) (lineRoot ls) p v = (ls.filter fun l => l.path = p).map fun l => ⟨q, l.asks, 1⟩ := by
  have away (hp : ∀ l ∈ ls, l.path ≠ p) : (ls.filter fun l => l.path = p) = [] :=
    filter_eq_nil_iff.mpr fun l hl => by simpa using hp l hl
  unfold reqsOf
  cases lineServe q ls p v with
  | inl dir =>
    rw [dir]
    by_cases hp : ∃ l ∈ ls, l.path = p
    · rw [if_neg (by simpa [lineEnv, Line.dir] using hp)]
      simp only [lineEnv, Line.dir_inj]
    · push Not at hp
      rw [if_pos (by simpa [lineEnv, Line.dir_inj] using .inr hp), away hp]
      rfl
  | inr dir =>
    rw [if_pos (.inr (by simpa [lineEnv] using fun l _ h => dir.2 l.path h.symm)), away dir.1]
    rfl

/-- Which of two versions `mod_bump` keeps. -/
def pick (cur : Option String) (v : String) : String :=
  match cur with
  | none => v
  | some cur => if verCmp v cur > 0 then v else cur

theorem modBump_ver (mi : ModInfo) {p v : String} (hp : p ≠ "") (hv : v ≠ "") (r : String) :
    (modBump mi p v).1.ver r = if r = p then some (pick (mi.ver p) v) else mi.ver r := by
  unfold modBump
  rw [if_neg (by simp [hp, hv])]
  cases hcur : mi.ver p with
  | none => rfl
  | some cur =>
    dsimp only [pick]
    by_cases hgt : verCmp v cur > 0
    · rw [if_pos hgt, if_pos hgt]
    · rw [if_neg hgt, if_neg hgt]
      by_cases hr : r = p
      · rw [if_pos hr, hr, hcur]
      · rw [if_neg hr]

/-- What a list of modules needs to be in order, without `q`. -/
structure Apart (q : String) (ls : List Line) : Prop where
  target : q ≠ ""
  named : ∀ l ∈ ls, l.path ≠ "" ∧ l.ver ≠ "" ∧ l.asks ≠ ""
  sorted : (ls.map Line.path).Pairwise (· < ·)
  other : ∀ l ∈ ls, l.path ≠ q

/-- The modules of a list in the order of their paths are selected as they are required. -/
theorem bumpAll_lines {ls : List Line} (named : ∀ l ∈ ls, l.path ≠ "" ∧ l.ver ≠ "" ∧ l.asks ≠ "")
    (sorted : (ls.map Line.path).Pairwise (· < ·)) {s : ModInfo × Bool} (listed : Listed s.1)
    (before : s.1.paths.Pairwise (· ≤ ·)) (above : ∀ p ∈ s.1.paths, ∀ l ∈ ls, p < l.path) :
    let out := (bumpAll (ls.map fun l => ⟨l.path, l.ver, 1⟩) s).1
    out.paths = s.1.paths ++ ls.map Line.path ∧ (∀ l ∈ ls, out.ver l.path = some l.ver) ∧
      ∀ r, r ∉ ls.map Line.path → out.ver r = s.1.ver r := by
  induction ls generalizing s with
  | nil => simp [bumpAll]
  | cons l ls ih =>
    obtain ⟨hpath, hver, -⟩ := named l (by simp)
    obtain ⟨first, rest⟩ := pairwise_cons.mp sorted
    have fresh : s.1.ver l.path = none := by
      cases h : s.1.ver l.path with
      | none => rfl
      | some v => exact absurd (above l.path ((listed l.path).mpr (by simp [h])) l (by simp)) (lt_irrefl _)
    have order : (s.1.paths ++ [l.path]).Pairwise (· ≤ ·) := by
      rw [pairwise_append]
      refine ⟨before, pairwise_singleton _ _, fun p hp r hr => ?_⟩
      rw [mem_singleton.mp hr]
      exact (above p hp l (by simp)).le
    have paths : (modBump s.1 l.path l.ver).1.paths = s.1.paths ++ [l.path] := by
      unfold modBump
      rw [if_neg (by simp [hpath, hver]), fresh]
      exact List.Pairwise.insertionSort_eq order
    have ver := modBump_ver s.1 hpath hver
    rw [fresh] at ver
    have after : ∀ p ∈ s.1.paths ++ [l.path], ∀ m ∈ ls, p < m.path := by
      intro p hp m hm
      cases mem_append.mp hp with
      | inl hp => exact above p hp m (by simp [hm])
      | inr hp => exact mem_singleton.mp hp ▸ first m.path (mem_map.mpr ⟨m, hm, rfl⟩)
    obtain ⟨paths', vers, same⟩ := ih (fun m hm => named m (by simp [hm])) rest
      (s := ((modBump s.1 l.path l.ver).1, s.2 || (modBump s.1 l.path l.ver).2))
      (modBump_listed listed l.path l.ver) (paths ▸ order) (paths ▸ after)
    have once : l.path ∉ ls.map Line.path := fun h => lt_irrefl _ (first l.path h)
    rw [map_cons, bumpAll_cons]
    refine ⟨by simp [paths', paths], fun m hm => ?_, fun r hr => ?_⟩
    · cases mem_cons.mp hm with
      | inl h => rw [h, same l.path once, ver, if_pos rfl, pick]
      | inr h => exact vers m h
    · simp only [map_cons, mem_cons, not_or] at hr
      rw [same r hr.2, ver, if_neg hr.1]

variable {l : Line}

theorem filter_path {ls : List Line} (sorted : (ls.map Line.path).Pairwise (· < ·)) (hl : l ∈ ls) :
    (ls.filter fun m => m.path = l.path) = [l] := by
  induction ls with
  | nil => simp at hl
  | cons m ls ih =>
    obtain ⟨first, rest⟩ := pairwise_cons.mp sorted
    by_cases hm : m = l
    · subst hm
      have others : (ls.filter fun l => l.path = m.path) = [] := filter_eq_nil_iff.mpr fun l hl => by
        simpa using (first l.path (mem_map.mpr ⟨l, hl, rfl⟩)).ne'
      simp [others]
    · have tail : l ∈ ls := by simpa [Ne.symm hm] using hl
      have differ : m.path ≠ l.path := (first l.path (mem_map.mpr ⟨l, tail, rfl⟩)).ne
      rw [filter_cons_of_neg (by simpa using differ)]
      exact ih rest tail

variable {q : String} {ls : List Line}

/-- A module of the list is read: `q` is raised to the version that it requires. -/
theorem expand_line (h : Apart q ls) (hl : l ∈ ls) (w : Walk) (r : String) :
    (w.expand (lineEnv q ls) (lineRoot ls) l.path).mi.ver r =
      if r = q then some (pick (w.mi.ver q) l.asks) else w.mi.ver r := by
  obtain ⟨served, turn, -, ver, -⟩ := expand_eq (lineEnv q ls) (lineRoot ls) w l.path
  rw [turn, lineReqs, filter_path h.sorted hl, ← ver]
  exact modBump_ver served h.target (h.named l hl).2.2 r

/-- The round that reads the modules of the list. -/
theorem round_lines (h : Apart q ls) (ms : List Line) (hms : ∀ m ∈ ms, m ∈ ls) (w : Walk) (r : String) :
    let out := (ms.map Line.path).foldl (Walk.expand (lineEnv q ls) (lineRoot ls)) w
    out.mi.ver r = (if r = q then ms.foldl (fun cur m => some (pick cur m.asks)) (w.mi.ver q) else w.mi.ver r) ∧
      out.expanded r = if r ∈ ms.map Line.path then w.mi.ver r else w.expanded r := by
  induction ms generalizing w with
  | nil =>
    refine ⟨?_, rfl⟩
    by_cases hr : r = q
    · rw [if_pos hr, hr]
      rfl
    · rw [if_neg hr]
      rfl
  | cons m ms ih =>
    have ver := expand_line h (hms m (by simp)) w
    obtain ⟨last, read⟩ := ih (fun m hm => hms m (by simp [hm])) (w.expand (lineEnv q ls) (lineRoot ls) m.path)
    rw [map_cons, foldl_cons]
    refine ⟨last.trans ?_, read.trans ?_⟩
    · by_cases hr : r = q
      · rw [if_pos hr, if_pos hr, foldl_cons, ver q, if_pos rfl]
      · rw [if_neg hr, if_neg hr, ver r, if_neg hr]
    · rw [expand_expanded]
      by_cases hr : r ∈ ms.map Line.path
      · obtain ⟨m', hm', rfl⟩ := mem_map.mp hr
        rw [if_pos hr, if_pos (by simp [hr]), ver, if_neg (h.other m' (hms m' (by simp [hm'])))]
      · by_cases hrm : r = m.path
        · rw [if_neg hr, if_pos hrm, if_pos (by simp [hrm]), hrm]
        · rw [if_neg hr, if_neg hrm, if_neg (by simp [hr, hrm])]

/-- A round over modules that require nothing. -/
theorem round_idle {ps : List String} (w : Walk) (idle : ∀ p ∈ ps, ∀ v, reqsOf env mf p v = []) :
    (ps.foldl (Walk.expand env mf) w).mi.ver = w.mi.ver ∧ (ps.foldl (Walk.expand env mf) w).again = w.again := by
  induction ps generalizing w with
  | nil => exact ⟨rfl, rfl⟩
  | cons p ps ih =>
    obtain ⟨served, turn, -, ver, -⟩ := expand_eq env mf w p
    rw [idle p (by simp)] at turn
    obtain ⟨ver', again⟩ := ih (w.expand env mf p) fun r hr => idle r (by simp [hr])
    rw [foldl_cons, ver', again, turn]
    exact ⟨ver, rfl⟩

/-- The modules of the list raise `q` in the order of their paths. -/
theorem lines_select (h : Apart q ls) : ∃ mi reads, modulesOf (lineEnv q ls) (lineRoot ls) = some (mi, reads) ∧
    mi.ver q = ls.foldl (fun cur l => some (pick cur l.asks)) none ∧ ∀ l ∈ ls, (mi.ver l.path).isSome := by
  have pins (reps : List Replace) (hreps : ∀ rp ∈ reps, rp.ver = "") (mi : ModInfo) : bumpReps reps mi = mi := by
    induction reps with
    | nil => rfl
    | cons rp reps ih =>
      rw [bumpReps, if_neg (by simp [hreps rp])]
      exact ih fun rp hrp => hreps rp (by simp [hrp])
  obtain ⟨paths, vers, others⟩ := bumpAll_lines h.named h.sorted (s := (noModules, false))
    (fun p => by simp [noModules]) (by simp [noModules]) (by simp [noModules])
  have start : (startWalk (lineRoot ls)).mi =
      (bumpAll (ls.map fun l => ⟨l.path, l.ver, 1⟩) (noModules, false)).1 :=
    pins _ (by simp [lineRoot]) _
  rw [← start] at paths vers others
  have free : (startWalk (lineRoot ls)).mi.ver q = none :=
    others q fun hq => by
      obtain ⟨l, hl, rfl⟩ := mem_map.mp hq
      exact h.other l hl rfl
  -- The first round reads the modules of the list, and the second at most `q`.
  have todo : (startWalk (lineRoot ls)).todo = ls.map Line.path := by
    rw [Walk.todo, paths]
    exact filter_eq_self.mpr fun p _ => by simp [startWalk]
  have first := round_lines h ls (fun m hm => hm) { startWalk (lineRoot ls) with again := false }
  generalize hw : (ls.map Line.path).foldl (Walk.expand (lineEnv q ls) (lineRoot ls))
    { startWalk (lineRoot ls) with again := false } = w at first
  have sel : w.mi.ver q = ls.foldl (fun cur l => some (pick cur l.asks)) none := by
    rw [(first q).1, if_pos rfl, free]
  have kept : ∀ l ∈ ls, w.mi.ver l.path = some l.ver := fun l hl => by
    rw [(first l.path).1, if_neg (h.other l hl)]
    exact vers l hl
  have listed : Listed w.mi := hw ▸ List.foldlRecOn (motive := fun w : Walk => Listed w.mi) _ _
    (startWalk_listed (lineRoot ls)) fun w hw p _ => expand_listed _ _ hw p
  have last : ∀ p ∈ w.todo, p = q := by
    intro p hp
    by_contra other
    obtain ⟨path, stale⟩ := mem_filter.mp hp
    have ver := (first p).1
    rw [if_neg other] at ver
    by_cases mine : p ∈ ls.map Line.path
    · obtain ⟨l, hl, rfl⟩ := mem_map.mp mine
      have read := (first l.path).2
      rw [if_pos mine, ← ver, kept l hl] at read
      simp [read, kept l hl] at stale
    · have isSome := (listed p).mp path
      rw [ver, others p mine] at isSome
      simp [noModules] at isSome
  have settled : ∃ out, Walk.rounds (lineEnv q ls) (lineRoot ls) 256 (startWalk (lineRoot ls)) = some out ∧
      out.mi.ver = w.mi.ver := by
    rw [Walk.rounds, todo, hw]
    by_cases again : w.again
    · rw [if_pos again, Walk.rounds]
      have idle := round_idle { w with again := false } fun (p : String) (hp : p ∈ w.todo) v =>
        show reqsOf (lineEnv q ls) (lineRoot ls) p v = [] by
          rw [last p hp, lineReqs, filter_eq_nil_iff.mpr fun l hl => by simpa using h.other l hl]
          rfl
      rw [if_neg (by simp [idle.2])]
      exact ⟨_, rfl, idle.1⟩
    · rw [if_neg again]
      exact ⟨w, rfl, rfl⟩
  obtain ⟨out, hout, ver⟩ := settled
  refine ⟨serveRest (lineEnv q ls) (lineRoot ls) out.mi, out.reads, by rw [modulesOf, hout]; rfl, ?_, fun l hl => ?_⟩
  · rw [(serveRest_eq _ _ out.mi).1, ver, sel]
  · rw [(serveRest_eq _ _ out.mi).1, ver, kept l hl]
    rfl

variable {S : String → String → Prop}

theorem lines_reach (hS : ∀ l ∈ ls, S l.path l.ver ∧ S q l.asks) {r v : String}
    (h : Reaches (lineEnv q ls) (lineRoot ls) r v) : S r v := by
  cases h with
  | root h =>
    cases h with
    | inl h =>
      obtain ⟨-, -, req, hreq, rfl, rfl⟩ := h
      obtain ⟨l, hl, rfl⟩ := mem_map.mp hreq
      exact (hS l hl).1
    | inr h =>
      obtain ⟨-, -, rp, hrp, -⟩ := h
      obtain ⟨l, hl, rfl⟩ := mem_map.mp (mem_of_find?_eq_some hrp)
      simpa using find?_some hrp
  | through _ h =>
    obtain ⟨-, -, req, hreq, rfl, rfl⟩ := h
    rw [lineReqs] at hreq
    obtain ⟨l, hl, rfl⟩ := mem_map.mp hreq
    exact (hS l (mem_filter.mp hl).1).2

/-- Three module paths in order, apart from `q`. -/
theorem three_paths (q : String) : ∃ x y z : String, x ≠ "" ∧ y ≠ "" ∧ z ≠ "" ∧ x < y ∧ y < z ∧
    x ≠ q ∧ y ≠ q ∧ z ≠ q := by
  by_cases hA : q = "A"
  · exact ⟨"B", "C", "D", by decide, by decide, by decide, by decide, by decide, hA ▸ by decide, hA ▸ by decide,
      hA ▸ by decide⟩
  by_cases hB : q = "B"
  · exact ⟨"A", "C", "D", by decide, by decide, by decide, by decide, by decide, hB ▸ by decide, hB ▸ by decide,
      hB ▸ by decide⟩
  by_cases hC : q = "C"
  · exact ⟨"A", "B", "D", by decide, by decide, by decide, by decide, by decide, hC ▸ by decide, hC ▸ by decide,
      hC ▸ by decide⟩
  · exact ⟨"A", "B", "C", by decide, by decide, by decide, by decide, by decide, Ne.symm hA, Ne.symm hB, Ne.symm hC⟩

/-! ### When the selection meets what it serves -/

/-- The result of `ModulesOf` keeps its promises, whatever the module files: for those whose requirements are among
given versions, of which each module has one. -/
def Keeps (S : String → String → Prop) : Prop :=
  ∀ (env : ModEnv) (mf : ModFile), (∀ q v, Reaches env mf q v → S q v) → ∀ mi reads,
    modulesOf env mf = some (mi, reads) → ServedAs env mf mi ∧ Meets env mi ∧ OrderFree env mf

/-- The modules of a list require `q` in turn: what it ends at is at least what each of them requires. -/
theorem Keeps.lines (h : Keeps S) (apart : Apart q ls)
    (hS : ∀ l ∈ ls, S l.path l.ver ∧ S q l.asks) (hl : l ∈ ls) :
    ∃ v, ls.foldl (fun cur l => some (pick cur l.asks)) none = some v ∧ verCmp l.asks v ≤ 0 := by
  obtain ⟨mi, reads, hmi, sel, isSome⟩ := lines_select apart
  obtain ⟨served, meets, -⟩ := h (lineEnv q ls) (lineRoot ls) (fun r v hr => lines_reach hS hr) mi reads hmi
  have path := ((modulesOf_servedAs hmi).1 l.path).mpr (isSome l hl)
  have dir := served l.path path
  have place : (modServeDir (lineEnv q ls) (lineRoot ls) l.path (mi.modVer l.path)).1 = Line.dir l.path := by
    cases lineServe q ls l.path (mi.modVer l.path) with
    | inl h => exact h
    | inr h => exact absurd rfl (h.1 l hl)
  rw [place] at dir
  have asked : ⟨q, l.asks, 1⟩ ∈ ((lineEnv q ls).readMod (Line.dir l.path)).reqs :=
    mem_map.mpr ⟨l, by simpa using hl, rfl⟩
  obtain ⟨v, hv, le⟩ := meets l.path path _ dir (by simp [Line.dir])
    (by simpa [lineEnv, Line.dir_inj] using ⟨l, hl, rfl⟩) q l.asks
    ⟨apart.target, (apart.named l hl).2.2, _, asked, rfl, rfl⟩
  exact ⟨v, sel.symm.trans hv, le⟩

/-- So are three versions that are required one after the other. -/
theorem Keeps.top (h : Keeps S) (some_of : ∀ p, p ≠ "" → ∃ v, v ≠ "" ∧ S p v)
    {q a b c : String} (hq : q ≠ "") (ha : a ≠ "" ∧ S q a) (hb : b ≠ "" ∧ S q b) (hc : c ≠ "" ∧ S q c) :
    verCmp a (pick (some (pick (some a) b)) c) ≤ 0 ∧ verCmp b (pick (some (pick (some a) b)) c) ≤ 0 := by
  obtain ⟨x, y, z, hx, hy, hz, hxy, hyz, hxq, hyq, hzq⟩ := three_paths q
  obtain ⟨s, hs, Ss⟩ := some_of x hx
  obtain ⟨t, ht, St⟩ := some_of y hy
  obtain ⟨u, hu, Su⟩ := some_of z hz
  have apart : Apart q [⟨x, s, a⟩, ⟨y, t, b⟩, ⟨z, u, c⟩] :=
    { target := hq
      named := by simp [hx, hy, hz, hs, ht, hu, ha.1, hb.1, hc.1]
      sorted :=
        .cons (forall_mem_cons.mpr ⟨hxy, forall_mem_singleton.mpr (hxy.trans hyz)⟩)
          (.cons (forall_mem_singleton.mpr hyz) (pairwise_singleton _ _))
      other := by simp [hxq, hyq, hzq] }
  have within : ∀ l ∈ [(⟨x, s, a⟩ : Line), ⟨y, t, b⟩, ⟨z, u, c⟩], S l.path l.ver ∧ S q l.asks := by
    simp [Ss, St, Su, ha.2, hb.2, hc.2]
  obtain ⟨v, hv, first⟩ := h.lines apart within (l := ⟨x, s, a⟩) (by simp)
  obtain ⟨v', hv', second⟩ := h.lines apart within (l := ⟨y, t, b⟩) (by simp)
  cases hv
  cases hv'
  exact ⟨first, second⟩

/-- Modules that require `q` at 10, at 2 and at 1a. -/
def ring : List Line := [⟨"A", "1", "10"⟩, ⟨"B", "1", "2"⟩, ⟨"C", "1", "1a"⟩]

end Voila.Load
