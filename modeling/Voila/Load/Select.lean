import Voila.Load.Mod

/-!
# Voila.Load.Select

What the walk of `ModulesOf` keeps up, over the requirement graph: a node is a module with a version, and
a node leads to the nodes that its `voila.mod` requires.

* `VerOrdered`: `VerCmp` is transitive on the versions of each module. It is not so for all versions.
* `Tops`: the selection is the greatest of the versions asked for so far by the root and by the nodes
  that were read. Every step of the walk keeps it, where the versions are `VerOrdered`.
* `Settled`: each selected version is the one that was read last.
-/

open List

namespace Voila.Load

/-! ### Versions in order -/

theorem segCmp_neg (x y : List Char) : segCmp y x = -segCmp x y := by
  unfold segCmp
  by_cases both : verNum x ≥ 0 ∧ verNum y ≥ 0
  · rw [if_pos both, if_pos both.symm]
    split_ifs <;> omega
  · rw [if_neg both, if_neg fun h => both h.symm]
    by_cases less : x < y
    · simp [less, List.lt_asymm less]
    · by_cases more : y < x <;> simp [less, more]

theorem segsCmp_nil (ys : List (List Char)) : segsCmp ys [] = -restCmp ys := by
  induction ys with
  | nil => rfl
  | cons y ys ih =>
    rw [segsCmp, restCmp, segCmp_neg ['0'] y, ih]
    split_ifs <;> omega

theorem segsCmp_neg (xs ys : List (List Char)) : segsCmp ys xs = -segsCmp xs ys := by
  induction xs generalizing ys with
  | nil => exact segsCmp_nil ys
  | cons x xs ih =>
    cases ys with
    | nil => rw [segsCmp_nil (x :: xs), Int.neg_neg, segsCmp]
    | cons y ys =>
      rw [segsCmp, segsCmp, segCmp_neg x y, ih]
      split_ifs <;> omega

/-- `VerCmp` of the two the other way round. -/
theorem verCmp_neg (a b : String) : verCmp b a = -verCmp a b := segsCmp_neg _ _

theorem verCmp_self (a : String) : verCmp a a = 0 := by
  have := verCmp_neg a a
  omega

theorem verCmp_le_of_pos {a b : String} (h : verCmp a b > 0) : verCmp b a ≤ 0 := by
  have := verCmp_neg a b
  omega

/-- `VerCmp` is transitive on the versions of each module. -/
def VerOrdered (S : String → String → Prop) : Prop :=
  ∀ q a b c, S q a → S q b → S q c → verCmp a b ≤ 0 → verCmp b c ≤ 0 → verCmp a c ≤ 0

/-! ### The requirement graph -/

variable (env : ModEnv) (mf : ModFile)

/-- What the `voila.mod` of a node requires. -/
def reqsOf (p v : String) : List Require :=
  if (modServeDir env mf p v).1 = "" ∨ ¬ env.isdir (modServeDir env mf p v).1 then []
  else (env.readMod (modServeDir env mf p v).1).reqs

/-- A requirement of a list that names a module and a version. -/
def Requires (rs : List Require) (q w : String) : Prop :=
  q ≠ "" ∧ w ≠ "" ∧ ∃ r ∈ rs, r.path = q ∧ r.ver = w

/-- The `replace` line that names a version of a module, the first of them. -/
def pinOf (rps : List Replace) (q : String) : Option Replace :=
  rps.find? fun rp => rp.path = q ∧ rp.ver ≠ ""

/-- What the root asks for: its `require` lines, and for a module without one the version of the
`replace` line that names one. -/
def RootAsks (q w : String) : Prop :=
  Requires mf.reqs q w ∨
    q ≠ "" ∧ (∀ u, ¬ Requires mf.reqs q u) ∧ ∃ rp, pinOf mf.reps q = some rp ∧ rp.ver = w

/-- The nodes of the graph. -/
inductive Reaches : String → String → Prop
  | root {q w : String} : RootAsks mf q w → Reaches q w
  | through {p v q w : String} : Reaches p v → Requires (reqsOf env mf p v) q w → Reaches q w

/-- The nodes that the root and the nodes of a list ask for. -/
def Seen (reads : List (String × String)) (q w : String) : Prop :=
  RootAsks mf q w ∨ ∃ n ∈ reads, Requires (reqsOf env mf n.1 n.2) q w

/-! ### The greatest of what was asked for -/

/-- A selection holds the greatest versions of the nodes of `D`. -/
structure Tops (D : String → String → Prop) (sel : String → Option String) : Prop where
  found : ∀ q v, sel q = some v → D q v
  covers : ∀ q w, D q w → ∃ v, sel q = some v ∧ verCmp w v ≤ 0

theorem Tops.congr {D D' : String → String → Prop} {sel : String → Option String}
    (h : Tops D sel) (same : ∀ q w, D q w ↔ D' q w) : Tops D' sel where
  found q v hv := (same q v).mp (h.found q v hv)
  covers q w hw := h.covers q w ((same q w).mpr hw)

variable {q : String} {rp : Replace} {rps : List Replace} {mi : ModInfo} {rs : List Require}
  {s : ModInfo × Bool} {w : Walk}

theorem pinOf_cons_of_neg (h : ¬ (rp.path = q ∧ rp.ver ≠ "")) : pinOf (rp :: rps) q = pinOf rps q :=
  find?_cons_of_neg (by simpa using h)

theorem pinOf_cons_of_pos (h : rp.path = q ∧ rp.ver ≠ "") : pinOf (rp :: rps) q = some rp :=
  find?_cons_of_pos (by simpa using h)

section

variable {S : String → String → Prop} (hS : VerOrdered S)

include hS

variable {mi : ModInfo} {D : String → String → Prop}

/-- One `mod_bump` adds one node. -/
theorem modBump_tops {p v : String}
    (h : Tops D mi.ver) (hD : ∀ q w, D q w → S q w) (hv : p ≠ "" → v ≠ "" → S p v) :
    Tops (fun q w => D q w ∨ q ≠ "" ∧ w ≠ "" ∧ p = q ∧ v = w) (modBump mi p v).1.ver := by
  unfold modBump
  by_cases hempty : p = "" ∨ v = ""
  · rw [if_pos hempty]
    refine h.congr fun q w => ⟨.inl, fun hw => ?_⟩
    cases hw with
    | inl hw => exact hw
    | inr hw =>
      obtain ⟨hq, hw, rfl, rfl⟩ := hw
      exact absurd hempty (by simp [hq, hw])
  · rw [if_neg hempty]
    push Not at hempty
    have node := hv hempty.1 hempty.2
    -- The node is selected, and it is above the version it replaces.
    have raised (hle : ∀ cur, mi.ver p = some cur → verCmp cur v ≤ 0) :
        Tops (fun q w => D q w ∨ q ≠ "" ∧ w ≠ "" ∧ p = q ∧ v = w)
          (fun q => if q = p then some v else mi.ver q) := by
      constructor
      · intro q u hu
        by_cases hq : q = p
        · rw [if_pos hq] at hu
          cases hu
          exact .inr ⟨hq ▸ hempty.1, hempty.2, hq.symm, rfl⟩
        · rw [if_neg hq] at hu
          exact .inl (h.found q u hu)
      · intro q w hw
        by_cases hq : q = p
        · subst hq
          refine ⟨v, if_pos rfl, ?_⟩
          cases hw with
          | inl hw =>
            obtain ⟨cur, hcur, hwc⟩ := h.covers q w hw
            exact hS q w cur v (hD q w hw) (hD q cur (h.found q cur hcur)) node hwc (hle cur hcur)
          | inr hw => exact hw.2.2.2 ▸ (verCmp_self v).le
        · cases hw with
          | inl hw =>
            obtain ⟨u, hu, hwu⟩ := h.covers q w hw
            exact ⟨u, (if_neg hq).trans hu, hwu⟩
          | inr hw => exact absurd hw.2.2.1.symm hq
    cases hcur : mi.ver p with
    | none => exact raised fun cur hc => by simp [hcur] at hc
    | some cur =>
      dsimp only
      by_cases hgt : verCmp v cur > 0
      · rw [if_pos hgt]
        refine raised fun c hc => ?_
        obtain rfl := Option.some.inj (hcur.symm.trans hc)
        exact verCmp_le_of_pos hgt
      · rw [if_neg hgt]
        constructor
        · exact fun q u hu => .inl (h.found q u hu)
        · intro q w hw
          cases hw with
          | inl hw => exact h.covers q w hw
          | inr hw =>
            obtain ⟨-, -, rfl, rfl⟩ := hw
            exact ⟨cur, hcur, not_lt.mp hgt⟩

theorem bumpAll_tops {rs : List Require} {s : ModInfo × Bool}
    (h : Tops D s.1.ver) (hD : ∀ q w, D q w → S q w) (hrs : ∀ q w, Requires rs q w → S q w) :
    Tops (fun q w => D q w ∨ Requires rs q w) (bumpAll rs s).1.ver := by
  induction rs generalizing D s with
  | nil => exact h.congr fun q w => by simp [Requires]
  | cons r rs ih =>
    have one : r.path ≠ "" → r.ver ≠ "" → S r.path r.ver := fun hp hv =>
      hrs r.path r.ver ⟨hp, hv, r, by simp, rfl, rfl⟩
    have rest : ∀ q w, Requires rs q w → S q w := fun q w hw =>
      hrs q w ⟨hw.1, hw.2.1, by
        obtain ⟨r', hr', e⟩ := hw.2.2
        exact ⟨r', by simp [hr'], e⟩⟩
    have wider : ∀ q w, (D q w ∨ q ≠ "" ∧ w ≠ "" ∧ r.path = q ∧ r.ver = w) → S q w := by
      intro q w hw
      cases hw with
      | inl hw => exact hD q w hw
      | inr hw =>
        obtain ⟨hq, hwe, rfl, rfl⟩ := hw
        exact one hq hwe
    have next : Tops _ (bumpAll (r :: rs) s).1.ver := ih (modBump_tops hS h hD one) wider rest
    exact next.congr fun q w => by
      simp only [Requires, mem_cons, exists_eq_or_imp]
      tauto

/-- The `replace` lines add the modules that nothing asked for so far. -/
theorem bumpReps_tops {rps : List Replace} (h : Tops D mi.ver) (hD : ∀ q w, D q w → S q w)
    (hpins : ∀ q rp, q ≠ "" → (∀ u, ¬ D q u) → pinOf rps q = some rp → S q rp.ver) :
    Tops (fun q w => D q w ∨
      q ≠ "" ∧ (∀ u, ¬ D q u) ∧ ∃ rp, pinOf rps q = some rp ∧ rp.ver = w) (bumpReps rps mi).ver := by
  induction rps generalizing D mi with
  | nil => exact h.congr fun q w => by simp [pinOf]
  | cons rp rps ih =>
    rw [bumpReps]
    by_cases hpin : mi.ver rp.path = none ∧ rp.ver ≠ ""
    · have free : ∀ u, ¬ D rp.path u := by
        intro u hu
        obtain ⟨v, hv, -⟩ := h.covers rp.path u hu
        simp [hpin.1] at hv
      have first : pinOf (rp :: rps) rp.path = some rp := pinOf_cons_of_pos ⟨rfl, hpin.2⟩
      rw [if_pos hpin]
      have one := modBump_tops hS h hD fun hp hv => hpins rp.path rp hp free first
      refine (ih one (fun q w hw => ?_) fun q rp' hq hno hrp' => ?_).congr fun q w => ?_
      · cases hw with
        | inl hw => exact hD q w hw
        | inr hw =>
          obtain ⟨hq, hwe, rfl, rfl⟩ := hw
          exact hpins rp.path rp hq free first
      · have hne : rp.path ≠ q := fun hpq => hno rp.ver (.inr ⟨hq, hpin.2, hpq, rfl⟩)
        refine hpins q rp' hq (fun u hu => hno u (.inl hu)) ?_
        rwa [pinOf_cons_of_neg fun hpq => hne hpq.1]
      · by_cases hq : rp.path = q
        · subst hq
          simp only [first, Option.some.injEq, exists_eq_left', true_and]
          constructor
          · intro hw
            rcases hw with (hw | ⟨hp, -, rfl⟩) | ⟨hp, hno, -⟩
            · exact .inl hw
            · exact .inr ⟨hp, free, rfl⟩
            · exact absurd (.inr ⟨hp, hpin.2, rfl⟩) (hno rp.ver)
          · intro hw
            rcases hw with hw | ⟨hp, -, rfl⟩
            · exact .inl (.inl hw)
            · exact .inl (.inr ⟨hp, hpin.2, rfl⟩)
        · simp [hq, pinOf_cons_of_neg fun hpq : rp.path = q ∧ rp.ver ≠ "" => hq hpq.1]
    · rw [if_neg hpin]
      -- A path that was asked for before has no `replace` line that counts.
      have skip : ∀ q, (∀ u, ¬ D q u) → pinOf (rp :: rps) q = pinOf rps q := by
        intro q hno
        refine pinOf_cons_of_neg fun hpq => hpin ⟨?_, hpq.2⟩
        cases hv : mi.ver rp.path with
        | none => rfl
        | some v => exact absurd (h.found rp.path v hv) (hpq.1 ▸ hno v)
      refine (ih h hD fun q rp' hq hno hrp' => ?_).congr fun q w => ?_
      · exact hpins q rp' hq hno ((skip q hno).trans hrp')
      · by_cases hno : ∀ u, ¬ D q u
        · rw [skip q hno]
        · simp [hno]

end

/-! ### The paths of the selection -/

/-- The paths are those with a selected version. -/
def Listed (mi : ModInfo) : Prop := ∀ p, p ∈ mi.paths ↔ (mi.ver p).isSome

theorem modBump_listed (h : Listed mi) (p v : String) : Listed (modBump mi p v).1 := by
  intro q
  unfold modBump
  by_cases hempty : p = "" ∨ v = ""
  · rw [if_pos hempty]
    exact h q
  · rw [if_neg hempty]
    cases hcur : mi.ver p with
    | none =>
      simp only [(perm_insertionSort _ _).mem_iff, mem_append, mem_singleton, h q]
      by_cases hq : q = p <;> simp [hq]
    | some cur =>
      have listed : p ∈ mi.paths := (h p).mpr (by simp [hcur])
      dsimp only
      by_cases hgt : verCmp v cur > 0
      · rw [if_pos hgt]
        by_cases hq : q = p
        · simp [hq, listed]
        · simpa [hq] using h q
      · rw [if_neg hgt]
        exact h q

theorem bumpAll_listed (h : Listed s.1) : Listed (bumpAll rs s).1 := by
  induction rs generalizing s with
  | nil => exact h
  | cons r rs ih => exact ih (modBump_listed h r.path r.ver)

theorem bumpReps_listed (h : Listed mi) : Listed (bumpReps rps mi) := by
  induction rps generalizing mi with
  | nil => exact h
  | cons rp rps ih =>
    rw [bumpReps]
    by_cases hpin : mi.ver rp.path = none ∧ rp.ver ≠ ""
    · rw [if_pos hpin]
      exact ih (modBump_listed h rp.path rp.ver)
    · rw [if_neg hpin]
      exact ih h

variable {p v : String} {reads : List (String × String)}

/-- A `mod_bump` that reports no change made none. -/
theorem modBump_unchanged (h : (modBump mi p v).2 = false) : (modBump mi p v).1 = mi := by
  unfold modBump at h ⊢
  by_cases hempty : p = "" ∨ v = ""
  · rw [if_pos hempty]
  · rw [if_neg hempty] at h ⊢
    cases hcur : mi.ver p with
    | none => simp [hcur] at h
    | some cur =>
      simp only [hcur] at h ⊢
      by_cases hgt : verCmp v cur > 0
      · simp [hgt] at h
      · rw [if_neg hgt]

theorem bumpAll_cons (r : Require) (rs : List Require) (s : ModInfo × Bool) :
    bumpAll (r :: rs) s =
      bumpAll rs ((modBump s.1 r.path r.ver).1, s.2 || (modBump s.1 r.path r.ver).2) := rfl

theorem bumpAll_unchanged (h : (bumpAll rs s).2 = false) : bumpAll rs s = s := by
  induction rs generalizing s with
  | nil => rfl
  | cons r rs ih =>
    rw [bumpAll_cons] at h ⊢
    have rest := ih h
    have quiet := (congrArg Prod.snd rest).symm.trans h
    rw [Bool.or_eq_false_iff] at quiet
    rw [rest, modBump_unchanged quiet.2, quiet.1, quiet.2]
    exact Prod.ext rfl quiet.1.symm

/-! ### One turn of the walk -/

theorem modBump_dir (mi : ModInfo) (p v : String) : (modBump mi p v).1.dir = mi.dir := by
  unfold modBump
  by_cases hempty : p = "" ∨ v = ""
  · rw [if_pos hempty]
  · rw [if_neg hempty]
    cases mi.ver p with
    | none => rfl
    | some cur =>
      dsimp only
      by_cases hgt : verCmp v cur > 0
      · rw [if_pos hgt]
      · rw [if_neg hgt]

theorem bumpAll_dir (rs : List Require) (s : ModInfo × Bool) : (bumpAll rs s).1.dir = s.1.dir := by
  induction rs generalizing s with
  | nil => rfl
  | cons r rs ih => rw [bumpAll_cons, ih, modBump_dir]

variable {env mf}

/-- What a turn does: the module is served, and what its `voila.mod` requires is raised. -/
theorem expand_eq (env : ModEnv) (mf : ModFile) (w : Walk) (p : String) : ∃ served : ModInfo,
    w.expand env mf p =
      { mi := (bumpAll (reqsOf env mf p (w.mi.modVer p)) (served, w.again)).1
        expanded := fun q => if q = p then w.mi.ver p else w.expanded q
        again := (bumpAll (reqsOf env mf p (w.mi.modVer p)) (served, w.again)).2
        reads := w.reads ++ [(p, w.mi.modVer p)] } ∧
    served.paths = w.mi.paths ∧ served.ver = w.mi.ver ∧
    served.dir = fun q => if q = p then some (modServeDir env mf p (w.mi.modVer p)).1 else w.mi.dir q := by
  unfold Walk.expand reqsOf
  dsimp only
  generalize modServeDir env mf p (w.mi.modVer p) = served
  by_cases hdir : served.1 = "" ∨ ¬ env.isdir served.1
  · rw [if_pos hdir, if_pos hdir]
    exact ⟨_, rfl, rfl, rfl, rfl⟩
  · rw [if_neg hdir, if_neg hdir]
    exact ⟨_, rfl, rfl, rfl, rfl⟩

theorem modVer_of_ver (hv : mi.ver p = some v) : mi.modVer p = v := by
  simp [ModInfo.modVer, hv]

theorem expand_reads (hv : w.mi.ver p = some v) :
    (w.expand env mf p).reads = w.reads ++ [(p, v)] := by
  obtain ⟨served, turn, -, -, -⟩ := expand_eq env mf w p
  rw [turn, modVer_of_ver hv]

theorem expand_expanded (w : Walk) (p q : String) :
    (w.expand env mf p).expanded q = if q = p then w.mi.ver p else w.expanded q := by
  obtain ⟨served, turn, -, -, -⟩ := expand_eq env mf w p
  rw [turn]

theorem expand_listed (env : ModEnv) (mf : ModFile) (h : Listed w.mi) (p : String) : Listed (w.expand env mf p).mi := by
  obtain ⟨served, turn, paths, ver, -⟩ := expand_eq env mf w p
  rw [turn]
  refine bumpAll_listed (s := (served, w.again)) fun q => ?_
  rw [paths, ver]
  exact h q

/-- A turn that raises nothing leaves the selection as it was. -/
theorem expand_unchanged (h : (w.expand env mf p).again = false) :
    w.again = false ∧ (w.expand env mf p).mi.ver = w.mi.ver := by
  obtain ⟨served, turn, -, ver, -⟩ := expand_eq env mf w p
  rw [turn] at h ⊢
  have same := bumpAll_unchanged h
  exact ⟨(congrArg Prod.snd same).symm.trans h, (congrArg (fun s => s.1.ver) same).trans ver⟩

/-- What was read of a module is in the directory it is served from. -/
def Placed (env : ModEnv) (mf : ModFile) (w : Walk) : Prop :=
  ∀ p v, w.expanded p = some v → w.mi.dir p = some (modServeDir env mf p v).1

theorem Placed.expand (h : Placed env mf w) (p : String) : Placed env mf (w.expand env mf p) := by
  obtain ⟨served, turn, -, -, dir⟩ := expand_eq env mf w p
  rw [turn]
  intro q v hv
  simp only [bumpAll_dir, dir]
  dsimp only at hv
  by_cases hq : q = p
  · subst hq
    rw [if_pos rfl] at hv
    rw [if_pos rfl, modVer_of_ver hv]
  · rw [if_neg hq] at hv
    rw [if_neg hq]
    exact h q v hv

/-! ### The rounds -/

/-- Each selected version is the one that was read last. -/
def Settled (w : Walk) : Prop := ∀ p v, w.mi.ver p = some v → w.expanded p = some v

/-- A round that raises nothing has read each of its paths at the version it is left with. -/
theorem round_quiet {ps : List String} (quiet : (ps.foldl (Walk.expand env mf) w).again = false) :
    w.again = false ∧ (ps.foldl (Walk.expand env mf) w).mi.ver = w.mi.ver ∧
      ∀ q, (ps.foldl (Walk.expand env mf) w).expanded q = if q ∈ ps then w.mi.ver q else w.expanded q := by
  induction ps generalizing w with
  | nil => exact ⟨quiet, rfl, fun q => rfl⟩
  | cons p ps ih =>
    obtain ⟨again, ver, read⟩ := ih quiet
    obtain ⟨start, same⟩ := expand_unchanged again
    refine ⟨start, ver.trans same, fun q => (read q).trans ?_⟩
    rw [same, expand_expanded]
    by_cases hq : q ∈ ps
    · simp [hq]
    · by_cases hqp : q = p <;> simp [hq, hqp]

/-- **The rounds settle**: what no turn of a round breaks holds at the end, and there each selected version was
read last. -/
theorem rounds_settle {P : Walk → Prop} (listed : ∀ w, P w → Listed w.mi)
    (start : ∀ w, P w → P { w with again := false })
    (round : ∀ w (ps : List String), P w → (∀ p ∈ ps, (w.mi.ver p).isSome) → P (ps.foldl (Walk.expand env mf) w))
    {n : Nat} {w out : Walk} (h : P w) (hout : w.rounds env mf n = some out) : P out ∧ Settled out := by
  induction n generalizing w with
  | zero => cases hout
  | succ n ih =>
    have todo : ∀ p ∈ w.todo, (w.mi.ver p).isSome := fun p hp =>
      (listed w h p).mp (mem_filter.mp hp).1
    have next := round _ w.todo (start w h) todo
    rw [Walk.rounds] at hout
    by_cases again : (w.todo.foldl (Walk.expand env mf) { w with again := false }).again
    · rw [if_pos again] at hout
      exact ih next hout
    · rw [if_neg again] at hout
      cases hout
      obtain ⟨-, ver, read⟩ := round_quiet (by simpa using again)
      refine ⟨next, fun p v hv => ?_⟩
      rw [ver] at hv
      rw [read p]
      by_cases hp : p ∈ w.todo
      · rw [if_pos hp]
        exact hv
      · -- What is not to do was read at this version before the round.
        have path : p ∈ w.mi.paths := (listed w h p).mpr (Option.isSome_iff_exists.mpr ⟨v, hv⟩)
        have done : w.expanded p = w.mi.ver p := by
          simp only [Walk.todo, mem_filter, path, true_and, Bool.not_eq_true,
            Bool.not_eq_false', Bool.and_eq_true, beq_iff_eq] at hp
          exact hp.2
        rw [if_neg hp]
        exact done.trans hv

/-- What is left is served, and nothing else changes. -/
theorem serveRest_eq (env : ModEnv) (mf : ModFile) (mi : ModInfo) : (serveRest env mf mi).ver = mi.ver ∧ (serveRest env mf mi).paths = mi.paths ∧
    ∀ p, (mi.dir p).isSome → (serveRest env mf mi).dir p = mi.dir p := by
  unfold serveRest
  refine List.foldlRecOn (motive := fun out : ModInfo => out.ver = mi.ver ∧ out.paths = mi.paths ∧
    ∀ p, (mi.dir p).isSome → out.dir p = mi.dir p) _ _ ⟨rfl, rfl, fun p hp => rfl⟩ ?_
  intro out same p hp
  obtain ⟨ver, paths, dir⟩ := same
  by_cases served : (out.dir p).isSome
  · rw [if_pos served]
    exact ⟨ver, paths, dir⟩
  · rw [if_neg served]
    refine ⟨ver, paths, fun q hq => ?_⟩
    have kept := dir q hq
    have other : q ≠ p := fun h => served (by rwa [← h, kept])
    exact (if_neg other).trans kept

/-! ### The selection and the graph -/

theorem Seen.reaches {q w : String}
    (h : Seen env mf reads q w) (reached : ∀ n ∈ reads, Reaches env mf n.1 n.2) :
    Reaches env mf q w := by
  cases h with
  | inl h => exact .root h
  | inr h =>
    obtain ⟨n, hn, hreq⟩ := h
    exact .through (reached n hn) hreq

theorem Seen.append_iff {p v q w : String} :
    Seen env mf (reads ++ [(p, v)]) q w ↔
      Seen env mf reads q w ∨ Requires (reqsOf env mf p v) q w := by
  simp only [Seen, mem_append, mem_singleton, or_and_right, exists_or, exists_eq_left,
    or_assoc]

/-- What holds between two turns of the walk, where the versions are ordered. -/
structure Walked (env : ModEnv) (mf : ModFile) (w : Walk) : Prop where
  tops : Tops (Seen env mf w.reads) w.mi.ver
  listed : Listed w.mi
  reached : ∀ n ∈ w.reads, Reaches env mf n.1 n.2
  expanded : ∀ p v, w.expanded p = some v → (p, v) ∈ w.reads

theorem startWalk_listed (mf : ModFile) : Listed (startWalk mf).mi :=
  bumpReps_listed (bumpAll_listed fun p => by simp [noModules])

section

variable (hS : VerOrdered (Reaches env mf))

include hS

theorem startWalk_walked : Walked env mf (startWalk mf) := by
  have none : Tops (fun _ _ => False) noModules.ver :=
    ⟨fun q v h => by simp [noModules] at h, fun q w h => h.elim⟩
  have root : ∀ q w, Requires mf.reqs q w → Reaches env mf q w := fun q w h => .root (.inl h)
  have reqs : Tops (fun q w => Requires mf.reqs q w) (bumpAll mf.reqs (noModules, false)).1.ver :=
    (bumpAll_tops hS none (fun _ _ h => h.elim) root).congr fun q w => by simp
  refine ⟨(bumpReps_tops hS reqs root fun q rp hq free hrp => ?_).congr fun q w => ?_,
    startWalk_listed mf, fun n hn => by simp [startWalk] at hn, fun p v h => by simp [startWalk] at h⟩
  · exact .root (.inr ⟨hq, free, rp, hrp, rfl⟩)
  · simp [Seen, RootAsks, startWalk]

variable {w : Walk}

/-- A turn of the inner loop, at a path with a selected version: what is read is added to what was
seen. -/
theorem Walked.expand (h : Walked env mf w) {p v : String} (hv : w.mi.ver p = some v) :
    Walked env mf (w.expand env mf p) := by
  have node : Reaches env mf p v := (h.tops.found p v hv).reaches h.reached
  obtain ⟨served, turn, -, ver, -⟩ := expand_eq env mf w p
  have listed := expand_listed env mf h.listed p
  rw [turn, modVer_of_ver hv] at listed ⊢
  refine ⟨?_, listed, fun n hn => ?_, fun q u hu => ?_⟩
  · have seen : Tops (Seen env mf w.reads) served.ver := ver ▸ h.tops
    exact (bumpAll_tops hS (s := (served, w.again)) seen (fun q u hu => hu.reaches h.reached)
      fun q u hu => .through node hu).congr fun q u => Seen.append_iff.symm
  · cases mem_append.mp hn with
    | inl hn => exact h.reached n hn
    | inr hn => exact mem_singleton.mp hn ▸ node
  · dsimp only at hu
    by_cases hq : q = p
    · rw [if_pos hq, hv] at hu
      simp [hq, Option.some.inj hu]
    · rw [if_neg hq] at hu
      exact mem_append_left _ (h.expanded q u hu)

/-- A path that is selected stays selected. -/
theorem Walked.expand_isSome (h : Walked env mf w) {p v : String} (hv : w.mi.ver p = some v)
    {q : String} (hq : (w.mi.ver q).isSome) : ((w.expand env mf p).mi.ver q).isSome := by
  obtain ⟨u, hu⟩ := Option.isSome_iff_exists.mp hq
  have seen : Seen env mf (w.reads ++ [(p, v)]) q u := Seen.append_iff.mpr (.inl (h.tops.found q u hu))
  obtain ⟨m, hm, -⟩ := (h.expand hS hv).tops.covers q u (by rwa [expand_reads hv])
  exact Option.isSome_iff_exists.mpr ⟨m, hm⟩

/-- A round over paths that are selected. -/
theorem Walked.round {ps : List String} (h : Walked env mf w)
    (hps : ∀ p ∈ ps, (w.mi.ver p).isSome) : Walked env mf (ps.foldl (Walk.expand env mf) w) := by
  induction ps generalizing w with
  | nil => exact h
  | cons p ps ih =>
    obtain ⟨v, hv⟩ := Option.isSome_iff_exists.mp (hps p (by simp))
    exact ih (h.expand hS hv) fun q hq => h.expand_isSome hS hv (hps q (by simp [hq]))

/-- What a selection that settled is. -/
theorem modulesOf_tops {mi : ModInfo} {reads : List (String × String)}
    (hmi : modulesOf env mf = some (mi, reads)) :
    Tops (Seen env mf reads) mi.ver ∧ (∀ n ∈ reads, Reaches env mf n.1 n.2) ∧
      ∀ p v, mi.ver p = some v → (p, v) ∈ reads := by
  obtain ⟨w, hw, out⟩ := Option.map_eq_some_iff.mp hmi
  cases out
  obtain ⟨walked, settled⟩ := rounds_settle (P := Walked env mf) (fun w h => h.listed)
    (fun w h => ⟨h.tops, h.listed, h.reached, h.expanded⟩) (fun w ps h hps => h.round hS hps)
    (startWalk_walked hS) hw
  rw [(serveRest_eq env mf w.mi).1]
  exact ⟨walked.tops, walked.reached, fun p v hv => walked.expanded p v (settled p v hv)⟩

end

end Voila.Load
