import Voila.Lib.Words
import Voila.Str.SplitSound

/-!
# Voila.Str.Parse

`parse`: the templates of `vl_parse` (`std.c`).

A template is taken apart into regions, each with the targets that stand before a pattern or before the end; the
words of the region go to its targets. A template that starts with a literal and a target is put into another
order first (`canonical`).
-/

open List

namespace Voila.Str.Parse

open Rt

/-- The terms of a template: a literal is the C string that starts at `lit`, a column counts from one. -/
inductive VlTerm
  | var (slot : Nat)
  | discard
  | lit (lit : Bytes)
  | col (col : Int)
  deriving DecidableEq

/-- `VL_T_VAR` or `VL_T_DISCARD`. -/
def VlTerm.isTarget : VlTerm → Bool
  | .var _ => true
  | .discard => true
  | _ => false

/-- Every literal behind the target that it stands before. -/
def swapPairs : List VlTerm → List VlTerm
  | [] => []
  | .lit l :: t :: ts =>
    if t.isTarget then t :: .lit l :: swapPairs ts else .lit l :: swapPairs (t :: ts)
  | t :: ts => t :: swapPairs ts

/-- The terms `t2` that a template is rewritten to. -/
def canonical : List VlTerm → List VlTerm
  | .lit l :: t :: ts => if t.isTarget then swapPairs (.lit l :: t :: ts) else .lit l :: t :: ts
  | ts => ts

/-! ### A region -/

/-- What separates words. -/
def isBlank (c : UInt8) : Bool := c == 32 || c == 9

/-- `vl_set` of the register of a target, if it has one. -/
def VlTerm.set (v : Bytes) : VlTerm → List (Nat × Bytes)
  | .var slot => [(slot, v)]
  | _ => []

/-- The loop over the `ntgt` targets of a region, of which `rp` is left. -/
def distribute (ntgt : Nat) (rp : Bytes) : List VlTerm → List (Nat × Bytes)
  | [] => []
  | [t] => t.set (if ntgt > 1 then rp.dropWhile isBlank else rp)
  | t :: ts =>
    let word := rp.dropWhile isBlank
    t.set (word.takeWhile (!isBlank ·)) ++ distribute ntgt (word.dropWhile (!isBlank ·)) ts

/-- One turn of the main loop: from where to where the region goes, where the next one starts, and the registers
set. -/
structure Segment where
  start : Int
  stop : Int
  next : Int
  sets : List (Nat × Bytes)
  deriving DecidableEq

/-- The search for a literal from `pos` on. -/
def litAt (s lit : Bytes) (pos : Int) : Int :=
  if 0 < lit.length then indexLoop lit pos (s.drop pos.toNat) else -1

/-- `region_end` and `next` as the pattern has them. -/
def patternEnd (s : Bytes) (pos : Int) : Option VlTerm → Int × Int
  | some (.lit lit) =>
    let lit := cStr lit
    let at_ := litAt s lit pos
    if at_ ≥ 0 then (at_, at_ + lit.length) else (s.length, s.length)
  | some (.col col) =>
    let col := col - 1
    let col := if col < 0 then 0 else col
    let col := if col > s.length then (s.length : Int) else col
    (if col < pos then s.length else col, col)
  | _ => (s.length, s.length)

/-- The region at `pos` for its targets, up to a pattern or to the end. -/
def segment (s : Bytes) (pos : Int) (targets : List VlTerm) (pat : Option VlTerm) : Segment :=
  let n : Int := s.length
  let (stop, next) := patternEnd s pos pat
  let start := if pos > n then n else pos
  let stop := if stop > n then n else stop
  let stop := if stop < start then start else stop
  { start, stop, next,
    sets := distribute targets.length ((s.drop start.toNat).take (stop - start).toNat) targets }

/-- The main loop, with the targets collected since the last pattern. -/
def parseLoop (s : Bytes) (pos : Int) (targets : List VlTerm) : List VlTerm → List Segment
  | [] => [segment s pos targets none]
  | t :: ts =>
    if t.isTarget then parseLoop s pos (targets ++ [t]) ts
    else
      let seg := segment s pos targets (some t)
      seg :: parseLoop s seg.next [] ts

/-- The text that is parsed: the source as it is, or folded. -/
def folded (ucUpper : Nat → Nat) (fold : String) (src : Bytes) : Bytes :=
  if fold = "UPPER" then upperLower ucUpper src
  else if fold = "LOWER" then upperLower ucLower src
  else src

/-- `vl_parse` of a string, with the table for `upper`. -/
def vlParse (ucUpper : Nat → Nat) (src : Bytes) (fold : String) (terms : List VlTerm) : List Segment :=
  parseLoop (folded ucUpper fold src) 0 [] (canonical terms)

/-- The registers set, in the order of the writes. -/
def writes (segs : List Segment) : List (Nat × Bytes) := segs.flatMap (·.sets)

end Voila.Str.Parse

/-!
`vl_parse` against the template algorithm.

A region ends where its literal stands first, or at its column, or with the source (`Ends`); its targets share its
words (`Shares`). The code differs in one place: for a column at the very start of a region it has the region empty,
where a column that does not lie ahead leaves the region all of the source that is left.
-/

namespace Voila.Str.Parse

open Rt Lib

/-! ### The template algorithm -/

/-- The literal stands at `k`, not before `start`. -/
def Stands (s lit : Bytes) (start k : Nat) : Prop := lit ≠ [] ∧ start ≤ k ∧ Occurs lit s k

/-- The column that a pattern names, counted from zero and within the source. -/
def column (s : Bytes) (col : Int) : Nat := (min (max (col - 1) 0) s.length).toNat

/-- Where a region that begins at `start` ends, and where the one behind its pattern begins. -/
inductive Ends (s : Bytes) (start : Nat) : VlTerm → Nat → Nat → Prop
  | found {lit : Bytes} {k : Nat} : IsLeast {k | Stands s (cStr lit) start k} k →
      Ends s start (.lit lit) k (k + (cStr lit).length)
  | absent {lit : Bytes} : (∀ k, ¬ Stands s (cStr lit) start k) →
      Ends s start (.lit lit) s.length s.length
  | ahead {col : Int} : start < column s col → Ends s start (.col col) (column s col) (column s col)
  | behind {col : Int} : column s col ≤ start → Ends s start (.col col) s.length (column s col)

/-- What target `i` of `k` gets of a region: a word, or all from its word on if it is the last. A single target gets
the region as it is. -/
def Share (k : Nat) (r : Bytes) (i : Nat) (v : Bytes) : Prop :=
  if i + 1 < k then v = (wordsBy isBlank r).getD i []
  else if k = 1 then v = r
  else FromWord isBlank i r v

/-- The registers of some targets, and the values for these. -/
def setAll (targets : List VlTerm) (vals : List Bytes) : List (Nat × Bytes) :=
  (targets.zip vals).flatMap fun p => p.1.set p.2

/-- The targets of a region get their shares. -/
def Shares (targets : List VlTerm) (r : Bytes) (sets : List (Nat × Bytes)) : Prop :=
  ∃ vals : List Bytes, vals.length = targets.length ∧
    (∀ i v, vals[i]? = some v → Share targets.length r i v) ∧ sets = setAll targets vals

/-- The template from `start` on, with the registers that each region sets. -/
inductive Rexx (s : Bytes) : Nat → List VlTerm → List (List (Nat × Bytes)) → Prop
  | last {start : Nat} {targets : List VlTerm} {sets : List (Nat × Bytes)} :
      (∀ t ∈ targets, t.isTarget = true) → Shares targets (s.drop start) sets →
      Rexx s start targets [sets]
  | next {start stop next : Nat} {targets ts : List VlTerm} {p : VlTerm} {sets : List (Nat × Bytes)}
      {more : List (List (Nat × Bytes))} :
      (∀ t ∈ targets, t.isTarget = true) → p.isTarget = false → Ends s start p stop next →
      Shares targets ((s.drop start).take (stop - start)) sets → Rexx s next ts more →
      Rexx s start (targets ++ p :: ts) (sets :: more)

/-! ### Words -/

variable {targets ts : List VlTerm} {s lit sep : Bytes} {p : VlTerm} {start k next stop : Nat}
  {sets : List (Nat × Bytes)}

/-- The targets from word `j` on, when there are more than one: `rp` is what the words before them left. -/
theorem distribute_from {n j : Nat} {r rp : Bytes} (hn : 1 < n)
    (hlen : j + targets.length = n) (hwords : wordsBy isBlank rp = (wordsBy isBlank r).drop j)
    (hfrom : ∀ i v, FromWord isBlank i rp v → FromWord isBlank (j + i) r v) :
    ∃ vals : List Bytes, vals.length = targets.length ∧
      (∀ i v, vals[i]? = some v → Share n r (j + i) v) ∧ distribute n rp targets = setAll targets vals := by
  induction targets generalizing j rp with
  | nil => exact ⟨[], rfl, by simp, rfl⟩
  | cons t ts ih =>
    cases ts with
    | nil =>
      refine ⟨[rp.dropWhile isBlank], rfl, ?_, ?_⟩
      · intro i v hv
        obtain ⟨rfl, rfl⟩ : i = 0 ∧ rp.dropWhile isBlank = v := by
          cases i with
          | zero => exact ⟨rfl, by simpa using hv⟩
          | succ i => simp at hv
        have hj : ¬ j + 0 + 1 < n := by simp at hlen; omega
        rw [Share, if_neg hj, if_neg (by omega)]
        exact hfrom 0 _ (fromWord_zero rp)
      · rw [distribute, if_pos hn]
        simp [setAll]
    | cons t' ts =>
      have hlen' : j + 1 + (t' :: ts).length = n := by simp only [length_cons] at hlen ⊢; omega
      have hpast : wordsBy isBlank (pastWord isBlank rp) = (wordsBy isBlank r).drop (j + 1) := by
        rw [wordsBy_pastWord, hwords, drop_drop]
      obtain ⟨vals, hvals, hshare, hsets⟩ := ih hlen' hpast fun i v h => by
        have := hfrom (i + 1) v h.succ
        rwa [← Nat.add_assoc, Nat.add_right_comm] at this
      refine ⟨(wordsBy isBlank rp).getD 0 [] :: vals, by simp [hvals], ?_, ?_⟩
      · intro i v hv
        cases i with
        | zero =>
          rw [List.getElem?_cons_zero, Option.some.injEq] at hv
          have hj : j + 0 + 1 < n := by simp only [length_cons] at hlen; omega
          rw [Share, if_pos hj, ← hv, hwords, List.getD_eq_getElem?_getD, List.getElem?_drop,
            ← List.getD_eq_getElem?_getD]
        | succ i =>
          have := hshare i v (by simpa using hv)
          rwa [Nat.add_right_comm] at this
      · rw [distribute, firstWord_eq, show (rp.dropWhile isBlank).dropWhile (!isBlank ·) = pastWord isBlank rp from rfl,
          hsets]
        · rfl
        · simp

/-- The loop over the targets gives each its share. -/
theorem distribute_shares (targets : List VlTerm) (r : Bytes) :
    Shares targets r (distribute targets.length r targets) := by
  by_cases hn : 1 < targets.length
  · obtain ⟨vals, hlen, hvals, hsets⟩ := distribute_from (r := r) hn (Nat.zero_add targets.length)
      (by rw [drop_zero]) (fun i v h => by rwa [Nat.zero_add])
    refine ⟨vals, hlen, ?_, hsets⟩
    intro i v hv
    have := hvals i v hv
    rwa [Nat.zero_add] at this
  · match targets, hn with
    | [], _ => exact ⟨[], rfl, by simp, rfl⟩
    | [t], hn =>
      refine ⟨[r], rfl, ?_, ?_⟩
      · intro i v hv
        cases i with
        | zero =>
          rw [List.getElem?_cons_zero, Option.some.injEq] at hv
          simp [Share, hv]
        | succ i => simp at hv
      · rw [distribute, if_neg hn]
        simp [setAll]
    | t :: t' :: ts, hn => exact absurd (by simp) hn

/-! ### One region -/

theorem Ends.unique {start stop stop' next next' : Nat}
    (h : Ends s start p stop next) (h' : Ends s start p stop' next') : stop = stop' ∧ next = next' := by
  cases h with
  | found hk =>
    cases h' with
    | found hk' =>
      obtain rfl := hk.unique hk'
      exact ⟨rfl, rfl⟩
    | absent hnone => exact absurd hk.1 (hnone _)
  | absent hnone =>
    cases h' with
    | found hk' => exact absurd hk'.1 (hnone _)
    | absent => exact ⟨rfl, rfl⟩
  | ahead hlt =>
    cases h' with
    | ahead => exact ⟨rfl, rfl⟩
    | behind hle => exact absurd hlt (Nat.not_lt.mpr hle)
  | behind hle =>
    cases h' with
    | ahead hlt => exact absurd hlt (Nat.not_lt.mpr hle)
    | behind => exact ⟨rfl, rfl⟩

theorem occurs_drop (hs : start ≤ s.length) (k : Nat) :
    Occurs lit (s.drop start) k ↔ Occurs lit s (start + k) := by
  unfold Occurs
  rw [drop_drop, length_drop]
  have hle : k ≤ s.length - start ↔ start + k ≤ s.length := by omega
  rw [hle]

theorem Stands.fits (h : Stands s lit start k) : k + lit.length ≤ s.length := by
  obtain ⟨hk, hprefix⟩ := h.2.2
  have hlen := hprefix.length_le
  rw [length_drop] at hlen
  omega

/-- The search finds the first place from `start` on. -/
theorem litAt_spec (lit : Bytes) (hs : start ≤ s.length) :
    (∃ k : Nat, IsLeast {k | Stands s lit start k} k ∧ litAt s lit start = k) ∨
      ((∀ k, ¬ Stands s lit start k) ∧ litAt s lit start = -1) := by
  unfold litAt
  by_cases hlit : 0 < lit.length
  · have hne : lit ≠ [] := length_pos_iff.mp hlit
    rw [if_pos hlit, Int.toNat_natCast]
    rcases indexLoop_spec lit (s.drop start) start with ⟨k, hleast, hrun⟩ | ⟨hnone, hrun⟩
    · refine Or.inl ⟨start + k, ⟨⟨hne, Nat.le_add_right _ _, (occurs_drop hs k).mp hleast.1⟩, ?_⟩, by rw [hrun]; rfl⟩
      intro j hj
      obtain ⟨-, hstart, hj⟩ := hj
      obtain ⟨i, rfl⟩ := Nat.exists_eq_add_of_le hstart
      exact Nat.add_le_add_left (hleast.2 ((occurs_drop hs i).mpr hj)) start
    · refine Or.inr ⟨?_, hrun⟩
      intro j hj
      obtain ⟨-, hstart, hj⟩ := hj
      obtain ⟨i, rfl⟩ := Nat.exists_eq_add_of_le hstart
      exact hnone i ((occurs_drop hs i).mpr hj)
  · rw [if_neg hlit]
    refine Or.inr ⟨?_, rfl⟩
    intro k hk
    exact hlit (length_pos_iff.mpr hk.1)

theorem column_le (s : Bytes) (col : Int) : column s col ≤ s.length := by
  unfold column
  omega

/-- `next` is where the template algorithm goes on; `region_end` is where the region ends but for a column that is
the start of the region. -/
theorem patternEnd_spec (hs : start ≤ s.length) (hp : p.isTarget = false) :
    ∃ stop next : Nat, Ends s start p stop next ∧ start ≤ stop ∧ stop ≤ s.length ∧ next ≤ s.length ∧
      ((∃ col, p = .col col ∧ column s col = start) ∧ patternEnd s start (some p) = ((start : Int), (start : Int)) ∧
          stop = s.length ∧ next = start ∨
        (∀ col, p = .col col → column s col ≠ start) ∧ patternEnd s start (some p) = ((stop : Int), (next : Int))) := by
  cases p with
  | var slot => cases hp
  | discard => cases hp
  | lit lit =>
    have hcol : ∀ col, VlTerm.lit lit = .col col → column s col ≠ start := fun _ h => VlTerm.noConfusion h
    rcases litAt_spec (cStr lit) hs with ⟨k, hleast, hat⟩ | ⟨hnone, hat⟩
    · have hfits := hleast.1.fits
      refine ⟨k, k + (cStr lit).length, .found hleast, hleast.1.2.1, by omega, hfits, Or.inr ⟨hcol, ?_⟩⟩
      simp only [patternEnd, hat]
      rw [if_pos (by omega)]
      rfl
    · refine ⟨s.length, s.length, .absent hnone, hs, le_rfl, le_rfl, Or.inr ⟨hcol, ?_⟩⟩
      simp only [patternEnd, hat]
      rw [if_neg (by omega)]
  | col col =>
    have hcol : ∀ x : Int, (if (if col - 1 < 0 then 0 else col - 1) > (s.length : Int) then (s.length : Int)
        else if col - 1 < 0 then 0 else col - 1) = column s col := by
      intro _
      unfold column
      split_ifs <;> omega
    have hle := column_le s col
    simp only [patternEnd, hcol 0]
    rcases Nat.lt_trichotomy (column s col) start with hlt | heq | hgt
    · refine ⟨s.length, column s col, .behind (Nat.le_of_lt hlt), hs, le_rfl, hle, Or.inr ⟨?_, ?_⟩⟩
      · intro c hc
        cases hc
        exact Nat.ne_of_lt hlt
      · rw [if_pos (by omega)]
    · refine ⟨s.length, column s col, .behind (Nat.le_of_eq heq), hs, le_rfl, hle, Or.inl ⟨⟨col, rfl, heq⟩, ?_, rfl, heq⟩⟩
      rw [if_neg (by omega), heq]
    · refine ⟨column s col, column s col, .ahead hgt, Nat.le_of_lt hgt, hle, hle, Or.inr ⟨?_, ?_⟩⟩
      · intro c hc
        cases hc
        exact Nat.ne_of_gt hgt
      · rw [if_neg (by omega)]

/-- A region whose ends are within the source is left as it is. -/
theorem segment_of (hstart : start ≤ stop) (hstop : stop ≤ s.length)
    (targets : List VlTerm) {pat : Option VlTerm} (h : patternEnd s start pat = ((stop : Int), (next : Int))) :
    segment s start targets pat =
      ⟨start, stop, next, distribute targets.length ((s.drop start).take (stop - start)) targets⟩ := by
  have hlen : ((stop : Int) - (start : Int)).toNat = stop - start := by omega
  simp only [segment, h]
  rw [if_neg (by omega : ¬ (start : Int) > s.length), if_neg (by omega : ¬ (stop : Int) > s.length),
    if_neg (by omega : ¬ (stop : Int) < start), Int.toNat_natCast, hlen]

/-- The last region goes up to the end. -/
theorem segment_none (hs : start ≤ s.length) (targets : List VlTerm) :
    segment s start targets none =
      ⟨start, s.length, s.length, distribute targets.length (s.drop start) targets⟩ := by
  have hend : patternEnd s start none = ((s.length : Int), (s.length : Int)) := rfl
  rw [segment_of hs le_rfl targets hend, take_of_length_le]
  rw [length_drop]

/-! ### Where the code differs -/

/-- Nothing of the text falls to a variable: it has no word for the place of any, or is empty and the variable
stands alone. -/
def Spared (targets : List VlTerm) (r : Bytes) : Prop :=
  ∀ i slot, targets[i]? = some (.var slot) →
    if targets.length = 1 then r = [] else (wordsBy isBlank r).length ≤ i

/-- No column that has variables before it is where their region starts, unless the source has nothing for them
from there on. The targets since the last pattern come first, then the rest of the template. -/
def Clear (s : Bytes) (start : Nat) (targets : List VlTerm) : List VlTerm → Prop
  | [] => True
  | t :: ts =>
    if t.isTarget then Clear s start (targets ++ [t]) ts
    else (∀ col, t = .col col → column s col = start → Spared targets (s.drop start)) ∧
      ∀ stop next, Ends s start t stop next → Clear s next [] ts

/-- Two assignments are the same if they are for the variables. -/
theorem setAll_eq_iff {vals vals' : List Bytes} (h : vals.length = targets.length)
    (h' : vals'.length = targets.length) : setAll targets vals = setAll targets vals' ↔
      ∀ (i slot : Nat), targets[i]? = some (VlTerm.var slot) → vals[i]? = vals'[i]? := by
  induction targets generalizing vals vals' with
  | nil => simp [setAll]
  | cons t ts ih =>
    match vals, vals', h, h' with
    | v :: vals, v' :: vals', h, h' =>
      have hlen : vals.length = ts.length := by simpa using h
      have hlen' : vals'.length = ts.length := by simpa using h'
      have hrest := ih hlen hlen'
      have hcons : ∀ w ws, setAll (t :: ts) (w :: ws) = t.set w ++ setAll ts ws := fun _ _ => rfl
      rw [hcons, hcons]
      have hset : t.set v ++ setAll ts vals = t.set v' ++ setAll ts vals' ↔
          (∀ slot, t = .var slot → v = v') ∧ setAll ts vals = setAll ts vals' := by
        cases t <;> simp [VlTerm.set]
      rw [hset, hrest]
      constructor
      · intro h i slot hi
        cases i with
        | zero => simpa using h.1 slot (by simpa using hi)
        | succ i => simpa using h.2 i slot (by simpa using hi)
      · intro h
        constructor
        · intro slot ht
          simpa using h 0 slot (by simpa using ht)
        · intro i slot hi
          simpa using h (i + 1) slot (by simpa using hi)

/-- A share is empty if there is no word left for it. -/
theorem share_eq_nil_iff {k i : Nat} {r v : Bytes} (hi : i < k) (h : Share k r i v) :
    v = [] ↔ if k = 1 then r = [] else (wordsBy isBlank r).length ≤ i := by
  unfold Share at h
  split_ifs at h with hlast hone
  · rw [if_neg (by omega), h]
    exact wordsBy_getD_eq_nil r i
  · rw [if_pos hone, h]
  · rw [if_neg hone]
    exact h.eq_nil_iff

/-- An empty region leaves all targets empty. -/
theorem distribute_nil (targets : List VlTerm) :
    ∃ vals : List Bytes, vals.length = targets.length ∧ (∀ (i : Nat) (v : Bytes), vals[i]? = some v → v = []) ∧
      distribute targets.length [] targets = setAll targets vals := by
  obtain ⟨vals, hlen, hvals, hsets⟩ := distribute_shares targets []
  refine ⟨vals, hlen, ?_, hsets⟩
  intro i v hv
  have hi : i < targets.length := hlen ▸ (List.getElem?_eq_some_iff.mp hv).1
  rw [share_eq_nil_iff hi (hvals i v hv)]
  split_ifs
  · rfl
  · exact Nat.zero_le i

/-- Empty values are what the text gives the targets if it gives its variables nothing. -/
theorem shares_nil_iff (targets : List VlTerm) (r : Bytes) :
    Shares targets r (distribute targets.length [] targets) ↔ Spared targets r := by
  obtain ⟨empty, hempty, hnil, hsets⟩ := distribute_nil targets
  rw [hsets]
  -- where there is a variable, its share is empty if nothing of the text falls to it
  have hvar : ∀ {vals : List Bytes}, vals.length = targets.length →
      (∀ i v, vals[i]? = some v → Share targets.length r i v) → ∀ i slot : Nat,
      targets[i]? = some (VlTerm.var slot) → (empty[i]? = vals[i]? ↔
        if targets.length = 1 then r = [] else (wordsBy isBlank r).length ≤ i) := by
    intro vals hlen hvals i slot hi
    have hlt : i < targets.length := (List.getElem?_eq_some_iff.mp hi).1
    have hv := List.getElem?_eq_getElem (l := vals) (hlen ▸ hlt)
    have he := List.getElem?_eq_getElem (l := empty) (hempty ▸ hlt)
    rw [← share_eq_nil_iff hlt (hvals i _ hv), hv, he, hnil i _ he, Option.some.injEq]
    exact eq_comm
  constructor
  · intro ⟨vals, hlen, hvals, heq⟩ i slot hi
    exact (hvar hlen hvals i slot hi).mp ((setAll_eq_iff hempty hlen).mp heq i slot hi)
  · intro hspared
    obtain ⟨vals, hlen, hvals, -⟩ := distribute_shares targets r
    refine ⟨vals, hlen, hvals, (setAll_eq_iff hempty hlen).mpr ?_⟩
    intro i slot hi
    exact (hvar hlen hvals i slot hi).mpr (hspared i slot hi)

/-! ### The whole template -/

theorem targets_unique {a b : List VlTerm} {p q : VlTerm} {r r' : List VlTerm}
    (ha : ∀ t ∈ a, t.isTarget = true) (hb : ∀ t ∈ b, t.isTarget = true) (hp : p.isTarget = false)
    (hq : q.isTarget = false) (h : a ++ p :: r = b ++ q :: r') : a = b ∧ p = q ∧ r = r' := by
  induction a generalizing b with
  | nil =>
    cases b with
    | nil => exact ⟨rfl, List.cons.inj h⟩
    | cons t b =>
      have := hb t mem_cons_self
      rw [← (List.cons.inj h).1, hp] at this
      cases this
  | cons t a ih =>
    cases b with
    | nil =>
      have := ha t mem_cons_self
      rw [(List.cons.inj h).1, hq] at this
      cases this
    | cons u b =>
      obtain ⟨rfl, htail⟩ := List.cons.inj h
      obtain ⟨rfl, hpq⟩ := ih (fun t ht => ha t (mem_cons_of_mem _ ht))
        (fun t ht => hb t (mem_cons_of_mem _ ht)) htail
      exact ⟨rfl, hpq⟩

/-- A template is its first region and the rest. -/
theorem rexx_cons_iff {more : List (List (Nat × Bytes))}
    (htargets : ∀ t ∈ targets, t.isTarget = true) (hp : p.isTarget = false)
    (hends : Ends s start p stop next) : Rexx s start (targets ++ p :: ts) (sets :: more) ↔
      Shares targets ((s.drop start).take (stop - start)) sets ∧ Rexx s next ts more := by
  constructor
  · intro h
    generalize hall : targets ++ p :: ts = all at h
    cases h with
    | last honly =>
      have := honly p (hall ▸ mem_append_right _ mem_cons_self)
      rw [hp] at this
      cases this
    | next htargets' hp' hends' hshares hrest =>
      obtain ⟨rfl, rfl, rfl⟩ := targets_unique htargets htargets' hp hp' hall
      obtain ⟨rfl, rfl⟩ := hends.unique hends'
      exact ⟨hshares, hrest⟩
  · intro ⟨hshares, hrest⟩
    exact .next htargets hp hends hshares hrest

theorem rexx_last_iff (htargets : ∀ t ∈ targets, t.isTarget = true) :
    Rexx s start targets [sets] ↔ Shares targets (s.drop start) sets := by
  constructor
  · intro h
    cases h with
    | last _ hshares => exact hshares
    | next _ hp =>
      have := htargets _ (mem_append_right _ mem_cons_self)
      rw [hp] at this
      cases this
  · exact .last htargets

/-- The code follows the algorithm if no column in its way is where a region starts. -/
theorem rexx_iff (hs : start ≤ s.length) (htargets : ∀ t ∈ targets, t.isTarget = true) :
    Rexx s start (targets ++ ts) ((parseLoop s start targets ts).map (·.sets)) ↔ Clear s start targets ts := by
  induction ts generalizing start targets with
  | nil =>
    rw [List.append_nil, parseLoop, segment_none hs, map_singleton, rexx_last_iff htargets]
    exact iff_of_true (distribute_shares _ _) trivial
  | cons t ts ih =>
    cases ht : t.isTarget with
    | true =>
      rw [parseLoop, if_pos ht, Clear, if_pos ht, ← ih hs, append_assoc, singleton_append]
      intro t' ht'
      rcases mem_append.mp ht' with ht' | ht'
      · exact htargets t' ht'
      · exact mem_singleton.mp ht' ▸ ht
    | false =>
      obtain ⟨stop, next, hends, hstart, hstop, hnext, hcode⟩ := patternEnd_spec hs ht
      -- the rest of the template goes on from where the algorithm does, in either case
      have hrest : (∀ stop' next', Ends s start t stop' next' → Clear s next' [] ts) ↔ Clear s next [] ts := by
        constructor
        · intro h
          exact h stop next hends
        · intro h stop' next' hends'
          exact (hends.unique hends').2 ▸ h
      have hnone : ∀ t ∈ ([] : List VlTerm), t.isTarget = true := nofun
      rw [parseLoop, if_neg (by simp [ht]), Clear, if_neg (by simp [ht]), hrest, map_cons,
        rexx_cons_iff htargets ht hends, ← ih hnext hnone, nil_append]
      rcases hcode with ⟨⟨col, rfl, hcol⟩, hpat, rfl, rfl⟩ | ⟨hcol, hpat⟩
      · -- the code has the region empty
        rw [segment_of le_rfl hs targets hpat, Nat.sub_self, take_zero,
          take_of_length_le (by rw [length_drop]), shares_nil_iff]
        refine and_congr_left' ?_
        constructor
        · intro h _ _ _
          exact h
        · intro h
          exact h col rfl hcol
      · rw [segment_of hstart hstop targets hpat]
        refine and_congr_left' (iff_of_true (distribute_shares _ _) ?_)
        intro col htcol heq
        exact absurd heq (hcol col htcol)

/-! ### Cursors -/

/-- The cursors of a turn are within the source, in their order. -/
def Segment.Within (s : Bytes) (seg : Segment) : Prop :=
  0 ≤ seg.start ∧ seg.start ≤ seg.stop ∧ seg.stop ≤ s.length ∧ 0 ≤ seg.next ∧ seg.next ≤ s.length

theorem parseLoop_within (hs : start ≤ s.length) (targets ts : List VlTerm) :
    ∀ seg ∈ parseLoop s start targets ts, seg.Within s := by
  induction ts generalizing start targets with
  | nil =>
    intro seg hseg
    rw [parseLoop, segment_none hs, mem_singleton] at hseg
    subst hseg
    refine ⟨?_, ?_, ?_, ?_, ?_⟩ <;> dsimp only <;> omega
  | cons t ts ih =>
    cases ht : t.isTarget with
    | true =>
      rw [parseLoop, if_pos ht]
      exact ih hs _
    | false =>
      obtain ⟨stop, next, -, hstart, hstop, hnext, hcode⟩ := patternEnd_spec hs ht
      rw [parseLoop, if_neg (by simp [ht])]
      rcases hcode with ⟨-, hpat, -, -⟩ | ⟨-, hpat⟩
      · rw [segment_of le_rfl hs targets hpat]
        refine forall_mem_cons.mpr ⟨⟨?_, ?_, ?_, ?_, ?_⟩, ih hs []⟩ <;> dsimp only <;> omega
      · rw [segment_of hstart hstop targets hpat]
        refine forall_mem_cons.mpr ⟨⟨?_, ?_, ?_, ?_, ?_⟩, ih hnext []⟩ <;> dsimp only <;> omega

/-! ### A literal before each variable -/

theorem splitLoop_skip (sep : Bytes) (skip : Nat) (parts : Int) (cur s : Bytes) :
    splitLoop sep 0 skip parts cur s = splitLoop sep 0 0 parts cur (s.drop skip) := by
  induction s generalizing skip with
  | nil => cases skip <;> simp [splitLoop]
  | cons a s ih =>
    cases skip with
    | zero => rfl
    | succ skip => exact ih skip

theorem splitLoop_parts (sep : Bytes) (skip : Nat) (parts parts' : Int) (cur s : Bytes) :
    splitLoop sep 0 skip parts cur s = splitLoop sep 0 skip parts' cur s := by
  induction s generalizing skip parts parts' cur with
  | nil => cases skip <;> rfl
  | cons a s ih =>
    cases skip with
    | succ skip => exact ih skip parts parts' cur
    | zero =>
      simp only [splitLoop]
      rw [ih (sep.length - 1) (parts + 1) (parts' + 1) [], ih 0 parts parts' (cur ++ [a])]
      simp

/-- The first piece goes up to the first separator, and the others come from what is behind it. -/
theorem splitLoop_found (hsep : sep ≠ [])
    (hk : IsLeast {j | Occurs sep s j} k) (parts : Int) (cur : Bytes) :
    splitLoop sep 0 0 parts cur s = (cur ++ s.take k) :: splitLoop sep 0 0 0 [] (s.drop (k + sep.length)) := by
  induction s generalizing k cur with
  | nil =>
    have hprefix := hk.1.2
    rw [drop_nil, prefix_nil] at hprefix
    exact absurd hprefix hsep
  | cons a s ih =>
    have hfits : sep.length ≤ s.length + 1 := by
      have := hk.1.2.length_le
      rw [length_drop, length_cons] at this
      omega
    rw [splitLoop, if_pos hfits]
    cases k with
    | zero =>
      have here : sep.isPrefixOf (a :: s) = true := (isPrefixOf_iff _ _).mpr ((occurs_zero _ _).mp hk.1)
      have hpos := length_pos_iff.mpr hsep
      obtain ⟨n, hn⟩ := Nat.exists_eq_succ_of_ne_zero (Nat.ne_of_gt hpos)
      rw [if_neg (by simp [here]), splitLoop_skip, splitLoop_parts sep 0 (parts + 1) 0, take_zero,
        List.append_nil, Nat.zero_add, hn, drop_succ_cons]
      rfl
    | succ k =>
      have here : ¬ sep.isPrefixOf (a :: s) = true := by
        intro here
        have := hk.2 ((occurs_zero _ _).mpr ((isPrefixOf_iff _ _).mp here))
        omega
      have hleast : IsLeast {j | Occurs sep s j} k := by
        refine ⟨(occurs_succ sep s a k).mp hk.1, ?_⟩
        intro j hj
        have := hk.2 ((occurs_succ sep s a j).mpr hj)
        omega
      rw [if_pos (Or.inr here), ih hleast, append_assoc, Nat.add_right_comm, drop_succ_cons]
      rfl

theorem splitLoop_absent (hnone : ∀ j, ¬ Occurs sep s j) (parts : Int) (cur : Bytes) :
    splitLoop sep 0 0 parts cur s = [cur ++ s] := by
  induction s generalizing cur with
  | nil => simp [splitLoop]
  | cons a s ih =>
    rw [splitLoop]
    split_ifs with hfits hhere
    · rw [ih (fun j hj => hnone (j + 1) ((occurs_succ sep s a j).mpr hj)), append_assoc]
      rfl
    · have here : sep.isPrefixOf (a :: s) = true := by simpa using hhere
      exact absurd ((occurs_zero _ _).mpr ((isPrefixOf_iff _ _).mp here)) (hnone 0)
    · rfl

/-- The pieces from a position on: the first up to where the literal ends a region, the others from where the next
region begins. -/
theorem split_drop (hlit : cStr lit ≠ []) (hs : start ≤ s.length)
    (h : Ends s start (.lit lit) stop next) (i : Nat) :
    (split (s.drop start) (cStr lit)).getD 0 [] = (s.drop start).take (stop - start) ∧
      (split (s.drop start) (cStr lit)).getD (i + 1) [] = (split (s.drop next) (cStr lit)).getD i [] := by
  have hsplit : ∀ t, split t (cStr lit) = splitLoop (cStr lit) 0 0 0 [] t := by
    intro t
    rw [split, splitStr, if_neg hlit]
  cases h with
  | found hk =>
    obtain ⟨j, rfl⟩ := Nat.exists_eq_add_of_le hk.1.2.1
    have hleast : IsLeast {i | Occurs (cStr lit) (s.drop start) i} j := by
      refine ⟨(occurs_drop hs j).mpr hk.1.2.2, ?_⟩
      intro i hi
      have := hk.2 ⟨hlit, Nat.le_add_right start i, (occurs_drop hs i).mp hi⟩
      omega
    rw [hsplit, splitLoop_found hlit hleast, drop_drop, ← hsplit, Nat.add_assoc, Nat.add_sub_cancel_left]
    exact ⟨rfl, rfl⟩
  | absent hnone =>
    have hnone' : ∀ j, ¬ Occurs (cStr lit) (s.drop start) j := fun j hj =>
      hnone (start + j) ⟨hlit, Nat.le_add_right start j, (occurs_drop hs j).mp hj⟩
    rw [hsplit, splitLoop_absent hnone', hsplit, drop_length]
    refine ⟨?_, ?_⟩
    · rw [take_of_length_le (by rw [length_drop])]
      rfl
    · cases i <;> rfl

/-- The template that has the literal before each variable. -/
def eachBehind (lit : Bytes) (slots : List Nat) : List VlTerm := slots.flatMap fun slot => [.lit lit, .var slot]

theorem canonical_eachBehind (lit : Bytes) (slots : List Nat) :
    canonical (eachBehind lit slots) = slots.flatMap fun slot => [.var slot, .lit lit] := by
  have hswap : swapPairs (eachBehind lit slots) = slots.flatMap fun slot => [.var slot, .lit lit] := by
    induction slots with
    | nil => rfl
    | cons slot slots ih =>
      rw [flatMap_cons, ← ih]
      rfl
  cases slots with
  | nil => rfl
  | cons slot slots => exact hswap

/-- Each variable gets a piece. -/
theorem writes_pieces (hlit : cStr lit ≠ []) (hs : start ≤ s.length) (slots : List Nat) :
    writes (parseLoop s start [] (slots.flatMap fun slot => [.var slot, .lit lit])) =
      slots.zipIdx.map fun p => (p.1, (split (s.drop start) (cStr lit)).getD p.2 []) := by
  induction slots generalizing start with
  | nil =>
    rw [flatMap_nil, parseLoop, segment_none hs]
    rfl
  | cons slot slots ih =>
    obtain ⟨stop, next, hends, hstart, hstop, hnext, hcode⟩ := patternEnd_spec hs (p := .lit lit) rfl
    have hpat : patternEnd s start (some (.lit lit)) = ((stop : Int), (next : Int)) := by
      rcases hcode with ⟨⟨col, hcol, -⟩, -⟩ | ⟨-, hpat⟩
      · cases hcol
      · exact hpat
    have hpieces := split_drop hlit hs hends
    have hrun : parseLoop s start [] ((slot :: slots).flatMap fun slot => [.var slot, .lit lit]) =
        segment s start [.var slot] (some (.lit lit)) ::
          parseLoop s (segment s start [.var slot] (some (.lit lit))).next []
            (slots.flatMap fun slot => [.var slot, .lit lit]) := rfl
    have hrest : writes (parseLoop s next [] (slots.flatMap fun slot => [.var slot, .lit lit])) =
        (slots.zipIdx 1).map fun p => (p.1, (split (s.drop start) (cStr lit)).getD p.2 []) := by
      rw [ih hnext, zipIdx_succ, map_map]
      refine map_congr_left ?_
      intro p _
      exact congrArg (Prod.mk p.1) (hpieces p.2).2.symm
    rw [hrun, segment_of hstart hstop [.var slot] hpat, writes, flatMap_cons, ← writes, hrest,
      zipIdx_cons, map_cons, (hpieces 0).1]
    rfl

/-! ### What `parse` does -/

/-- What is asked of a template and a source: the cursors stay within it, the registers are set as the template
algorithm has it, and a literal before each variable splits the source. -/
structure Parsed (ucUpper : Nat → Nat) (src : Bytes) (fold : String) (terms : List VlTerm) : Prop where
  cursors : ∀ seg ∈ vlParse ucUpper src fold terms, seg.Within (folded ucUpper fold src)
  rexx : Rexx (folded ucUpper fold src) 0 (canonical terms) ((vlParse ucUpper src fold terms).map (·.sets))
  pieces (lit : Bytes) (slots : List Nat) : cStr lit ≠ [] → terms = eachBehind lit slots →
    writes (vlParse ucUpper src fold terms) =
      slots.zipIdx.map fun p => (p.1, (split (folded ucUpper fold src) (cStr lit)).getD p.2 [])

/-- All but the columns that are where their region starts. -/
theorem parsed_iff (ucUpper : Nat → Nat) (src : Bytes) (fold : String) (terms : List VlTerm) :
    Parsed ucUpper src fold terms ↔ Clear (folded ucUpper fold src) 0 [] (canonical terms) := by
  have hnone : ∀ t ∈ ([] : List VlTerm), t.isTarget = true := nofun
  have hrexx : Rexx (folded ucUpper fold src) 0 (canonical terms) _ ↔ _ := rexx_iff (Nat.zero_le _) hnone
  constructor
  · intro h
    exact hrexx.mp h.rexx
  · intro hclear
    refine ⟨parseLoop_within (Nat.zero_le _) [] _, hrexx.mpr hclear, ?_⟩
    intro lit slots hlit hterms
    subst hterms
    rw [vlParse, canonical_eachBehind]
    exact writes_pieces hlit (Nat.zero_le _) slots

/-- `parse "ab" x 1 y`: the column is where the region of `x` starts. -/
theorem parsed_column : ¬ Parsed id [97, 98] "" [.var 0, .col 1, .var 1] := by
  intro h
  have hnone : ∀ t ∈ ([] : List VlTerm), t.isTarget = true := nofun
  have hclear : Clear [97, 98] 0 [] [.var 0, .col 1, .var 1] := (rexx_iff (Nat.zero_le _) hnone).mp h.rexx
  have hspared := hclear.1 1 rfl rfl 0 0 rfl
  cases hspared

end Voila.Str.Parse
