import Voila.Lib.MergeSort
import Voila.Rt.Ops

/-!
# Voila.Rt.Sort

Sorting a slice (`vl_sort_slice`).

The elements are copied to a private array and sorted there by merging, between that array and a second one. The
comparisons are user code: each may throw, and may change what it likes, the slice included, but it cannot reach
the two arrays. The order is stored back in one go at the end, if the slice still has the length that it had.
-/

open List

namespace Voila.Rt

variable {F O ε σ : Type}

/-- `Value *`: what stands at each index. -/
abbrev Values (F O : Type) := Nat → Value F O

/-- What sorting calls: `vl_call`, and `vl_cmplt` where no comparator is given. -/
structure SortCalls (F O ε σ : Type) where
  call : Value F O → List (Value F O) → EStateM ε σ (Value F O)
  cmplt : Value F O → Value F O → EStateM ε σ (Value F O)

/-- `r.t == VL_BOOL && r.u.b`. -/
def Value.isTrue : Value F O → Bool
  | .bool b => b
  | _ => false

/-- `sort_less`, with the comparator or nil. -/
def sortLess (rt : SortCalls F O ε σ) (cmp a b : Value F O) : EStateM ε σ Bool := do
  match cmp with
  | .obj _ =>
    let r ← rt.call cmp [a, b]
    return r.isTrue
  | _ =>
    let r ← rt.cmplt a b
    return r.isTrue

section

variable (less : Value F O → Value F O → EStateM ε σ Bool)

/-- `while (i < mid && j < hi)`: the array, and where `i`, `j` and `k` stop. -/
def mergeLoop (a : Values F O) (mid hi i j k : Nat) (tmp : Values F O) :
    EStateM ε σ (Values F O × Nat × Nat × Nat) :=
  if _h : i < mid ∧ j < hi then do
    if ← less (a j) (a i) then
      mergeLoop a mid hi i (j + 1) (k + 1) (Function.update tmp k (a j))
    else
      mergeLoop a mid hi (i + 1) j (k + 1) (Function.update tmp k (a i))
  else
    pure (tmp, i, j, k)
termination_by (mid - i) + (hi - j)

/-- `while (i < end) tmp[k++] = a[i++]`: the array, and where `k` stops. -/
def copyLoop (a : Values F O) (stop i k : Nat) (tmp : Values F O) : Values F O × Nat :=
  if i < stop then copyLoop a stop (i + 1) (k + 1) (Function.update tmp k (a i)) else (tmp, k)
termination_by stop - i

/-- `for (int64_t x = lo; x < hi; x++) a[x] = tmp[x]`. -/
def backLoop (tmp : Values F O) (hi x : Nat) (a : Values F O) : Values F O :=
  if x < hi then backLoop tmp hi (x + 1) (Function.update a x (tmp x)) else a
termination_by hi - x

/-- `msort`: both arrays. -/
def msort (a tmp : Values F O) (lo hi : Nat) : EStateM ε σ (Values F O × Values F O) :=
  if _h : hi - lo < 2 then
    pure (a, tmp)
  else do
    let mid := lo + (hi - lo) / 2
    let (a, tmp) ← msort a tmp lo mid
    let (a, tmp) ← msort a tmp mid hi
    let (tmp, i, j, k) ← mergeLoop less a mid hi lo mid lo tmp
    let (tmp, k) := copyLoop a mid i k tmp
    let (tmp, _) := copyLoop a hi j k tmp
    return (backLoop tmp hi lo a, tmp)
termination_by hi - lo

end

/-- What user code can reach: the elements of the slice, and the rest. -/
structure SortState (F O W : Type) where
  e : List (Value F O)
  rest : W

/-- `n` values of an array, from the first one on. -/
def Values.list (a : Values F O) (lo n : Nat) : List (Value F O) := (List.range' lo n).map a

/-- `vl_sort_slice`. Beyond what is stored to them, the two arrays have what `vl_alloc` found. -/
def vlSortSlice {W : Type} (rt : SortCalls F O ε (SortState F O W)) (found : Values F O) (cmp : Value F O) :
    EStateM ε (SortState F O W) Unit := do
  let e := (← get).e
  let n := e.length
  if n < 2 then
    return
  let work : Values F O := fun i => e.getD i (found i)
  let (work, _) ← msort (sortLess rt cmp) work found 0 n
  modify fun s => if s.e.length = n then { s with e := work.list 0 n } else s

end Voila.Rt

/-!
What sorting a slice leaves (`sort_sound`).
-/

namespace Voila.Rt

variable {F O ε σ W : Type}

/-! ### Pieces of an array -/

namespace Values

theorem list_succ (a : Values F O) (lo n : Nat) : a.list lo (n + 1) = a lo :: a.list (lo + 1) n := rfl

@[simp] theorem list_zero (a : Values F O) (lo : Nat) : a.list lo 0 = [] := rfl

@[simp] theorem list_length (a : Values F O) (lo n : Nat) : (a.list lo n).length = n := by
  rw [list, length_map, length_range']

theorem list_append (a : Values F O) (lo m n : Nat) : a.list lo (m + n) = a.list lo m ++ a.list (lo + m) n := by
  rw [list, list, list, ← map_append, range'_append_1]

theorem list_congr {a b : Values F O} {lo n : Nat} (h : ∀ x, lo ≤ x → x < lo + n → a x = b x) :
    a.list lo n = b.list lo n := by
  refine map_congr_left fun x hx => ?_
  rw [mem_range'_1] at hx
  exact h x hx.1 hx.2

end Values

/-! ### The loops -/

/-- `copyLoop` writes the rest of the piece from `k` on. -/
theorem copyLoop_spec (a : Values F O) (stop i k : Nat) (tmp : Values F O) :
    (copyLoop a stop i k tmp).2 = k + (stop - i) ∧ (∀ x < k, (copyLoop a stop i k tmp).1 x = tmp x) ∧
      (copyLoop a stop i k tmp).1.list k (stop - i) = a.list i (stop - i) := by
  fun_induction copyLoop a stop i k tmp with
  | case1 i k tmp more ih =>
    obtain ⟨next, before, piece⟩ := ih
    have left : stop - i = stop - (i + 1) + 1 := by omega
    refine ⟨by omega, ?_, ?_⟩
    · intro x hx
      rw [before x (by omega), Function.update_of_ne (by omega)]
    · rw [left, Values.list_succ, Values.list_succ, piece, before k (by omega), Function.update_self]
  | case2 i k tmp done =>
    have none : stop - i = 0 := by omega
    rw [none]
    exact ⟨rfl, fun _ _ => rfl, rfl⟩

theorem backLoop_spec (tmp : Values F O) (hi lo : Nat) (a : Values F O) (x : Nat) :
    backLoop tmp hi lo a x = if lo ≤ x ∧ x < hi then tmp x else a x := by
  fun_induction backLoop tmp hi lo a with
  | case1 lo a more ih =>
    rw [ih]
    by_cases here : x = lo
    · subst here
      rw [if_neg (by omega), if_pos (by omega), Function.update_self]
    · rw [Function.update_of_ne here]
      split_ifs <;> first | rfl | omega
  | case2 lo a done => rw [if_neg (by omega)]

section

variable (less : Value F O → Value F O → EStateM ε σ Bool)

/-- Nothing is left to compare: the rest of each piece is copied. -/
theorem copies_agree {a tmp : Values F O} {mid hi i j k : Nat} (done : ¬(i < mid ∧ j < hi)) :
    Lib.Agrees (fun t l => (∀ x < k, t x = tmp x) ∧ t.list k ((mid - i) + (hi - j)) = l)
      (pure (copyLoop a hi j (copyLoop a mid i k tmp).2 (copyLoop a mid i k tmp).1).1)
      (Lib.mergeM less (a.list i (mid - i)) (a.list j (hi - j))) := by
  obtain ⟨next, before, piece⟩ := copyLoop_spec a mid i k tmp
  generalize copyLoop a mid i k tmp = first at next before piece ⊢
  obtain ⟨tmp₁, k₁⟩ := first
  subst next
  dsimp only at before piece
  obtain ⟨-, before', piece'⟩ := copyLoop_spec a hi j (k + (mid - i)) tmp₁
  have merged : Lib.mergeM less (a.list i (mid - i)) (a.list j (hi - j)) =
      pure (a.list i (mid - i) ++ a.list j (hi - j)) := by
    by_cases more : i < mid
    · have none : hi - j = 0 := by omega
      rw [none, Values.list_zero, Lib.mergeM_right, List.append_nil]
    · have none : mid - i = 0 := by omega
      rw [none, Values.list_zero, Lib.mergeM_nil, nil_append]
  rw [merged]
  refine Lib.Agrees.pure ⟨?_, ?_⟩
  · intro x hx
    rw [before' x (by omega), before x hx]
  · rw [Values.list_append, piece', ← piece]
    congr 1
    exact Values.list_congr fun x _ hx => before' x hx

variable {l : List (Value F O)}

/-- One value is put at `k`, and the rest from there on. -/
theorem merge_put {t tmp : Values F O} {k n m : Nat} {v : Value F O}
    (h : (∀ x < k + 1, t x = Function.update tmp k v x) ∧ t.list (k + 1) n = l) (one_more : m = n + 1) :
    (∀ x < k, t x = tmp x) ∧ t.list k m = v :: l := by
  obtain ⟨before, piece⟩ := h
  refine ⟨?_, ?_⟩
  · intro x hx
    rw [before x (by omega), Function.update_of_ne (by omega)]
  · rw [one_more, Values.list_succ, piece, before k (by omega), Function.update_self]

/-- The three loops: the merge of the two pieces is written from `k` on. -/
theorem merge_agrees (a : Values F O) (mid hi i j k : Nat) (tmp : Values F O) :
    Lib.Agrees (fun t l => (∀ x < k, t x = tmp x) ∧ t.list k ((mid - i) + (hi - j)) = l)
      (do
        let (tmp, i, j, k) ← mergeLoop less a mid hi i j k tmp
        let (tmp, k) := copyLoop a mid i k tmp
        let (tmp, _) := copyLoop a hi j k tmp
        return tmp)
      (Lib.mergeM less (a.list i (mid - i)) (a.list j (hi - j))) := by
  fun_induction mergeLoop less a mid hi i j k tmp with
  | case1 i j k tmp more ih₁ ih₂ =>
    have front : mid - i = mid - (i + 1) + 1 := by omega
    have back : hi - j = hi - (j + 1) + 1 := by omega
    rw [front, back, Values.list_succ, Values.list_succ, Lib.mergeM, bind_assoc]
    refine (Lib.Agrees.same _).bind fun second _ same => ?_
    subst same
    cases second with
    | true =>
      rw [if_pos rfl, if_pos rfl]
      rw [front, Values.list_succ] at ih₁
      refine ih₁.then_pure fun t l h => ?_
      exact merge_put h (by omega)
    | false =>
      rw [if_neg (by decide), if_neg (by decide)]
      rw [back, Values.list_succ] at ih₂
      refine ih₂.then_pure fun t l h => ?_
      exact merge_put h (by omega)
  | case2 i j k tmp done => exact copies_agree less done

/-- The piece from `lo` on is `l`, and nothing else is changed. -/
def Leaves (a : Values F O) (lo n : Nat) (p : Values F O × Values F O) (l : List (Value F O)) : Prop :=
  p.1.list lo n = l ∧ ∀ x, x < lo ∨ lo + n ≤ x → p.1 x = a x

theorem leaves_back {a a' t : Values F O} {lo hi n : Nat} (merged : t.list lo n = l)
    (stop : hi = lo + n) (kept : ∀ x, x < lo ∨ lo + n ≤ x → a' x = a x) :
    Leaves a lo n (backLoop t hi lo a', t) l := by
  refine ⟨?_, ?_⟩
  · rw [← merged]
    refine Values.list_congr fun x hlo hhi => ?_
    show backLoop t hi lo a' x = t x
    rw [backLoop_spec, if_pos (by omega)]
  · intro x outside
    show backLoop t hi lo a' x = a x
    rw [backLoop_spec, if_neg (by omega), kept x outside]

theorem msort_agrees (a tmp : Values F O) (lo hi : Nat) (h : lo ≤ hi) :
    Lib.Agrees (Leaves a lo (hi - lo)) (msort less a tmp lo hi) (Lib.sortM less (a.list lo (hi - lo))) := by
  fun_induction msort less a tmp lo hi with
  | case1 a tmp lo hi short =>
    rw [Lib.sortM, dif_pos (by rwa [Values.list_length])]
    exact Lib.Agrees.pure ⟨rfl, fun _ _ => rfl⟩
  | case2 a tmp lo hi long mid ih₁ ih₂ =>
    have half : mid = lo + (hi - lo) / 2 := rfl
    have first : mid - lo = (hi - lo) / 2 := by omega
    have both : hi - lo = (mid - lo) + (hi - mid) := by omega
    have split : a.list lo (hi - lo) = a.list lo (mid - lo) ++ a.list mid (hi - mid) := by
      rw [both, Values.list_append]
      congr 2
      omega
    rw [Lib.sortM, dif_neg (by rwa [Values.list_length]), Values.list_length, ← first, split,
      take_left' (Values.list_length ..), drop_left' (Values.list_length ..)]
    refine (ih₁ (by omega)).bind fun (a₁, tmp₁) xs ⟨piece₁, frame₁⟩ => ?_
    have second : a.list mid (hi - mid) = a₁.list mid (hi - mid) :=
      Values.list_congr fun x hx _ => (frame₁ x (by omega)).symm
    rw [second]
    refine (ih₂ a₁ tmp₁ (by omega)).bind fun (a₂, tmp₂) ys ⟨piece₂, frame₂⟩ => ?_
    have front : a₂.list lo (mid - lo) = xs := by
      rw [← piece₁]
      exact Values.list_congr fun x _ hx => frame₂ x (by omega)
    rw [← front, ← piece₂]
    have loops : Lib.Agrees (Leaves a lo ((mid - lo) + (hi - mid))) (_ >>= fun t => pure (backLoop t hi lo a₂, t)) _ :=
      (merge_agrees less a₂ mid hi lo mid lo tmp₂).pure_then fun t l ⟨_, merged⟩ =>
        leaves_back merged (by omega) fun x outside => (frame₂ x (by omega)).trans (frame₁ x (by omega))
    rw [bind_assoc, ← both] at loops
    exact loops

end

/-! ### The slice -/

theorem list_getD (e : List (Value F O)) (found : Values F O) :
    Values.list (fun i => e.getD i (found i)) 0 e.length = e := by
  refine ext_getElem (Values.list_length ..) fun i _ hi => ?_
  simp [Values.list, hi]

/-- What is stored back. -/
def store (n : Nat) (e : List (Value F O)) (s : SortState F O W) : SortState F O W :=
  if s.e.length = n then { s with e } else s

variable {n : Nat} {e : List (Value F O)} {s s' : SortState F O W} {cmp : Value F O}
  {rt : SortCalls F O ε (SortState F O W)}

theorem store_same (h : s.e.length = n) : store n e s = { s with e } := if_pos h

theorem store_other (h : s.e.length ≠ n) : store n e s = s :=
  if_neg h

/-- The slice is sorted as the list of its elements is, and stored back. -/
theorem vlSortSlice_eq (rt : SortCalls F O ε (SortState F O W)) (found : Values F O) (cmp : Value F O)
    (e : List (Value F O)) (w : W) :
    vlSortSlice rt found cmp ⟨e, w⟩ = match Lib.sortM (sortLess rt cmp) e ⟨e, w⟩ with
      | .ok e' s => .ok () (store e.length e' s)
      | .error x s => .error x s := by
  unfold vlSortSlice
  rw [Lib.bind_at]
  show (if e.length < 2 then _ else _ : EStateM ε (SortState F O W) Unit) _ = _
  by_cases short : e.length < 2
  · rw [if_pos short, Lib.sortM, dif_pos short]
    exact congrArg (EStateM.Result.ok ()) (store_same (s := ⟨e, w⟩) rfl).symm
  · have go := msort_agrees (sortLess rt cmp) (fun i => e.getD i (found i)) found 0 e.length (Nat.zero_le _) ⟨e, w⟩
    rw [Nat.sub_zero, list_getD] at go
    rw [if_neg short, Lib.bind_at]
    dsimp only
    generalize msort _ _ _ _ _ _ = r, Lib.sortM _ _ _ = r' at go ⊢
    cases go with
    | ok leaves =>
      obtain ⟨rfl, -⟩ := leaves
      rfl
    | error => rfl

/-- On the elements of `e` the comparator answers by `lt`, and leaves the slice as it is. -/
def Answers (rt : SortCalls F O ε (SortState F O W)) (cmp : Value F O) (lt : Value F O → Value F O → Bool)
    (e : List (Value F O)) : Prop :=
  ∀ a ∈ e, ∀ b ∈ e, Lib.Yields (fun s => s.e = e) (sortLess rt cmp a b) (lt a b)

theorem sorted_by {lt : Value F O → Value F O → Bool}
    (found : Values F O) (w : W) (order : Lib.StrictWeakOn lt e) (answers : Answers rt cmp lt e) :
    ∃ e' w', vlSortSlice rt found cmp ⟨e, w⟩ = .ok () ⟨e', w'⟩ ∧ Lib.StableSort lt e e' := by
  obtain ⟨e', sort, yields⟩ := Lib.sortM_yields order answers
  obtain ⟨s, ends, same⟩ := yields ⟨e, w⟩ rfl
  refine ⟨e', s.rest, ?_, sort⟩
  rw [vlSortSlice_eq, ends]
  dsimp only
  rw [store_same (by rw [same])]

/-- The states that the calls of the comparator lead to, one after the other. -/
abbrev Comes (rt : SortCalls F O ε (SortState F O W)) (cmp : Value F O) (e : List (Value F O)) :
    SortState F O W → SortState F O W → Prop :=
  Relation.ReflTransGen (Lib.Returns (sortLess rt cmp) e)

/-- No call of the comparator changes the slice, also none that throws. -/
def LeavesSlice (rt : SortCalls F O ε (SortState F O W)) (cmp : Value F O) (e : List (Value F O)) : Prop :=
  ∀ s s', Lib.Returns (sortLess rt cmp) e s s' ∨ (∃ x, Lib.Throws (sortLess rt cmp) e s x s') → s'.e = s.e

theorem comes_kept (leaves : LeavesSlice rt cmp e) (h : Comes rt cmp e s s') : s'.e = s.e := by
  induction h with
  | refl => rfl
  | tail _ call ih => exact (leaves _ _ (.inl call)).trans ih

theorem sorted_whatever (rt : SortCalls F O ε (SortState F O W)) (found : Values F O) (cmp : Value F O)
    (e : List (Value F O)) (w : W) :
    ∃ s, Comes rt cmp e ⟨e, w⟩ s ∧
      ((s.e.length = e.length ∧ ∃ e', e'.Perm e ∧ vlSortSlice rt found cmp ⟨e, w⟩ = .ok () { s with e := e' }) ∨
        (s.e.length ≠ e.length ∧ vlSortSlice rt found cmp ⟨e, w⟩ = .ok () s) ∨
        ∃ x s', Lib.Throws (sortLess rt cmp) e s x s' ∧ vlSortSlice rt found cmp ⟨e, w⟩ = .error x s') := by
  have within := Lib.sortM_within (sortLess rt cmp) fun a (ha : a ∈ e) => ha
  rw [vlSortSlice_eq]
  cases ends : Lib.sortM (sortLess rt cmp) e ⟨e, w⟩ with
  | ok e' s =>
    obtain ⟨comes, perm⟩ := within.ok _ _ _ ends
    refine ⟨s, comes, ?_⟩
    by_cases same : s.e.length = e.length
    · exact .inl ⟨same, e', perm, congrArg _ (store_same same)⟩
    · exact .inr (.inl ⟨same, congrArg _ (store_other same)⟩)
  | error x s' =>
    obtain ⟨s, comes, thrown⟩ := within.error _ _ _ ends
    exact ⟨s, comes, .inr (.inr ⟨x, s', thrown, rfl⟩)⟩

theorem thrown_kept (found : Values F O) (w : W) (leaves : LeavesSlice rt cmp e) {x : ε}
    (ends : vlSortSlice rt found cmp ⟨e, w⟩ = .error x s') : s'.e = e := by
  obtain ⟨s, comes, ⟨_, e', _, ok⟩ | ⟨_, ok⟩ | ⟨y, s'', thrown, ends'⟩⟩ := sorted_whatever rt found cmp e w
  · rw [ok] at ends
    cases ends
  · rw [ok] at ends
    cases ends
  · rw [ends'] at ends
    cases ends
    exact (leaves _ _ (.inr ⟨_, thrown⟩)).trans (comes_kept leaves comes)

/-- A comparator that answers by a strict weak order and leaves the slice alone: the slice is stably sorted, and there
is one way only to be so. Any comparator: the slice has its elements, permuted, if it has the length it had when the
comparisons are done, and else stays as they leave it, as it does if one of them throws. -/
theorem sort_sound (rt : SortCalls F O ε (SortState F O W)) (found : Values F O) (cmp : Value F O)
    (e : List (Value F O)) (w : W) :
    (∀ lt, Lib.StrictWeakOn lt e → Answers rt cmp lt e →
      ∃ e' w', vlSortSlice rt found cmp ⟨e, w⟩ = .ok () ⟨e', w'⟩ ∧ Lib.StableSort lt e e' ∧
        ∀ e'', Lib.StableSort lt e e'' → e'' = e') ∧
    (∃ s, Comes rt cmp e ⟨e, w⟩ s ∧
      ((s.e.length = e.length ∧ ∃ e', e'.Perm e ∧ vlSortSlice rt found cmp ⟨e, w⟩ = .ok () { s with e := e' }) ∨
        (s.e.length ≠ e.length ∧ vlSortSlice rt found cmp ⟨e, w⟩ = .ok () s) ∨
        ∃ x s', Lib.Throws (sortLess rt cmp) e s x s' ∧ vlSortSlice rt found cmp ⟨e, w⟩ = .error x s')) ∧
    (LeavesSlice rt cmp e → ∀ x s', vlSortSlice rt found cmp ⟨e, w⟩ = .error x s' → s'.e = e) := by
  refine ⟨?_, sorted_whatever rt found cmp e w, fun leaves x s' => thrown_kept found w leaves⟩
  intro lt order answers
  obtain ⟨e', w', ends, sort⟩ := sorted_by found w order answers
  exact ⟨e', w', ends, sort, fun e'' sort' => sort'.unique order sort⟩

/-- By the tens. -/
def tensLess : Value Empty Empty → Value Empty Empty → Bool
  | .int a, .int b => a / 10 < b / 10
  | _, _ => false

def tensCalls : SortCalls Empty Empty Unit (SortState Empty Empty Unit) where
  call f _ := pure f
  cmplt a b := pure (.bool (tensLess a b))

theorem sort_sound_tens :
    vlSortSlice tensCalls (fun _ => .nil) .nil ⟨[.int 21, .int 13, .int 22], ()⟩ =
      .ok () ⟨[.int 13, .int 21, .int 22], ()⟩ := by
  have order : Lib.StrictWeakOn tensLess [.int 21, .int 13, .int 22] := ⟨by decide, by decide, by decide⟩
  have answers : Answers tensCalls .nil tensLess [.int 21, .int 13, .int 22] := fun a _ b _ s hs => ⟨s, rfl, hs⟩
  obtain ⟨e', w', ends, sort, unique⟩ := (sort_sound tensCalls (fun _ => .nil) .nil _ ()).1 _ order answers
  have expected : Lib.StableSort tensLess [.int 21, .int 13, .int 22] [.int 13, .int 21, .int 22] := by
    refine ⟨List.Perm.swap .., by decide, ?_⟩
    intro a ha
    simp only [mem_cons, not_mem_nil, or_false] at ha
    rcases ha with rfl | rfl | rfl <;> rfl
  rw [ends, ← unique _ expected]

end Voila.Rt
