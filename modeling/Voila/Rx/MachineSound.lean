import Voila.Lib.DepthFirst
import Voila.Rx.Machine

/-!
# Voila.Rx.MachineSound

The machine gives the captures of a depth-first search that backtracks (`rxSearch_backtracks`).

Positions only grow along a thread, so what the depth-first search does at later positions does not
touch its marks at this one. A list of threads at a position is therefore searched in depth by
searching, in depth, the list of threads at the next position that its threads step to, and this is
what `rx_search` goes through position by position.
-/

open List

namespace Voila.Rx

open Voila.Rt (Bytes)
open Voila.Lib (Explores Verdict)

/-! ### The depth-first search -/

/-- An instruction at a position. -/
abbrev Place := Nat × Nat

/-- What follows a pair: the `x` branch of a split comes before its `y` branch. -/
def branches (prog : Prog) (input : Bytes) (n : Place) (cap : Caps) : List (Place × Caps) :=
  match prog[n.1]? with
  | some (.jmp x) => [((x, n.2), cap)]
  | some (.split x y) => [((x, n.2), cap), ((y, n.2), cap)]
  | some (.save slot) => [((n.1 + 1, n.2), cap.set slot (toInt n.2))]
  | some .bol => if n.2 = 0 then [((n.1 + 1, n.2), cap)] else []
  | some .eol => if n.2 = input.length then [((n.1 + 1, n.2), cap)] else []
  | _ => if consume prog n.1 input[n.2]? then [((n.1 + 1, n.2 + 1), cap)] else []

def IsDone (prog : Prog) (n : Place) : Prop := prog[n.1]? = some .done

/-- The starting positions, in increasing order. -/
def starts (ncap : Nat) (input : Bytes) (start : Nat) : List (Place × Caps) :=
  (List.range' start (input.length + 1 - start)).map fun i => ((0, i), List.replicate ncap (-1))

/-- How the search of a stack ends. -/
def Ends (prog : Prog) (input : Bytes) (visited : Set Place) (stack : List (Place × Caps)) :
    Option Caps → Prop
  | some cap => Explores (IsDone prog) (branches prog input) visited stack (.found cap)
  | none => ∃ visited', Explores (IsDone prog) (branches prog input) visited stack (.left visited')

/-- The depth-first search over pairs of an instruction and a position, from `start` on. -/
def Backtracks (prog : Prog) (ncap : Nat) (input : Bytes) (start : Nat) (r : Option Caps) : Prop :=
  Ends prog input ∅ (starts ncap input start) r

variable {prog : Prog} {input : Bytes}

variable {cap : Caps} {p pc ncap sp : Nat} {deep : Set Place} {l l' : TList}
  {ts : List (Nat × Caps)} {rest : Bytes} {r : Option Caps}

theorem branches_later {n : Place} {e : Place × Caps} (h : e ∈ branches prog input n cap) :
    n.2 ≤ e.1.2 := by
  unfold branches at h
  split at h
  · simp only [mem_singleton] at h
    rw [h]
  · simp only [mem_cons, not_mem_nil, or_false] at h
    rcases h with h | h <;> rw [h]
  · simp only [mem_singleton] at h
    rw [h]
  · split at h
    · simp only [mem_singleton] at h
      rw [h]
    · exact absurd h not_mem_nil
  · split at h
    · simp only [mem_singleton] at h
      rw [h]
    · exact absurd h not_mem_nil
  · split at h
    · simp only [mem_singleton] at h
      rw [h]
      exact Nat.le_succ _
    · exact absurd h not_mem_nil

/-- The places behind a position. -/
def behind (p : Nat) : Set Place := {n | p < n.2}

theorem behind_stays (p : Nat) (n : Place) (cap : Caps) (h : n ∈ behind p) :
    ∀ e ∈ branches prog input n cap, e.1 ∈ behind p :=
  fun _ he => Nat.lt_of_lt_of_le h (branches_later he)

/-- The marks of a list of threads at a position. -/
def marks (p : Nat) (seen : List Nat) : Set Place := {n | n.2 = p ∧ n.1 ∈ seen}

theorem marks_nil (p : Nat) : marks p [] = ∅ := by
  ext n
  simp [marks]

theorem marks_cons (p pc : Nat) (seen : List Nat) :
    marks p (pc :: seen) = insert (pc, p) (marks p seen) := by
  ext n
  obtain ⟨x, q⟩ := n
  simp only [marks, Set.mem_ofPred_eq, mem_cons, Set.mem_insert_iff, Prod.mk.injEq]
  constructor
  · rintro ⟨hq, hx | hx⟩
    · exact .inl ⟨hx, hq⟩
    · exact .inr ⟨hq, hx⟩
  · rintro (⟨hx, hq⟩ | ⟨hq, hx⟩)
    · exact ⟨hq, .inl hx⟩
    · exact ⟨hq, .inr hx⟩

theorem marks_apart (p : Nat) (seen : List Nat) : ∀ n ∈ behind p, n ∉ marks p seen := by
  intro n hn hm
  have later : p < n.2 := hn
  have here : n.2 = p := hm.1
  omega

/-- The entries of threads at a position are searched in depth, one after the other. -/
inductive Follows (prog : Prog) (input : Bytes) (p : Nat) :
    Set Place → List (Nat × Caps) → Verdict Place Caps → Prop
  | nil (deep : Set Place) : Follows prog input p deep [] (.left deep)
  /-- A thread that is done. -/
  | done {deep : Set Place} {pc : Nat} {cap : Caps} (ts : List (Nat × Caps)) :
      prog[pc]? = some .done → Follows prog input p deep ((pc, cap) :: ts) (.found cap)
  /-- A thread that comes to a match later. -/
  | found {deep : Set Place} {pc : Nat} {cap c : Caps} (ts : List (Nat × Caps)) :
      prog[pc]? ≠ some .done →
      Explores (IsDone prog) (branches prog input) deep (branches prog input (pc, p) cap) (.found c) →
      Follows prog input p deep ((pc, cap) :: ts) (.found c)
  /-- A thread that does not. -/
  | step {deep deep' : Set Place} {pc : Nat} {cap : Caps} {ts : List (Nat × Caps)} {o : Verdict Place Caps} :
      prog[pc]? ≠ some .done →
      Explores (IsDone prog) (branches prog input) deep (branches prog input (pc, p) cap) (.left deep') →
      Follows prog input p deep' ts o → Follows prog input p deep ((pc, cap) :: ts) o

theorem Follows.split {ts us : List (Nat × Caps)} {o : Verdict Place Caps}
    (h : Follows prog input p deep (ts ++ us) o) :
    (∃ c, o = .found c ∧ Follows prog input p deep ts (.found c)) ∨
      ∃ deep', Follows prog input p deep ts (.left deep') ∧ Follows prog input p deep' us o := by
  induction ts generalizing deep with
  | nil => exact .inr ⟨deep, .nil deep, h⟩
  | cons t ts ih =>
    cases h with
    | done _ isDone => exact .inl ⟨_, rfl, .done ts isDone⟩
    | found _ notDone later => exact .inl ⟨_, rfl, .found ts notDone later⟩
    | step notDone later rest =>
      obtain ⟨c, rfl, first⟩ | ⟨deep', first, second⟩ := ih rest
      · exact .inl ⟨c, rfl, .step notDone later first⟩
      · exact .inr ⟨deep', .step notDone later first, second⟩

/-- A thread that waits for a byte, or is done. -/
def Waits (prog : Prog) (pc : Nat) : Prop :=
  prog[pc]? = some .done ∨ (∃ c, prog[pc]? = some (.char c)) ∨ ∃ set, prog[pc]? = some (.cls set)

theorem Waits.branches {pc : Nat} (h : Waits prog pc) (notDone : prog[pc]? ≠ some .done) (p : Nat)
    (cap : Caps) : branches prog input (pc, p) cap =
      if consume prog pc input[p]? then [((pc + 1, p + 1), cap)] else [] := by
  unfold Voila.Rx.branches
  rcases h with h | ⟨c, h⟩ | ⟨set, h⟩
  · exact absurd h notDone
  · rw [h]
  · rw [h]

theorem Waits.later (h : Waits prog pc) (p : Nat) (cap : Caps) :
    ∀ e ∈ Voila.Rx.branches prog input (pc, p) cap, e.1 ∈ behind p := by
  intro e he
  by_cases notDone : prog[pc]? = some .done
  · unfold Voila.Rx.branches consume at he
    rw [notDone] at he
    simp at he
  · rw [h.branches notDone] at he
    split at he
    · rw [mem_singleton.mp he]
      exact Nat.lt_succ_self p
    · exact absurd he not_mem_nil

theorem Follows.inside {p : Nat} {deep deep' : Set Place} {ts : List (Nat × Caps)}
    (h : Follows prog input p deep ts (.left deep')) (waits : ∀ t ∈ ts, Waits prog t.1)
    (before : deep ⊆ behind p) : deep' ⊆ behind p := by
  generalize left : Verdict.left deep' = o at h
  induction h with
  | nil deep =>
    obtain rfl := Verdict.left.inj left
    exact before
  | done => exact absurd left nofun
  | found => exact absurd left nofun
  | step notDone later _ ih =>
    have first := waits _ mem_cons_self
    refine ih (fun t ht => waits t (mem_cons_of_mem _ ht)) ?_ left
    exact later.inside (behind_stays p) before (first.later p _)

/-! ### The closure -/

/-- How many instructions are not marked. -/
def unmarked (prog : Prog) (seen : List Nat) : Nat :=
  ((Finset.range prog.length).filter (· ∉ seen)).card

theorem unmarked_le (prog : Prog) (seen : List Nat) : unmarked prog seen ≤ prog.length :=
  (Finset.card_filter_le _ _).trans (by rw [Finset.card_range])

theorem unmarked_mono {seen seen' : List Nat} (h : seen ⊆ seen') :
    unmarked prog seen' ≤ unmarked prog seen := by
  refine Finset.card_le_card fun pc hpc => ?_
  rw [Finset.mem_filter] at hpc ⊢
  exact ⟨hpc.1, fun hm => hpc.2 (h hm)⟩

theorem unmarked_cons {seen : List Nat} (unseen : pc ∉ seen) (inside : pc < prog.length) :
    unmarked prog (pc :: seen) < unmarked prog seen := by
  refine Finset.card_lt_card (Finset.ssubset_iff_subset_ne.mpr ⟨fun x hx => ?_, fun same => ?_⟩)
  · rw [Finset.mem_filter] at hx ⊢
    exact ⟨hx.1, fun hm => hx.2 (mem_cons_of_mem _ hm)⟩
  · have here : pc ∈ (Finset.range prog.length).filter (· ∉ seen) :=
      Finset.mem_filter.mpr ⟨Finset.mem_range.mpr inside, unseen⟩
    rw [← same] at here
    exact (Finset.mem_filter.mp here).2 mem_cons_self

/-- What `addthread` adds to a list: threads that wait, which are what the depth-first search of the
root comes to at this position, and the marks that it leaves here. -/
def Adds (prog : Prog) (input : Bytes) (p : Nat) (l l' : TList) (roots : List (Nat × Caps)) : Prop :=
  ∃ ts, l'.dense = l.dense ++ ts ∧ l.seen ⊆ l'.seen ∧ (∀ t ∈ ts, Waits prog t.1) ∧
    ∀ deep ⊆ behind p, ∀ o, Follows prog input p deep ts o →
      Explores (IsDone prog) (branches prog input) (deep ∪ marks p l.seen)
        (roots.map fun t => ((t.1, p), t.2)) (o.more (marks p l'.seen))

theorem Adds.nil (p : Nat) (l : TList) : Adds prog input p l l [] := by
  refine ⟨[], (append_nil _).symm, fun _ h => h, nofun, fun deep _ o follows => ?_⟩
  cases follows
  exact .nil _

theorem Adds.waits {p : Nat} {l l' : TList} {roots : List (Nat × Caps)} (h : Adds prog input p l l' roots)
    (waits : ∀ t ∈ l.dense, Waits prog t.1) : ∀ t ∈ l'.dense, Waits prog t.1 := by
  obtain ⟨ts, dense, -, added, -⟩ := h
  rw [dense]
  intro t ht
  cases mem_append.mp ht with
  | inl ht => exact waits t ht
  | inr ht => exact added t ht

theorem Adds.append {p : Nat} {l l₁ l₂ : TList} {roots more : List (Nat × Caps)}
    (h : Adds prog input p l l₁ roots) (h' : Adds prog input p l₁ l₂ more) :
    Adds prog input p l l₂ (roots ++ more) := by
  obtain ⟨ts, dense, grows, waits, explores⟩ := h
  obtain ⟨us, dense', grows', waits', explores'⟩ := h'
  refine ⟨ts ++ us, by rw [dense', dense, append_assoc], fun _ hm => grows' (grows hm),
    fun t ht => ?_, fun deep hdeep o follows => ?_⟩
  · cases mem_append.mp ht with
    | inl ht => exact waits t ht
    | inr ht => exact waits' t ht
  · rw [map_append]
    obtain ⟨c, rfl, first⟩ | ⟨deep', first, second⟩ := follows.split
    · exact (explores deep hdeep _ first).append _
    · exact (explores deep hdeep _ first).append _ _
        (explores' deep' (first.inside waits hdeep) o second)

/-- A root that was visited before. -/
theorem Adds.seen {p : Nat} {l : TList} {pc : Nat} (seen : pc ∈ l.seen) (cap : Caps) :
    Adds prog input p l l [(pc, cap)] := by
  refine ⟨[], (append_nil _).symm, fun _ h => h, nofun, fun deep _ o follows => ?_⟩
  cases follows
  exact .visited (.inr ⟨rfl, seen⟩) (.nil _)

theorem unseen_place {seen : List Nat} (unseen : pc ∉ seen)
    (hdeep : deep ⊆ behind p) : (pc, p) ∉ deep ∪ marks p seen := by
  intro h
  cases h with
  | inl h => exact absurd (hdeep h) (Nat.lt_irrefl p)
  | inr h => exact unseen h.2

/-- A root that is visited now, and whose branches stay at the position. -/
theorem Adds.visit {roots : List (Nat × Caps)}
    (unseen : pc ∉ l.seen) (notDone : prog[pc]? ≠ some .done)
    (follow : branches prog input (pc, p) cap = roots.map fun t => ((t.1, p), t.2))
    (h : Adds prog input p ⟨l.dense, pc :: l.seen⟩ l' roots) : Adds prog input p l l' [(pc, cap)] := by
  obtain ⟨ts, dense, grows, waits, explores⟩ := h
  refine ⟨ts, dense, fun _ hm => grows (mem_cons_of_mem _ hm), waits, fun deep hdeep o follows => ?_⟩
  refine .node (unseen_place unseen hdeep) notDone ?_
  rw [← Set.union_insert, ← marks_cons, map_nil, append_nil, follow]
  exact explores deep hdeep o follows

/-- A root that waits takes a slot. -/
theorem Adds.slot (unseen : pc ∉ l.seen) (waits : Waits prog pc)
    (cap : Caps) : Adds prog input p l ⟨l.dense ++ [(pc, cap)], pc :: l.seen⟩ [(pc, cap)] := by
  refine ⟨[(pc, cap)], rfl, fun _ hm => mem_cons_of_mem _ hm, ?_, fun deep hdeep o follows => ?_⟩
  · intro t ht
    rw [mem_singleton.mp ht]
    exact waits
  · have fresh := unseen_place unseen hdeep
    have later {o : Verdict Place Caps} (h : Explores (IsDone prog) (branches prog input) deep
        (branches prog input (pc, p) cap) o) :
        Explores (IsDone prog) (branches prog input) (insert (pc, p) (deep ∪ marks p l.seen))
          (branches prog input (pc, p) cap ++ []) (o.more (marks p (pc :: l.seen))) := by
      rw [← Set.union_insert, ← marks_cons, append_nil]
      exact h.frame (behind_stays p) (marks_apart p _) (waits.later p cap)
    cases follows with
    | done _ isDone => exact .goal _ fresh isDone
    | found _ notDone h => exact .node fresh notDone (later h)
    | step notDone h rest =>
      cases rest
      exact .node fresh notDone (later h)

theorem addThread_adds {p n : Nat} (fuel : unmarked prog l.seen < n) (pc : Nat) (cap : Caps) :
    Adds prog input p l (addThread prog input.length p n l pc cap) [(pc, cap)] := by
  induction n generalizing l pc cap with
  | zero => omega
  | succ n ih =>
    rw [addThread]
    by_cases seen : pc ∈ l.seen
    · rw [if_pos seen]
      exact .seen seen cap
    · rw [if_neg seen]
      dsimp only
      have visit {l' : TList} {roots : List (Nat × Caps)} (notDone : prog[pc]? ≠ some .done)
          (follow : branches prog input (pc, p) cap = roots.map fun t => ((t.1, p), t.2))
          (h : Adds prog input p ⟨l.dense, pc :: l.seen⟩ l' roots) :
          Adds prog input p l l' [(pc, cap)] := h.visit seen notDone follow
      cases hi : prog[pc]? with
      | none =>
        refine visit (by rw [hi]; simp) ?_ (.nil p _)
        simp only [branches, consume, hi]
        rfl
      | some i =>
        have inside : pc < prog.length := (List.getElem?_eq_some_iff.mp hi).1
        have less : unmarked prog (pc :: l.seen) < n := by
          have := unmarked_cons seen inside
          omega
        have deeper (x : Nat) (c : Caps) := ih (l := ⟨l.dense, pc :: l.seen⟩) less x c
        cases i with
        | char c => exact .slot seen (.inr (.inl ⟨c, hi⟩)) cap
        | cls set => exact .slot seen (.inr (.inr ⟨set, hi⟩)) cap
        | done => exact .slot seen (.inl hi) cap
        | jmp x =>
          refine visit (by rw [hi]; simp) ?_ (deeper x cap)
          simp only [branches, hi]
          rfl
        | split x y =>
          have first := deeper x cap
          have more : unmarked prog (addThread prog input.length p n ⟨l.dense, pc :: l.seen⟩ x cap).seen
              < n := by
            obtain ⟨_, _, grows, _⟩ := first
            exact Nat.lt_of_le_of_lt (unmarked_mono grows) less
          refine visit (by rw [hi]; simp) ?_ (first.append (ih more y cap))
          simp only [branches, hi]
          rfl
        | save slot =>
          refine visit (by rw [hi]; simp) ?_ (deeper (pc + 1) (cap.set slot (toInt p)))
          simp only [branches, hi]
          rfl
        | bol =>
          by_cases here : p = 0
          · refine visit (by rw [hi]; simp) ?_ (by rw [if_pos here]; exact deeper (pc + 1) cap)
            simp only [branches, hi, if_pos here]
            rfl
          · refine visit (by rw [hi]; simp) ?_ (by rw [if_neg here]; exact .nil p _)
            simp only [branches, hi, if_neg here]
            rfl
        | eol =>
          by_cases here : p = input.length
          · refine visit (by rw [hi]; simp) ?_ (by rw [if_pos here]; exact deeper (pc + 1) cap)
            simp only [branches, hi, if_pos here]
            rfl
          · refine visit (by rw [hi]; simp) ?_ (by rw [if_neg here]; exact .nil p _)
            simp only [branches, hi, if_neg here]
            rfl

theorem add_adds (p : Nat) (l : TList) (pc : Nat) (cap : Caps) :
    Adds prog input p l (l.add prog input.length p pc cap) [(pc, cap)] :=
  addThread_adds (Nat.lt_succ_of_le ((unmarked_le prog l.seen).trans (Nat.le_succ _))) pc cap

/-! ### One position -/

/-- How a list of threads ends when the search of those that it steps to ends so, and it has found a
match itself. -/
def cutBy (found : Option Caps) (seen : Set Place) : Verdict Place Caps → Verdict Place Caps
  | .found c => .found c
  | .left deep =>
    match found with
    | some c => .found c
    | none => .left (deep ∪ seen)

/-- The threads of a position are searched by searching those that they step to. -/
theorem stepThreads_steps (waits : ∀ t ∈ ts, Waits prog t.1) {found : Option Caps}
    (h : stepThreads prog input.length p input[p]? ts l = (l', found)) :
    ∃ us, l'.dense = l.dense ++ us ∧ (∀ t ∈ us, Waits prog t.1) ∧
      ∀ deep ⊆ behind (p + 1), ∀ o, Follows prog input (p + 1) deep us o →
        Follows prog input p (deep ∪ marks (p + 1) l.seen) ts (cutBy found (marks (p + 1) l'.seen) o) := by
  induction ts generalizing l with
  | nil =>
    cases h
    refine ⟨[], (append_nil _).symm, nofun, fun deep _ o follows => ?_⟩
    cases follows
    exact .nil _
  | cons t ts ih =>
    obtain ⟨pc, cap⟩ := t
    have first : Waits prog pc := waits (pc, cap) mem_cons_self
    have rest : ∀ t ∈ ts, Waits prog t.1 := fun t ht => waits t (mem_cons_of_mem _ ht)
    by_cases isDone : prog[pc]? = some .done
    · rw [stepThreads, isDone] at h
      cases h
      refine ⟨[], (append_nil _).symm, nofun, fun deep _ o follows => ?_⟩
      cases follows
      exact .done ts isDone
    · have h' : (if consume prog pc input[p]? then
          stepThreads prog input.length p input[p]? ts (l.add prog input.length (p + 1) (pc + 1) cap)
          else stepThreads prog input.length p input[p]? ts l) = (l', found) := by
        rw [stepThreads] at h
        rcases first with hi | ⟨c, hi⟩ | ⟨set, hi⟩
        · exact absurd hi isDone
        · rw [hi] at h
          exact h
        · rw [hi] at h
          exact h
      have follow : branches prog input (pc, p) cap =
          if consume prog pc input[p]? then [((pc + 1, p + 1), cap)] else [] :=
        first.branches isDone p cap
      cases hc : consume prog pc input[p]? with
      | false =>
        rw [hc, if_neg (by simp)] at h' follow
        obtain ⟨us, dense, waits', steps⟩ := ih rest h'
        refine ⟨us, dense, waits', fun deep hdeep o follows => ?_⟩
        exact .step isDone (by rw [follow]; exact .nil _) (steps deep hdeep o follows)
      | true =>
        rw [hc, if_pos rfl] at h' follow
        have adds : Adds prog input (p + 1) l _ [(pc + 1, cap)] := add_adds (p + 1) l (pc + 1) cap
        obtain ⟨us, dense, -, waits₁, explores⟩ := adds
        obtain ⟨vs, dense', waits₂, steps⟩ := ih rest h'
        refine ⟨us ++ vs, by rw [dense', dense, append_assoc], fun t ht => ?_,
          fun deep hdeep o follows => ?_⟩
        · cases mem_append.mp ht with
          | inl ht => exact waits₁ t ht
          | inr ht => exact waits₂ t ht
        · obtain ⟨c, rfl, found₁⟩ | ⟨deep', left₁, later⟩ := follows.split
          · exact .found ts isDone (by rw [follow]; exact explores deep hdeep _ found₁)
          · have hdeep' := left₁.inside waits₁ hdeep
            exact .step isDone (by rw [follow]; exact explores deep hdeep _ left₁)
              (steps deep' hdeep' o later)

/-- No thread steps at the end of the subject. -/
theorem stepThreads_end {found : Option Caps}
    (h : stepThreads prog input.length p none ts l = (l', found)) : l' = l := by
  induction ts with
  | nil => exact (Prod.mk.inj h).1.symm
  | cons t ts ih =>
    obtain ⟨pc, cap⟩ := t
    have stuck : consume prog pc none = false := by
      unfold consume
      split
      · rename_i hn
        exact absurd hn nofun
      · rename_i hn
        exact absurd hn nofun
      · rfl
    rw [stepThreads, stuck] at h
    split at h
    · exact (Prod.mk.inj h).1.symm
    · exact ih h

/-! ### The whole search -/

/-- A turn of the loop, from the threads of one position to those of the next. -/
theorem turn {p : Nat} {ts : List (Nat × Caps)} (waits : ∀ t ∈ ts, Waits prog t.1) {l : TList}
    {found : Option Caps}
    (h : stepThreads prog input.length p input[p]? ts TList.clear = (l, found)) :
    (∀ t ∈ l.dense, Waits prog t.1) ∧ ∀ o, Follows prog input (p + 1) ∅ l.dense o →
      Follows prog input p ∅ ts (cutBy found (marks (p + 1) l.seen) o) := by
  obtain ⟨us, dense, waits', steps⟩ := stepThreads_steps waits h
  obtain rfl : l.dense = us := dense
  refine ⟨waits', fun o follows => ?_⟩
  have here := steps ∅ (Set.empty_subset _) o follows
  have bare : (∅ : Set Place) ∪ marks (p + 1) TList.clear.seen = ∅ := by
    rw [Set.empty_union]
    exact marks_nil (p + 1)
  rwa [bare] at here

theorem searchLoop_eq (ncap len sp : Nat) (rest : Bytes) (l : TList) (out : Option Caps) :
    searchLoop prog ncap len sp rest l out =
      let l := if out = none then l.add prog len sp 0 (List.replicate ncap (-1)) else l
      if l.dense = [] ∧ out ≠ none then out
      else
        let next := stepThreads prog len sp rest.head? l.dense TList.clear
        match rest with
        | [] => next.2.or out
        | _ :: rest => searchLoop prog ncap len (sp + 1) rest next.1 (next.2.or out) := by
  cases rest <;> rfl

theorem head?_drop (input : Bytes) (sp : Nat) : (input.drop sp).head? = input[sp]? :=
  List.head?_drop

/-- With a match: the threads of a list are searched, and the match stands if they come to none. -/
theorem searchLoop_matched (hrest : input.drop sp = rest)
    (waits : ∀ t ∈ l.dense, Waits prog t.1) (m : Caps) :
    (∃ c, Follows prog input sp ∅ l.dense (.found c) ∧
      searchLoop prog ncap input.length sp rest l (some m) = some c) ∨
    ∃ deep, Follows prog input sp ∅ l.dense (.left deep) ∧
      searchLoop prog ncap input.length sp rest l (some m) = some m := by
  induction rest generalizing sp l m with
  | nil =>
    rw [searchLoop_eq]
    dsimp only
    rw [if_neg (Option.some_ne_none m)]
    by_cases none_left : l.dense = []
    · rw [if_pos ⟨none_left, Option.some_ne_none m⟩, none_left]
      exact .inr ⟨∅, .nil ∅, rfl⟩
    · rw [if_neg fun h => none_left h.1]
      cases ht : stepThreads prog input.length sp (([] : Bytes).head?) l.dense TList.clear with
      | mk next found =>
        have ended : next = TList.clear := stepThreads_end ht
        rw [← hrest, head?_drop] at ht
        have here := (turn waits ht).2 (.left ∅) (by rw [ended]; exact .nil ∅)
        cases found with
        | some c => exact .inl ⟨c, here, rfl⟩
        | none => exact .inr ⟨_, here, rfl⟩
  | cons b rest ih =>
    have tail : input.drop (sp + 1) = rest := by rw [← drop_drop, hrest]; rfl
    rw [searchLoop_eq]
    dsimp only
    rw [if_neg (Option.some_ne_none m)]
    by_cases none_left : l.dense = []
    · rw [if_pos ⟨none_left, Option.some_ne_none m⟩, none_left]
      exact .inr ⟨∅, .nil ∅, rfl⟩
    · rw [if_neg fun h => none_left h.1]
      cases ht : stepThreads prog input.length sp ((b :: rest).head?) l.dense TList.clear with
      | mk next found =>
        rw [← hrest, head?_drop] at ht
        obtain ⟨waits', step⟩ := turn waits ht
        have out : found.or (some m) = some (found.getD m) := by cases found <;> rfl
        dsimp only
        rw [out]
        obtain ⟨c, follows, found_c⟩ | ⟨deep, follows, stands⟩ := ih tail waits' (found.getD m)
        · exact .inl ⟨c, step _ follows, found_c⟩
        · rw [stands]
          cases found with
          | some c => exact .inl ⟨c, step _ follows, rfl⟩
          | none => exact .inr ⟨_, step _ follows, rfl⟩

/-- The starting position that the search is at comes first. -/
theorem starts_cons (ncap : Nat) (within : sp ≤ input.length) :
    starts ncap input sp = ((0, sp), List.replicate ncap (-1)) :: starts ncap input (sp + 1) := by
  have more : input.length + 1 - sp = (input.length + 1 - (sp + 1)) + 1 := by omega
  rw [starts, more, range'_succ, map_cons]
  rfl

theorem starts_end (ncap : Nat) (past : input.length < sp) : starts ncap input sp = [] := by
  have none_left : input.length + 1 - sp = 0 := by omega
  rw [starts, none_left]
  rfl

theorem starts_later (ncap sp : Nat) : ∀ e ∈ starts ncap input (sp + 1), e.1 ∈ behind sp := by
  intro e he
  obtain ⟨i, hi, rfl⟩ := mem_map.mp he
  obtain ⟨_, _, rfl⟩ := mem_range'.mp hi
  show sp < sp + 1 + _
  omega

/-- More marks that the search cannot come to. -/
theorem Ends.frame {inside extra visited : Set Place} {stack : List (Place × Caps)} {r : Option Caps}
    (stays : ∀ n c, n ∈ inside → ∀ e ∈ branches prog input n c, e.1 ∈ inside)
    (apart : ∀ n ∈ inside, n ∉ extra) (h : Ends prog input visited stack r)
    (within : ∀ e ∈ stack, e.1 ∈ inside) : Ends prog input (visited ∪ extra) stack r := by
  cases r with
  | some cap => exact Explores.frame stays apart h within
  | none =>
    obtain ⟨visited', h⟩ := h
    exact ⟨visited' ∪ extra, h.frame stays apart within⟩

/-- The search of a stack whose first entries come to no match. -/
theorem Ends.after {visited visited' : Set Place} {stack rest : List (Place × Caps)}
    (first : Explores (IsDone prog) (branches prog input) visited stack (.left visited'))
    (h : Ends prog input visited' rest r) : Ends prog input visited (stack ++ rest) r := by
  cases r with
  | some cap => exact first.append rest _ h
  | none =>
    obtain ⟨last, h⟩ := h
    exact ⟨last, first.append rest _ h⟩

/-- A search has one end. -/
theorem Ends.unique {visited : Set Place} {stack : List (Place × Caps)} {r r' : Option Caps}
    (h : Ends prog input visited stack r) (h' : Ends prog input visited stack r') : r = r' := by
  cases r with
  | some cap =>
    cases r' with
    | some cap' => rw [Verdict.found.inj (Explores.unique h h')]
    | none =>
      obtain ⟨_, h'⟩ := h'
      exact absurd (Explores.unique h h') nofun
  | none =>
    obtain ⟨_, h⟩ := h
    cases r' with
    | some cap' => exact absurd (Explores.unique h h') nofun
    | none => rfl

/-- How the loop ends, before a match: one of the threads comes to it, or else they leave their
places behind and it is the search from here on that decides. -/
def Open (prog : Prog) (ncap : Nat) (input : Bytes) (sp : Nat) (l : TList) (r : Option Caps) : Prop :=
  (∃ c, Follows prog input sp ∅ l.dense (.found c) ∧ r = some c) ∨
    ∃ deep, Follows prog input sp ∅ l.dense (.left deep) ∧
      Ends prog input (deep ∪ marks sp l.seen) (starts ncap input sp) r

/-- A match of the threads with the new one behind them. -/
theorem Open.found {ncap sp : Nat} (within : sp ≤ input.length) {l l' : TList}
    (waits : ∀ t ∈ l.dense, Waits prog t.1)
    (adds : Adds prog input sp l l' [(0, List.replicate ncap (-1))]) {c : Caps}
    (h : Follows prog input sp ∅ l'.dense (.found c)) : Open prog ncap input sp l (some c) := by
  obtain ⟨ts, dense, -, -, explores⟩ := adds
  rw [dense] at h
  obtain ⟨c', same, first⟩ | ⟨deep, first, second⟩ := h.split
  · obtain rfl := Verdict.found.inj same
    exact .inl ⟨c, first, rfl⟩
  · refine .inr ⟨deep, first, ?_⟩
    rw [starts_cons ncap within]
    exact (explores deep (first.inside waits (Set.empty_subset _)) _ second).append _

/-- No match of these threads: the search goes on at the next position. -/
theorem Open.left (within : sp ≤ input.length) (waits : ∀ t ∈ l.dense, Waits prog t.1)
    (adds : Adds prog input sp l l' [(0, List.replicate ncap (-1))])
    (h : Follows prog input sp ∅ l'.dense (.left deep))
    (later : Ends prog input deep (starts ncap input (sp + 1)) r) : Open prog ncap input sp l r := by
  obtain ⟨ts, dense, -, -, explores⟩ := adds
  rw [dense] at h
  obtain ⟨_, same, -⟩ | ⟨deep', first, second⟩ := h.split
  · exact absurd same nofun
  · refine .inr ⟨deep', first, ?_⟩
    rw [starts_cons ncap within]
    exact .after (explores deep' (first.inside waits (Set.empty_subset _)) _ second)
      (later.frame (behind_stays sp) (marks_apart sp _) (starts_later ncap sp))

/-- Without a match: the threads of the list, and then the search from here on. -/
theorem searchLoop_open (hrest : input.drop sp = rest)
    (within : sp ≤ input.length) (waits : ∀ t ∈ l.dense, Waits prog t.1) :
    Open prog ncap input sp l (searchLoop prog ncap input.length sp rest l none) := by
  induction rest generalizing sp l with
  | nil =>
    have last : sp = input.length := by
      have := drop_eq_nil_iff.mp hrest
      omega
    rw [searchLoop_eq]
    dsimp only
    rw [if_pos rfl, if_neg (fun h => h.2 rfl)]
    have adds : Adds prog input sp l _ [(0, List.replicate ncap (-1))] := add_adds sp l 0 _
    have waits' := adds.waits waits
    cases ht : stepThreads prog input.length sp (([] : Bytes).head?)
        (l.add prog input.length sp 0 (List.replicate ncap (-1))).dense TList.clear with
    | mk next found =>
      have ended : next = TList.clear := stepThreads_end ht
      rw [← hrest, head?_drop] at ht
      have here := (turn waits' ht).2 (.left ∅) (by rw [ended]; exact .nil ∅)
      cases found with
      | some c => exact .found within waits adds here
      | none =>
        have past : Ends prog input (∅ ∪ marks (sp + 1) next.seen) (starts ncap input (sp + 1)) none := by
          rw [starts_end ncap (by omega)]
          exact ⟨_, .nil _⟩
        exact .left within waits adds here past
  | cons b rest ih =>
    have tail : input.drop (sp + 1) = rest := by rw [← drop_drop, hrest]; rfl
    have more : sp + 1 ≤ input.length := by
      have : (input.drop sp).length = rest.length + 1 := by rw [hrest]; rfl
      rw [length_drop] at this
      omega
    rw [searchLoop_eq]
    dsimp only
    rw [if_pos rfl, if_neg (fun h => h.2 rfl)]
    have adds : Adds prog input sp l _ [(0, List.replicate ncap (-1))] := add_adds sp l 0 _
    have waits' := adds.waits waits
    cases ht : stepThreads prog input.length sp ((b :: rest).head?)
        (l.add prog input.length sp 0 (List.replicate ncap (-1))).dense TList.clear with
    | mk next found =>
      rw [← hrest, head?_drop] at ht
      obtain ⟨waits₁, step⟩ := turn waits' ht
      dsimp only
      cases found with
      | some c =>
        rw [Option.some_or]
        obtain ⟨c', follows, found_c⟩ | ⟨deep, follows, stands⟩ :=
          searchLoop_matched tail waits₁ c
        · rw [found_c]
          exact .found within waits adds (step _ follows)
        · rw [stands]
          exact .found within waits adds (step _ follows)
      | none =>
        rw [Option.none_or]
        obtain ⟨c, follows, found_c⟩ | ⟨deep, follows, later⟩ := ih tail more waits₁
        · rw [found_c]
          exact .found within waits adds (step _ follows)
        · exact .left within waits adds (step _ follows) later

/-- **Leftmost first.** `rx_search` gives what the depth-first search finds, and nothing else. -/
theorem rxSearch_backtracks (prog : Prog) (ncap : Nat) (input : Bytes) (start : Nat) (r : Option Caps) :
    Backtracks prog ncap input start r ↔ r = rxSearch prog ncap input start := by
  have ours : Backtracks prog ncap input start (rxSearch prog ncap input start) := by
    unfold rxSearch Backtracks
    by_cases within : start ≤ input.length
    · rw [if_pos within]
      obtain ⟨c, follows, -⟩ | ⟨deep, follows, ends⟩ :=
        searchLoop_open rfl within (l := TList.clear) nofun
      · exact absurd follows nofun
      · cases follows
        have bare : (∅ : Set Place) ∪ marks start TList.clear.seen = ∅ := by
          rw [Set.empty_union]
          exact marks_nil start
        rwa [bare] at ends
    · rw [if_neg within, starts_end ncap (Nat.lt_of_not_le within)]
      exact ⟨∅, .nil ∅⟩
  constructor
  · exact fun h => Ends.unique h ours
  · rintro rfl
    exact ours

end Voila.Rx
