import Voila.Rx.Found

/-!
# Voila.Rx.Star

`X*` and `(?:X+)?`: two programs for one pattern.

The second has the code of `X` twice, so that a way through it may come to an instruction of `X` at one offset in two
iterations, where the marks of the first cut it off. Apart from these the ways of the two are the same
(`firstEnd_iff`).
-/

namespace Voila.Rx

open Voila.Rt (Bytes)
open Voila.Lib (Explores Verdict Leads Way choose SimpleWay NoWay FirstOf)

/-! ### Code that is moved -/

/-- An instruction that is moved by `d` with all that it jumps to. -/
def Inst.shift (d : Nat) : Inst → Inst
  | .jmp x => .jmp (x + d)
  | .split x y => .split (x + d) (y + d)
  | i => i

theorem fork_shift (greedy : Bool) (body stop d : Nat) :
    (fork greedy body stop).shift d = fork greedy (body + d) (stop + d) := by
  cases greedy <;> rfl

theorem classes_shift (sets : List ByteSet) (d : Nat) :
    (sets.map Inst.cls).map (Inst.shift d) = sets.map Inst.cls := by
  rw [List.map_map]
  rfl

theorem branchAt_shift (sets : List ByteSet) (stop a d : Nat) :
    branchAt sets (stop + d) (a + d) = (branchAt sets stop a).map (Inst.shift d) := by
  simp only [branchAt, List.map_append, List.map_cons, classes_shift, Inst.shift, List.map_nil]
  congr 3 <;> omega

theorem utf8At_shift (ascii : ByteSet) (a d : Nat) :
    utf8At ascii (a + d) = (utf8At ascii a).map (Inst.shift d) := by
  simp only [utf8At, List.map_append, ← branchAt_shift, classes_shift]
  simp only [Nat.add_right_comm]

variable {body : Nat → Prog} {d size i : Nat} {x : Node} {ds : List Nat} {p : List Place}

theorem copiesAt_shift (hbody : ∀ a, body (a + d) = (body a).map (Inst.shift d)) (k a : Nat) :
    copiesAt body size k (a + d) = (copiesAt body size k a).map (Inst.shift d) := by
  induction k generalizing a with
  | zero => rfl
  | succ k ih => rw [copiesAt, copiesAt, List.map_append, hbody, Nat.add_right_comm, ih]

theorem optionsAt_shift
    (hbody : ∀ a, body (a + d) = (body a).map (Inst.shift d)) (greedy : Bool) (stop k a : Nat) :
    optionsAt body size greedy (stop + d) k (a + d) = (optionsAt body size greedy stop k a).map (Inst.shift d) := by
  induction k generalizing a with
  | zero => rfl
  | succ k ih =>
    have start : a + d + 1 = a + 1 + d := by omega
    have next : a + d + size + 1 = a + size + 1 + d := by omega
    rw [optionsAt, optionsAt, List.map_append, List.map_cons, fork_shift, start, hbody, next, ih]

theorem starAt_shift
    (hbody : ∀ a, body (a + d) = (body a).map (Inst.shift d)) (greedy : Bool) (a : Nat) :
    starAt body size greedy (a + d) = (starAt body size greedy a).map (Inst.shift d) := by
  have start : a + d + 1 = a + 1 + d := by omega
  have stop : a + d + size + 2 = a + size + 2 + d := by omega
  simp only [starAt, List.map_append, List.map_cons, fork_shift, start, stop, hbody]
  rfl

/-- The code of a tree is the same wherever it stands. -/
theorem Node.code_shift (n : Node) (a d : Nat) : n.code (a + d) = (n.code a).map (Inst.shift d) := by
  induction n generalizing a with
  | empty bol eol => cases bol <;> cases eol <;> rfl
  | char c => rfl
  | any => exact utf8At_shift anySet a d
  | cls set negated =>
    cases negated with
    | true => exact utf8At_shift (outsideSet set) a d
    | false => rfl
  | cat l r ihl ihr => rw [code, code, List.map_append, ihl, Nat.add_right_comm, ihr]
  | alt l r ihl ihr =>
    have start : a + d + 1 = a + 1 + d := by omega
    have middle : a + d + l.size + 2 = a + l.size + 2 + d := by omega
    have stop : a + d + l.size + r.size + 2 = a + l.size + r.size + 2 + d := by omega
    simp only [code, List.map_append, List.map_cons, start, middle, stop, ihl, ihr]
    rfl
  | rep l lo hi greedy ih =>
    cases hi with
    | none => rw [code, code, List.map_append, copiesAt_shift ih, Nat.add_right_comm, starAt_shift ih]
    | some hi =>
      have start : a + d + lo * l.size = a + lo * l.size + d := by omega
      have stop : a + lo * l.size + d + (hi - lo) * (l.size + 1) =
          a + lo * l.size + (hi - lo) * (l.size + 1) + d := by omega
      rw [code, code, List.map_append, copiesAt_shift ih, start, stop, optionsAt_shift ih]
  | group l g ih =>
    cases g with
    | none => exact ih a
    | some g =>
      have start : a + d + 1 = a + 1 + d := by omega
      simp only [code, List.map_append, List.map_cons, start, ih]
      rfl

/-! ### The two programs -/

/-- `X*`. -/
def starOf (x : Node) : Node := .rep x 0 none true

/-- `(?:X+)?`. -/
def plusOf (x : Node) : Node := .rep (.group (.rep x 1 none true) none) 0 (some 1) true

/-- The program of `X*`. -/
def starProg (x : Node) : Prog := (.save 0 :: .split 2 (x.size + 3) :: x.code 2) ++ [.jmp 1, .save 1, .done]

/-- The program of `(?:X+)?`. -/
def plusProg (x : Node) : Prog :=
  (.save 0 :: .split 2 (2 * x.size + 4) :: x.code 2) ++
    ((.split (x.size + 3) (2 * x.size + 4) :: x.code (x.size + 3)) ++ [.jmp (x.size + 2), .save 1, .done])

theorem star_layout (x : Node) : .save 0 :: (starOf x).code 1 ++ [.save 1, .done] = starProg x := by
  have stop : 1 + x.size + 2 = x.size + 3 := by omega
  simp only [starProg, starOf, Node.code, copiesAt, starAt, fork, List.nil_append, if_true, List.cons_append,
    List.append_assoc, Nat.zero_mul, Nat.add_zero]
  rw [stop]

theorem plus_layout (x : Node) : .save 0 :: (plusOf x).code 1 ++ [.save 1, .done] = plusProg x := by
  have first : 1 + (x.size + (x.size + 2) + 1) = 2 * x.size + 4 := by omega
  have copy : 1 + 1 + x.size + 1 = x.size + 3 := by omega
  have stop : 1 + 1 + x.size + x.size + 2 = 2 * x.size + 4 := by omega
  have back : 1 + 1 + x.size = x.size + 2 := by omega
  simp only [plusProg, plusOf, Node.code, Node.size, copiesAt, starAt, optionsAt, fork, Nat.zero_mul, Nat.add_zero,
    Nat.sub_zero, Nat.one_mul, List.nil_append, List.append_nil, if_true]
  rw [first, copy, stop, back]
  simp only [List.cons_append, List.append_assoc]
  rfl

/-! ### Steps -/

/-- Where an instruction at `pc` leads at the offset `q`. -/
def stepsOf (input : Bytes) (i : Inst) (pc q : Nat) : List Place :=
  match i with
  | .jmp x => [(x, q)]
  | .split x y => [(x, q), (y, q)]
  | .save _ => [(pc + 1, q)]
  | .bol => if q = 0 then [(pc + 1, q)] else []
  | .eol => if q = input.length then [(pc + 1, q)] else []
  | .char c => if input[q]? = some c then [(pc + 1, q + 1)] else []
  | .cls set => if input[q]?.any set then [(pc + 1, q + 1)] else []
  | .done => []

/-- Where a place leads. -/
def succOf (prog : Prog) (input : Bytes) (n : Place) : List Place := (branches prog input n []).map Prod.fst

variable {prog : Prog} {input : Bytes}

theorem branches_fst (n : Place) (cap : Caps) : (branches prog input n cap).map Prod.fst = succOf prog input n := by
  unfold succOf branches
  split <;> (try split) <;> rfl

theorem succOf_some {n : Place} {i : Inst} (h : prog[n.1]? = some i) :
    succOf prog input n = stepsOf input i n.1 n.2 := by
  unfold succOf branches consume stepsOf
  cases i with
  | char c =>
    cases hb : input[n.2]? with
    | none => simp [h]
    | some b => by_cases hc : b = c <;> simp [h, hc]
  | cls set =>
    cases hb : input[n.2]? with
    | none => simp [h]
    | some b => cases hs : set b <;> simp [h, hs]
  | bol => by_cases hq : n.2 = 0 <;> simp [h, hq]
  | eol => by_cases hq : n.2 = input.length <;> simp [h, hq]
  | _ => simp [h]

theorem succOf_none {n : Place} (h : prog[n.1]? = none) : succOf prog input n = [] := by
  simp [succOf, branches, consume, h]

/-- An instruction of `X` leads to the same in the other program. -/
theorem stepsOf_shift {lo hi d : Nat} {S : Place → Place → Prop}
    (hS : ∀ t q, lo ≤ t → t ≤ hi → S (t, q) (t + d, q)) {i : Inst} (inner : Inner lo hi i) {pc : Nat}
    (hpc : lo ≤ pc + 1 ∧ pc + 1 ≤ hi) (q : Nat) :
    List.Forall₂ S (stepsOf input i pc q) (stepsOf input (i.shift d) (pc + d) q) := by
  have after (q : Nat) : S (pc + 1, q) (pc + d + 1, q) := by
    rw [Nat.add_right_comm]
    exact hS _ q hpc.1 hpc.2
  cases i with
  | jmp x => exact .cons (hS x q inner.1 inner.2) .nil
  | split x y => exact .cons (hS x q inner.1.1 inner.1.2) (.cons (hS y q inner.2.1 inner.2.2) .nil)
  | save slot => exact .cons (after q) .nil
  | done => exact .nil
  | bol =>
    unfold stepsOf
    dsimp only [Inst.shift]
    split
    · exact .cons (after q) .nil
    · exact .nil
  | eol =>
    unfold stepsOf
    dsimp only [Inst.shift]
    split
    · exact .cons (after q) .nil
    · exact .nil
  | char c =>
    unfold stepsOf
    dsimp only [Inst.shift]
    split
    · exact .cons (after (q + 1)) .nil
    · exact .nil
  | cls set =>
    unfold stepsOf
    dsimp only [Inst.shift]
    split
    · exact .cons (after (q + 1)) .nil
    · exact .nil

/-! ### One program in the other -/

/-- The instruction of `X*` that an instruction of `(?:X+)?` is a copy of, where `X` takes `n` instructions. -/
def merge (n pc : Nat) : Nat := if pc < n + 2 then pc else if pc = n + 2 then 1 else pc - (n + 1)

def mergeAt (n : Nat) (b : Place) : Place := (merge n b.1, b.2)

/-- A place of `X*` and one of `(?:X+)?` that a way is at. Behind the first copy of `X` there is no jump back. -/
inductive Same (n : Nat) : Place → Place → Prop
  | merged (b : Place) : Same n (mergeAt n b) b
  | back (q : Nat) : Same n (n + 2, q) (n + 2, q)

theorem same_first {n t : Nat} (ht : t ≤ n + 2) (q : Nat) : Same n (t, q) (t, q) := by
  obtain less | rfl := Nat.lt_or_eq_of_le ht
  · have here : merge n t = t := if_pos less
    have merged := Same.merged (n := n) (t, q)
    rwa [mergeAt, here] at merged
  · exact .back q

theorem same_second {n t : Nat} (ht : 2 ≤ t) (q : Nat) : Same n (t, q) (t + (n + 1), q) := by
  have here : merge n (t + (n + 1)) = t := by
    unfold merge
    rw [if_neg (by omega), if_neg (by omega)]
    omega
  have merged := Same.merged (n := n) (t + (n + 1), q)
  rwa [mergeAt, here] at merged

/-- What stands behind a list. -/
theorem getElem?_behind {α : Type} {l r : List α} {k i : Nat} (h : i = l.length + k) : (l ++ r)[i]? = r[k]? := by
  rw [h, List.getElem?_append_right (Nat.le_add_right _ _), Nat.add_sub_cancel_left]

/-- An instruction of `(?:X+)?` at `pc`, and the one of `X*` that it is a copy of. -/
inductive Copied (n : Nat) : Nat → Option Inst → Option Inst → Prop
  | first : Copied n 0 (some (.save 0)) (some (.save 0))
  | once : Copied n 1 (some (.split 2 (n + 3))) (some (.split 2 (2 * n + 4)))
  /-- The first copy of `X`. -/
  | copy {i : Nat} {inst : Inst} : i < n → Inner 2 (2 + n) inst → Copied n (i + 2) (some inst) (some inst)
  | again : Copied n (n + 2) (some (.split 2 (n + 3))) (some (.split (n + 3) (2 * n + 4)))
  /-- The second copy of `X`. -/
  | copy' {i : Nat} {inst : Inst} : i < n → Inner 2 (2 + n) inst →
      Copied n (i + 2 + (n + 1)) (some inst) (some (inst.shift (n + 1)))
  | back : Copied n (2 * n + 3) (some (.jmp 1)) (some (.jmp (n + 2)))
  | last : Copied n (2 * n + 4) (some (.save 1)) (some (.save 1))
  | done : Copied n (2 * n + 5) (some .done) (some .done)
  | outside (pc : Nat) : Copied n pc none none

theorem starProg_body (hi : i < x.size) : (starProg x)[i + 2]? = (x.code 2)[i]? := by
  have left : i + 2 < (Inst.save 0 :: .split 2 (x.size + 3) :: x.code 2).length := by simpa using hi
  rw [starProg, List.getElem?_append_left left]
  rfl

theorem starProg_tail (x : Node) (k : Nat) :
    (starProg x)[x.size + 2 + k]? = [Inst.jmp 1, .save 1, .done][k]? :=
  getElem?_behind (by simp)

theorem plusProg_body (hi : i < x.size) : (plusProg x)[i + 2]? = (x.code 2)[i]? := by
  have left : i + 2 < (Inst.save 0 :: .split 2 (2 * x.size + 4) :: x.code 2).length := by simpa using hi
  rw [plusProg, List.getElem?_append_left left]
  rfl

theorem plusProg_second (x : Node) (k : Nat) : (plusProg x)[x.size + 2 + k]? =
    ((.split (x.size + 3) (2 * x.size + 4) :: x.code (x.size + 3)) ++ [.jmp (x.size + 2), .save 1, .done])[k]? :=
  getElem?_behind (by simp)

theorem plusProg_copy (hi : i < x.size) :
    (plusProg x)[i + 2 + (x.size + 1)]? = ((x.code 2)[i]?).map (Inst.shift (x.size + 1)) := by
  have left : i + 1 < (Inst.split (x.size + 3) (2 * x.size + 4) :: x.code (x.size + 3)).length := by simpa using hi
  have moved : x.size + 3 = 2 + (x.size + 1) := by omega
  rw [show i + 2 + (x.size + 1) = x.size + 2 + (i + 1) by omega, plusProg_second, List.getElem?_append_left left,
    List.getElem?_cons_succ, moved, Node.code_shift, List.getElem?_map]

theorem plusProg_tail (x : Node) (k : Nat) :
    (plusProg x)[2 * x.size + 3 + k]? = [Inst.jmp (x.size + 2), .save 1, .done][k]? := by
  rw [show 2 * x.size + 3 + k = x.size + 2 + (x.size + 1 + k) by omega, plusProg_second]
  exact getElem?_behind (by simp)

theorem merge_second {n pc : Nat} (h : n + 3 ≤ pc) : merge n pc = pc - (n + 1) := by
  unfold merge
  rw [if_neg (by omega), if_neg (by omega)]

theorem copied (x : Node) (pc : Nat) :
    Copied x.size pc (starProg x)[merge x.size pc]? (plusProg x)[pc]? := by
  have body {i : Nat} (hi : i < x.size) : ∃ inst, (x.code 2)[i]? = some inst ∧ Inner 2 (2 + x.size) inst := by
    have inside : i < (x.code 2).length := by rwa [Node.code_length]
    exact ⟨_, List.getElem?_eq_getElem inside, x.code_inner 2 _ (List.getElem_mem inside)⟩
  by_cases first : pc < x.size + 2
  · have same : merge x.size pc = pc := if_pos first
    rw [same]
    match pc, first with
    | 0, _ => exact .first
    | 1, _ => exact .once
    | i + 2, first =>
      have hi : i < x.size := by omega
      obtain ⟨inst, here, inner⟩ := body hi
      rw [starProg_body hi, plusProg_body hi, here]
      exact .copy hi inner
  · by_cases second : pc = x.size + 2
    · have same : merge x.size pc = 1 := by unfold merge; rw [if_neg first, if_pos second]
      have here := plusProg_second x 0
      rw [same, second]
      rw [Nat.add_zero] at here
      rw [here]
      exact .again
    · rw [merge_second (by omega)]
      by_cases copy : pc < 2 * x.size + 3
      · obtain ⟨i, rfl⟩ : ∃ i, pc = i + 2 + (x.size + 1) := ⟨pc - (x.size + 3), by omega⟩
        have hi : i < x.size := by omega
        obtain ⟨inst, here, inner⟩ := body hi
        rw [Nat.add_sub_cancel, starProg_body hi, plusProg_copy hi, here]
        exact .copy' hi inner
      · obtain ⟨k, rfl⟩ : ∃ k, pc = 2 * x.size + 3 + k := ⟨pc - (2 * x.size + 3), by omega⟩
        rw [show 2 * x.size + 3 + k - (x.size + 1) = x.size + 2 + k by omega, starProg_tail, plusProg_tail]
        match k with
        | 0 => exact .back
        | 1 => exact .last
        | 2 => exact .done
        | k + 3 => exact .outside _

theorem Inst.shift_zero (i : Inst) : i.shift 0 = i := by cases i <;> rfl

theorem same_end {n t t' : Nat} (ht : 2 ≤ t) (h : t' = t + (n + 1)) (q : Nat) : Same n (t, q) (t', q) :=
  h ▸ same_second ht q

theorem merge_again (n : Nat) : merge n (n + 2) = 1 := by
  unfold merge
  rw [if_neg (by omega), if_pos rfl]

theorem same_again (n q : Nat) : Same n (1, q) (n + 2, q) := by
  have merged := Same.merged (n := n) (n + 2, q)
  rwa [mergeAt, merge_again] at merged

/-- The steps of the two programs are the same. -/
theorem steps_same (x : Node) (input : Bytes) (b : Place) : List.Forall₂ (Same x.size)
    (succOf (starProg x) input (mergeAt x.size b)) (succOf (plusProg x) input b) := by
  obtain ⟨pc, q⟩ := b
  have h := copied x pc
  generalize hstar : (starProg x)[merge x.size pc]? = i at h
  generalize hplus : (plusProg x)[pc]? = i' at h
  have star (inst : Inst) (hi : i = some inst) :
      succOf (starProg x) input (mergeAt x.size (pc, q)) = stepsOf input inst (merge x.size pc) q :=
    succOf_some (hstar.trans hi)
  have plus (inst : Inst) (hi : i' = some inst) : succOf (plusProg x) input (pc, q) = stepsOf input inst pc q :=
    succOf_some (hplus.trans hi)
  cases h with
  | first =>
    rw [star _ rfl, plus _ rfl, show merge x.size 0 = 0 from if_pos (Nat.succ_pos _)]
    exact .cons (same_first (by omega) q) .nil
  | once =>
    rw [star _ rfl, plus _ rfl]
    exact .cons (same_first (by omega) q) (.cons (same_end (by omega) (by omega) q) .nil)
  | @copy i inst hi inner =>
    rw [star _ rfl, plus _ rfl, show merge x.size (i + 2) = i + 2 from if_pos (by omega)]
    have moved : List.Forall₂ (Same x.size) (stepsOf input inst (i + 2) q)
        (stepsOf input (inst.shift 0) (i + 2 + 0) q) :=
      stepsOf_shift (fun t q _ ht => same_first (by omega) q) inner (by omega) q
    rwa [Inst.shift_zero] at moved
  | again =>
    rw [star _ rfl, plus _ rfl]
    exact .cons (same_end le_rfl (by omega) q) (.cons (same_end (by omega) (by omega) q) .nil)
  | @copy' i inst hi inner =>
    rw [star _ rfl, plus _ rfl, merge_second (by omega), Nat.add_sub_cancel]
    exact stepsOf_shift (fun t q ht _ => same_second ht q) inner (by omega) q
  | back =>
    rw [star _ rfl, plus _ rfl]
    exact .cons (same_again _ q) .nil
  | last =>
    rw [star _ rfl, plus _ rfl, merge_second (by omega)]
    exact .cons (same_end (by omega) (by omega) q) .nil
  | done =>
    rw [star _ rfl, plus _ rfl]
    exact .nil
  | outside =>
    rw [succOf_none (n := mergeAt x.size (pc, q)) hstar, succOf_none (n := (pc, q)) hplus]
    exact .nil

theorem done_same (x : Node) (b : Place) : IsDone (starProg x) (mergeAt x.size b) ↔ IsDone (plusProg x) b := by
  obtain ⟨pc, q⟩ := b
  have h := copied x pc
  show (starProg x)[merge x.size pc]? = some .done ↔ (plusProg x)[pc]? = some .done
  generalize (starProg x)[merge x.size pc]? = i at h ⊢
  generalize (plusProg x)[pc]? = i' at h ⊢
  cases h with
  | @copy i inst _ inner => exact Iff.rfl
  | @copy' i inst _ inner => cases inst <;> simp [Inst.shift]
  | _ => simp

/-! ### Ways in the two programs -/

/-- The places that a way is told apart by in `X*`: not the jump back, which leads to the start of an iteration. -/
def kept (n : Nat) (l : List Place) : List Place := l.filter fun b => b.1 != n + 2

/-- The same places, on a way through `(?:X+)?`. -/
def keptOf (n : Nat) (l : List Place) : List Place := kept n (l.map (mergeAt n))

theorem jump_star (x : Node) (q : Nat) : succOf (starProg x) input (x.size + 2, q) = [(1, q)] :=
  succOf_some (i := .jmp 1) (starProg_tail x 0)

theorem jump_not_done (x : Node) (q : Nat) : ¬ IsDone (starProg x) (x.size + 2, q) := by
  intro h
  have here : (starProg x)[x.size + 2]? = some (Inst.jmp 1) := starProg_tail x 0
  exact absurd (here.symm.trans h) (by simp)

theorem forall₂_getElem? {α β : Type} {R : α → β → Prop} {l : List α} {l' : List β} (h : List.Forall₂ R l l')
    {a : α} (ha : l[i]? = some a) : ∃ b, l'[i]? = some b ∧ R a b := by
  induction h generalizing i with
  | nil => simp at ha
  | cons head _ ih =>
    cases i with
    | zero =>
      cases ha
      exact ⟨_, rfl, head⟩
    | succ i => exact ih ha

/-- A way through `X*` is one through `(?:X+)?`. -/
theorem way_lift {a a' b : Place}
    (h : Way (succOf (starProg x) input) a ds p a') (isDone : IsDone (starProg x) a') (same : Same x.size a b) :
    ∃ p' b', Way (succOf (plusProg x) input) b ds p' b' ∧ IsDone (plusProg x) b' ∧ b'.2 = a'.2 ∧
      keptOf x.size (p' ++ [b']) = kept x.size (p ++ [a']) := by
  induction h generalizing b with
  | here a =>
    cases same with
    | merged b => exact ⟨[], b, .here b, (done_same x b).mp isDone, rfl, rfl⟩
    | back q => exact absurd isDone (jump_not_done x q)
  | @step a m _ i ds p choice _ ih =>
    cases same with
    | merged b =>
      have steps := steps_same x input b
      obtain ⟨m', choice', same'⟩ := forall₂_getElem? steps choice
      obtain ⟨p', b', way, isDone', stop, places⟩ := ih isDone same'
      refine ⟨b :: p', b', ?_, isDone', stop, ?_⟩
      · rw [steps.length_eq]
        exact .step choice' way
      · simp only [keptOf, kept, List.cons_append, List.map_cons, List.filter_cons] at places ⊢
        rw [places]
    | back q =>
      rw [jump_star] at choice ⊢
      have hi : i = 0 := by
        obtain ⟨hi, -⟩ := List.getElem?_eq_some_iff.mp choice
        simpa using hi
      subst hi
      cases choice
      obtain ⟨p', b', way, isDone', stop, places⟩ := ih isDone (same_again x.size q)
      refine ⟨p', b', way, isDone', stop, ?_⟩
      rw [places]
      simp [kept]

/-- A way through `(?:X+)?` is one through `X*`. -/
theorem way_merge {a b b' : Place}
    (h : Way (succOf (plusProg x) input) b ds p b') (isDone : IsDone (plusProg x) b') (same : Same x.size a b) :
    ∃ p' a', Way (succOf (starProg x) input) a ds p' a' ∧ IsDone (starProg x) a' ∧ a'.2 = b'.2 ∧
      kept x.size (p' ++ [a']) = keptOf x.size (p ++ [b']) := by
  have back {q : Nat} {ds : List Nat} {p : List Place} {b' : Place} (way : ∃ p' a',
      Way (succOf (starProg x) input) (1, q) ds p' a' ∧ IsDone (starProg x) a' ∧ a'.2 = b'.2 ∧
        kept x.size (p' ++ [a']) = keptOf x.size (p ++ [b'])) : ∃ p' a',
      Way (succOf (starProg x) input) (x.size + 2, q) ds p' a' ∧ IsDone (starProg x) a' ∧ a'.2 = b'.2 ∧
        kept x.size (p' ++ [a']) = keptOf x.size (p ++ [b']) := by
    obtain ⟨p', a', way, isDone', stop, places⟩ := way
    have choice : (succOf (starProg x) input (x.size + 2, q))[0]? = some (1, q) := by rw [jump_star]; rfl
    have jumped := Way.step choice way
    rw [jump_star] at jumped
    exact ⟨_, a', jumped, isDone', stop, by rw [← places]; simp [kept]⟩
  induction h generalizing a with
  | here b =>
    cases same with
    | merged b => exact ⟨[], mergeAt x.size b, .here _, (done_same x b).mpr isDone, rfl, rfl⟩
    | back q =>
      have star := (done_same x (x.size + 2, q)).mpr isDone
      rw [mergeAt, merge_again] at star
      exact absurd star nofun
  | @step b m b' i ds p choice _ ih =>
    have merged : ∃ p' a', Way (succOf (starProg x) input) (mergeAt x.size b)
        (choose (succOf (plusProg x) input b).length i ds) p' a' ∧ IsDone (starProg x) a' ∧ a'.2 = b'.2 ∧
          kept x.size (p' ++ [a']) = keptOf x.size (b :: p ++ [b']) := by
      have steps : List.Forall₂ _ (succOf (starProg x) input (mergeAt x.size b)) (succOf (plusProg x) input b) :=
        steps_same x input b
      obtain ⟨m', choice', same'⟩ := forall₂_getElem? steps.flip choice
      obtain ⟨p', a', way, isDone', stop, places⟩ := ih isDone same'
      refine ⟨mergeAt x.size b :: p', a', ?_, isDone', stop, ?_⟩
      · rw [← steps.length_eq]
        exact .step choice' way
      · simp only [keptOf, kept, List.cons_append, List.map_cons, List.filter_cons] at places ⊢
        rw [places]
    cases same with
    | merged b => exact merged
    | back q =>
      rw [mergeAt, merge_again] at merged
      exact back merged

/-! ### No place twice -/

/-- Behind the jump back comes the start of an iteration. -/
theorem way_jump {a a' : Place}
    (h : Way (succOf (starProg x) input) a ds p a') (isDone : IsDone (starProg x) a') {q : Nat}
    (hq : (x.size + 2, q) ∈ p ++ [a']) : (1, q) ∈ (p ++ [a']).tail := by
  have head {m : Place} {ds : List Nat} {p : List Place} (way : Way (succOf (starProg x) input) m ds p a') :
      m ∈ p ++ [a'] := by
    cases way with
    | here => exact List.mem_singleton_self _
    | step => exact List.mem_cons_self
  induction h with
  | here a =>
    obtain rfl := List.mem_singleton.mp hq
    exact absurd isDone (jump_not_done x q)
  | @step a m _ i ds p choice way ih =>
    obtain rfl | hq := List.mem_cons.mp hq
    · rw [jump_star] at choice
      obtain rfl := List.mem_singleton.mp (List.mem_of_getElem? choice)
      exact head way
    · exact List.mem_of_mem_tail (ih isDone hq head)

/-- A way that comes to no kept place twice comes to no place twice. -/
theorem way_nodup {a a' : Place}
    (h : Way (succOf (starProg x) input) a ds p a') (isDone : IsDone (starProg x) a') :
    (p ++ [a']).Nodup ↔ (kept x.size (p ++ [a'])).Nodup := by
  refine ⟨fun simple => simple.sublist List.filter_sublist, ?_⟩
  induction h with
  | here a => exact fun _ => List.nodup_singleton a
  | @step a m a' i ds p choice way ih =>
    intro simple
    rw [List.cons_append, kept, List.filter_cons] at simple
    refine List.nodup_cons.mpr ⟨fun twice => ?_, ?_⟩
    · by_cases jump : a.1 = x.size + 2
      · -- the jump comes again, and with it the start of an iteration
        obtain ⟨pc, q⟩ := a
        obtain rfl : pc = x.size + 2 := jump
        rw [if_neg (by simp)] at simple
        rw [jump_star] at choice
        obtain rfl := List.mem_singleton.mp (List.mem_of_getElem? choice)
        have again := way_jump way isDone twice
        have nodup := ih isDone simple
        cases way with
        | here => exact absurd again List.not_mem_nil
        | step => exact (List.nodup_cons.mp nodup).1 again
      · rw [if_pos (by simpa using jump)] at simple
        exact (List.nodup_cons.mp simple).1 (List.mem_filter.mpr ⟨twice, by simpa using jump⟩)
    · split at simple
      · exact ih isDone (List.nodup_cons.mp simple).2
      · exact ih isDone simple

/-! ### The match -/

/-- Where the first of the ways from `start` to a match ends, among those whose places are as asked. -/
def FirstEnd (asked : List Place → Prop) (prog : Prog) (input : Bytes) (start q : Nat) : Prop :=
  ∃ ds p n, Way (succOf prog input) (0, start) ds p n ∧ IsDone prog n ∧ n.2 = q ∧ asked (p ++ [n]) ∧
    ∀ ds' p' n', Way (succOf prog input) (0, start) ds' p' n' → IsDone prog n' → asked (p' ++ [n']) → ¬ ds' < ds

theorem FirstEnd.unique {asked : List Place → Prop} {start q q' : Nat} (h : FirstEnd asked prog input start q)
    (h' : FirstEnd asked prog input start q') : q = q' := by
  obtain ⟨ds, p, n, way, isDone, rfl, places, first⟩ := h
  obtain ⟨ds', p', n', way', isDone', rfl, places', first'⟩ := h'
  obtain less | same | more := lt_trichotomy ds ds'
  · exact absurd less (first' ds p n way isDone places)
  · rw [way.unique way' same (succOf_some isDone) (succOf_some isDone')]
  · exact absurd more (first ds' p' n' way' isDone' places')

/-- No instruction of `X` is come to at one offset in two iterations. -/
def Undoubled (n : Nat) (l : List Place) : Prop := (keptOf n l).Nodup

/-- The first way through `X*` is the first of the ways through `(?:X+)?` on which nothing is come to twice. -/
theorem firstEnd_iff (x : Node) (start q : Nat) : FirstEnd List.Nodup (starProg x) input start q ↔
    FirstEnd (Undoubled x.size) (plusProg x) input start q := by
  have begins : Same x.size (0, start) (0, start) := same_first (Nat.zero_le _) start
  constructor
  · intro ⟨ds, p, n, way, isDone, stop, simple, first⟩
    obtain ⟨p', n', way', isDone', stop', places⟩ := way_lift way isDone begins
    refine ⟨ds, p', n', way', isDone', stop'.trans stop, ?_, fun ds'' p'' n'' way'' isDone'' simple'' => ?_⟩
    · rw [Undoubled, places]
      exact (way_nodup way isDone).mp simple
    · obtain ⟨p₁, n₁, way₁, isDone₁, -, places₁⟩ := way_merge way'' isDone'' begins
      exact first ds'' p₁ n₁ way₁ isDone₁ ((way_nodup way₁ isDone₁).mpr (places₁ ▸ simple''))
  · intro ⟨ds, p, n, way, isDone, stop, simple, first⟩
    obtain ⟨p', n', way', isDone', stop', places⟩ := way_merge way isDone begins
    refine ⟨ds, p', n', way', isDone', stop'.trans stop, ?_, fun ds'' p'' n'' way'' isDone'' simple'' => ?_⟩
    · exact (way_nodup way' isDone').mpr (places ▸ simple)
    · obtain ⟨p₁, n₁, way₁, isDone₁, -, places₁⟩ := way_lift way'' isDone'' begins
      refine first ds'' p₁ n₁ way₁ isDone₁ ?_
      rw [Undoubled, places₁]
      exact (way_nodup way'' isDone'').mp simple''

/-- A search finds the end of the first way, if there is a way. -/
theorem rxSearch_first {size ncap start : Nat} (hprog : Bracketed prog size) (hncap : 2 ≤ ncap)
    (hstart : start ≤ input.length)
    (some_way : ∃ ds p n, Way (succOf prog input) (0, start) ds p n ∧ IsDone prog n ∧ (p ++ [n]).Nodup) :
    ∃ m q, rxSearch prog ncap input start = some m ∧ m.slot 0 = toInt start ∧ m.slot 1 = toInt q ∧
      FirstEnd List.Nodup prog input start q := by
  have way : ¬ NoWay (succOf prog input) (IsDone prog) ∅ (0, start) := by
    obtain ⟨ds, p, n, way, isDone, simple⟩ := some_way
    exact fun none => none ds p n ⟨way, isDone, simple, fun _ _ => Set.notMem_empty _⟩
  have ends := (rxSearch_backtracks prog ncap input start _).mpr rfl
  rw [Backtracks, starts_cons ncap hstart] at ends
  cases found : rxSearch prog ncap input start with
  | none =>
    rw [found] at ends
    obtain ⟨visited, left⟩ := ends
    exact absurd (left.first branches_fst _ List.mem_cons_self) way
  | some m =>
    rw [found] at ends
    obtain ⟨before, e, after, whole, nones, first⟩ := Explores.first branches_fst ends
    cases before with
    | cons e' before =>
      obtain ⟨rfl, -⟩ := List.cons.inj whole
      exact absurd (nones _ List.mem_cons_self) way
    | nil =>
      obtain ⟨rfl, -⟩ := List.cons.inj whole
      obtain ⟨ds, p, n, simple, leads, least⟩ := first
      obtain ⟨-, -, opened, closed⟩ := (Traced.reached hprog hncap hstart leads).done hprog simple.ends
      refine ⟨m, n.2, rfl, opened, closed, ds, p, n, simple.way, simple.ends, rfl, simple.simple, ?_⟩
      exact fun ds' p' n' way' isDone' nodup => least ds' p' n' ⟨way', isDone', nodup, fun _ _ => Set.notMem_empty _⟩

/-- The way past all iterations. -/
theorem empty_way {stop start : Nat} (hstop : 1 < stop) (h0 : prog[0]? = some (.save 0))
    (h1 : prog[1]? = some (.split 2 stop)) (h2 : prog[stop]? = some (.save 1)) (h3 : prog[stop + 1]? = some .done) :
    ∃ ds p n, Way (succOf prog input) (0, start) ds p n ∧ IsDone prog n ∧ (p ++ [n]).Nodup := by
  have s0 : (succOf prog input (0, start))[0]? = some (1, start) := by rw [succOf_some h0]; rfl
  have s1 : (succOf prog input (1, start))[1]? = some (stop, start) := by rw [succOf_some h1]; rfl
  have s2 : (succOf prog input (stop, start))[0]? = some (stop + 1, start) := by rw [succOf_some h2]; rfl
  refine ⟨_, _, (stop + 1, start), .step s0 (.step s1 (.step s2 (.here _))), h3, ?_⟩
  simp
  omega

/-- Two regexes find the same overall match. -/
def SameMatch (r r' : Regex) (s : Bytes) (start : Nat) : Prop :=
  (rxSearch r.prog r.ncap s start).map (fun m => (m.slot 0, m.slot 1)) =
    (rxSearch r'.prog r'.ncap s start).map fun m => (m.slot 0, m.slot 1)

instance (r r' : Regex) (s : Bytes) (start : Nat) : Decidable (SameMatch r r' s start) :=
  inferInstanceAs (Decidable (_ = _))

/-- **Star is one or more, optionally**, just where the ways that come to an instruction of `X` at one offset in two
iterations do not matter to where the first way of `(?:X+)?` ends. -/
theorem sameMatch_iff {x : Node} {p p' : Bytes} {names names' : List (Option Bytes)} {r r' : Regex}
    (hp : parse p = .ok (starOf x, names)) (hp' : parse p' = .ok (plusOf x, names')) (h : compile p = .ok r)
    (h' : compile p' = .ok r') {s : Bytes} {start : Nat} (hstart : start ≤ s.length) :
    SameMatch r r' s start ↔ ∀ q q', FirstEnd List.Nodup r'.prog s start q →
      FirstEnd (Undoubled x.size) r'.prog s start q' → toInt q = toInt q' := by
  have star : r.prog = starProg x := (compile_prog h hp).trans (star_layout x)
  have plus : r'.prog = plusProg x := (compile_prog h' hp').trans (plus_layout x)
  obtain ⟨size, hprog⟩ := compile_bracketed h
  obtain ⟨size', hprog'⟩ := compile_bracketed h'
  have room : 2 ≤ r.ncap := by unfold Regex.ncap; omega
  have room' : 2 ≤ r'.ncap := by unfold Regex.ncap; omega
  have starStop := starProg_tail x 1
  have starDone := starProg_tail x 2
  have plusStop := plusProg_tail x 1
  have plusDone := plusProg_tail x 2
  obtain ⟨m, q, found, opened, closed, first⟩ := rxSearch_first hprog room hstart
    (star ▸ empty_way (by omega) rfl rfl starStop starDone)
  obtain ⟨m', q', found', opened', closed', first'⟩ := rxSearch_first hprog' room' hstart
    (plus ▸ empty_way (by omega) rfl rfl plusStop plusDone)
  have undoubled : FirstEnd (Undoubled x.size) r'.prog s start q := by
    rw [star] at first
    rw [plus]
    exact (firstEnd_iff x start q).mp first
  unfold SameMatch
  rw [found, found', Option.map_some, Option.map_some, opened, closed, opened', closed']
  constructor
  · intro same q₁ q₂ h₁ h₂
    obtain rfl := h₁.unique first'
    obtain rfl := h₂.unique undoubled
    exact (Prod.mk.inj (Option.some.inj same)).2.symm
  · intro same
    rw [same q' q first' undoubled]

/-- The one-byte `X` of `(?:X+)?`. -/
def plusByte : Except String (Node × List (Option Bytes)) → Option UInt8
  | .ok (.rep (.group (.rep (.char c) 1 none true) none) 0 (some 1) true, []) => some c
  | _ => none

theorem sameMatch_a : ∃ r r', compile (ascii "a*") = .ok r ∧ compile (ascii "(?:a+)?") = .ok r' ∧
    (SameMatch r r' [97, 97, 98] 0 ↔ ∀ q q', FirstEnd List.Nodup r'.prog [97, 97, 98] 0 q →
      FirstEnd (Undoubled 1) r'.prog [97, 97, 98] 0 q' → toInt q = toInt q') := by
  have hp : parse (ascii "a*") = .ok (starOf (.char 97), []) := rfl
  have read : plusByte (parse (ascii "(?:a+)?")) = some 97 := by decide +kernel
  have hp' : parse (ascii "(?:a+)?") = .ok (plusOf (.char 97), []) := by
    unfold plusByte at read
    split at read
    · next c parsed => rw [parsed, Option.some.inj read, plusOf]
    · cases read
  have fits (x : Node) (names : List (Option Bytes)) (pat : Bytes) (h : parse pat = .ok (x, names))
      (small : (emitWhole x).overflow = false) :
      compile pat = .ok ⟨(emitWhole x).prog, names.length, names, pat⟩ := by
    rw [compile, h]
    simp only [small, Bool.false_eq_true, if_false]
  have h := fits _ _ _ hp (by decide +kernel)
  have h' := fits _ _ _ hp' (by decide +kernel)
  exact ⟨_, _, h, h', sameMatch_iff hp hp' h h' (Nat.zero_le _)⟩

/-- Both compile, and match `xy` unlike. -/
def unlike : Except Bytes Regex → Except Bytes Regex → Bool
  | .ok r, .ok r' => !decide (SameMatch r r' [120, 121] 0)
  | _, _ => false

/-- `x?y*?` on `xy`: the second iteration of `X*` runs into the place where the first was left. -/
theorem sameMatch_lazy : ∃ r r', compile (ascii "(?:x?y*?)*") = .ok r ∧ compile (ascii "(?:(?:x?y*?)+)?") = .ok r' ∧
    ¬ SameMatch r r' [120, 121] 0 := by
  have differ : unlike (compile (ascii "(?:x?y*?)*")) (compile (ascii "(?:(?:x?y*?)+)?")) = true := by
    decide +kernel
  unfold unlike at differ
  split at differ
  · next r r' compiled compiled' =>
      exact ⟨r, r', compiled, compiled', by simpa using differ⟩
  · cases differ

end Voila.Rx
