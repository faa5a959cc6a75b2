import Voila.Rx.Layout
import Voila.Rx.MachineSound

/-!
# Voila.Rx.Found

What a search gives, for a program that is the code of a tree between the slots 0 and 1.

The slots 0 and 1 of what is found are where the match begins and ends, cut to an `int` (`Bracketed.search_some`),
and it begins where the first match from the start of the search on does (`FirstFrom`).
-/

open List

namespace Voila.Rx

open Voila.Rt (Bytes)
open Voila.Lib (Explores Verdict Leads)

/-! ### The inside of a program -/

/-- An instruction that neither ends a match nor brackets it, and jumps within `[lo, hi]`. -/
def Inner (lo hi : Nat) : Inst → Prop
  | .jmp x => lo ≤ x ∧ x ≤ hi
  | .split x y => (lo ≤ x ∧ x ≤ hi) ∧ lo ≤ y ∧ y ≤ hi
  | .save slot => 2 ≤ slot
  | .done => False
  | _ => True

theorem Inner.mono {lo hi lo' hi' : Nat} {i : Inst} (h : Inner lo hi i) (hlo : lo' ≤ lo) (hhi : hi ≤ hi') :
    Inner lo' hi' i := by
  cases i with
  | jmp x => exact ⟨hlo.trans h.1, h.2.trans hhi⟩
  | split x y => exact ⟨⟨hlo.trans h.1.1, h.1.2.trans hhi⟩, hlo.trans h.2.1, h.2.2.trans hhi⟩
  | _ => exact h

theorem fork_inner {greedy : Bool} {body stop lo hi : Nat} (hbody : lo ≤ body ∧ body ≤ hi)
    (hstop : lo ≤ stop ∧ stop ≤ hi) : Inner lo hi (fork greedy body stop) := by
  cases greedy with
  | true => exact ⟨hbody, hstop⟩
  | false => exact ⟨hstop, hbody⟩

/-- A piece of code whose instructions are all such. -/
def AllInner (lo hi : Nat) (code : Prog) : Prop := ∀ i ∈ code, Inner lo hi i

theorem AllInner.mono {lo hi lo' hi' : Nat} {code : Prog} (h : AllInner lo hi code) (hlo : lo' ≤ lo)
    (hhi : hi ≤ hi') : AllInner lo' hi' code := fun i hi => (h i hi).mono hlo hhi

theorem AllInner.append {lo hi : Nat} {code more : Prog} (h : AllInner lo hi code) (h' : AllInner lo hi more) :
    AllInner lo hi (code ++ more) := forall_mem_append.mpr ⟨h, h'⟩

theorem AllInner.cons {lo hi : Nat} {i : Inst} {code : Prog} (h : Inner lo hi i) (h' : AllInner lo hi code) :
    AllInner lo hi (i :: code) := forall_mem_cons.mpr ⟨h, h'⟩

theorem AllInner.nil {lo hi : Nat} : AllInner lo hi [] := nofun

theorem classes_inner (lo hi : Nat) (sets : List ByteSet) : AllInner lo hi (sets.map .cls) := by
  intro i hi
  obtain ⟨set, -, rfl⟩ := mem_map.mp hi
  trivial

theorem branchAt_inner {sets : List ByteSet} {stop a lo hi : Nat} (hlo : lo ≤ a)
    (hin : a + sets.length + 2 ≤ hi) (hstop : lo ≤ stop ∧ stop ≤ hi) : AllInner lo hi (branchAt sets stop a) :=
  .append (.cons ⟨⟨by omega, by omega⟩, by omega, hin⟩ (classes_inner lo hi sets)) (.cons hstop .nil)

theorem utf8At_inner (ascii : ByteSet) (a : Nat) : AllInner a (a + 16) (utf8At ascii a) :=
  have stop : a ≤ a + 16 ∧ a + 16 ≤ a + 16 := ⟨by omega, le_rfl⟩
  ((branchAt_inner le_rfl (by simp) stop).append (branchAt_inner (by omega) (by simp) stop)).append
    (branchAt_inner (by omega) (by simp) stop) |>.append (classes_inner _ _ _)

variable {body : Nat → Prog} {cap : Caps} {i : Nat} {e : Place × Caps} {visited : Set Place}

theorem copiesAt_inner {size : Nat} (hbody : ∀ a, AllInner a (a + size) (body a)) (k a : Nat) :
    AllInner a (a + k * size) (copiesAt body size k a) := by
  induction k generalizing a with
  | zero => exact .nil
  | succ k ih =>
    have room : a + (k + 1) * size = a + size + k * size := by rw [Nat.succ_mul]; omega
    rw [room]
    exact ((hbody a).mono le_rfl (Nat.le_add_right _ _)).append ((ih (a + size)).mono (Nat.le_add_right _ _) le_rfl)

theorem optionsAt_inner {size : Nat} (hbody : ∀ a, AllInner a (a + size) (body a))
    (greedy : Bool) (k a stop : Nat) (hstop : a + k * (size + 1) ≤ stop) :
    AllInner a stop (optionsAt body size greedy stop k a) := by
  induction k generalizing a with
  | zero => exact .nil
  | succ k ih =>
    rw [Nat.succ_mul] at hstop
    have here : Inner a stop (fork greedy (a + 1) stop) := fork_inner (by omega) (by omega)
    have inside : AllInner a stop (body (a + 1)) := (hbody (a + 1)).mono (by omega) (by omega)
    have later : AllInner a stop _ := (ih (a + size + 1) (by omega)).mono (by omega) le_rfl
    exact .append (.cons here inside) later

theorem Node.code_inner (n : Node) (a : Nat) : AllInner a (a + n.size) (n.code a) := by
  induction n generalizing a with
  | empty bol eol =>
    refine .append ?_ ?_
    · cases bol with
      | false => exact .nil
      | true => exact .cons trivial .nil
    · cases eol with
      | false => exact .nil
      | true => exact .cons trivial .nil
  | char c => exact .cons trivial .nil
  | any => exact utf8At_inner anySet a
  | cls set negated =>
    cases negated with
    | true => exact utf8At_inner (outsideSet set) a
    | false => exact .cons trivial .nil
  | cat l r ihl ihr =>
    rw [code, size, ← Nat.add_assoc]
    exact ((ihl a).mono le_rfl (Nat.le_add_right _ _)).append ((ihr _).mono (Nat.le_add_right _ _) le_rfl)
  | alt l r ihl ihr =>
    rw [code, size]
    exact .append (.cons ⟨by omega, by omega⟩ ((ihl _).mono (by omega) (by omega)))
      (.cons ⟨by omega, by omega⟩ ((ihr _).mono (by omega) (by omega)))
  | rep l lo hi greedy ih =>
    cases hi with
    | none =>
      rw [code, size]
      refine ((copiesAt_inner ih lo a).mono le_rfl (by omega)).append ?_
      exact .append (.cons (fork_inner (by omega) (by omega)) ((ih _).mono (by omega) (by omega)))
        (.cons ⟨by omega, by omega⟩ .nil)
    | some hi =>
      rw [code, size, ← Nat.add_assoc]
      exact ((copiesAt_inner ih lo a).mono le_rfl (Nat.le_add_right _ _)).append
        ((optionsAt_inner ih greedy _ _ _ le_rfl).mono (Nat.le_add_right _ _) le_rfl)
  | group l g ih =>
    cases g with
    | none => exact ih a
    | some g =>
      have slots : 2 ≤ 2 * g.val ∧ 2 ≤ 2 * g.val + 1 := ⟨by have := g.2; omega, by have := g.2; omega⟩
      rw [code, size]
      exact .append (.cons slots.1 ((ih _).mono (by omega) (by omega))) (.cons slots.2 .nil)

/-- A program whose inside is bracketed in the slots 0 and 1. -/
structure Bracketed (prog : Prog) (size : Nat) : Prop where
  layout : ∃ body, prog = .save 0 :: body ++ [.save 1, .done] ∧ body.length = size ∧ AllInner 1 (size + 1) body

/-- What is compiled is bracketed. -/
theorem compile_bracketed {pat : Bytes} {r : Regex} (h : compile pat = .ok r) : ∃ size, Bracketed r.prog size := by
  obtain ⟨tree, layout⟩ := compile_layout h
  exact ⟨tree.size, tree.code 1, layout, tree.code_length 1, Nat.add_comm 1 _ ▸ tree.code_inner 1⟩

/-- Where an instruction of a bracketed program stands. -/
theorem Bracketed.fetch {prog : Prog} {size : Nat} (h : Bracketed prog size) {pc : Nat} {i : Inst}
    (hi : prog[pc]? = some i) :
    (pc = 0 ∧ i = .save 0) ∨ (0 < pc ∧ pc ≤ size ∧ Inner 1 (size + 1) i) ∨ (pc = size + 1 ∧ i = .save 1) ∨
      (pc = size + 2 ∧ i = .done) := by
  obtain ⟨body, rfl, rfl, inner⟩ := h.layout
  cases pc with
  | zero => exact .inl ⟨rfl, (Option.some.inj hi).symm⟩
  | succ pc =>
    rw [cons_append, List.getElem?_cons_succ] at hi
    by_cases inside : pc < body.length
    · rw [List.getElem?_append_left inside] at hi
      exact .inr (.inl ⟨Nat.succ_pos pc, inside, inner i (List.mem_of_getElem? hi)⟩)
    · rw [List.getElem?_append_right (Nat.le_of_not_lt inside)] at hi
      match hk : pc - body.length, hi with
      | 0, hi => exact .inr (.inr (.inl ⟨by omega, (Option.some.inj hi).symm⟩))
      | 1, hi => exact .inr (.inr (.inr ⟨by omega, (Option.some.inj hi).symm⟩))

/-! ### The slots along a way -/

theorem toInt_le (p : Nat) : toInt p ≤ p := by
  unfold toInt
  omega

theorem toInt_lt (p : Nat) : toInt p < 2 ^ 31 := by
  unfold toInt
  omega

theorem toInt_small {p : Nat} (h : p < 2 ^ 31) : toInt p = p := by
  unfold toInt
  omega

theorem slot_set (hi : i < cap.length) (v : Int) : Caps.slot (cap.set i v) i = v := by
  simp [Caps.slot, hi]

theorem slot_set_ne {i j : Nat} (h : j ≠ i) (v : Int) : Caps.slot (cap.set j v) i = cap.slot i := by
  simp [Caps.slot, List.getElem?_set_ne h]

/-- What holds at a place that a way from the offset `i` comes to: the slot 0 is set behind the first instruction,
and the slot 1 at the last. -/
structure Traced (size len ncap i : Nat) (e : Place × Caps) : Prop where
  values : ∀ v ∈ e.2, v ≤ (len : Int)
  width : e.2.length = ncap
  behind : i ≤ e.1.2
  within : e.1.2 ≤ len
  first : e.1.1 = 0 → e.1.2 = i
  opened : 0 < e.1.1 → e.1.1 ≤ size + 2 ∧ e.2.slot 0 = toInt i
  closed : e.1.1 = size + 2 → e.2.slot 1 = toInt e.1.2

variable {prog : Prog} {size : Nat} {input : Bytes} {ncap : Nat}

theorem Traced.start (hi : i ≤ input.length) :
    Traced size input.length ncap i ((0, i), List.replicate ncap (-1)) where
  values v hv := by
    rw [eq_of_mem_replicate hv]
    omega
  width := length_replicate
  behind := le_rfl
  within := hi
  first _ := rfl
  opened h := absurd h (Nat.lt_irrefl 0)
  closed h := absurd h.symm (Nat.succ_ne_zero _)

/-- A way goes on inside of the program, and leaves the slots 0 and 1 alone there. -/
theorem Traced.inside (h : Traced size input.length ncap i e) {pc sp : Nat}
    (was : 0 < e.1.1) (hpc : 0 < pc ∧ pc ≤ size + 1) (hsp : e.1.2 ≤ sp ∧ sp ≤ input.length)
    (hvalues : ∀ v ∈ cap, v ≤ (input.length : Int)) (hwidth : cap.length = e.2.length)
    (hslot : cap.slot 0 = e.2.slot 0) : Traced size input.length ncap i ((pc, sp), cap) where
  values := hvalues
  width := hwidth.trans h.width
  behind := h.behind.trans hsp.1
  within := hsp.2
  first h := absurd hpc.1 (by simp at h; omega)
  opened _ := ⟨hpc.2.trans (Nat.le_succ _), hslot.trans (h.opened was).2⟩
  closed h := absurd hpc.2 (by simp at h; omega)

theorem Traced.saved (h : Traced size input.length ncap i e) (slot : Nat) :
    ∀ v ∈ e.2.set slot (toInt e.1.2), v ≤ (input.length : Int) := by
  intro v hv
  obtain hv | hv := mem_or_eq_of_mem_set hv
  · exact h.values v hv
  · rw [hv]
    exact (toInt_le _).trans (by exact_mod_cast h.within)

theorem consume_within {pc sp : Nat} (h : consume prog pc input[sp]? = true) : sp < input.length := by
  by_contra past
  rw [List.getElem?_eq_none (Nat.le_of_not_lt past)] at h
  unfold consume at h
  split at h
  · exact absurd ‹none = some _› nofun
  · exact absurd ‹none = some _› nofun
  · exact absurd h (by simp)

theorem Traced.step (hprog : Bracketed prog size) (hncap : 2 ≤ ncap) {i : Nat} {e e' : Place × Caps}
    (h : Traced size input.length ncap i e) (next : e' ∈ branches prog input e.1 e.2) :
    Traced size input.length ncap i e' := by
  obtain ⟨⟨pc, sp⟩, cap⟩ := e
  unfold branches at next
  dsimp only at next
  cases hi : prog[pc]? with
  | none => simp [hi, consume] at next
  | some inst =>
    rw [hi] at next
    obtain ⟨rfl, rfl⟩ | ⟨low, high, inner⟩ | ⟨rfl, rfl⟩ | ⟨rfl, rfl⟩ := hprog.fetch hi
    · -- the first instruction
      obtain rfl := mem_singleton.mp next
      have here : sp = i := h.first rfl
      have room : 0 < cap.length := by rw [h.width]; omega
      exact ⟨h.saved 0, (length_set).trans h.width, h.behind, h.within, (by simp),
        fun _ => ⟨Nat.succ_le_succ (Nat.zero_le _), by rw [slot_set room, here]⟩, fun h => absurd h (by simp)⟩
    · have go (pc' sp' : Nat) (hpc : 0 < pc' ∧ pc' ≤ size + 1) (hsp : sp ≤ sp' ∧ sp' ≤ input.length) :
          Traced size input.length ncap i ((pc', sp'), cap) := h.inside low hpc hsp h.values rfl rfl
      have here : sp ≤ sp ∧ sp ≤ input.length := ⟨le_rfl, h.within⟩
      have after : 0 < pc + 1 ∧ pc + 1 ≤ size + 1 := ⟨Nat.succ_pos pc, Nat.succ_le_succ high⟩
      have eaten (h : e' ∈ if consume prog pc input[sp]? = true then [((pc + 1, sp + 1), cap)] else []) :
          Traced size input.length ncap i e' := by
        split at h
        · rename_i ate
          obtain rfl := mem_singleton.mp h
          exact go (pc + 1) (sp + 1) after ⟨Nat.le_succ sp, consume_within ate⟩
        · exact absurd h not_mem_nil
      cases inst with
      | jmp x =>
        obtain rfl := mem_singleton.mp next
        exact go x sp inner here
      | split x y =>
        obtain rfl | next := mem_cons.mp next
        · exact go x sp inner.1 here
        · obtain rfl := mem_singleton.mp next
          exact go y sp inner.2 here
      | save slot =>
        obtain rfl := mem_singleton.mp next
        have other : slot ≠ 0 := fun none => absurd (show 2 ≤ slot from inner) (by omega)
        exact h.inside low after here (h.saved slot) length_set (slot_set_ne other _)
      | bol =>
        dsimp only at next
        split at next
        · obtain rfl := mem_singleton.mp next
          exact go (pc + 1) sp after here
        · exact absurd next not_mem_nil
      | eol =>
        dsimp only at next
        split at next
        · obtain rfl := mem_singleton.mp next
          exact go (pc + 1) sp after here
        · exact absurd next not_mem_nil
      | char c => exact eaten next
      | cls set => exact eaten next
      | done => exact eaten next
    · -- the slot 1
      obtain rfl := mem_singleton.mp next
      have room : 1 < cap.length := by rw [h.width]; omega
      refine ⟨h.saved 1, (length_set).trans h.width, h.behind, h.within, (by simp), fun _ => ⟨le_rfl, ?_⟩, fun _ => ?_⟩
      · rw [slot_set_ne Nat.one_ne_zero]
        exact (h.opened (Nat.succ_pos _)).2
      · exact slot_set room _
    · simp [hi, consume] at next

theorem Traced.reached (hprog : Bracketed prog size) (hncap : 2 ≤ ncap) (hi : i ≤ input.length)
    (h : Leads (branches prog input) ((0, i), List.replicate ncap (-1)) e) :
    Traced size input.length ncap i e := by
  induction h with
  | refl => exact .start hi
  | tail _ next ih => exact ih.step hprog hncap next

/-- A match at the end of a way. -/
theorem Traced.done (hprog : Bracketed prog size) {i : Nat} {n : Place} {cap : Caps}
    (h : Traced size input.length ncap i (n, cap)) (isDone : IsDone prog n) :
    i ≤ n.2 ∧ n.2 ≤ input.length ∧ cap.slot 0 = toInt i ∧ cap.slot 1 = toInt n.2 := by
  obtain ⟨_, no⟩ | ⟨_, _, no⟩ | ⟨_, no⟩ | ⟨last, _⟩ := hprog.fetch isDone
  · exact absurd no nofun
  · exact no.elim
  · exact absurd no nofun
  · exact ⟨h.behind, h.within, (h.opened (by rw [last]; exact Nat.succ_pos _)).2, h.closed last⟩

/-! ### Where the first match begins -/

/-- There is a match from an offset on. -/
def HasMatch (prog : Prog) (input : Bytes) (ncap i : Nat) : Prop :=
  ∃ n cap, IsDone prog n ∧ Leads (branches prog input) ((0, i), List.replicate ncap (-1)) (n, cap)

/-- The first offset from `start` on that there is a match from. -/
structure FirstFrom (prog : Prog) (input : Bytes) (ncap : Nat) (start i : Nat) : Prop where
  behind : start ≤ i
  matched : HasMatch prog input ncap i
  first : ∀ j, start ≤ j → j < i → ¬ HasMatch prog input ncap j

theorem FirstFrom.unique {start i j : Nat} (h : FirstFrom prog input ncap start i)
    (h' : FirstFrom prog input ncap start j) : i = j := by
  obtain less | same | more := Nat.lt_trichotomy i j
  · exact absurd h.matched (h'.first i h.behind less)
  · exact same
  · exact absurd h'.matched (h.first j h'.behind more)

/-- Nodes that nothing leads out of, and that are no goals. -/
def Barren (prog : Prog) (input : Bytes) (visited : Set Place) : Prop :=
  ∀ n ∈ visited, ¬ IsDone prog n ∧ ∀ cap, ∀ e ∈ branches prog input n cap, e.1 ∈ visited

/-- Where a way goes does not depend on what is captured on it. -/
theorem branches_places (n : Place) (cap cap' : Caps) (h : e ∈ branches prog input n cap) :
    ∃ e' ∈ branches prog input n cap', e'.1 = e.1 := by
  have same : (branches prog input n cap).map Prod.fst = (branches prog input n cap').map Prod.fst := by
    unfold branches
    split <;> (try split) <;> rfl
  have here : e.1 ∈ (branches prog input n cap').map Prod.fst := same ▸ mem_map_of_mem h
  obtain ⟨e', he', same⟩ := mem_map.mp here
  exact ⟨e', he', same⟩

theorem Barren.of_left {visited visited' : Set Place} {stack : List (Place × Caps)} (h : Barren prog input visited)
    (left : Explores (IsDone prog) (branches prog input) visited stack (.left visited')) :
    Barren prog input visited' ∧ ∀ e ∈ stack, e.1 ∈ visited' := by
  obtain ⟨grows, all, closed⟩ := left.closed
  refine ⟨fun n hn => ?_, all⟩
  obtain before | ⟨notDone, cap', follows⟩ := closed n hn
  · exact ⟨(h n before).1, fun cap e he => grows ((h n before).2 cap e he)⟩
  · refine ⟨notDone, fun cap e he => ?_⟩
    obtain ⟨e', he', same⟩ := branches_places n cap cap' he
    exact same ▸ follows e' he'

theorem Barren.hasMatch (h : Barren prog input visited) (hi : (0, i) ∈ visited) :
    ¬ HasMatch prog input ncap i := by
  intro ⟨n, cap, isDone, reached⟩
  have stays {e : Place × Caps} (way : Leads (branches prog input) ((0, i), List.replicate ncap (-1)) e) :
      e.1 ∈ visited := by
    induction way with
    | refl => exact hi
    | tail _ next ih => exact (h _ ih).2 _ _ next
  exact (h n (stays reached)).1 isDone

/-- The starting positions are tried one after the other. -/
theorem starts_found (h : Barren prog input visited) {k start : Nat}
    (hk : input.length + 1 - start = k)
    (found : Explores (IsDone prog) (branches prog input) visited (starts ncap input start) (.found cap)) :
    ∃ i n, FirstFrom prog input ncap start i ∧ i ≤ input.length ∧ IsDone prog n ∧
      Leads (branches prog input) ((0, i), List.replicate ncap (-1)) (n, cap) := by
  induction k generalizing visited start with
  | zero =>
    rw [starts_end ncap (by omega)] at found
    cases found
  | succ k ih =>
    have within : start ≤ input.length := by omega
    rw [starts_cons ncap within, ← singleton_append] at found
    obtain ⟨c, same, here⟩ | ⟨visited', left, later⟩ := found.split
    · obtain rfl := Verdict.found.inj same
      obtain ⟨e, he, n, isDone, reached⟩ := here.sound
      obtain rfl := mem_singleton.mp he
      exact ⟨start, n, ⟨le_rfl, ⟨n, cap, isDone, reached⟩, fun j hj less => absurd less (Nat.not_lt.mpr hj)⟩, within,
        isDone, reached⟩
    · obtain ⟨barren, all⟩ := h.of_left left
      obtain ⟨i, n, first, hi, isDone, reached⟩ := ih barren (by omega) later
      refine ⟨i, n, ⟨(Nat.le_succ _).trans first.behind, first.matched, fun j hj less => ?_⟩, hi, isDone, reached⟩
      obtain rfl | more := Nat.eq_or_lt_of_le hj
      · exact barren.hasMatch (all _ mem_cons_self)
      · exact first.first j more less

variable {start : Nat}

/-- What a search finds: the first match, with the slots 0 and 1 at its ends. -/
theorem rxSearch_some (hprog : Bracketed prog size) (hncap : 2 ≤ ncap) {m : Caps}
    (h : rxSearch prog ncap input start = some m) :
    ∃ i e, FirstFrom prog input ncap start i ∧ i ≤ e ∧ e ≤ input.length ∧ m.slot 0 = toInt i ∧ m.slot 1 = toInt e ∧
      ∀ v ∈ m, v ≤ (input.length : Int) := by
  have found : Ends prog input ∅ (starts ncap input start) (some m) :=
    (rxSearch_backtracks prog ncap input start (some m)).mpr h.symm
  obtain ⟨i, n, first, hi, isDone, reached⟩ := starts_found (fun _ no => no.elim) rfl found
  have traced := Traced.reached hprog hncap hi reached
  obtain ⟨behind, within, opened, closed⟩ := traced.done hprog isDone
  exact ⟨i, n.2, first, behind, within, opened, closed, traced.values⟩

/-- A search that finds nothing: there is no match. -/
theorem rxSearch_none (h : rxSearch prog ncap input start = none) (hi : start ≤ i)
    (within : i ≤ input.length) : ¬ HasMatch prog input ncap i := by
  obtain ⟨visited, left⟩ := (rxSearch_backtracks prog ncap input start none).mpr h.symm
  have bare : Barren prog input ∅ := fun _ no => no.elim
  obtain ⟨barren, all⟩ := bare.of_left left
  refine barren.hasMatch (all ((0, i), List.replicate ncap (-1)) ?_)
  exact mem_map.mpr ⟨i, List.mem_range'_1.mpr ⟨hi, by omega⟩, rfl⟩

end Voila.Rx
