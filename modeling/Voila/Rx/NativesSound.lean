import Voila.Rx.Found

/-!
# Voila.Rx.NativesSound

What `find_all`, `replace` and `split` do with the whole of a subject.

Each loop goes from match to match and leaves nothing out, as long as the ends of the matches are offsets that the
searches give as they are (`Passes`). A search gives them as `int`s, so this is a condition: no match that is come
to begins past `2^31`, nor is given an end before its beginning (`Fits`). It is also needed: where it does not hold,
a loop does not end, or a character is lost (`rebuilds_iff`).
-/

open List

namespace Voila.Rx

open Voila.Rt (Bytes)
open Voila.Rt.Json (ch)

/-! ### What the loops are for -/

/-- The text of a match. -/
def spanText (s : Bytes) (m : Caps) : Bytes := (s.drop (m.slot 0).toNat).take (m.slot 1 - m.slot 0).toNat

/-- No offset is in both matches. -/
def Apart (m m' : Caps) : Prop :=
  ∀ k, ¬ (m.slot 0 ≤ k ∧ k < m.slot 1 ∧ m'.slot 0 ≤ k ∧ k < m'.slot 1)

/-- Pieces with something between any two. -/
def weave : List Bytes → List Bytes → Option Bytes
  | [p], [] => some p
  | p :: ps, m :: ms => (weave ps ms).map (p ++ m ++ ·)
  | _, _ => none

/-- What is asked of a pattern and a subject. The matches that `split` consumes are those of `find_all` that are
not empty. -/
structure Rebuilds (r : Regex) (s : Bytes) : Prop where
  replaced : ∃ n, replace r s [ch '$', ch '0'] n = some s
  found : ∃ n ms, findAllLoop r s n 0 = some ms ∧ (findAll r s n).isSome ∧
    ms.Pairwise fun m m' => m.slot 0 < m'.slot 0 ∧ Apart m m'
  pieces : ∃ n ms ps, findAllLoop r s n 0 = some ms ∧ split r s n = some ps ∧
    weave ps ((ms.filter fun m => m.slot 0 < m.slot 1).map (spanText s)) = some s

/-- The offsets that the loops search from. -/
inductive Comes (r : Regex) (s : Bytes) : Int → Prop
  | start : Comes r s 0
  | next {start next : Int} {m : Caps} : Comes r s start → start ≤ s.length → r.search s start = some (some m) →
      nextStart s m = some next → Comes r s next

/-- A match that is come to begins before `2^31`, and its end, as an `int`, is not before its beginning. -/
def Fits (r : Regex) (s : Bytes) : Prop :=
  ∀ start m i, Comes r s start → r.search s start = some (some m) →
    FirstFrom r.prog s r.ncap start.toNat i → i < 2 ^ 31 ∧ m.slot 0 ≤ m.slot 1

/-! ### Parts of a subject -/

variable {s : Bytes}

/-- The bytes from `a` up to `b`. -/
def cut (s : Bytes) (a b : Nat) : Bytes := (s.drop a).take (b - a)

theorem strN_cut {a b : Nat} (hab : a ≤ b) (hb : b ≤ s.length) : strN s a ((b : Int) - a) = some (cut s a b) := by
  unfold strN cut
  rw [if_pos ⟨by omega, by omega, by omega⟩]
  congr 2
  omega

theorem strN_drop {a : Nat} (ha : a ≤ s.length) : strN s a ((s.length : Int) - a) = some (s.drop a) := by
  rw [strN_cut ha le_rfl, cut, take_of_length_le (by simp)]

theorem cut_drop {a b : Nat} (hab : a ≤ b) : cut s a b ++ s.drop b = s.drop a := by
  have rest : s.drop b = (s.drop a).drop (b - a) := by rw [drop_drop, Nat.add_sub_cancel' hab]
  rw [cut, rest, take_append_drop]

variable {t : Bytes} {ms : List Caps} {start : Nat} {m : Caps}

theorem strN_length {a n : Int} (h : strN s a n = some t) : (t.length : Int) = n := by
  unfold strN at h
  split at h
  · rename_i bounds
    cases h
    rw [length_take, length_drop]
    omega
  · exact absurd h nofun

/-- A sequence stays within the subject. -/
theorem seqlen_within {i : Int} (hi : 0 ≤ i) (h : i < s.length) :
    ∃ k : Nat, seqlen s i = some (k : Int) ∧ 0 < k ∧ k ≤ 4 ∧ i + k ≤ s.length := by
  have inside : i.toNat < s.length := by omega
  unfold seqlen
  rw [if_neg (by omega), List.getElem?_eq_getElem inside]
  simp only [Option.bind_eq_bind, Option.bind_some, Option.pure_def]
  generalize hn : (if s[i.toNat] ≥ 0xF0 then (4 : Int) else if s[i.toNat] ≥ 0xE0 then 3
    else if s[i.toNat] ≥ 0xC0 then 2 else 1) = n
  have bounds : 1 ≤ n ∧ n ≤ 4 := by
    rw [← hn]
    split
    · omega
    · split
      · omega
      · split <;> omega
  split
  · exact ⟨1, rfl, by omega, by omega, by omega⟩
  · exact ⟨n.toNat, by rw [Int.toNat_of_nonneg (by omega)], by omega, by omega, by omega⟩

theorem seqlen_some {i k : Int} (h : seqlen s i = some k) : 0 ≤ i ∧ 1 ≤ k ∧ k ≤ 4 := by
  by_cases neg : i < 0
  · simp [seqlen, neg] at h
  · by_cases past : i < s.length
    · obtain ⟨n, same, low, high, -⟩ := seqlen_within (Int.not_lt.mp neg) past
      obtain rfl := Option.some.inj (same.symm.trans h)
      omega
    · have out : s[i.toNat]? = none := List.getElem?_eq_none (by omega)
      simp [seqlen, neg, out] at h

/-! ### Loops that leave nothing out -/

/-- A match from `b` to `e`. -/
structure Spanned (s : Bytes) (start : Nat) (m : Caps) (b e : Nat) : Prop where
  first : m.slot 0 = b
  last : m.slot 1 = e
  after : start ≤ b
  forward : b ≤ e
  within : e ≤ s.length
  values : ∀ v ∈ m, v ≤ (s.length : Int)

/-- Where the search after a match from `b` to `e` starts. -/
inductive Next (s : Bytes) : Nat → Nat → Nat → Prop
  | full {b e : Nat} : b < e → Next s b e e
  | empty {b : Nat} (k : Nat) : b < s.length → seqlen s b = some (k : Int) → 0 < k → b + k ≤ s.length →
      Next s b b (b + k)
  | last : Next s s.length s.length (s.length + 1)

theorem Spanned.next {start b e : Nat} {m : Caps} (h : Spanned s start m b e) :
    ∃ next : Nat, nextStart s m = some (next : Int) ∧ Next s b e next := by
  unfold nextStart
  rw [h.first, h.last]
  by_cases full : b < e
  · rw [if_pos (by omega)]
    exact ⟨e, rfl, .full full⟩
  · obtain rfl : b = e := le_antisymm h.forward (Nat.le_of_not_lt full)
    rw [if_neg (by omega)]
    by_cases inside : b < s.length
    · obtain ⟨k, same, low, -, high⟩ := seqlen_within (s := s) (i := b) (by omega) (by omega)
      rw [if_pos (by omega), same]
      exact ⟨b + k, rfl, .empty k inside same low (by omega)⟩
    · obtain rfl : b = s.length := le_antisymm h.within (Nat.le_of_not_lt inside)
      rw [if_neg (by omega)]
      exact ⟨s.length + 1, rfl, .last⟩

/-- The way of the loops from an offset on, with the matches that they come to. -/
inductive Passes (r : Regex) (s : Bytes) : Nat → List Caps → Prop
  | past {start : Nat} : s.length < start → Passes r s start []
  | ended {start : Nat} : start ≤ s.length → r.search s start = some none → Passes r s start []
  | turn {start b e next : Nat} {m : Caps} {ms : List Caps} : r.search s start = some (some m) →
      Spanned s start m b e → Next s b e next → nextStart s m = some (next : Int) → Passes r s next ms →
      Passes r s start (m :: ms)

variable {r : Regex}

theorem Next.behind {b e next : Nat} (h : Next s b e next) : b < next ∧ e ≤ next := by
  cases h with
  | full h => exact ⟨h, le_rfl⟩
  | empty k _ _ low => exact ⟨Nat.lt_add_of_pos_right low, Nat.le_add_right _ _⟩
  | last => exact ⟨Nat.lt_succ_self _, Nat.le_succ _⟩

theorem Passes.findAllLoop (h : Passes r s start ms) :
    Voila.Rx.findAllLoop r s (ms.length + 1) start = some ms := by
  induction h with
  | past past => rw [Voila.Rx.findAllLoop, if_neg (by omega)]
  | ended within none =>
    rw [length_nil, Voila.Rx.findAllLoop, if_pos (by omega), none]
    rfl
  | turn found spanned next hnext _ ih =>
    have within := spanned.after.trans (spanned.forward.trans spanned.within)
    rw [length_cons, Voila.Rx.findAllLoop, if_pos (by omega), found]
    simp [hnext, ih]

/-- The matches begin one behind the other, and share no offset. -/
theorem Passes.ordered {start : Nat} {ms : List Caps} (h : Passes r s start ms) :
    (∀ m ∈ ms, (start : Int) ≤ m.slot 0) ∧ ms.Pairwise fun m m' => m.slot 0 < m'.slot 0 ∧ Apart m m' := by
  induction h with
  | past => exact ⟨nofun, .nil⟩
  | ended => exact ⟨nofun, .nil⟩
  | turn _ spanned next _ _ ih =>
    obtain ⟨later, ordered⟩ := ih
    obtain ⟨behind, past⟩ := next.behind
    have first := spanned.first
    have last := spanned.last
    have after := spanned.after
    refine ⟨?_, ordered.cons fun m' hm' => ?_⟩
    · intro m' hm'
      obtain rfl | hm' := mem_cons.mp hm'
      · omega
      · have := later m' hm'
        omega
    · have := later m' hm'
      refine ⟨by omega, fun k hk => ?_⟩
      omega

theorem slot_le {len : Nat} (h : ∀ v ∈ m, v ≤ (len : Int)) (i : Nat) : m.slot i ≤ len := by
  unfold Caps.slot
  rw [List.getD_eq_getElem?_getD]
  cases hv : m[i]? with
  | none => exact Int.le_trans (by decide) (Int.natCast_nonneg len)
  | some v => exact h v (List.mem_of_getElem? hv)

/-- The text of a group is within the subject. -/
theorem groupText_isSome (h : ∀ v ∈ m, v ≤ (s.length : Int)) (g : Nat) : (groupText s m g).isSome := by
  have last := slot_le h (2 * g + 1)
  unfold groupText
  dsimp only
  split
  · rfl
  · rw [strN, if_pos (by omega)]
    rfl

theorem mapM_isSome {α β : Type} {f : α → Option β} {l : List α} (h : ∀ a ∈ l, (f a).isSome) :
    (l.mapM f).isSome := by
  induction l with
  | nil => rfl
  | cons a l ih =>
    obtain ⟨b, hb⟩ := Option.isSome_iff_exists.mp (h a mem_cons_self)
    obtain ⟨bs, hbs⟩ := Option.isSome_iff_exists.mp (ih fun a ha => h a (mem_cons_of_mem _ ha))
    simp [mapM_cons, hb, hbs]

theorem Passes.capsSlice (h : Passes r s start ms) :
    ∀ m ∈ ms, (Voila.Rx.capsSlice r s m).isSome := by
  induction h with
  | past => exact nofun
  | ended => exact nofun
  | turn _ spanned _ _ _ ih =>
    intro m' hm'
    obtain rfl | hm' := mem_cons.mp hm'
    · exact mapM_isSome fun g _ => groupText_isSome spanned.values g
    · exact ih m' hm'

/-! ### `replace` -/

theorem expandRepl_whole (m : Caps) :
    expandRepl r s m 2 [ch '$', ch '0'] = groupText s m 0 := by
  have zero : dollar r s m [ch '0'] = some (groupText s m 0, []) := by
    have digits : digit (ch '0') = true ∧ (ch '0').toNat - 48 ≤ r.ngroups := ⟨by decide, Nat.zero_le _⟩
    unfold dollar
    dsimp only
    rw [if_neg (by decide), if_neg (by decide), if_pos digits]
    rfl
  rw [expandRepl, if_pos rfl, zero]
  cases groupText s m 0 with
  | none => rfl
  | some t => simp [expandRepl]

theorem Spanned.text {start b e : Nat} (h : Spanned s start m b e) :
    groupText s m 0 = some (cut s b e) := by
  have forward := h.forward
  unfold groupText
  dsimp only
  rw [Nat.mul_zero, h.first, h.last, if_neg (by omega)]
  exact strN_cut h.forward h.within

theorem Spanned.spanText {start b e : Nat} (h : Spanned s start m b e) :
    Voila.Rx.spanText s m = cut s b e := by
  have forward := h.forward
  rw [Voila.Rx.spanText, cut, h.first, h.last, Int.toNat_natCast]
  congr 1
  omega

/-- What is written for a match is the subject up to where the search goes on. -/
theorem Spanned.replaceMatch {start b e next : Nat} (h : Spanned s start m b e) (hnext : Next s b e next) :
    ∃ t, Voila.Rx.replaceMatch r s [ch '$', ch '0'] start m = some t ∧ t ++ s.drop next = s.drop start := by
  have before : (if m.slot 0 > start then strN s start (m.slot 0 - start) else some []) = some (cut s start b) := by
    have after := h.after
    rw [h.first]
    split
    · exact strN_cut h.after (h.forward.trans h.within)
    · obtain rfl : start = b := by omega
      simp [cut]
  have text : expandRepl r s m [ch '$', ch '0'].length [ch '$', ch '0'] = some (cut s b e) :=
    (expandRepl_whole m).trans h.text
  unfold Voila.Rx.replaceMatch
  dsimp only
  rw [before, text, h.first, h.last]
  cases hnext with
  | full full =>
    rw [if_neg (by omega)]
    exact ⟨_, rfl, by simp [append_assoc, cut_drop h.forward, cut_drop h.after]⟩
  | empty k inside same low high =>
    rw [if_pos ⟨rfl, by omega⟩, same]
    have kept : strN s b (k : Int) = some (cut s b (b + k)) := by
      have := strN_cut (s := s) (Nat.le_add_right b k) high
      rwa [show ((b + k : Nat) : Int) - b = k by omega] at this
    simp only [Option.bind_eq_bind, Option.bind_some, Option.pure_def, kept]
    exact ⟨_, rfl, by
      simp [append_assoc, cut_drop (Nat.le_add_right b k), cut_drop h.forward, cut_drop h.after]⟩
  | last =>
    rw [if_neg (by omega)]
    refine ⟨_, rfl, ?_⟩
    have nothing : s.drop (s.length + 1) = s.drop s.length := by simp
    simp only [List.append_nil]
    rw [nothing, append_assoc, cut_drop h.forward, cut_drop h.after]

theorem Passes.replaceLoop (h : Passes r s start ms) :
    Voila.Rx.replaceLoop r s [ch '$', ch '0'] (ms.length + 1) start = some (s.drop start) := by
  have tail (start : Nat) : (if (start : Int) < s.length then strN s start (s.length - start) else some []) =
      some (s.drop start) := by
    split
    · exact strN_drop (by omega)
    · rw [drop_eq_nil_of_le (by omega)]
  induction h with
  | past past =>
    rw [Voila.Rx.replaceLoop, if_neg (by omega)]
    exact tail _
  | ended within none =>
    rw [length_nil, Voila.Rx.replaceLoop, if_pos (by omega), none]
    exact tail _
  | turn found spanned next hnext _ ih =>
    have within := spanned.after.trans (spanned.forward.trans spanned.within)
    obtain ⟨t, here, whole⟩ := spanned.replaceMatch (r := r) next
    rw [length_cons, Voila.Rx.replaceLoop, if_pos (by omega), found]
    simp [here, hnext, ih, whole]

/-! ### `split` -/

theorem Passes.past_nil (h : Passes r s start ms) (past : s.length < start) : ms = [] := by
  cases h with
  | past => rfl
  | ended => rfl
  | turn _ spanned =>
    have within := spanned.after.trans (spanned.forward.trans spanned.within)
    omega

/-- The pieces from `piece` on, with the matches between them. -/
theorem Passes.splitLoop (h : Passes r s start ms) {piece : Nat}
    (hpiece : piece ≤ start) (hin : piece ≤ s.length) :
    ∃ ps, Voila.Rx.splitLoop r s (ms.length + 1) start piece = some ps ∧
      weave ps ((ms.filter fun m => m.slot 0 < m.slot 1).map (spanText s)) = some (s.drop piece) := by
  have last : (strN s piece (s.length - piece)).map ([·]) = some [s.drop piece] := by rw [strN_drop hin]; rfl
  induction h generalizing piece with
  | past past =>
    rw [Voila.Rx.splitLoop, if_neg (by omega)]
    exact ⟨_, last, rfl⟩
  | ended within none =>
    rw [length_nil, Voila.Rx.splitLoop, if_pos (by omega), none]
    exact ⟨_, last, rfl⟩
  | @turn start b e next m ms found spanned hnext hstart rest ih =>
    have within := spanned.after.trans (spanned.forward.trans spanned.within)
    have first := spanned.first
    have ending := spanned.last
    rw [length_cons, Voila.Rx.splitLoop, if_pos (by omega), found]
    simp only [Option.bind_eq_bind, Option.bind_some]
    cases hnext with
    | full full =>
      rw [if_neg (by omega), filter_cons_of_pos (by simp; omega), map_cons]
      have bounds : piece ≤ b := hpiece.trans spanned.after
      obtain ⟨ps, pieces, whole⟩ := ih le_rfl spanned.within (by rw [strN_drop spanned.within]; rfl)
      rw [first, ending, strN_cut bounds (full.le.trans spanned.within), pieces]
      refine ⟨_, rfl, ?_⟩
      rw [spanned.spanText, weave, whole]
      simp [append_assoc, cut_drop full.le, cut_drop bounds]
    | empty k inside same low high =>
      rw [if_pos (by omega), if_neg (by omega), first, same, filter_cons_of_neg (by simp; omega)]
      exact ih (hpiece.trans (spanned.after.trans (Nat.le_add_right b k))) hin last
    | last =>
      obtain rfl := rest.past_nil (Nat.lt_succ_self _)
      rw [if_pos (by omega), if_pos (by omega), filter_cons_of_neg (by simp; omega)]
      exact ⟨_, last, rfl⟩

/-! ### Where the matches fit -/

variable {size : Nat}

theorem search_some {start : Int} {o : Option Caps} (h : r.search s start = some o) :
    0 ≤ start ∧ rxSearch r.prog r.ncap s start.toNat = o := by
  unfold Regex.search at h
  split at h
  · exact absurd h nofun
  · exact ⟨by omega, Option.some.inj h⟩

theorem Fits.spanned (hprog : Bracketed r.prog size) (h : Fits r s) (hc : Comes r s start)
    (found : r.search s start = some (some m)) : ∃ b e, Spanned s start m b e := by
  obtain ⟨-, search⟩ := search_some found
  have room : 2 ≤ r.ncap := by unfold Regex.ncap; omega
  obtain ⟨i, e, first, forward, within, opened, closed, values⟩ := rxSearch_some hprog room search
  obtain ⟨small, ordered⟩ := h start m i hc found first
  rw [toInt_small small] at opened
  have last : m.slot 1 = ((toInt e).toNat : Int) := by rw [closed, Int.toNat_of_nonneg (by omega)]
  have below := toInt_le e
  have behind : start ≤ i := first.behind
  exact ⟨i, (toInt e).toNat, opened, last, behind, by omega, by omega, values⟩

theorem Fits.passes (hprog : Bracketed r.prog size) (h : Fits r s) {left start : Nat} (hc : Comes r s start)
    (hleft : s.length + 1 - start = left) : ∃ ms, Passes r s start ms := by
  induction left using Nat.strong_induction_on generalizing start with
  | h left ih =>
    by_cases past : s.length < start
    · exact ⟨[], .past past⟩
    · have within : start ≤ s.length := Nat.le_of_not_lt past
      have search : r.search s start = some (rxSearch r.prog r.ncap s start) := if_neg (by omega)
      cases found : rxSearch r.prog r.ncap s start with
      | none => exact ⟨[], .ended within (by rw [search, found])⟩
      | some m =>
        rw [found] at search
        obtain ⟨b, e, spanned⟩ := h.spanned hprog hc search
        obtain ⟨next, hnext, goes⟩ := spanned.next
        have behind := goes.behind
        have after := spanned.after
        obtain ⟨ms, rest⟩ := ih (s.length + 1 - next) (by omega) (hc.next (by omega) search hnext) rfl
        exact ⟨m :: ms, .turn search spanned goes hnext rest⟩

theorem Fits.rebuilds (hprog : Bracketed r.prog size) (h : Fits r s) : Rebuilds r s := by
  have begins : Comes r s ((0 : Nat) : Int) := .start
  obtain ⟨ms, passes⟩ := h.passes hprog begins rfl
  obtain ⟨ps, pieces, whole⟩ := passes.splitLoop (Nat.zero_le 0) (Nat.zero_le _)
  have groups : (findAll r s (ms.length + 1)).isSome := by
    have all := passes.findAllLoop
    unfold findAll
    rw [show (0 : Int) = (0 : Nat) from rfl, all]
    exact mapM_isSome passes.capsSlice
  exact ⟨⟨_, passes.replaceLoop⟩, ⟨_, ms, passes.findAllLoop, groups, passes.ordered.2⟩,
    ⟨_, ms, ps, passes.findAllLoop, pieces, whole⟩⟩

/-! ### Where they do not -/

/-- The turns of a loop that ends. -/
inductive Turns (r : Regex) (s : Bytes) : Int → List Caps → Prop
  | past {start : Int} : (s.length : Int) < start → Turns r s start []
  | ended {start : Int} : start ≤ s.length → r.search s start = some none → Turns r s start []
  | turn {start next : Int} {m : Caps} {ms : List Caps} : start ≤ s.length → r.search s start = some (some m) →
      nextStart s m = some next → Turns r s next ms → Turns r s start (m :: ms)

variable {n : Nat}

theorem turns_of_findAllLoop {start : Int} (h : findAllLoop r s n start = some ms) :
    Turns r s start ms := by
  induction n generalizing start ms with
  | zero => exact absurd h nofun
  | succ n ih =>
    rw [findAllLoop] at h
    split at h
    · rename_i within
      cases search : r.search s start with
      | none => simp [search] at h
      | some o =>
        cases o with
        | none =>
          obtain rfl : [] = ms := by simpa [search] using h
          exact .ended within search
        | some m =>
          cases hnext : nextStart s m with
          | none => simp [search, hnext] at h
          | some next =>
            cases later : findAllLoop r s n next with
            | none => simp [search, hnext, later] at h
            | some ms' =>
              obtain rfl : m :: ms' = ms := by simpa [search, hnext, later] using h
              exact .turn within search hnext (ih later)
    · cases h
      exact .past (by omega)

/-- No search starts much past `2^31`. -/
theorem nextStart_le {next : Int} (h : nextStart s m = some next) (h0 : m.slot 0 < 2 ^ 31)
    (h1 : m.slot 1 < 2 ^ 31) : next ≤ 2 ^ 31 + 3 := by
  unfold nextStart at h
  split at h
  · cases h
    omega
  · split at h
    · cases hk : seqlen s (m.slot 0) with
      | none => simp [hk] at h
      | some k =>
        obtain rfl : m.slot 0 + k = next := by simpa [hk] using h
        have := seqlen_some hk
        omega
    · cases h
      omega

/-- What a search gives to a turn. -/
theorem turn_some (hprog : Bracketed r.prog size) {start : Int} (h : r.search s start = some (some m)) :
    0 ≤ start ∧ ∃ i e, FirstFrom r.prog s r.ncap start.toNat i ∧ i ≤ e ∧ e ≤ s.length ∧ m.slot 0 = toInt i ∧
      m.slot 1 = toInt e := by
  obtain ⟨low, search⟩ := search_some h
  obtain ⟨i, e, first, forward, within, opened, closed, -⟩ :=
    rxSearch_some hprog (by unfold Regex.ncap; omega) search
  exact ⟨low, i, e, first, forward, within, opened, closed⟩

/-- A loop that ends leaves no match behind it. -/
theorem Turns.no_match (hprog : Bracketed r.prog size) {start : Int} (h : Turns r s start ms)
    (hstart : start ≤ 2 ^ 31 + 3) {i : Nat} (hi : 2 ^ 31 + 3 ≤ i) (within : i ≤ s.length) :
    ¬ HasMatch r.prog s r.ncap i := by
  induction h with
  | past past => omega
  | ended _ search =>
    obtain ⟨low, none⟩ := search_some search
    exact rxSearch_none none (by omega) within
  | turn _ search hnext _ ih =>
    obtain ⟨-, i', e, -, -, -, opened, closed⟩ := turn_some hprog search
    exact ih (nextStart_le hnext (by rw [opened]; exact toInt_lt i') (by rw [closed]; exact toInt_lt e))

/-- The first match is not given a negative offset. -/
theorem Turns.first_nonneg (hprog : Bracketed r.prog size) (h : Turns r s 0 (m :: ms))
    (ordered : ∀ m' ∈ ms, m.slot 0 < m'.slot 0) : 0 ≤ m.slot 0 := by
  cases h with
  | turn _ search hnext rest =>
    obtain ⟨-, i, e, first, forward, within, opened, closed⟩ := turn_some hprog search
    by_contra neg
    have large : 2 ^ 31 ≤ i := by
      by_contra small
      rw [opened, toInt_small (Nat.lt_of_not_le small)] at neg
      omega
    unfold nextStart at hnext
    split at hnext
    · cases hnext
      have below : m.slot 1 < 2 ^ 31 := by rw [closed]; exact toInt_lt e
      cases rest with
      | past past => omega
      | ended _ search' =>
        obtain ⟨low, none⟩ := search_some search'
        exact rxSearch_none none (by omega) (forward.trans within) first.matched
      | @turn _ _ m' _ _ search' _ _ =>
        obtain ⟨low, i', -, first', -, -, opened', -⟩ := turn_some hprog search'
        have from' : FirstFrom r.prog s r.ncap (m.slot 1).toNat i :=
          ⟨by omega, first.matched, fun j _ less => first.first j (Nat.zero_le _) less⟩
        obtain rfl := from'.unique first'
        have less := ordered m' mem_cons_self
        omega
    · rw [if_pos (by omega)] at hnext
      cases hk : seqlen s (m.slot 0) with
      | none => simp [hk] at hnext
      | some k =>
        have := seqlen_some hk
        omega

/-- The loops come only to offsets that the loop of `find_all` comes to. -/
theorem Comes.turns {ms : List Caps} (h : Turns r s 0 ms) {start : Int} (hc : Comes r s start) :
    ∃ ms', Turns r s start ms' ∧ ms' <:+ ms := by
  induction hc with
  | start => exact ⟨ms, h, suffix_rfl⟩
  | next _ within found hnext ih =>
    obtain ⟨ms', turns, suffix⟩ := ih
    cases turns with
    | past past => omega
    | ended _ none => exact absurd (found.symm.trans none) nofun
    | turn _ search hnext' rest =>
      obtain rfl := Option.some.inj (Option.some.inj (search.symm.trans found))
      obtain rfl := Option.some.inj (hnext'.symm.trans hnext)
      exact ⟨_, rest, (suffix_cons _ _).trans suffix⟩

theorem replaceMatch_some {start : Int} (h : replaceMatch r s [ch '$', ch '0'] start m = some t) :
    ∃ before text kept, (if m.slot 0 > start then strN s start (m.slot 0 - start) else some []) = some before ∧
      groupText s m 0 = some text ∧
      (if m.slot 1 = m.slot 0 ∧ m.slot 0 < s.length then (seqlen s (m.slot 0)).bind (strN s (m.slot 0))
        else some []) = some kept ∧ t = before ++ text ++ kept := by
  have whole : expandRepl r s m [ch '$', ch '0'].length [ch '$', ch '0'] = groupText s m 0 := expandRepl_whole m
  unfold replaceMatch at h
  dsimp only at h
  rw [whole] at h
  simp only [Option.bind_eq_bind, Option.bind_eq_some_iff, Option.pure_def, Option.some.injEq] at h
  obtain ⟨before, hbefore, text, htext, kept, hkept, rfl⟩ := h
  exact ⟨before, text, kept, hbefore, htext, hkept, rfl⟩

/-- As much is written for a match as the search goes on, unless the match ends before it begins. -/
theorem replaceMatch_length {start next : Int}
    (h : replaceMatch r s [ch '$', ch '0'] start m = some t) (hnext : nextStart s m = some next)
    (hstart : start ≤ m.slot 0) (h0 : 0 ≤ m.slot 0) (hlen : m.slot 0 ≤ s.length) (hlen' : m.slot 1 ≤ s.length) :
    (m.slot 0 ≤ m.slot 1 → (t.length : Int) = min next s.length - start) ∧
      (m.slot 1 < m.slot 0 → m.slot 0 < s.length → (t.length : Int) < min next s.length - start) := by
  obtain ⟨before, text, kept, hbefore, htext, hkept, rfl⟩ := replaceMatch_some h
  have len : (before.length : Int) = m.slot 0 - start := by
    split at hbefore
    · exact strN_length hbefore
    · cases hbefore
      rw [length_nil]
      omega
  unfold groupText at htext
  dsimp only at htext
  rw [Nat.mul_zero, Nat.zero_add] at htext
  unfold nextStart at hnext
  rw [length_append, length_append]
  obtain less | same | more := lt_trichotomy (m.slot 0) (m.slot 1)
  · rw [if_neg (by omega)] at htext
    rw [if_pos less] at hnext
    rw [if_neg (by omega)] at hkept
    cases hnext
    cases hkept
    have := strN_length htext
    simp only [length_nil]
    omega
  · rw [if_neg (by omega)] at htext
    rw [if_neg (by omega)] at hnext
    have nothing := strN_length htext
    by_cases inside : m.slot 0 < s.length
    · obtain ⟨k, hk, low, -, high⟩ := seqlen_within h0 inside
      rw [if_pos ⟨same.symm, inside⟩, hk] at hkept
      rw [if_pos inside, hk] at hnext
      cases hnext
      have := strN_length hkept
      omega
    · rw [if_neg (by omega)] at hkept hnext
      cases hnext
      cases hkept
      simp only [length_nil]
      omega
  · rw [if_pos (by omega)] at htext
    rw [if_neg (by omega)] at hnext hkept
    cases htext
    cases hkept
    refine ⟨fun _ => by omega, fun _ inside => ?_⟩
    obtain ⟨k, hk, low, -, high⟩ := seqlen_within h0 inside
    rw [if_pos inside, hk] at hnext
    cases hnext
    simp only [length_nil]
    omega

/-- A match that is given an end before its beginning loses a character. -/
theorem Turns.replaceLoop_length (hprog : Bracketed r.prog size) {start : Int}
    (h : Turns r s start ms) (low : ∀ m ∈ ms, 0 ≤ m.slot 0)
    (small : ∀ i, HasMatch r.prog s r.ncap i → i ≤ s.length → i < 2 ^ 31 + 3) {out : Bytes}
    (hout : replaceLoop r s [ch '$', ch '0'] n start = some out) :
    (out.length : Int) ≤ s.length - min start s.length ∧
      ((∃ m ∈ ms, m.slot 1 < m.slot 0) → (out.length : Int) < s.length - min start s.length) := by
  induction h generalizing n out with
  | past past =>
    cases n with
    | zero => exact absurd hout nofun
    | succ n =>
      rw [replaceLoop, if_neg (by omega), if_neg (by omega)] at hout
      cases hout
      exact ⟨by simp only [length_nil]; omega, nofun⟩
  | ended within search =>
    cases n with
    | zero => exact absurd hout nofun
    | succ n =>
      rw [replaceLoop, if_pos within, search] at hout
      refine ⟨?_, nofun⟩
      have tail : (if _ then strN s _ _ else some []) = some out := hout
      split at tail
      · have := strN_length tail
        omega
      · cases tail
        simp only [length_nil]
        omega
  | @turn start next m ms within search hnext rest ih =>
    cases n with
    | zero => exact absurd hout nofun
    | succ n =>
      rw [replaceLoop, if_pos within, search] at hout
      simp only [Option.bind_eq_bind, Option.bind_some] at hout
      simp only [Option.bind_eq_some_iff, Option.pure_def, Option.some.injEq] at hout
      obtain ⟨here, hhere, next', hnext', more, hmore, rfl⟩ := hout
      obtain rfl := Option.some.inj (hnext.symm.trans hnext')
      obtain ⟨later, less⟩ := ih (fun m hm => low m (mem_cons_of_mem _ hm)) hmore
      obtain ⟨hlow, i, e, first, forward, hin, opened, closed⟩ := turn_some hprog search
      have h0 := low m mem_cons_self
      have below := small i first.matched (forward.trans hin)
      have exact0 : m.slot 0 = i := by
        rw [opened] at h0 ⊢
        unfold toInt at h0 ⊢
        omega
      have ending := toInt_le e
      have behind := first.behind
      have inside : m.slot 1 < m.slot 0 → m.slot 0 < s.length := by
        intro bad
        have cap := toInt_lt i
        rw [closed, exact0] at bad
        unfold toInt at bad
        omega
      obtain ⟨full, lost⟩ :=
        replaceMatch_length hhere hnext (by omega) h0 (by omega) (by omega)
      rw [length_append]
      by_cases bad : m.slot 1 < m.slot 0
      · have := lost bad (inside bad)
        exact ⟨by omega, fun _ => by omega⟩
      · have := full (by omega)
        refine ⟨by omega, fun ⟨m', hm', bad'⟩ => ?_⟩
        obtain rfl | hm' := mem_cons.mp hm'
        · exact absurd bad' bad
        · have := less ⟨m', hm', bad'⟩
          omega

/-- What is asked holds only where the matches fit. -/
theorem Rebuilds.fits (hprog : Bracketed r.prog size) (h : Rebuilds r s) : Fits r s := by
  obtain ⟨n, whole⟩ := h.replaced
  obtain ⟨n', ms, found, -, ordered⟩ := h.found
  have turns := turns_of_findAllLoop found
  have small (i : Nat) (hi : HasMatch r.prog s r.ncap i) (within : i ≤ s.length) : i < 2 ^ 31 + 3 := by
    by_contra large
    exact turns.no_match hprog (by decide) (Nat.le_of_not_lt large) within hi
  have low : ∀ m ∈ ms, 0 ≤ m.slot 0 := by
    cases ms with
    | nil => exact nofun
    | cons m ms =>
      obtain ⟨later, -⟩ := pairwise_cons.mp ordered
      have first := turns.first_nonneg hprog fun m' hm' => (later m' hm').1
      intro m' hm'
      obtain rfl | hm' := mem_cons.mp hm'
      · exact first
      · exact first.trans (later m' hm').1.le
  obtain ⟨-, lost⟩ := turns.replaceLoop_length hprog low small whole
  intro start m i hc search first
  obtain ⟨ms', turns', suffix⟩ := hc.turns turns
  obtain ⟨hlow, i', e, first', forward, within, opened, -⟩ := turn_some hprog search
  obtain rfl := first.unique first'
  have mem : m ∈ ms := by
    have behind := first.behind
    cases turns' with
    | past past => omega
    | ended _ none => exact absurd (search.symm.trans none) nofun
    | turn _ search' _ _ =>
      obtain rfl := Option.some.inj (Option.some.inj (search.symm.trans search'))
      exact suffix.subset mem_cons_self
  refine ⟨?_, ?_⟩
  · have h0 := low m mem
    have below := small i first.matched (forward.trans within)
    rw [opened] at h0
    unfold toInt at h0
    omega
  · by_contra bad
    have := lost ⟨m, mem, Int.not_le.mp bad⟩
    omega

/-- The matches of a subject that an `int` can count fit. -/
theorem Fits.of_short (hprog : Bracketed r.prog size) (h : s.length < 2 ^ 31) : Fits r s := by
  intro start m i _ search first
  obtain ⟨-, i', e, first', forward, within, opened, closed⟩ := turn_some hprog search
  obtain rfl := first.unique first'
  rw [opened, closed, toInt_small (by omega), toInt_small (by omega)]
  omega

/-- The regex of `$`. -/
def dollarRegex : Regex := ⟨[.save 0, .eol, .save 1, .done], 0, [], [ch '$']⟩

theorem compile_dollar : compile [ch '$'] = .ok dollarRegex := rfl

/-- The only match of `$` is the one at the end. -/
theorem dollar_first (s : Bytes) : FirstFrom dollarRegex.prog s dollarRegex.ncap 0 s.length where
  behind := Nat.zero_le _
  matched := by
    refine ⟨(3, s.length), [toInt s.length, toInt s.length], rfl, ?_⟩
    have eol : ((2, s.length), [toInt s.length, -1]) ∈ branches dollarRegex.prog s (1, s.length) [toInt s.length, -1] := by
      simp [branches, dollarRegex]
    exact ((Relation.ReflTransGen.single mem_cons_self).tail eol).tail mem_cons_self
  first j _ less := by
    have barren : Barren dollarRegex.prog s {n | n = (0, j) ∨ n = (1, j)} := by
      intro n hn
      obtain rfl | rfl := hn
      · refine ⟨fun h => (by cases h), fun cap e he => ?_⟩
        obtain rfl := mem_singleton.mp he
        exact .inr rfl
      · refine ⟨fun h => (by cases h), fun cap e he => ?_⟩
        have other : j ≠ s.length := Nat.ne_of_lt less
        simp [branches, dollarRegex, other] at he
    exact barren.hasMatch (.inl rfl)

end Voila.Rx
