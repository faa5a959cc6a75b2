import Mathlib

/-!
# Voila.Lib.Probing

Open addressing with linear probing: slots that are empty or hold an element, and a
probe that walks from an element's home slot to the first empty one.

The walk from slot `s` reads the table rotated by `s`, so what it can see is the filled
prefix of the rotation (`chain`). The invariant `Indexes` says that the table holds the
elements of a list and that, among the elements of one home, the probe meets them in the
list's order. A probe for something that determines its home therefore finds the *first*
such element of the list (`Indexes.probe`), whatever the other elements' homes are, and
filling the empty slot where a probe ended appends to the list.
-/

open List

namespace Voila.Lib

variable {ι : Type*}

/-- Walk from slot `s` to the first slot that is empty or holds a hit. -/
def probe (t : List (Option ι)) (next : Nat → Nat) (hit : ι → Bool) :
    Nat → Nat → Option (Nat × Option ι)
  | 0, _ => none
  | fuel + 1, s =>
    match (t[s]?).join with
    | none => some (s, none)
    | some e => if hit e then some (s, some e) else probe t next hit fuel (next s)

/-- The elements before the first empty slot. -/
def filled (slots : List (Option ι)) : List ι := (slots.takeWhile Option.isSome).filterMap id

/-- What a probe from slot `s` can meet, in order. -/
def chain (t : List (Option ι)) (s : Nat) : List ι := filled (t.rotate s)

/-- The table holds the elements of `l`, those of one home in the list's order. -/
structure Indexes (home : ι → Nat) (t : List (Option ι)) (l : List ι) : Prop where
  perm : (t.filterMap id).Perm l
  order : ∀ s < t.length, (chain t s).filter (home · = s) = l.filter (home · = s)

@[simp] theorem filled_none (slots : List (Option ι)) : filled (none :: slots) = [] := rfl

@[simp] theorem filled_some (e : ι) (slots : List (Option ι)) :
    filled (some e :: slots) = e :: filled slots := rfl

/-! ### The walk -/

variable {s : Nat} {rest before : List (Option ι)} {x : Option ι}

theorem rotate_step {t : List (Option ι)}
    (h : t.rotate s = x :: rest) : t.rotate ((s + 1) % t.length) = rest ++ [x] := by
  rw [rotate_mod, ← rotate_rotate, h]
  simp

theorem getElem?_of_rotate {t : List (Option ι)} (hs : s < t.length)
    (h : t.rotate s = x :: rest) : t[s]? = some x := by
  rw [← head?_rotate hs, h]
  rfl

/-- The walk passes what is filled and no hit, and stops at the first other slot. -/
theorem probe_of_rotate {t : List (Option ι)} {next : Nat → Nat} {hit : ι → Bool}
    (hnext : ∀ s, next s = (s + 1) % t.length) {fuel s : Nat} (hs : s < t.length)
    {before behind : List (Option ι)} (hrot : t.rotate s = before ++ x :: behind)
    (hpass : ∀ y ∈ before, ∃ e, y = some e ∧ hit e = false) (hstop : ∀ e, x = some e → hit e = true)
    (hfuel : before.length < fuel) :
    probe t next hit fuel s = some ((s + before.length) % t.length, x) := by
  induction before generalizing fuel s behind with
  | nil =>
    obtain ⟨fuel, rfl⟩ := Nat.exists_eq_add_one_of_ne_zero (Nat.pos_iff_ne_zero.mp hfuel)
    have hget := getElem?_of_rotate hs hrot
    rw [length_nil, Nat.add_zero s, Nat.mod_eq_of_lt hs]
    cases x with
    | none => simp [probe, hget]
    | some e => simp [probe, hget, hstop e rfl]
  | cons y before ih =>
    obtain ⟨fuel, rfl⟩ := Nat.exists_eq_add_one_of_ne_zero (by simp at hfuel; omega : fuel ≠ 0)
    obtain ⟨e, rfl, hmiss⟩ := hpass y mem_cons_self
    have hget := getElem?_of_rotate hs hrot
    have hrot' : t.rotate ((s + 1) % t.length) = before ++ x :: (behind ++ [some e]) := by
      simpa using rotate_step hrot
    have hlt : (s + 1) % t.length < t.length := Nat.mod_lt _ (by omega)
    have hfuel : before.length < fuel := by simpa using hfuel
    have := ih hlt hrot' (fun z hz => hpass z (mem_cons_of_mem _ hz)) hfuel
    simp only [probe, hget, Option.join_some, hmiss, Bool.false_eq_true, if_false, hnext, this,
      length_cons, Nat.mod_add_mod]
    congr 2
    rw [Nat.add_assoc, Nat.add_comm 1]

/-- A list with an empty slot, up to the first slot that is empty or holds a hit. -/
theorem exists_stop {slots : List (Option ι)} (hit : ι → Bool) (h : none ∈ slots) :
    ∃ before x behind, slots = before ++ x :: behind ∧
      (∀ y ∈ before, ∃ e, y = some e ∧ hit e = false) ∧ (∀ e, x = some e → hit e = true) ∧
      x = (filled slots).find? hit := by
  induction slots with
  | nil => simp at h
  | cons y slots ih =>
    cases y with
    | none => exact ⟨[], none, slots, rfl, by simp, by simp, rfl⟩
    | some e =>
      by_cases hhit : hit e = true
      · refine ⟨[], some e, slots, rfl, by simp, ?_, by simp [hhit]⟩
        rintro e' heq
        exact Option.some.inj heq ▸ hhit
      · obtain ⟨before, x, behind, rfl, hpass, hstop, hx⟩ := ih (by simpa using h)
        refine ⟨some e :: before, x, behind, rfl, ?_, hstop, ?_⟩
        · intro z hz
          rcases mem_cons.mp hz with rfl | hz
          · exact ⟨e, rfl, by simpa using hhit⟩
          · exact hpass z hz
        · refine hx.trans ?_
          rw [filled_some, find?_cons_of_neg hhit]

/-! ### Filling a slot -/

theorem rotate_set {t : List (Option ι)} {s j : Nat} (hj : j < t.length) (y : Option ι) :
    (t.set ((s + j) % t.length) y).rotate s = (t.rotate s).set j y := by
  refine ext_getElem (by simp) fun i hi _ => ?_
  have hi : i < t.length := by simpa using hi
  have hpos : 0 < t.length := by omega
  simp only [getElem_rotate, getElem_set, length_set]
  refine if_congr ?_ rfl rfl
  constructor
  · intro heq
    rw [Nat.add_comm i s] at heq
    have hmod : Nat.ModEq t.length j i := Nat.ModEq.add_left_cancel' s heq
    rwa [Nat.ModEq, Nat.mod_eq_of_lt hj, Nat.mod_eq_of_lt hi] at hmod
  · rintro rfl
    rw [Nat.add_comm]

/-- Every slot is met on the way from every other. -/
theorem exists_offset {n s g : Nat} (hg : g < n) : ∃ j < n, (s + j) % n = g := by
  refine ⟨(g + (n - s % n)) % n, Nat.mod_lt _ (by omega), ?_⟩
  have hs : s % n < n := Nat.mod_lt _ (by omega)
  rw [Nat.add_mod_mod, ← Nat.mod_add_mod]
  have hsum : s % n + (g + (n - s % n)) = g + n := by omega
  rw [hsum, Nat.add_mod_right, Nat.mod_eq_of_lt hg]

theorem filled_append_none (before behind : List (Option ι)) :
    filled (before ++ none :: behind) = filled before := by
  induction before with
  | nil => rfl
  | cons y before ih => cases y <;> simp_all

theorem filled_append_some (h : ∀ y ∈ before, y.isSome = true) (e : ι) (behind : List (Option ι)) :
    filled (before ++ some e :: behind) = before.filterMap id ++ e :: filled behind := by
  induction before with
  | nil => rfl
  | cons y before ih =>
    obtain ⟨a, rfl⟩ := Option.isSome_iff_exists.mp (h y mem_cons_self)
    simp [ih fun z hz => h z (mem_cons_of_mem _ hz)]

theorem filled_append_of_gap (h : none ∈ before)
    (behind : List (Option ι)) : filled (before ++ behind) = filled before := by
  induction before with
  | nil => simp at h
  | cons y before ih => cases y <;> simp_all

theorem filled_eq_filterMap (h : ∀ y ∈ before, y.isSome = true) :
    filled before = before.filterMap id := by
  rw [filled, takeWhile_eq_self_iff.mpr h]

theorem filled_sublist (slots : List (Option ι)) : (filled slots).Sublist (slots.filterMap id) :=
  (takeWhile_sublist _).filterMap _

variable {home : ι → Nat} {t : List (Option ι)} {l : List ι}

/-- Behind the gap at which the chain from `s` ends stands no element of home `s`. -/
theorem Indexes.behind (h : Indexes home t l) {s : Nat} (hs : s < t.length)
    {before behind : List (Option ι)} (hrot : t.rotate s = before ++ none :: behind)
    (hsome : ∀ y ∈ before, y.isSome = true) :
    (filled behind).filter (home · = s) = [] := by
  have hperm : ((before ++ none :: behind).filterMap id).Perm l :=
    hrot ▸ ((t.rotate_perm s).filterMap id).trans h.perm
  have horder := h.order s hs
  rw [chain, hrot, filled_append_none, filled_eq_filterMap hsome] at horder
  have hlen := (hperm.filter (home · = s)).length_eq
  simp only [filterMap_append, filterMap_cons_none (f := id) rfl, filter_append,
    length_append, horder] at hlen
  have hnil : (behind.filterMap id).filter (home · = s) = [] :=
    length_eq_zero_iff.mp (by omega)
  have hsub := (filled_sublist behind).filter (home · = s)
  rw [hnil] at hsub
  exact sublist_nil.mp hsub

/-- The empty slot where a probe for `e` ends may be filled with `e`. -/
theorem Indexes.set (h : Indexes home t l) {e : ι}
    {before behind : List (Option ι)} (hrot : t.rotate (home e) = before ++ none :: behind)
    (hsome : ∀ y ∈ before, y.isSome = true) :
    Indexes home (t.set ((home e + before.length) % t.length) (some e)) (l ++ [e]) := by
  have hlen : (t.rotate (home e)).length = t.length := length_rotate _ _
  have hbefore : before.length < t.length := by
    rw [← hlen, hrot]
    simp
  have hset : (t.set ((home e + before.length) % t.length) (some e)).rotate (home e) =
      before ++ some e :: behind := by
    rw [rotate_set hbefore, hrot]
    simp
  constructor
  · have hold : (before.filterMap id ++ behind.filterMap id).Perm l := by
      have := ((t.rotate_perm (home e)).filterMap id).trans h.perm
      rwa [hrot, filterMap_append, filterMap_cons_none rfl] at this
    have hnew := ((rotate_perm (t.set ((home e + before.length) % t.length) (some e))
      (home e)).filterMap id).symm
    rw [hset, filterMap_append, filterMap_cons_some (f := id) rfl] at hnew
    refine hnew.trans (perm_middle.trans ((hold.cons e).trans ?_))
    exact (perm_append_singleton e l).symm
  · intro s hs
    rw [length_set] at hs
    rw [filter_append]
    by_cases hse : s = home e
    · subst hse
      have hbehind := h.behind hs hrot hsome
      have horder := h.order _ hs
      rw [chain, hrot, filled_append_none, filled_eq_filterMap hsome] at horder
      rw [chain, hset, filled_append_some hsome, filter_append, horder]
      simp [hbehind]
    · have hgap : (home e + before.length) % t.length < t.length := Nat.mod_lt _ (by omega)
      obtain ⟨j, hj, hjg⟩ := exists_offset (s := s) hgap
      have hjn : j < (t.rotate s).length := by simpa using hj
      -- the slot is still empty where the walk from `s` meets it
      have hnone : (t.rotate s)[j] = none := by
        have hlt : before.length < (t.rotate (home e)).length := by rw [hlen]; exact hbefore
        have h₁ : (t.rotate (home e))[before.length] = none := by simp [hrot]
        rw [getElem_rotate] at h₁ ⊢
        simpa only [Nat.add_comm _ (home e), Nat.add_comm _ s, hjg] using h₁
      have hsplit : t.rotate s = (t.rotate s).take j ++ none :: (t.rotate s).drop (j + 1) := by
        rw [← hnone, getElem_cons_drop, take_append_drop]
      have hset' : (t.set ((home e + before.length) % t.length) (some e)).rotate s =
          (t.rotate s).take j ++ some e :: (t.rotate s).drop (j + 1) := by
        rw [← hjg, rotate_set hj]
        rw [set_eq_take_append_cons_drop, if_pos hjn]
      have hhome : [e].filter (home · = s) = [] := by simp [Ne.symm hse]
      have horder := h.order s hs
      rw [hhome, append_nil, chain, hset', ← horder, chain]
      by_cases hall : ∀ y ∈ (t.rotate s).take j, y.isSome = true
      · have hbehind := h.behind hs hsplit hall
        rw [filled_append_some hall, filter_append, filter_cons_of_neg (by simp [Ne.symm hse]),
          hbehind, append_nil]
        conv_rhs => rw [hsplit, filled_append_none, filled_eq_filterMap hall]
      · have hgap' : none ∈ (t.rotate s).take j := by
          simp only [not_forall] at hall
          obtain ⟨y, hy, hyn⟩ := hall
          cases y with
          | none => exact hy
          | some a => exact absurd rfl hyn
        rw [filled_append_of_gap hgap']
        conv_rhs => rw [hsplit, filled_append_of_gap hgap']

/-! ### Probing an index -/

section

variable {next : Nat → Nat} {fuel : Nat}

theorem indexes_replicate (home : ι → Nat) (n : Nat) :
    Indexes home (List.replicate n none) [] := by
  have hmem : ∀ s, ∀ x ∈ (List.replicate n (none : Option ι)).rotate s, x = none := by
    intro s x hx
    exact eq_of_mem_replicate (mem_rotate.mp hx)
  constructor
  · have hnil : (List.replicate n (none : Option ι)).filterMap id = [] :=
      filterMap_eq_nil_iff.mpr fun x hx => eq_of_mem_replicate hx
    rw [hnil]
  · intro s _
    have hchain : chain (List.replicate n (none : Option ι)) s = [] := by
      rw [chain]
      cases hrot : (List.replicate n (none : Option ι)).rotate s with
      | nil => rfl
      | cons x slots =>
        obtain rfl := hmem s x (hrot ▸ mem_cons_self)
        rfl
    rw [hchain]

theorem Indexes.mem_of_chain (h : Indexes home t l) {s : Nat} {e : ι} (he : e ∈ chain t s) :
    e ∈ l := by
  have hrot := (filled_sublist _).subset he
  exact h.perm.mem_iff.mp (((t.rotate_perm s).filterMap id).mem_iff.mp hrot)

theorem Indexes.length_filterMap (h : Indexes home t l) : (t.filterMap id).length = l.length :=
  h.perm.length_eq

/-- Only the homes of the elements matter. -/
theorem Indexes.congr {home' : ι → Nat} (h : Indexes home t l)
    (hhome : ∀ e ∈ l, home' e = home e) : Indexes home' t l := by
  refine ⟨h.perm, fun s hs => ?_⟩
  have hmem : ∀ e ∈ chain t s, e ∈ l := fun e he => h.mem_of_chain he
  have hcongr : ∀ l' : List ι, (∀ e ∈ l', e ∈ l) →
      l'.filter (home' · = s) = l'.filter (home · = s) := by
    intro l' hl'
    exact filter_congr fun e he => by rw [hhome e (hl' e he)]
  rw [hcongr _ hmem, h.order s hs, hcongr _ fun e he => he]

/-- A table with fewer elements than slots has an empty one. -/
theorem Indexes.none_mem (h : Indexes home t l) (hroom : l.length < t.length) : none ∈ t := by
  by_contra hno
  have hall : ∀ x ∈ t, x.isSome = true := by
    intro x hx
    cases x with
    | none => exact absurd hx hno
    | some e => rfl
  have hlen : (t.filterMap id).length = t.length := by
    simpa [length_filterMap_eq_countP, countP_eq_length] using hall
  have := h.length_filterMap
  omega

/-- A probe for something of home `s` finds the first of the list that is a hit; where none is,
    it ends at a slot that may be filled with an element of that home. -/
theorem Indexes.probe (h : Indexes home t l) (hnext : ∀ s, next s = (s + 1) % t.length)
    (hroom : l.length < t.length) (hfuel : t.length ≤ fuel) {s : Nat} (hs : s < t.length)
    {hit : ι → Bool} (hhome : ∀ e ∈ l, hit e = true → home e = s) :
    ∃ slot, probe t next hit fuel s = some (slot, l.find? hit) ∧
      (l.find? hit = none → ∀ e, home e = s → Indexes home (t.set slot (some e)) (l ++ [e])) := by
  obtain ⟨before, x, behind, hrot, hpass, hstop, hx⟩ :=
    exists_stop hit (mem_rotate.mpr (h.none_mem hroom) : none ∈ t.rotate s)
  have hbefore : before.length < fuel := by
    have hlen := congrArg List.length hrot
    simp only [length_rotate, length_append, length_cons] at hlen
    omega
  have hfind : x = l.find? hit := by
    have hmem : ∀ e ∈ chain t s, e ∈ l := fun e he => h.mem_of_chain he
    have hguard : ∀ l' : List ι, (∀ e ∈ l', e ∈ l) →
        l'.find? hit = (l'.filter (home · = s)).find? hit := by
      intro l' hl'
      rw [find?_filter]
      induction l' with
      | nil => rfl
      | cons e l' ih =>
        have ih := ih fun a ha => hl' a (mem_cons_of_mem _ ha)
        cases hhit : hit e with
        | false => simpa [find?_cons, hhit] using ih
        | true => simp [hhit, hhome e (hl' e mem_cons_self) hhit]
    rw [hx, ← chain, hguard _ hmem, h.order s hs, ← hguard l fun e he => he]
  refine ⟨_, hfind ▸ probe_of_rotate hnext hs hrot hpass hstop hbefore, fun hnone e he => ?_⟩
  subst he
  obtain rfl : x = none := hfind.trans hnone
  refine h.set hrot fun y hy => ?_
  obtain ⟨a, rfl, -⟩ := hpass y hy
  rfl

/-- Elements placed one after the other, each in the first empty slot from its home. -/
def settle (home : ι → Nat) (next : Nat → Nat) (fuel : Nat) (t : List (Option ι)) (e : ι) :
    Option (List (Option ι)) :=
  (Voila.Lib.probe t next (fun _ => false) fuel (home e)).map fun r => t.set r.1 (some e)

theorem Indexes.settle (h : Indexes home t l) (hnext : ∀ s, next s = (s + 1) % t.length)
    (hroom : l.length < t.length) (hfuel : t.length ≤ fuel) {e : ι} (he : home e < t.length) :
    ∃ t', settle home next fuel t e = some t' ∧ t'.length = t.length ∧
      Indexes home t' (l ++ [e]) := by
  have hnone : ∀ a ∈ l, (fun _ => false) a = true → home a = home e := by simp
  obtain ⟨slot, hprobe, hset⟩ := h.probe hnext hroom hfuel he hnone
  refine ⟨t.set slot (some e), by simp [Voila.Lib.settle, hprobe], by simp, hset ?_ e rfl⟩
  simp

/-- A whole index, built from an empty table. -/
theorem exists_index {n : Nat} (hnext : ∀ s, next s = (s + 1) % n) (hfuel : n ≤ fuel)
    (hhome : ∀ e ∈ l, home e < n) (hroom : l.length ≤ n) :
    ∃ t, l.foldlM (settle home next fuel) (List.replicate n none) = some t ∧ t.length = n ∧
      Indexes home t l := by
  suffices hfold : ∀ (rest done : List ι) (t : List (Option ι)), done ++ rest = l →
      t.length = n → Indexes home t done →
      ∃ t', rest.foldlM (Voila.Lib.settle home next fuel) t = some t' ∧ t'.length = n ∧
        Indexes home t' l by
    exact hfold l [] _ rfl length_replicate (indexes_replicate home n)
  intro rest
  induction rest with
  | nil =>
    rintro done t rfl ht hidx
    rw [append_nil] at *
    exact ⟨t, rfl, ht, hidx⟩
  | cons e rest ih =>
    rintro done t rfl ht hidx
    have hlt : done.length < t.length := by
      rw [length_append, length_cons] at hroom
      omega
    have hfull : t.length ≤ fuel := by omega
    have he : home e < t.length := by
      rw [ht]
      exact hhome e (by simp)
    obtain ⟨t', hsettle, ht', hidx'⟩ := hidx.settle (by rwa [ht]) hlt hfull he
    obtain ⟨t'', hfold, hres⟩ := ih (done ++ [e]) t' (by simp) (ht'.trans ht) hidx'
    exact ⟨t'', by rw [foldlM_cons, hsettle]; exact hfold, hres⟩

end

end Voila.Lib
