import Voila.Lib.Probing

/-!
# Voila.Rt.Map

The runtime's map and set (`coll.c`): an array of entries in the order they were added,
holes included, and an open-addressed index of the entries in use.

What a map asks of its values is `Keys`; the hash values may be any. Every operation that
probes takes a step for each slot at most, and is `none` if that were not enough.
-/

open List

namespace Voila.Rt

open Lib

variable {V : Type}

/-- `vl_nil`, `vl_equal` and `vl_hash`. -/
structure Keys (V : Type) where
  nil : V
  equal : V → V → Bool
  hash : V → UInt64

structure VlEntry (V : Type) where
  k : V
  v : V
  hash : UInt64
  used : Bool

structure VlMap (V : Type) where
  isSet : Bool
  ents : List (VlEntry V)
  capents : Nat
  nidx : Nat
  /-- `none` for -1. -/
  idx : List (Option Nat)
  count : Nat

/-- `new_map`. -/
def newMap (isSet : Bool) : VlMap V :=
  { isSet := isSet, ents := [], capents := 8, nidx := 16, idx := List.replicate 16 none, count := 0 }

/-- `hash & (nidx - 1)`. -/
def slotOf (nidx : Nat) (h : UInt64) : Nat := h.toNat &&& (nidx - 1)

/-- `(s + 1) & (nidx - 1)`. -/
def nextSlot (nidx : Nat) (s : Nat) : Nat := (s + 1) &&& (nidx - 1)

/-- Where entry `i` would like to be. -/
def homeOf (ents : List (VlEntry V)) (nidx : Nat) (i : Nat) : Nat :=
  slotOf nidx ((ents[i]?.map VlEntry.hash).getD 0)

/-- The entries in use, by their positions from `n` on. -/
def usedFrom (n : Nat) : List (VlEntry V) → List Nat
  | [] => []
  | x :: xs => if x.used then n :: usedFrom (n + 1) xs else usedFrom (n + 1) xs

/-- The index of the entries in use, from an empty one of `nidx` slots. -/
def reindex (ents : List (VlEntry V)) (nidx : Nat) : Option (List (Option Nat)) :=
  (usedFrom 0 ents).foldlM (settle (homeOf ents nidx) (nextSlot nidx) nidx)
    (List.replicate nidx none)

namespace VlMap

/-- `rehash`. -/
def rehash (m : VlMap V) : Option (VlMap V) :=
  (reindex m.ents (m.nidx * 2)).map fun idx => { m with nidx := m.nidx * 2, idx := idx }

variable (K : Keys V)

/-- The test of `find_slot`. -/
def hit (m : VlMap V) (k : V) (h : UInt64) (e : Nat) : Bool :=
  match m.ents[e]? with
  | some x => x.used && x.hash == h && K.equal x.k k
  | none => false

/-- `find_slot`: where the probe ends, and the entry there. -/
def findSlot (m : VlMap V) (k : V) (h : UInt64) : Option (Nat × Option Nat) :=
  probe m.idx (nextSlot m.nidx) (m.hit K k h) m.nidx (slotOf m.nidx h)

/-- `vl_map_set`. -/
def set (m : VlMap V) (k v : V) : Option (VlMap V) := do
  let h := K.hash k
  let (slot, entry) ← m.findSlot K k h
  match entry with
  | some e =>
    if m.isSet then some m else some { m with ents := m.ents.modify e fun x => { x with v := v } }
  | none =>
    let m' := { m with
      capents := if m.ents.length = m.capents then m.capents * 2 else m.capents
      ents := m.ents ++ [⟨k, if m.isSet then K.nil else v, h, true⟩]
      idx := m.idx.set slot (some m.ents.length)
      count := m.count + 1 }
    if m'.count * 2 > m'.nidx then m'.rehash else some m'

/-- `vl_map_get`. -/
def get (m : VlMap V) (k : V) : Option (Option V) := do
  let (_, entry) ← m.findSlot K k (K.hash k)
  some (entry.bind fun e => (m.ents[e]?).map VlEntry.v)

/-- `vl_map_has`. -/
def has (m : VlMap V) (k : V) : Option Bool := do
  let (_, entry) ← m.findSlot K k (K.hash k)
  some entry.isSome

/-- `vl_map_delete`. -/
def delete (m : VlMap V) (k : V) : Option (VlMap V) := do
  let (_, entry) ← m.findSlot K k (K.hash k)
  match entry with
  | none => some m
  | some e =>
    let ents := m.ents.modify e fun x => { x with used := false, k := K.nil, v := K.nil }
    let idx ← reindex ents m.nidx
    some { m with ents := ents, count := m.count - 1, idx := idx }

/-- `vl_map_keys`. -/
def keys (m : VlMap V) : List V := (m.ents.filter VlEntry.used).map VlEntry.k

/-- `vl_map_values`. -/
def values (m : VlMap V) : List V := (m.ents.filter VlEntry.used).map VlEntry.v

end VlMap

/-! ### Calls and their results -/

inductive MapOp (V : Type) where
  | set (k v : V)
  | delete (k : V)
  | get (k : V)
  | has (k : V)
  | count
  | keys
  | values

inductive MapRes (V : Type) where
  | done
  | found (v : Option V)
  | bool (b : Bool)
  | num (n : Nat)
  | list (vs : List V)
deriving DecidableEq

/-- The key a call is about. -/
def MapOp.key : MapOp V → Option V
  | .set k _ => some k
  | .delete k => some k
  | .get k => some k
  | .has k => some k
  | _ => none

namespace VlMap

variable (K : Keys V)

def step (m : VlMap V) : MapOp V → Option (VlMap V × MapRes V)
  | .set k v => (m.set K k v).map fun m' => (m', .done)
  | .delete k => (m.delete K k).map fun m' => (m', .done)
  | .get k => (m.get K k).map fun v => (m, .found v)
  | .has k => (m.has K k).map fun b => (m, .bool b)
  | .count => some (m, .num m.count)
  | .keys => some (m, .list m.keys)
  | .values => some (m, .list m.values)

def run (m : VlMap V) : List (MapOp V) → Option (List (MapRes V))
  | [] => some []
  | op :: ops => do
    let (m', r) ← m.step K op
    (m'.run ops).map (r :: ·)

end VlMap

/-! ### What a map is for: an association list in insertion order -/

abbrev Assoc (V : Type) := List (V × V)

namespace Assoc

variable (K : Keys V)

/-- Replace the value of the first entry whose key equals `k`; append if there is none. A set
    keeps what it has. -/
def set (isSet : Bool) (k v : V) : Assoc V → Assoc V
  | [] => [(k, if isSet then K.nil else v)]
  | x :: l =>
    if K.equal x.1 k then (x.1, if isSet then x.2 else v) :: l else x :: set isSet k v l

def lookup (k : V) (l : Assoc V) : Option (V × V) := l.find? fun x => K.equal x.1 k

/-- Remove the first entry whose key equals `k`. -/
def delete (k : V) (l : Assoc V) : Assoc V := l.eraseP fun x => K.equal x.1 k

def step (isSet : Bool) (l : Assoc V) : MapOp V → Assoc V × MapRes V
  | .set k v => (set K isSet k v l, .done)
  | .delete k => (delete K k l, .done)
  | .get k => (l, .found ((lookup K k l).map Prod.snd))
  | .has k => (l, .bool (lookup K k l).isSome)
  | .count => (l, .num l.length)
  | .keys => (l, .list (l.map Prod.fst))
  | .values => (l, .list (l.map Prod.snd))

def run (isSet : Bool) (l : Assoc V) : List (MapOp V) → List (MapRes V)
  | [] => []
  | op :: ops => (step K isSet l op).2 :: run isSet (step K isSet l op).1 ops

end Assoc

end Voila.Rt

/-!
The runtime's map is an association list in insertion order (`run_newMap`), whatever the
hash values are and however often they collide, as long as equal keys have one hash.

`Inv` holds of a fresh map and is kept by every call: the index holds the entries in use
and no more than half its slots are taken, so a probe ends, and it ends at the first entry
in use with an equal key.
-/

namespace Voila.Rt

open Lib

variable {V : Type}

/-! ### Slots -/

theorem slotOf_lt {nidx : Nat} (h : 0 < nidx) (x : UInt64) : slotOf nidx x < nidx := by
  have := Nat.and_le_right (n := x.toNat) (m := nidx - 1)
  rw [slotOf]
  omega

theorem nextSlot_eq {nidx k : Nat} (h : nidx = 2 ^ k) (s : Nat) :
    nextSlot nidx s = (s + 1) % nidx := by
  rw [nextSlot, h, Nat.and_two_pow_sub_one_eq_mod]

theorem homeOf_lt (ents : List (VlEntry V)) {nidx : Nat} (h : 0 < nidx) (i : Nat) :
    homeOf ents nidx i < nidx := slotOf_lt h _

/-! ### The entries in use -/

theorem usedFrom_append (n : Nat) (as bs : List (VlEntry V)) :
    usedFrom n (as ++ bs) = usedFrom n as ++ usedFrom (n + as.length) bs := by
  induction as generalizing n with
  | nil => rfl
  | cons x as ih =>
    rw [cons_append, usedFrom, usedFrom, ih]
    split_ifs <;> simp [Nat.add_assoc, Nat.add_comm 1]

theorem usedFrom_length (n : Nat) (ents : List (VlEntry V)) :
    (usedFrom n ents).length = (ents.filter VlEntry.used).length := by
  induction ents generalizing n with
  | nil => rfl
  | cons x ents ih =>
    rw [usedFrom, filter_cons]
    split_ifs <;> simp [ih]

theorem mem_usedFrom {n i : Nat} {ents : List (VlEntry V)} :
    i ∈ usedFrom n ents ↔ ∃ j x, i = n + j ∧ ents[j]? = some x ∧ x.used = true := by
  induction ents generalizing n with
  | nil => simp [usedFrom]
  | cons x ents ih =>
    have hrest : i ∈ usedFrom (n + 1) ents ↔
        ∃ j y, i = n + (j + 1) ∧ ents[j]? = some y ∧ y.used = true := by
      rw [ih]
      simp only [Nat.add_assoc, Nat.add_comm 1]
    constructor
    · intro hi
      rw [usedFrom] at hi
      split_ifs at hi with hx
      · rcases mem_cons.mp hi with rfl | hi
        · exact ⟨0, x, rfl, rfl, hx⟩
        · obtain ⟨j, y, rfl, hy⟩ := hrest.mp hi
          exact ⟨j + 1, y, rfl, hy⟩
      · obtain ⟨j, y, rfl, hy⟩ := hrest.mp hi
        exact ⟨j + 1, y, rfl, hy⟩
    · rintro ⟨j, y, rfl, hj, hy⟩
      rw [usedFrom]
      cases j with
      | zero =>
        obtain rfl : x = y := by simpa using hj
        simp [hy]
      | succ j =>
        have := hrest.mpr ⟨j, y, rfl, by simpa using hj, hy⟩
        split_ifs
        · exact mem_cons_of_mem _ this
        · exact this

/-- The first position in use with a property splits the entries there. -/
theorem find_usedFrom {n : Nat} {ents : List (VlEntry V)} {p : Nat → Bool} {q : VlEntry V → Bool}
    (hpq : ∀ j x, ents[j]? = some x → x.used = true → p (n + j) = q x) :
    (∃ as x bs, ents = as ++ x :: bs ∧ x.used = true ∧ q x = true ∧
      (∀ y ∈ as, y.used = true → q y = false) ∧ (usedFrom n ents).find? p = some (n + as.length)) ∨
    ((∀ y ∈ ents, y.used = true → q y = false) ∧ (usedFrom n ents).find? p = none) := by
  induction ents generalizing n with
  | nil => exact .inr ⟨by simp, rfl⟩
  | cons x ents ih =>
    have hrest := ih (n := n + 1) fun j y hj hy => by
      have := hpq (j + 1) y (by simpa using hj) hy
      rwa [← Nat.add_assoc, Nat.add_right_comm] at this
    have hhead : x.used = true → p n = q x := hpq 0 x rfl
    by_cases hx : x.used = true ∧ q x = true
    · refine .inl ⟨[], x, ents, rfl, hx.1, hx.2, by simp, ?_⟩
      simp [usedFrom, hx.1, hhead hx.1, hx.2]
    · have hskip : (usedFrom n (x :: ents)).find? p = (usedFrom (n + 1) ents).find? p := by
        rw [usedFrom]
        split_ifs with hu
        · have hq : p n = false := by
            rw [hhead hu]
            simpa [hu] using hx
          rw [find?_cons_of_neg (by simp [hq])]
        · rfl
      have hnot : x.used = true → q x = false := by
        intro hu
        simpa [hu] using hx
      rw [hskip]
      rcases hrest with ⟨as, y, bs, rfl, hy, hqy, has, hfind⟩ | ⟨hall, hfind⟩
      · refine .inl ⟨x :: as, y, bs, rfl, hy, hqy, ?_, ?_⟩
        · exact forall_mem_cons.mpr ⟨hnot, has⟩
        · rw [hfind, length_cons]
          congr 1
          omega
      · exact .inr ⟨forall_mem_cons.mpr ⟨hnot, hall⟩, hfind⟩

/-- What the entries in use amount to. -/
def live (ents : List (VlEntry V)) : Assoc V :=
  (ents.filter VlEntry.used).map fun x => (x.k, x.v)

@[simp] theorem live_append (as bs : List (VlEntry V)) : live (as ++ bs) = live as ++ live bs := by
  simp [live]

theorem live_cons (x : VlEntry V) (ents : List (VlEntry V)) :
    live (x :: ents) = if x.used then (x.k, x.v) :: live ents else live ents := by
  rw [live, filter_cons]
  split_ifs <;> rfl

theorem live_length (n : Nat) (ents : List (VlEntry V)) :
    (live ents).length = (usedFrom n ents).length := by
  rw [usedFrom_length, live, length_map]

theorem live_keys (m : VlMap V) : (live m.ents).map Prod.fst = m.keys := by
  simp [live, VlMap.keys, Function.comp_def]

theorem live_values (m : VlMap V) : (live m.ents).map Prod.snd = m.values := by
  simp [live, VlMap.values, Function.comp_def]

/-! ### The invariant -/

/-- What every call keeps. The keys in use satisfy `S`. -/
structure Inv (K : Keys V) (S : V → Prop) (m : VlMap V) : Prop where
  pow : ∃ k, m.nidx = 2 ^ k
  big : 2 ≤ m.nidx
  len : m.idx.length = m.nidx
  index : Indexes (homeOf m.ents m.nidx) m.idx (usedFrom 0 m.ents)
  count : m.count = (usedFrom 0 m.ents).length
  /-- At most half the slots are taken. -/
  load : m.count * 2 ≤ m.nidx
  hash : ∀ x ∈ m.ents, x.used = true → x.hash = K.hash x.k ∧ S x.k
  /-- No entry is written behind the array. -/
  room : m.ents.length ≤ m.capents ∧ 0 < m.capents

variable {K : Keys V} {S : V → Prop}

theorem inv_newMap (isSet : Bool) : Inv K S (newMap isSet) where
  pow := ⟨4, rfl⟩
  big := by simp [newMap]
  len := by simp [newMap]
  index := indexes_replicate _ 16
  count := rfl
  load := by simp [newMap]
  hash := by simp [newMap]
  room := by simp [newMap]

theorem exists_reindex (ents : List (VlEntry V)) {nidx k : Nat} (hpow : nidx = 2 ^ k)
    (hroom : (usedFrom 0 ents).length ≤ nidx) :
    ∃ idx, reindex ents nidx = some idx ∧ idx.length = nidx ∧
      Indexes (homeOf ents nidx) idx (usedFrom 0 ents) := by
  have hpos : 0 < nidx := hpow ▸ Nat.two_pow_pos k
  exact exists_index (nextSlot_eq hpow) le_rfl (fun e _ => homeOf_lt ents hpos e) hroom

/-- The entry `vl_map_set` appends. -/
def fresh (K : Keys V) (isSet : Bool) (k v : V) : VlEntry V :=
  ⟨k, if isSet then K.nil else v, K.hash k, true⟩

theorem usedFrom_fresh (ents : List (VlEntry V)) (isSet : Bool) (k v : V) :
    usedFrom 0 (ents ++ [fresh K isSet k v]) = usedFrom 0 ents ++ [ents.length] := by
  rw [usedFrom_append, Nat.zero_add]
  rfl

theorem homeOf_append (as bs : List (VlEntry V)) (nidx : Nat) {i : Nat} (hi : i < as.length) :
    homeOf (as ++ bs) nidx i = homeOf as nidx i := by
  rw [homeOf, homeOf, List.getElem?_append_left hi]

/-- The first entry in use whose key equals `k` splits the entries. -/
structure Found (K : Keys V) (ents : List (VlEntry V)) (k : V) (as : List (VlEntry V))
    (x : VlEntry V) (bs : List (VlEntry V)) : Prop where
  split : ents = as ++ x :: bs
  used : x.used = true
  equal : K.equal x.k k = true
  before : ∀ y ∈ as, y.used = true → K.equal y.k k = false

variable {k : V} {x : VlEntry V}

/-- `find_slot` finds the first entry in use with an equal key, or an empty slot where one may
    be entered. -/
theorem Inv.findSlot {m : VlMap V} (h : Inv K S m)
    (hresp : ∀ a b, S a → S b → K.equal a b = true → K.hash a = K.hash b) (hk : S k) :
    (∃ slot as x bs, Found K m.ents k as x bs ∧
      m.findSlot K k (K.hash k) = some (slot, some as.length)) ∨
    ((∀ y ∈ m.ents, y.used = true → K.equal y.k k = false) ∧
      ∃ slot, m.findSlot K k (K.hash k) = some (slot, none) ∧ ∀ v,
        Indexes (homeOf (m.ents ++ [fresh K m.isSet k v]) m.nidx)
          (m.idx.set slot (some m.ents.length))
          (usedFrom 0 (m.ents ++ [fresh K m.isSet k v]))) := by
  obtain ⟨e, hpow⟩ := h.pow
  have hpos : 0 < m.nidx := Nat.lt_of_lt_of_le (by omega) h.big
  have hhit : ∀ j x, m.ents[j]? = some x → x.used = true →
      m.hit K k (K.hash k) (0 + j) = K.equal x.k k := by
    intro j x hj hx
    obtain ⟨hhash, hS⟩ := h.hash x (mem_of_getElem? hj) hx
    rw [Nat.zero_add, VlMap.hit, hj]
    cases heq : K.equal x.k k with
    | false => simp [heq]
    | true => simp [heq, hx, hhash, hresp x.k k hS hk heq]
  -- the homes once the entry is appended: its own is where the probe starts
  have hnew : ∀ v, homeOf (m.ents ++ [fresh K m.isSet k v]) m.nidx m.ents.length =
      slotOf m.nidx (K.hash k) := by
    intro v
    simp [homeOf, fresh]
  have hold : ∀ v, Indexes (homeOf (m.ents ++ [fresh K m.isSet k v]) m.nidx) m.idx
      (usedFrom 0 m.ents) := by
    refine fun v => h.index.congr fun i hi => ?_
    obtain ⟨j, x, rfl, hj, -⟩ := mem_usedFrom.mp hi
    exact homeOf_append _ _ _ (by simpa using (List.getElem?_eq_some_iff.mp hj).1)
  have hhome : ∀ v, ∀ i ∈ usedFrom 0 m.ents, m.hit K k (K.hash k) i = true →
      homeOf (m.ents ++ [fresh K m.isSet k v]) m.nidx i = slotOf m.nidx (K.hash k) := by
    intro v i hi hik
    obtain ⟨j, x, rfl, hj, hx⟩ := mem_usedFrom.mp hi
    have hlt := (List.getElem?_eq_some_iff.mp hj).1
    simp only [VlMap.hit, Nat.zero_add, hj, Bool.and_eq_true, beq_iff_eq] at hik
    rw [Nat.zero_add, homeOf_append _ _ _ hlt]
    simp [homeOf, hj, hik.1.2]
  have hprobe : ∀ v, _ := fun v =>
    have hload := h.load
    have hcount := h.count
    (hold v).probe (by rw [h.len]; exact nextSlot_eq hpow) (by rw [h.len]; omega)
      (by rw [h.len] : m.idx.length ≤ m.nidx) (by rw [h.len]; exact slotOf_lt hpos _) (hhome v)
  obtain ⟨slot, hslot, -⟩ := hprobe K.nil
  rcases find_usedFrom hhit with ⟨as, x, bs, hsplit, hx, hq, has, hfind⟩ | ⟨hall, hfind⟩
  · refine .inl ⟨slot, as, x, bs, ⟨hsplit, hx, hq, has⟩, ?_⟩
    rw [VlMap.findSlot, hslot, hfind, Nat.zero_add]
  · refine .inr ⟨hall, slot, by rw [VlMap.findSlot, hslot, hfind], fun v => ?_⟩
    obtain ⟨slot', hslot', hfill⟩ := hprobe v
    obtain rfl : slot = slot' := by simpa using hslot.symm.trans hslot'
    rw [usedFrom_fresh]
    exact hfill hfind _ (hnew v)

/-! ### The calls on the list -/

theorem equal_of_mem_live {ents : List (VlEntry V)}
    (h : ∀ y ∈ ents, y.used = true → K.equal y.k k = false) :
    ∀ x ∈ live ents, K.equal x.1 k = false := by
  intro x hx
  obtain ⟨y, hy, rfl⟩ := mem_map.mp hx
  obtain ⟨hy, hused⟩ := mem_filter.mp hy
  exact h y hy hused

theorem Found.live {ents as bs : List (VlEntry V)} {x : VlEntry V} {k : V}
    (h : Found K ents k as x bs) : live ents = live as ++ (x.k, x.v) :: live bs := by
  rw [h.split, live_append, live_cons, if_pos h.used]

theorem assoc_set_append {isSet : Bool} {k v : V} {as : Assoc V} (bs : Assoc V)
    (h : ∀ x ∈ as, K.equal x.1 k = false) :
    Assoc.set K isSet k v (as ++ bs) = as ++ Assoc.set K isSet k v bs := by
  induction as with
  | nil => rfl
  | cons x as ih =>
    have hx := h x mem_cons_self
    rw [cons_append, Assoc.set, if_neg (by simp [hx]),
      ih fun y hy => h y (mem_cons_of_mem _ hy), cons_append]

theorem Found.lookup {ents as bs : List (VlEntry V)}
    (h : Found K ents k as x bs) : Assoc.lookup K k (Voila.Rt.live ents) = some (x.k, x.v) := by
  have hnone : (Voila.Rt.live as).find? (fun y => K.equal y.1 k) = none :=
    find?_eq_none.mpr fun y hy => by simp [equal_of_mem_live h.before y hy]
  rw [Assoc.lookup, h.live, find?_append, hnone, Option.none_or]
  exact find?_cons_of_pos h.equal

theorem Found.delete {ents as bs : List (VlEntry V)} (h : Found K ents k as x bs) :
    Assoc.delete K k (Voila.Rt.live ents) = Voila.Rt.live as ++ Voila.Rt.live bs := by
  have has : ∀ y ∈ Voila.Rt.live as, ¬ K.equal y.1 k = true := fun y hy => by
    simp [equal_of_mem_live h.before y hy]
  rw [Assoc.delete, h.live, eraseP_append_right _ has]
  exact congrArg _ (eraseP_cons_of_pos h.equal)

theorem lookup_none {ents : List (VlEntry V)}
    (h : ∀ y ∈ ents, y.used = true → K.equal y.k k = false) : Assoc.lookup K k (live ents) = none :=
  find?_eq_none.mpr fun y hy => by simp [equal_of_mem_live h y hy]

theorem delete_none {ents : List (VlEntry V)}
    (h : ∀ y ∈ ents, y.used = true → K.equal y.k k = false) :
    Assoc.delete K k (live ents) = live ents :=
  eraseP_of_forall_not fun y hy => by simp [equal_of_mem_live h y hy]

/-! ### One call -/

section

variable {m : VlMap V}

theorem Inv.count_eq (h : Inv K S m) : m.count = (live m.ents).length := by
  rw [h.count, live_length 0]

theorem modify_append_cons (as bs : List (VlEntry V)) (x : VlEntry V) (f : VlEntry V → VlEntry V) :
    (as ++ x :: bs).modify as.length f = as ++ f x :: bs := by
  induction as with
  | nil => rfl
  | cons a as ih => simpa using ih

/-- Entries changed in place keep their homes with their hashes. -/
theorem homeOf_modify (ents : List (VlEntry V)) (i : Nat) {f : VlEntry V → VlEntry V}
    (hf : ∀ x, (f x).hash = x.hash) (nidx : Nat) :
    homeOf (ents.modify i f) nidx = homeOf ents nidx := by
  funext j
  rw [homeOf, homeOf, List.getElem?_modify]
  cases ents[j]? with
  | none => rfl
  | some x => by_cases hij : i = j <;> simp [hij, hf]

theorem usedFrom_congr (n : Nat) (as bs : List (VlEntry V)) {x y : VlEntry V}
    (hxy : y.used = x.used) : usedFrom n (as ++ y :: bs) = usedFrom n (as ++ x :: bs) := by
  rw [usedFrom_append, usedFrom_append, usedFrom, usedFrom, hxy]

/-- The index doubles: half of it is taken at most, from the moment one entry too many is in. -/
theorem inv_rehash (hpow : ∃ k, m.nidx = 2 ^ k) (hbig : 2 ≤ m.nidx)
    (hcount : m.count = (usedFrom 0 m.ents).length) (hload : m.count ≤ m.nidx)
    (hhash : ∀ x ∈ m.ents, x.used = true → x.hash = K.hash x.k ∧ S x.k)
    (hroom : m.ents.length ≤ m.capents ∧ 0 < m.capents) :
    ∃ m', m.rehash = some m' ∧ Inv K S m' ∧ m'.isSet = m.isSet ∧ m'.ents = m.ents := by
  obtain ⟨e, he⟩ := hpow
  have hpow' : m.nidx * 2 = 2 ^ (e + 1) := by rw [he, Nat.pow_succ]
  obtain ⟨idx, hidx, hlen, hindex⟩ := exists_reindex m.ents hpow' (by omega)
  refine ⟨{ m with nidx := m.nidx * 2, idx := idx }, by simp [VlMap.rehash, hidx], ?_, rfl, rfl⟩
  exact {
    pow := ⟨e + 1, hpow'⟩
    big := by simp only; omega
    len := hlen
    index := hindex
    count := hcount
    load := by simp only; omega
    hash := hhash
    room := hroom }

/-- The map with an entry appended and put into the index at `slot`. -/
def entered (K : Keys V) (m : VlMap V) (slot : Nat) (k v : V) : VlMap V :=
  { m with
    capents := if m.ents.length = m.capents then m.capents * 2 else m.capents
    ents := m.ents ++ [fresh K m.isSet k v]
    idx := m.idx.set slot (some m.ents.length)
    count := m.count + 1 }

variable {k : V}

theorem set_of_absent {slot : Nat} (hslot : m.findSlot K k (K.hash k) = some (slot, none))
    (v : V) : m.set K k v = if (m.count + 1) * 2 > m.nidx then (entered K m slot k v).rehash
      else some (entered K m slot k v) := by
  simp only [VlMap.set, hslot, Option.bind_eq_bind, Option.bind_some]
  rfl

theorem set_of_found {slot e : Nat}
    (hslot : m.findSlot K k (K.hash k) = some (slot, some e)) (v : V) :
    m.set K k v = if m.isSet then some m else
      some { m with ents := m.ents.modify e fun x => { x with v := v } } := by
  simp only [VlMap.set, hslot, Option.bind_eq_bind, Option.bind_some]

variable (hresp : ∀ a b, S a → S b → K.equal a b = true → K.hash a = K.hash b)
include hresp

theorem Inv.set (h : Inv K S m) (hk : S k) (v : V) :
    ∃ m', m.set K k v = some m' ∧ Inv K S m' ∧ m'.isSet = m.isSet ∧
      live m'.ents = Assoc.set K m.isSet k v (live m.ents) := by
  rcases h.findSlot hresp hk with ⟨slot, as, x, bs, hfound, hslot⟩ | ⟨hall, slot, hslot, hfill⟩
  · have hset : Assoc.set K m.isSet k v (live m.ents) =
        live as ++ (x.k, if m.isSet then x.v else v) :: live bs := by
      rw [hfound.live, assoc_set_append _ (equal_of_mem_live hfound.before), Assoc.set,
        if_pos hfound.equal]
    cases hisSet : m.isSet with
    | true =>
      refine ⟨m, by rw [set_of_found hslot, if_pos hisSet], h, hisSet, ?_⟩
      rw [← hisSet, hset, hfound.live, hisSet]
      rfl
    | false =>
      have hmod : m.ents.modify as.length (fun x => { x with v := v }) =
          as ++ { x with v := v } :: bs := by
        rw [hfound.split, modify_append_cons]
      have hlen : (as ++ { x with v := v } :: bs).length = m.ents.length := by
        rw [hfound.split, length_append, length_append]
        rfl
      have hhome := homeOf_modify m.ents as.length (f := fun x => { x with v := v })
        (fun _ => rfl) m.nidx
      rw [hmod] at hhome
      have hused : usedFrom 0 (as ++ { x with v := v } :: bs) = usedFrom 0 m.ents := by
        rw [hfound.split]
        exact usedFrom_congr 0 as bs rfl
      refine ⟨{ m with ents := as ++ { x with v := v } :: bs }, ?_, ?_, hisSet, ?_⟩
      · rw [set_of_found hslot, hisSet, hmod]
        rfl
      · exact {
          pow := h.pow
          big := h.big
          len := h.len
          index := by
            rw [hused, hhome]
            exact h.index
          count := by rw [hused]; exact h.count
          load := h.load
          hash := by
            intro y hy hyu
            have hx := h.hash x (by rw [hfound.split]; simp) hfound.used
            rcases mem_append.mp hy with hy | hy
            · exact h.hash y (by rw [hfound.split]; simp [hy]) hyu
            · rcases mem_cons.mp hy with rfl | hy
              · exact hx
              · exact h.hash y (by rw [hfound.split]; simp [hy]) hyu
          room := by rw [hlen]; exact h.room }
      · rw [← hisSet, hset, hisSet, live_append, live_cons, if_pos hfound.used]
        rfl
  · have hset : Assoc.set K m.isSet k v (live m.ents) =
        live (m.ents ++ [fresh K m.isSet k v]) := by
      have happ := @assoc_set_append _ K m.isSet k v _ [] (equal_of_mem_live hall)
      rw [List.append_nil] at happ
      rw [happ, live_append]
      rfl
    have hload := h.load
    have hcount := h.count
    have hbig := h.big
    have hcount' : m.count + 1 = (usedFrom 0 (m.ents ++ [fresh K m.isSet k v])).length := by
      rw [usedFrom_fresh, length_append, hcount]
      rfl
    have hhash : ∀ x ∈ m.ents ++ [fresh K m.isSet k v], x.used = true →
        x.hash = K.hash x.k ∧ S x.k := by
      intro x hx hxu
      rcases mem_append.mp hx with hx | hx
      · exact h.hash x hx hxu
      · obtain rfl := mem_singleton.mp hx
        exact ⟨rfl, hk⟩
    have hroom : (entered K m slot k v).ents.length ≤ (entered K m slot k v).capents ∧
        0 < (entered K m slot k v).capents := by
      have := h.room
      simp only [entered, length_append, length_singleton]
      split_ifs <;> omega
    rw [set_of_absent hslot]
    split_ifs with hgrow
    · have hroomy : (entered K m slot k v).count ≤ (entered K m slot k v).nidx := by
        simp only [entered]
        omega
      obtain ⟨m', hm', hinv, hisSet, hents⟩ :=
        inv_rehash (m := entered K m slot k v) h.pow h.big hcount' hroomy hhash hroom
      exact ⟨m', hm', hinv, hisSet, by rw [hents, hset]; rfl⟩
    · refine ⟨entered K m slot k v, rfl, ?_, rfl, hset.symm⟩
      exact {
        pow := h.pow
        big := h.big
        len := by simp only [entered, length_set]; exact h.len
        index := hfill v
        count := hcount'
        load := by simp only [entered]; omega
        hash := hhash
        room := hroom }

theorem Inv.delete (h : Inv K S m) (hk : S k) :
    ∃ m', m.delete K k = some m' ∧ Inv K S m' ∧ m'.isSet = m.isSet ∧
      live m'.ents = Assoc.delete K k (live m.ents) := by
  rcases h.findSlot hresp hk with ⟨slot, as, x, bs, hfound, hslot⟩ | ⟨hall, slot, hslot, -⟩
  · have hmod : m.ents.modify as.length (fun x => { x with used := false, k := K.nil, v := K.nil }) =
        as ++ { x with used := false, k := K.nil, v := K.nil } :: bs := by
      rw [hfound.split, modify_append_cons]
    have hlive : live (as ++ { x with used := false, k := K.nil, v := K.nil } :: bs) =
        Assoc.delete K k (live m.ents) := by
      rw [hfound.delete, live_append, live_cons]
      rfl
    have hcount : m.count - 1 =
        (usedFrom 0 (as ++ { x with used := false, k := K.nil, v := K.nil } :: bs)).length := by
      rw [h.count_eq, ← live_length, hlive, hfound.delete, hfound.live]
      simp
    have hload := h.load
    obtain ⟨e, hpow⟩ := h.pow
    obtain ⟨idx, hidx, hlen, hindex⟩ := exists_reindex
      (as ++ { x with used := false, k := K.nil, v := K.nil } :: bs) hpow (by omega)
    refine ⟨{ m with
      ents := as ++ { x with used := false, k := K.nil, v := K.nil } :: bs
      count := m.count - 1
      idx := idx }, ?_, ?_, rfl, hlive⟩
    · simp only [VlMap.delete, hslot, Option.bind_eq_bind, Option.bind_some, hmod, hidx]
    · exact {
        pow := h.pow
        big := h.big
        len := hlen
        index := hindex
        count := hcount
        load := by simp only; omega
        hash := by
          intro y hy hyu
          rcases mem_append.mp hy with hy | hy
          · exact h.hash y (by rw [hfound.split]; simp [hy]) hyu
          · rcases mem_cons.mp hy with rfl | hy
            · simp at hyu
            · exact h.hash y (by rw [hfound.split]; simp [hy]) hyu
        room := by
          have := h.room
          rw [hfound.split, length_append] at this
          rw [length_append]
          exact this }
  · refine ⟨m, ?_, h, rfl, (delete_none hall).symm⟩
    simp only [VlMap.delete, hslot, Option.bind_eq_bind, Option.bind_some]

theorem Inv.get (h : Inv K S m) (hk : S k) :
    m.get K k = some ((Assoc.lookup K k (live m.ents)).map Prod.snd) := by
  rcases h.findSlot hresp hk with ⟨slot, as, x, bs, hfound, hslot⟩ | ⟨hall, slot, hslot, -⟩
  · have hx : m.ents[as.length]? = some x := by simp [hfound.split]
    simp [VlMap.get, hslot, hx, hfound.lookup]
  · simp [VlMap.get, hslot, lookup_none hall]

theorem Inv.has (h : Inv K S m) (hk : S k) :
    m.has K k = some (Assoc.lookup K k (live m.ents)).isSome := by
  rcases h.findSlot hresp hk with ⟨slot, as, x, bs, hfound, hslot⟩ | ⟨hall, slot, hslot, -⟩
  · simp [VlMap.has, hslot, hfound.lookup]
  · simp [VlMap.has, hslot, lookup_none hall]

/-! ### Runs -/

/-- A call ends, answers as the list does and leaves a map that stands for the list's. -/
theorem Inv.step (h : Inv K S m) (op : MapOp V) (hop : ∀ k ∈ op.key, S k) :
    ∃ m', m.step K op = some (m', (Assoc.step K m.isSet (live m.ents) op).2) ∧ Inv K S m' ∧
      m'.isSet = m.isSet ∧ live m'.ents = (Assoc.step K m.isSet (live m.ents) op).1 := by
  cases op with
  | set k v =>
    obtain ⟨m', hm', hrest⟩ := h.set hresp (hop k rfl) v
    exact ⟨m', by simp [VlMap.step, hm', Assoc.step], hrest⟩
  | delete k =>
    obtain ⟨m', hm', hrest⟩ := h.delete hresp (hop k rfl)
    exact ⟨m', by simp [VlMap.step, hm', Assoc.step], hrest⟩
  | get k => exact ⟨m, by simp [VlMap.step, h.get hresp (hop k rfl), Assoc.step], h, rfl, rfl⟩
  | has k => exact ⟨m, by simp [VlMap.step, h.has hresp (hop k rfl), Assoc.step], h, rfl, rfl⟩
  | count => exact ⟨m, by simp [VlMap.step, h.count_eq, Assoc.step], h, rfl, rfl⟩
  | keys => exact ⟨m, by simp [VlMap.step, live_keys, Assoc.step], h, rfl, rfl⟩
  | values => exact ⟨m, by simp [VlMap.step, live_values, Assoc.step], h, rfl, rfl⟩

theorem Inv.run (h : Inv K S m) (ops : List (MapOp V)) (hops : ∀ op ∈ ops, ∀ k ∈ op.key, S k) :
    m.run K ops = some (Assoc.run K m.isSet (live m.ents) ops) := by
  induction ops generalizing m with
  | nil => rfl
  | cons op ops ih =>
    obtain ⟨m', hm', hinv, hisSet, hlive⟩ := h.step hresp op (hops op mem_cons_self)
    have ih := ih hinv fun o ho => hops o (mem_cons_of_mem _ ho)
    simp [VlMap.run, hm', ih, Assoc.run, hisSet, hlive]

end

/-- Some call of the sequence is about the key. -/
def KeyIn (ops : List (MapOp V)) (k : V) : Prop := ∃ op ∈ ops, k ∈ op.key

/-- Every sequence of calls on a fresh map or set ends, with the results of the association
    list, if equal keys of the sequence have one hash. -/
theorem run_newMap (K : Keys V) (isSet : Bool) (ops : List (MapOp V))
    (hresp : ∀ a b, KeyIn ops a → KeyIn ops b → K.equal a b = true → K.hash a = K.hash b) :
    (newMap isSet).run K ops = some (Assoc.run K isSet [] ops) :=
  (inv_newMap isSet).run hresp ops fun op hop _ hk => ⟨op, hop, hk⟩

/-- Numbers that all collide. -/
def colliding : Keys Nat := ⟨0, fun a b => a == b, fun _ => 7⟩

theorem run_colliding :
    (newMap false).run colliding [.set 1 10, .set 2 20, .set 1 11, .delete 1, .set 1 12, .keys] =
      some (Assoc.run colliding false []
        [.set 1 10, .set 2 20, .set 1 11, .delete 1, .set 1 12, .keys]) :=
  run_newMap colliding false _ fun _ _ _ _ _ => rfl

end Voila.Rt
