import Voila.Rt.Release

/-!
# Voila.Rt.ReleaseSound

`vl_release` frees what becomes unreachable, once, and keeps the counts exact.

The invariant (`Counting`) holds between any two steps: every count is the number of references
there are, those given up and not yet counted down among them, and the objects of count zero
are the parked ones and the one in hand. Each step has one lemma (`Counting.down`, `Counting.park`,
`Counting.collect`, ...); the functions of the source follow the steps.

A judgement never finds garbage, since the frame it would reap is on a cycle. But one that
meets activations under its frame is deferred, and its hold outlives the release: a frame so
held, and what it holds, stays.
-/

namespace Voila.Rt

open Lib List

/-! ### References -/

/-- A reference to a cell; `exit` for that of a frame which counts as active in it. -/
structure HRef where
  loc : Loc
  exit : Bool
  deriving DecidableEq

def HVal.refs : HVal → List HRef
  | .imm => []
  | .obj o => [⟨.obj o, false⟩]

/-- The values in a channel, first in first. -/
def Queue.values (q : Queue) : List HVal :=
  (List.range q.count).filterMap fun i => q.buf[(q.head + i) % q.buf.length]?

/-- The values of an entry that a map owns. -/
def MapEnt.values (isSet : Bool) (e : MapEnt) : List HVal :=
  if e.used then (if isSet then [e.k] else [e.k, e.v]) else []

/-- The values that an object holds. -/
def Body.values : Body → List HVal
  | .plain | .closure _ => []
  | .slice e | .tuple e | .struct e | .enum e => e
  | .map isSet ents => ents.flatMap (MapEnt.values isSet)
  | .err typeName msg fields cause suppressed trace =>
    [typeName, msg, fields, cause, suppressed, trace]
  | .chan q => q.values
  | .task result exc fn argv => result :: exc :: fn :: argv
  | .shared v | .box v | .cell v | .file v | .socket v => [v]
  | .reader v w | .writer v w | .proc v w | .iter v w => [v, w]

def Body.refs : Body → List HRef
  | .closure up => up.toList.map fun f => ⟨.frame f, false⟩
  | b => b.values.flatMap HVal.refs

def Frame.held (fr : Frame) : List HRef :=
  (fr.r ++ fr.defers).flatMap HVal.refs ++ fr.up.toList.map fun u => ⟨.frame u, fr.inact⟩

/-- The references of a cell. -/
def Heap.kids (s : Heap) : Loc → List HRef
  | .obj o => match s.objs o with
    | some n => n.body.refs
    | none => []
  | .frame f => match s.frames f with
    | some fr => fr.held
    | none => []

/-- The holds of the deferred judgements. -/
def Heap.deferredRefs (s : Heap) : Multiset HRef := (s.deferred.map fun f => ⟨.frame f, false⟩ : List HRef)

/-- The references to a cell. -/
def toLoc (x : Loc) (refs : Multiset HRef) : Nat := refs.countP (·.loc = x)

/-- The references that count as active in a cell. -/
def activeIn (x : Loc) (refs : Multiset HRef) : Nat := refs.countP fun r => r.loc = x ∧ r.exit = true

/-- A cell whose count is down to zero. -/
def Heap.zero (s : Heap) : Loc → Prop
  | .obj o => ∃ n, s.objs o = some n ∧ n.rc = 0
  | .frame f => ∃ fr, s.frames f = some fr ∧ fr.refs = 0 ∧ fr.holds = 0

/-! ### The worklist is a stack -/

/-- `w` holds the objects of `l`, the last one parked first. -/
structure DeadList.Holds (w : DeadList) (l : List Nat) : Prop where
  ndead : w.ndead = l.length
  inl : w.inl.length = deadInline
  items : ∀ k < l.length, (w.block.getD w.inl)[k]? = l.reverse[k]?
  room : w.ndead ≤ (w.block.getD w.inl).length
  block : ∀ b, w.block = some b → b.length = w.capdead ∧ deadInline ≤ w.capdead

variable {l : List Nat} {o f : Nat} {n : Obj} {fr : Frame} {e : Bool} {v : HVal}

theorem getElem?_set_append {b : List Nat} (hroom : l.length < b.length)
    (hitems : ∀ k < l.length, b[k]? = l.reverse[k]?) :
    ∀ k < (o :: l).length, (b.set l.length o)[k]? = (o :: l).reverse[k]? := by
  intro k hk
  rw [reverse_cons]
  rcases Nat.lt_or_ge k l.length with hlt | hge
  · rw [List.getElem?_set_ne (by omega), hitems k hlt, List.getElem?_append_left (by simpa using hlt)]
  · have : k = l.length := by simp at hk; omega
    subst this
    rw [List.getElem?_set_self hroom, List.getElem?_append_right (by simp)]
    simp

theorem DeadList.Holds.park {w : DeadList} (h : w.Holds l) (o : Nat) :
    (parkDead w o).Holds (o :: l) := by
  have hn := h.ndead
  unfold parkDead
  cases hb : w.block with
  | none =>
    have hitems := h.items
    have hroom := h.room
    simp only [hb, Option.getD_none, h.inl] at hitems hroom
    dsimp only
    split_ifs with hlt
    · exact {
        ndead := by simp [hn]
        inl := by simp [h.inl]
        items := by
          simp only [Option.getD_none, hn]
          exact getElem?_set_append (by rw [h.inl]; omega) hitems
        room := by simp [h.inl]; omega
        block := by simp }
    · -- the array is full: its contents move to a block
      have hfull : l.length = deadInline := by omega
      have hlen : (w.inl ++ List.replicate (deadInline * 4 - deadInline) 0).length = deadInline * 4 := by
        rw [length_append, length_replicate, h.inl]
        decide
      have hgrown : ∀ k < l.length,
          (w.inl ++ List.replicate (deadInline * 4 - deadInline) 0)[k]? = l.reverse[k]? := by
        intro k hk
        rw [List.getElem?_append_left (by rw [h.inl]; omega), hitems k hk]
      exact {
        ndead := by simp [hn]
        inl := h.inl
        items := by
          simp only [Option.getD_some, hn]
          refine getElem?_set_append ?_ hgrown
          rw [hlen, hfull]
          decide
        room := by
          simp only [Option.getD_some, length_set, hlen, hn, hfull]
          decide
        block := by
          rintro b ⟨rfl⟩
          rw [length_set, hlen]
          exact ⟨rfl, (by decide : deadInline ≤ deadInline * 4)⟩ }
  | some block =>
    have hitems := h.items
    have hroom := h.room
    obtain ⟨hcap, hmin⟩ := h.block block hb
    have hpos : 0 < deadInline := by decide
    simp only [hb, Option.getD_some] at hitems hroom
    dsimp only
    split_ifs with heq
    · exact {
        ndead := by simp [hn]
        inl := h.inl
        items := by
          simp only [Option.getD_some, hn]
          refine getElem?_set_append (by simp; omega) ?_
          intro k hk
          rw [List.getElem?_append_left (by omega), hitems k hk]
        room := by simp; omega
        block := by
          rintro b ⟨rfl⟩
          simp
          omega }
    · exact {
        ndead := by simp [hn]
        inl := h.inl
        items := by
          simp only [Option.getD_some, hn]
          exact getElem?_set_append (by omega) hitems
        room := by simp; omega
        block := by
          rintro b ⟨rfl⟩
          simp
          omega }

theorem DeadList.Holds.take {w : DeadList} {o : Nat} {l : List Nat} (h : w.Holds (o :: l)) :
    ∃ w', takeDead w = some (o, w') ∧ w'.Holds l := by
  have hn : w.ndead = l.length + 1 := h.ndead
  have htop : (w.block.getD w.inl)[w.ndead - 1]? = some o := by
    rw [h.items _ (by simp [hn]), hn]
    simp
  have hrest : ∀ k < l.length, (w.block.getD w.inl)[k]? = l.reverse[k]? := by
    intro k hk
    rw [h.items k (by simp; omega), reverse_cons, List.getElem?_append_left (by simpa using hk)]
  have hroom := h.room
  refine ⟨{ w with ndead := w.ndead - 1 }, ?_, ?_⟩
  · unfold takeDead
    cases hb : w.block <;> rw [hb] at htop <;> simp_all
  · have hroom' : w.ndead - 1 ≤ (w.block.getD w.inl).length := by omega
    exact { ndead := by simp [hn], inl := h.inl, items := hrest, room := hroom', block := h.block }

/-! ### What `obj_free` releases -/

theorem releaseAll_append (s : Heap) (vs ws : List HVal) :
    releaseAll s (vs ++ ws) = match releaseAll s vs with
      | none => none
      | some s => releaseAll s ws := by
  induction vs generalizing s with
  | nil => rfl
  | cons v vs ih =>
    rw [cons_append, releaseAll, releaseAll]
    cases release s v with
    | none => rfl
    | some s => exact ih s

theorem releaseEntries_eq (isSet : Bool) (s : Heap) (ents : List MapEnt) :
    releaseEntries isSet s ents = releaseAll s (ents.flatMap (MapEnt.values isSet)) := by
  induction ents generalizing s with
  | nil => rfl
  | cons e ents ih =>
    rw [releaseEntries, flatMap_cons, releaseAll_append, MapEnt.values]
    cases hu : e.used with
    | false => simpa [releaseAll] using ih s
    | true =>
      simp only [Bool.not_true, Bool.false_eq_true, if_false, if_true]
      cases releaseAll s (if isSet then [e.k] else [e.k, e.v]) with
      | none => rfl
      | some s => exact ih s

theorem releaseQueue_eq (q : Queue) (left i : Nat) (s : Heap) (h : i + left ≤ q.count) :
    releaseQueue q i left s = releaseAll s ((List.range' i left).filterMap fun i =>
      q.buf[(q.head + i) % q.buf.length]?) := by
  induction left generalizing i s with
  | zero => rfl
  | succ left ih =>
    have hfits := q.fits
    have hlt : (q.head + i) % q.buf.length < q.buf.length := Nat.mod_lt _ (by omega)
    rw [releaseQueue, range'_succ, filterMap_cons, List.getElem?_eq_getElem hlt]
    dsimp only
    rw [releaseAll]
    cases release s q.buf[(q.head + i) % q.buf.length] with
    | none => rfl
    | some s => exact ih (i + 1) s (by omega)

/-- `obj_free` lets go of what the object holds. -/
theorem objFree_eq (k : Nat) {s : Heap} (h : s.objs o = some n) :
    objFree k s o = match n.body with
      | .closure (some f) => frameReleaseJudged (frameFree k) (s.dropObj o) f true
      | b => releaseAll (s.dropObj o) b.values := by
  unfold objFree
  rw [h]
  obtain ⟨rc, body⟩ := n
  cases body with
  | map isSet ents => exact releaseEntries_eq _ _ _
  | chan q =>
    have hq := releaseQueue_eq q q.count 0 (s.dropObj o) (by omega)
    rw [← range_eq_range'] at hq
    exact hq
  | closure up => cases up <;> rfl
  | _ => rfl

/-! ### The invariant -/

/-- Between two steps of a release that started in `s₀`, where the cells of `live₀` were
live. The references of `given` are given up and not yet counted down, and those of `out`
are held from outside; the cells of `busy` are down to zero and not parked. -/
structure Counting (s₀ : Heap) (live₀ live : Finset Loc) (given out : Multiset HRef) (busy : List Loc)
    (s : Heap) : Prop where
  closed : Closed HRef.loc live (held s₀.kids live given out)
  obj_mem : ∀ o, Loc.obj o ∈ live ↔ ∃ n, s.objs o = some n
  frame_mem : ∀ f, Loc.frame f ∈ live ↔ ∃ fr, s.frames f = some fr
  obj_same : ∀ {o n}, s.objs o = some n → ∃ n₀, s₀.objs o = some n₀ ∧ n.body = n₀.body
  frame_same : ∀ {f fr}, s.frames f = some fr → ∃ fr₀, s₀.frames f = some fr₀ ∧
    fr = { fr₀ with refs := fr.refs, active := fr.active, holds := fr.holds } ∧ fr.active ≤ fr₀.active
  rc : ∀ {o n}, s.objs o = some n → n.rc = toLoc (.obj o) (held s₀.kids live given out)
  refs : ∀ {f fr}, s.frames f = some fr → fr.refs = toLoc (.frame f) (held s₀.kids live given out)
  active : ∀ {f fr}, s.frames f = some fr →
    fr.active = activeIn (.frame f) (held s₀.kids live given out)
  holds : ∀ {f fr}, s.frames f = some fr → fr.holds = s.deferred.count f
  deferred_mem : ∀ f ∈ s.deferred, Loc.frame f ∈ live
  dead : ∃ l, s.dead.Holds l ∧ (l.map Loc.obj ++ busy).Nodup ∧
    ∀ x, x ∈ l.map Loc.obj ++ busy ↔ s.zero x
  sub : live ⊆ live₀
  freed : ∃ fs, s.freed = fs ++ s₀.freed ∧ fs.Nodup ∧ ∀ x, x ∈ fs ↔ x ∈ live₀ ∧ x ∉ live
  deferred : ∃ fs, s.deferred = s₀.deferred ++ fs ∧
    ∀ f ∈ fs, ∃ fr, s₀.frames f = some fr ∧ fr.done = true ∧ 0 < fr.active

variable {s₀ s : Heap} {live₀ live : Finset Loc} {given out : Multiset HRef} {busy : List Loc}

@[simp] theorem toLoc_cons (x : Loc) (r : HRef) (refs : Multiset HRef) :
    toLoc x (r ::ₘ refs) = toLoc x refs + if r.loc = x then 1 else 0 := by
  simp [toLoc, Multiset.countP_cons]

@[simp] theorem activeIn_cons (x : Loc) (r : HRef) (refs : Multiset HRef) :
    activeIn x (r ::ₘ refs) = activeIn x refs + if r.loc = x ∧ r.exit = true then 1 else 0 := by
  simp [activeIn, Multiset.countP_cons]

theorem activeIn_le (x : Loc) (refs : Multiset HRef) : activeIn x refs ≤ toLoc x refs := by
  induction refs using Multiset.induction_on with
  | empty => simp [activeIn]
  | cons r refs ih =>
    rw [activeIn_cons, toLoc_cons]
    by_cases hr : r.loc = x
    · rw [if_pos hr]
      split_ifs <;> omega
    · rw [if_neg hr, if_neg (fun h => hr h.1)]
      omega

variable {x : Loc} {s' : Heap}

theorem toLoc_eq_zero {refs : Multiset HRef} : toLoc x refs = 0 ↔ ∀ r ∈ refs, r.loc ≠ x := by
  simp [toLoc, Multiset.countP_eq_zero]

theorem Counting.kids_obj (h : Counting s₀ live₀ live given out busy s)
    (hn : s.objs o = some n) : s₀.kids (.obj o) = n.body.refs := by
  obtain ⟨n₀, hn₀, hbody⟩ := h.obj_same hn
  simp [Heap.kids, hn₀, hbody]

theorem Counting.kids_frame (h : Counting s₀ live₀ live given out busy s)
    (hf : s.frames f = some fr) : s₀.kids (.frame f) = fr.held := by
  obtain ⟨fr₀, hf₀, heq, -⟩ := h.frame_same hf
  rw [heq]
  simp [Heap.kids, hf₀, Frame.held]

/-! ### One step -/

theorem setObj_cases {o i : Nat} {n m : Obj} (h : (s.setObj o n).objs i = some m) :
    (i = o ∧ m = n) ∨ (Loc.obj o ≠ Loc.obj i ∧ s.objs i = some m) := by
  by_cases hi : i = o
  · simp only [Heap.setObj, hi, if_true, Option.some.injEq] at h
    exact .inl ⟨hi, h.symm⟩
  · simp only [Heap.setObj, hi, if_false] at h
    exact .inr ⟨fun heq => hi (Loc.obj.inj heq).symm, h⟩

theorem setFrame_cases {f i : Nat} {fr gr : Frame} (h : (s.setFrame f fr).frames i = some gr) :
    (i = f ∧ gr = fr) ∨ (Loc.frame f ≠ Loc.frame i ∧ s.frames i = some gr) := by
  by_cases hi : i = f
  · simp only [Heap.setFrame, hi, if_true, Option.some.injEq] at h
    exact .inl ⟨hi, h.symm⟩
  · simp only [Heap.setFrame, hi, if_false] at h
    exact .inr ⟨fun heq => hi (Loc.frame.inj heq).symm, h⟩

theorem setObj_mem {n n' : Obj} (hn : s.objs o = some n) (i : Nat) :
    (∃ m, (s.setObj o n').objs i = some m) ↔ ∃ m, s.objs i = some m := by
  by_cases hi : i = o
  · simp [Heap.setObj, hi, hn]
  · simp [Heap.setObj, hi]

theorem setFrame_mem {fr fr' : Frame} (hf : s.frames f = some fr) (i : Nat) :
    (∃ gr, (s.setFrame f fr').frames i = some gr) ↔ ∃ gr, s.frames i = some gr := by
  by_cases hi : i = f
  · simp [Heap.setFrame, hi, hf]
  · simp [Heap.setFrame, hi]

theorem zero_setObj : (s.setObj o n).zero x ↔ if x = .obj o then n.rc = 0 else s.zero x := by
  cases x with
  | obj i =>
    by_cases hi : i = o
    · simp [Heap.zero, Heap.setObj, hi]
    · simp [Heap.zero, Heap.setObj, hi]
  | frame f => simp [Heap.zero, Heap.setObj]

theorem zero_setFrame :
    (s.setFrame f fr).zero x ↔ if x = .frame f then fr.refs = 0 ∧ fr.holds = 0 else s.zero x := by
  cases x with
  | obj i => simp [Heap.zero, Heap.setFrame]
  | frame i =>
    by_cases hi : i = f
    · simp [Heap.zero, Heap.setFrame, hi]
    · simp [Heap.zero, Heap.setFrame, hi]

/-- The parked objects after the count of one cell changed. -/
theorem Counting.dead_update {down : Prop} [Decidable down]
    (h : Counting s₀ live₀ live given out [] s) (hx : ¬ s.zero x) (hdead : s'.dead = s.dead)
    (hzero : ∀ y, s'.zero y ↔ if y = x then down else s.zero y) :
    ∃ l, s'.dead.Holds l ∧ (l.map Loc.obj ++ if down then [x] else []).Nodup ∧
      ∀ y, y ∈ l.map Loc.obj ++ (if down then [x] else []) ↔ s'.zero y := by
  obtain ⟨l, hholds, hnd, hl⟩ := h.dead
  rw [List.append_nil] at hnd
  have hnot : x ∉ l.map Loc.obj := fun hm => hx ((hl x).mp (by simpa using hm))
  refine ⟨l, hdead ▸ hholds, ?_, ?_⟩
  · split_ifs
    · exact nodup_append.mpr ⟨hnd, by simp, by
        intro a ha b hb heq
        rw [mem_singleton.mp hb] at heq
        exact hnot (heq ▸ ha)⟩
    · simpa using hnd
  · intro y
    have hy := hl y
    rw [List.append_nil] at hy
    rw [hzero, mem_append, hy]
    by_cases hyx : y = x
    · subst hyx
      split_ifs <;> simp_all
    · split_ifs <;> simp [hyx]

/-- An object's count goes down. -/
theorem Counting.downObj (h : Counting s₀ live₀ live (⟨.obj o, e⟩ ::ₘ given) out [] s)
    (hn : s.objs o = some n) :
    0 < n.rc ∧ Counting s₀ live₀ live given out (if n.rc - 1 = 0 then [.obj o] else [])
      (s.setObj o { n with rc := n.rc - 1 }) := by
  have hrc := h.rc hn
  rw [held_cons, toLoc_cons, if_pos rfl] at hrc
  refine ⟨by omega, ?_⟩
  exact {
    closed := fun r hr => h.closed r (by rw [held_cons]; exact Multiset.mem_cons_of_mem hr)
    obj_mem := fun i => (h.obj_mem i).trans (setObj_mem hn i).symm
    frame_mem := h.frame_mem
    obj_same := by
      intro i m hm
      rcases setObj_cases hm with ⟨rfl, rfl⟩ | ⟨-, hm⟩
      · have hsame := h.obj_same hn
        exact hsame
      · exact h.obj_same hm
    frame_same := h.frame_same
    rc := by
      intro i m hm
      rcases setObj_cases hm with ⟨rfl, rfl⟩ | ⟨hne, hm⟩
      · dsimp only
        omega
      · simpa [hne] using h.rc hm
    refs := fun hf => by simpa using h.refs hf
    active := fun hf => by simpa using h.active hf
    holds := h.holds
    deferred_mem := h.deferred_mem
    dead := by
      refine h.dead_update ?_ rfl fun y => zero_setObj
      rintro ⟨m, hm, hz⟩
      rw [hn] at hm
      cases hm
      omega
    sub := h.sub
    freed := h.freed
    deferred := h.deferred }

/-- A frame's reference goes; `e` tells whether that of a frame that was active in it. -/
theorem Counting.downFrame (h : Counting s₀ live₀ live (⟨.frame f, e⟩ ::ₘ given) out [] s)
    (hf : s.frames f = some fr) :
    0 < fr.refs ∧ (e = true → 0 < fr.active) ∧
      (fr.refs = 1 → fr.active = if e = true then 1 else 0) ∧
      Counting s₀ live₀ live given out (if fr.refs - 1 = 0 ∧ fr.holds = 0 then [.frame f] else [])
        (s.setFrame f { fr with refs := fr.refs - 1, active := fr.active - if e = true then 1 else 0 }) := by
  have hrefs := h.refs hf
  have hactive := h.active hf
  have hle := activeIn_le (.frame f) (held s₀.kids live given out)
  rw [held_cons, toLoc_cons, if_pos rfl] at hrefs
  simp only [held_cons, activeIn_cons, true_and] at hactive
  refine ⟨by omega, fun he => by rw [if_pos he] at hactive; omega, fun h1 => by omega, ?_⟩
  exact {
    closed := fun r hr => h.closed r (by rw [held_cons]; exact Multiset.mem_cons_of_mem hr)
    obj_mem := h.obj_mem
    frame_mem := fun i => (h.frame_mem i).trans (setFrame_mem hf i).symm
    obj_same := h.obj_same
    frame_same := by
      intro i gr hi
      rcases setFrame_cases hi with ⟨rfl, rfl⟩ | ⟨-, hi⟩
      · obtain ⟨fr₀, hfr₀, heq, hact⟩ := h.frame_same hf
        refine ⟨fr₀, hfr₀, ?_, Nat.le_trans (Nat.sub_le _ _) hact⟩
        rw [heq]
      · exact h.frame_same hi
    rc := fun hm => by simpa using h.rc hm
    refs := by
      intro i gr hi
      rcases setFrame_cases hi with ⟨rfl, rfl⟩ | ⟨hne, hi⟩
      · dsimp only
        omega
      · simpa [hne] using h.refs hi
    active := by
      intro i gr hi
      rcases setFrame_cases hi with ⟨rfl, rfl⟩ | ⟨hne, hi⟩
      · dsimp only
        omega
      · simpa [hne] using h.active hi
    holds := by
      intro i gr hi
      rcases setFrame_cases hi with ⟨rfl, rfl⟩ | ⟨-, hi⟩
      · have hholds := h.holds hf
        exact hholds
      · exact h.holds hi
    deferred_mem := h.deferred_mem
    dead := by
      refine h.dead_update ?_ rfl fun y => zero_setFrame
      rintro ⟨fr', hf', hz, -⟩
      rw [hf] at hf'
      cases hf'
      omega
    sub := h.sub
    freed := h.freed
    deferred := h.deferred }

/-- The judgement of a frame is deferred. -/
theorem Counting.defer {f : Nat} (h : Counting s₀ live₀ live given out busy s) {fr : Frame}
    (hf : s.frames f = some fr) (hdone : fr.done = true) (hactive : 0 < fr.active) :
    Counting s₀ live₀ live given out busy
      { s.setFrame f { fr with holds := fr.holds + 1 } with deferred := s.deferred ++ [f] } := by
  obtain ⟨fr₀, hfr₀, heq, hact⟩ := h.frame_same hf
  have hrefs : 0 < fr.refs := by
    have hle := activeIn_le (.frame f) (held s₀.kids live given out)
    rw [← h.active hf, ← h.refs hf] at hle
    omega
  exact {
    closed := h.closed
    obj_mem := h.obj_mem
    frame_mem := fun i => (h.frame_mem i).trans (setFrame_mem hf i).symm
    obj_same := h.obj_same
    frame_same := by
      intro i gr hi
      rcases setFrame_cases hi with ⟨rfl, rfl⟩ | ⟨-, hi⟩
      · refine ⟨fr₀, hfr₀, ?_, hact⟩
        rw [heq]
      · exact h.frame_same hi
    rc := h.rc
    refs := by
      intro i gr hi
      rcases setFrame_cases hi with ⟨rfl, rfl⟩ | ⟨-, hi⟩
      · have hrefs := h.refs hf
        exact hrefs
      · exact h.refs hi
    active := by
      intro i gr hi
      rcases setFrame_cases hi with ⟨rfl, rfl⟩ | ⟨-, hi⟩
      · have hactive := h.active hf
        exact hactive
      · exact h.active hi
    holds := by
      intro i gr hi
      rcases setFrame_cases hi with ⟨rfl, rfl⟩ | ⟨hne, hi⟩
      · simp [h.holds hf]
      · have hne' : f ≠ i := fun heq => hne (congrArg Loc.frame heq)
        simp [h.holds hi, hne']
    deferred_mem := by
      intro i hi
      rcases mem_append.mp hi with hi | hi
      · exact h.deferred_mem i hi
      · rw [mem_singleton.mp hi]
        exact (h.frame_mem f).mpr ⟨fr, hf⟩
    dead := by
      obtain ⟨l, hholds, hnd, hl⟩ := h.dead
      refine ⟨l, hholds, hnd, fun x => (hl x).trans ?_⟩
      -- the frame is not down to zero, before or after
      have hz : Heap.zero { s.setFrame f { fr with holds := fr.holds + 1 } with
          deferred := s.deferred ++ [f] } x ↔
          (s.setFrame f { fr with holds := fr.holds + 1 }).zero x := by cases x <;> rfl
      rw [hz, zero_setFrame]
      split_ifs with hx
      · subst hx
        refine iff_of_false ?_ fun hz => hz.2.elim
        rintro ⟨fr', hf', hz, -⟩
        rw [hf] at hf'
        cases hf'
        omega
      · rfl
    sub := h.sub
    freed := h.freed
    deferred := by
      obtain ⟨fs, hfs, hall⟩ := h.deferred
      refine ⟨fs ++ [f], by simp [hfs], ?_⟩
      intro i hi
      rcases mem_append.mp hi with hi | hi
      · exact hall i hi
      · rw [mem_singleton.mp hi]
        refine ⟨fr₀, hfr₀, ?_, by omega⟩
        rw [← hdone, heq] }

/-- An object that went down to zero is parked. -/
theorem Counting.park (h : Counting s₀ live₀ live given out [.obj o] s) :
    Counting s₀ live₀ live given out [] { s with dead := parkDead s.dead o } :=
  { h with
    dead := by
      obtain ⟨l, hholds, hnd, hl⟩ := h.dead
      refine ⟨o :: l, hholds.park o, ?_, ?_⟩
      · rw [List.append_nil, map_cons]
        exact (perm_append_singleton _ _).nodup hnd
      · intro x
        have hz : Heap.zero { s with dead := parkDead s.dead o } x ↔ s.zero x := by cases x <;> rfl
        rw [hz, ← hl x, List.append_nil, map_cons]
        exact (perm_append_singleton _ _).symm.mem_iff }

/-- The last object parked is taken. -/
theorem Counting.take (h : Counting s₀ live₀ live given out [] s) (hne : s.dead.ndead ≠ 0) :
    ∃ o w, takeDead s.dead = some (o, w) ∧
      Counting s₀ live₀ live given out [.obj o] { s with dead := w } := by
  obtain ⟨l, hholds, hnd, hl⟩ := h.dead
  rw [List.append_nil] at hnd
  cases l with
  | nil => exact absurd hholds.ndead hne
  | cons o l =>
    obtain ⟨w, htake, hw⟩ := hholds.take
    refine ⟨o, w, htake, { h with dead := ⟨l, hw, ?_, ?_⟩ }⟩
    · exact (perm_append_singleton _ _).symm.nodup hnd
    · intro x
      have hz : Heap.zero { s with dead := w } x ↔ s.zero x := by cases x <;> rfl
      rw [hz, ← hl x, List.append_nil, map_cons]
      exact (perm_append_singleton _ _).mem_iff

/-- A cell in hand is not referred to. -/
theorem Counting.unreferred (h : Counting s₀ live₀ live given out [x] s) :
    x ∈ live ∧ ∀ r ∈ held s₀.kids live given out, r.loc ≠ x := by
  obtain ⟨l, -, -, hl⟩ := h.dead
  have hz : s.zero x := (hl x).mp (by simp)
  cases x with
  | obj o =>
    obtain ⟨n, hn, hz⟩ := hz
    exact ⟨(h.obj_mem o).mpr ⟨n, hn⟩, toLoc_eq_zero.mp ((h.rc hn).symm.trans hz)⟩
  | frame f =>
    obtain ⟨fr, hf, hz, -⟩ := hz
    exact ⟨(h.frame_mem f).mpr ⟨fr, hf⟩, toLoc_eq_zero.mp ((h.refs hf).symm.trans hz)⟩

theorem collect_freed (hfreed : ∃ fs, s.freed = fs ++ s₀.freed ∧ fs.Nodup ∧
      ∀ y, y ∈ fs ↔ y ∈ live₀ ∧ y ∉ live)
    (hx : x ∈ live) (hsub : live ⊆ live₀) (hs' : s'.freed = x :: s.freed) :
    ∃ fs, s'.freed = fs ++ s₀.freed ∧ fs.Nodup ∧ ∀ y, y ∈ fs ↔ y ∈ live₀ ∧ y ∉ live.erase x := by
  obtain ⟨fs, hfs, hnd, hall⟩ := hfreed
  refine ⟨x :: fs, by rw [hs', hfs, cons_append], nodup_cons.mpr ⟨?_, hnd⟩, ?_⟩
  · intro hmem
    exact ((hall x).mp hmem).2 hx
  · intro y
    rw [mem_cons, hall, Finset.mem_erase]
    by_cases hy : y = x
    · simp [hy, hsub hx]
    · simp [hy]

/-- An object is freed, and its references are given up. -/
theorem Counting.collectObj (h : Counting s₀ live₀ live given out [.obj o] s) :
    Counting s₀ live₀ (live.erase (.obj o)) (s₀.kids (.obj o) + given) out [] (s.dropObj o) := by
  obtain ⟨hmem, hnone⟩ := h.unreferred
  have hheld := @held_erase _ _ s₀.kids live given out _ _ hmem
  have hobj : ∀ {i n}, (s.dropObj o).objs i = some n → Loc.obj i ≠ Loc.obj o ∧ s.objs i = some n := by
    intro i n hi
    by_cases hio : i = o
    · simp [Heap.dropObj, hio] at hi
    · simp only [Heap.dropObj, hio, if_false] at hi
      exact ⟨fun heq => hio (Loc.obj.inj heq), hi⟩
  exact {
    closed := by
      rw [hheld]
      exact h.closed.erase hnone
    obj_mem := by
      intro i
      by_cases hi : i = o
      · simp [Heap.dropObj, hi]
      · simp [Heap.dropObj, hi, h.obj_mem]
    frame_mem := fun f => by simpa [Heap.dropObj] using h.frame_mem f
    obj_same := fun hi => h.obj_same (hobj hi).2
    frame_same := h.frame_same
    rc := fun hi => by rw [hheld]; exact h.rc (hobj hi).2
    refs := fun hf => by rw [hheld]; exact h.refs hf
    active := fun hf => by rw [hheld]; exact h.active hf
    holds := h.holds
    deferred_mem := fun f hf => by simpa using h.deferred_mem f hf
    dead := by
      obtain ⟨l, hholds, hnd, hl⟩ := h.dead
      have hnot : Loc.obj o ∉ l.map Loc.obj := by
        intro hm
        exact disjoint_of_nodup_append hnd hm (mem_singleton_self _)
      refine ⟨l, hholds, ?_, ?_⟩
      · rw [List.append_nil]
        exact (nodup_append.mp hnd).1
      · intro x
        have hx := hl x
        rw [mem_append, mem_singleton] at hx
        rw [List.append_nil]
        by_cases hxo : x = .obj o
        · subst hxo
          exact iff_of_false hnot (by simp [Heap.zero, Heap.dropObj])
        · have hz : (s.dropObj o).zero x ↔ s.zero x := by
            cases x with
            | obj i =>
              have hi : i ≠ o := fun heq => hxo (congrArg Loc.obj heq)
              simp [Heap.zero, Heap.dropObj, hi]
            | frame f => simp [Heap.zero, Heap.dropObj]
          rw [hz, ← hx]
          simp [hxo]
    sub := (Finset.erase_subset _ _).trans h.sub
    freed := collect_freed h.freed hmem h.sub rfl
    deferred := h.deferred }

/-- A frame is freed, and its references are given up. -/
theorem Counting.collectFrame (h : Counting s₀ live₀ live given out [.frame f] s) :
    Counting s₀ live₀ (live.erase (.frame f)) (s₀.kids (.frame f) + given) out [] (s.dropFrame f) := by
  obtain ⟨hmem, hnone⟩ := h.unreferred
  have hheld := @held_erase _ _ s₀.kids live given out _ _ hmem
  have hframe : ∀ {i fr}, (s.dropFrame f).frames i = some fr →
      Loc.frame i ≠ Loc.frame f ∧ s.frames i = some fr := by
    intro i fr hi
    by_cases hif : i = f
    · simp [Heap.dropFrame, hif] at hi
    · simp only [Heap.dropFrame, hif, if_false] at hi
      exact ⟨fun heq => hif (Loc.frame.inj heq), hi⟩
  obtain ⟨l, hholds, hnd, hl⟩ := h.dead
  -- no judgement of the frame is deferred
  have hhold : f ∉ s.deferred := by
    obtain ⟨fr, hf, -, hz⟩ := (hl (.frame f)).mp (by simp)
    rw [h.holds hf] at hz
    exact count_eq_zero.mp hz
  exact {
    closed := by
      rw [hheld]
      exact h.closed.erase hnone
    obj_mem := fun o => by simpa [Heap.dropFrame] using h.obj_mem o
    frame_mem := by
      intro i
      by_cases hi : i = f
      · simp [Heap.dropFrame, hi]
      · simp [Heap.dropFrame, hi, h.frame_mem]
    obj_same := h.obj_same
    frame_same := fun hi => h.frame_same (hframe hi).2
    rc := fun hi => by rw [hheld]; exact h.rc hi
    refs := fun hi => by rw [hheld]; exact h.refs (hframe hi).2
    active := fun hi => by rw [hheld]; exact h.active (hframe hi).2
    holds := fun hi => h.holds (hframe hi).2
    deferred_mem := by
      intro i hi
      refine Finset.mem_erase.mpr ⟨?_, h.deferred_mem i hi⟩
      intro heq
      exact hhold (Loc.frame.inj heq ▸ hi)
    dead := by
      refine ⟨l, hholds, ?_, ?_⟩
      · rw [List.append_nil]
        exact (nodup_append.mp hnd).1
      · intro x
        have hx := hl x
        rw [mem_append, mem_singleton] at hx
        rw [List.append_nil]
        by_cases hxf : x = .frame f
        · subst hxf
          exact iff_of_false (by simp) (by simp [Heap.zero, Heap.dropFrame])
        · have hz : (s.dropFrame f).zero x ↔ s.zero x := by
            cases x with
            | obj o => simp [Heap.zero, Heap.dropFrame]
            | frame i =>
              have hi : i ≠ f := fun heq => hxf (congrArg Loc.frame heq)
              simp [Heap.zero, Heap.dropFrame, hi]
          rw [hz, ← hx]
          simp [hxf]
    sub := (Finset.erase_subset _ _).trans h.sub
    freed := collect_freed h.freed hmem h.sub rfl
    deferred := h.deferred }

/-! ### Judgements -/

/-- `v` leads to the frame `f`. -/
def LeadsTo (s₀ : Heap) (f : Nat) (v : HVal) : Prop :=
  ∃ o, v = .obj o ∧ Relation.TransGen (Refers s₀.kids HRef.loc) (.obj o) (.frame f)

theorem sumRefs_nonpos {count : HVal → Nat → Int × Nat} {vs : List HVal}
    (h : ∀ v ∈ vs, ∀ b, (count v b).1 ≤ 0) {sum : Int} (hsum : sum ≤ 0) (budget : Nat) :
    (sumRefs count sum vs budget).1 ≤ 0 := by
  induction vs generalizing sum budget with
  | nil => exact hsum
  | cons v vs ih =>
    rw [sumRefs]
    have hv := h v mem_cons_self budget
    dsimp only
    split_ifs
    · exact (by decide : (-1 : Int) ≤ 0)
    · exact ih (fun w hw => h w (mem_cons_of_mem v hw)) (by omega) _

theorem mem_refs_of_values {b : Body} (hc : ∀ up, b ≠ .closure up) (hv : v ∈ b.values)
    (ho : v = .obj o) : ⟨.obj o, false⟩ ∈ b.refs := by
  have hrefs : b.refs = b.values.flatMap HVal.refs := by
    cases b with
    | closure up => exact absurd rfl (hc up)
    | _ => rfl
  rw [hrefs]
  exact mem_flatMap.mpr ⟨v, hv, by simp [ho, HVal.refs]⟩

/-- The walk from a value that does not lead to the frame counts nothing. -/
theorem ownedRefs_nonpos (h : Counting s₀ live₀ live given out busy s) (f depth : Nat)
    (hv : ¬ LeadsTo s₀ f v) (budget : Nat) : (ownedRefs s.objs f depth v budget).1 ≤ 0 := by
  induction depth generalizing v budget with
  | zero =>
    exact (by decide : (-1 : Int) ≤ 0)
  | succ depth ih =>
    cases v with
    | imm => exact le_refl 0
    | obj o =>
      rw [ownedRefs]
      dsimp only
      split_ifs with hb
      · exact (by decide : (-1 : Int) ≤ 0)
      · cases hn : s.objs o with
        | none => exact le_refl 0
        | some n =>
          dsimp only
          split_ifs with hrc
          · exact le_refl 0
          · -- what the object holds does not lead to the frame either
            have hkids := h.kids_obj hn
            have hheld : (∀ up, n.body ≠ .closure up) → ∀ w ∈ n.body.values, ¬ LeadsTo s₀ f w := by
              rintro hc w hw ⟨i, hi, hpath⟩
              refine hv ⟨o, rfl, .head ⟨⟨.obj i, false⟩, ?_, rfl⟩ hpath⟩
              rw [hkids]
              exact mem_refs_of_values hc hw hi
            cases hbody : n.body with
            | closure up =>
              dsimp only
              split_ifs with hup
              · refine absurd ⟨o, rfl, .single ⟨⟨.frame f, false⟩, ?_, rfl⟩⟩ hv
                rw [hkids, hbody, hup]
                exact mem_singleton_self _
              · exact le_refl 0
            | slice e | tuple e | struct e | enum e =>
              rw [hbody] at hheld
              refine sumRefs_nonpos (fun w hw b => ih (hheld ?_ w hw) b) (le_refl 0) _
              simp
            | box w =>
              rw [hbody] at hheld
              exact ih (hheld (by simp) w (by simp [Body.values])) _
            | map isSet ents =>
              rw [hbody] at hheld
              dsimp only
              split_ifs with hset
              · exact le_refl 0
              · refine sumRefs_nonpos (fun w hw b => ih (hheld (by simp) w ?_) b) (le_refl 0) _
                obtain ⟨e, he, rfl⟩ := mem_map.mp hw
                obtain ⟨he, hused⟩ := mem_filter.mp he
                exact mem_flatMap.mpr ⟨e, he, by simp [MapEnt.values, hused, hset]⟩
            | _ => exact le_refl 0

/-- A frame is not garbage where nothing is on a cycle. -/
theorem selfRefs_nonpos (h : Counting s₀ live₀ live given out busy s) (hac : Acyclic s₀.kids HRef.loc)
    (hf : s.frames f = some fr) (deep : Bool) : selfRefs s.objs f fr.r deep ≤ 0 := by
  refine sumRefs_nonpos (fun v hv b => ownedRefs_nonpos h f _ ?_ b) (le_refl 0) _
  rintro ⟨o, rfl, hpath⟩
  refine hac (.frame f) (.head ⟨⟨.obj o, false⟩, ?_, rfl⟩ hpath)
  rw [h.kids_frame hf, Frame.held]
  refine mem_append_left _ (mem_flatMap.mpr ⟨.obj o, ?_, by simp [HVal.refs]⟩)
  exact mem_append_left _ (mem_filter.mp hv).1

/-- A hold comes and goes. -/
theorem frameUnhold_hold (hf : s.frames f = some fr) (hrefs : 0 < fr.refs) :
    frameUnhold (s.setFrame f { fr with holds := fr.holds + 1 }) f = some s := by
  have hread : (s.setFrame f { fr with holds := fr.holds + 1 }).frames f =
      some { fr with holds := fr.holds + 1 } := by simp [Heap.setFrame]
  rw [frameUnhold, hread]
  dsimp only
  rw [if_neg (by omega)]
  cases s
  simp only [Heap.setFrame, Nat.add_sub_cancel, Option.some.injEq, Heap.mk.injEq, true_and, and_true]
  funext i
  by_cases hi : i = f
  · simp_all
  · simp [hi]

/-- A judgement of a frame under a hold is deferred, or lets it be. -/
theorem Counting.judge (h : Counting s₀ live₀ live given out busy s) (hac : Acyclic s₀.kids HRef.loc)
    {f : Nat} {fr : Frame} (hf : s.frames f = some fr) (hrefs : 0 < fr.refs) (deep : Bool) :
    ∃ s', judge (s.setFrame f { fr with holds := fr.holds + 1 }) f deep = some s' ∧
      s'.dead = s.dead ∧ Counting s₀ live₀ live given out busy s' := by
  have hread : (s.setFrame f { fr with holds := fr.holds + 1 }).frames f =
      some { fr with holds := fr.holds + 1 } := by simp [Heap.setFrame]
  have hback := frameUnhold_hold hf hrefs
  unfold Rt.judge selfCycleOnly
  rw [hread]
  dsimp only
  by_cases hdone : fr.done = true
  · rw [if_neg (by simp [hdone])]
    by_cases hact : fr.active = 0
    · -- the walk finds no reference of its own
      have hno := selfRefs_nonpos h hac hf deep
      rw [if_neg (not_not.mpr hact), if_neg (fun hgarbage => absurd hgarbage.1 (not_lt.mpr hno))]
      exact ⟨s, hback, rfl, h⟩
    · rw [if_pos hact]
      exact ⟨_, rfl, rfl, h.defer hf hdone (Nat.pos_of_ne_zero hact)⟩
  · rw [if_pos (by simp [hdone])]
    exact ⟨s, hback, rfl, h⟩

/-! ### Releases -/

/-- The first half of `vl_release`. -/
theorem Counting.countDown {o : Nat} (h : Counting s₀ live₀ live (⟨.obj o, false⟩ ::ₘ given) out [] s)
    (hac : Acyclic s₀.kids HRef.loc) :
    ∃ s' left, countDown s o = some (s', left) ∧ s'.dead = s.dead ∧
      Counting s₀ live₀ live given out (if left = 0 then [.obj o] else []) s' := by
  obtain ⟨n, hn⟩ := (h.obj_mem o).mp (h.closed ⟨.obj o, false⟩ (by simp))
  obtain ⟨hpos, hdown⟩ := h.downObj hn
  have hrc : n.rc ≠ 0 := by omega
  rw [Rt.countDown, hn]
  dsimp only
  rw [if_neg hrc]
  by_cases hclosure : ∃ f, n.body = .closure (some f)
  · obtain ⟨f, hbody⟩ := hclosure
    -- the closure refers to its frame
    have hkid : (⟨.frame f, false⟩ : HRef) ∈ s₀.kids (.obj o) := by
      rw [h.kids_obj hn, hbody]
      exact mem_singleton_self _
    have hheld : (⟨.frame f, false⟩ : HRef) ∈ held s₀.kids live given out :=
      mem_held.mpr (.inl ⟨.obj o, (h.obj_mem o).mpr ⟨n, hn⟩, hkid⟩)
    obtain ⟨fr, hf⟩ := (hdown.frame_mem f).mp (hdown.closed _ hheld)
    have hf' : s.frames f = some fr := hf
    have hrefs : 0 < fr.refs := by
      rw [hdown.refs hf, toLoc]
      exact Multiset.countP_pos.mpr ⟨_, hheld, rfl⟩
    have hfin : finishedFrame s n.body = some (if fr.done = true then some f else none) := by
      rw [hbody, finishedFrame, hf', Option.map_some]
    rw [hfin]
    by_cases hdone : fr.done = true
    · rw [if_pos hdone]
      dsimp only
      rw [frameHold, hf', Option.map_some]
      dsimp only
      -- the hold and the count are of different cells
      have hswap : (s.setFrame f { fr with holds := fr.holds + 1 }).setObj o { n with rc := n.rc - 1 } =
          (s.setObj o { n with rc := n.rc - 1 }).setFrame f { fr with holds := fr.holds + 1 } := rfl
      rw [hswap]
      split_ifs with hone
      · rw [frameUnhold_hold hf hrefs]
        exact ⟨_, _, rfl, rfl, hdown⟩
      · obtain ⟨s', hs', hdead, h'⟩ := hdown.judge hac hf hrefs true
        rw [hs']
        exact ⟨_, _, rfl, hdead, h'⟩
    · rw [if_neg hdone]
      exact ⟨_, _, rfl, rfl, hdown⟩
  · have hfin : finishedFrame s n.body = some none := by
      unfold finishedFrame
      split
      · exact absurd ⟨_, ‹_›⟩ hclosure
      · rfl
    rw [hfin]
    exact ⟨_, _, rfl, rfl, hdown⟩

/-- `vl_release` in the middle of a free. -/
theorem Counting.release {v : HVal} (h : Counting s₀ live₀ live ((v.refs : Multiset HRef) + given) out [] s)
    (hac : Acyclic s₀.kids HRef.loc) :
    ∃ s', release s v = some s' ∧ Counting s₀ live₀ live given out [] s' := by
  cases v with
  | imm => exact ⟨s, rfl, by simpa [HVal.refs] using h⟩
  | obj o =>
    have hrefs : ((HVal.obj o).refs : Multiset HRef) + given = ⟨.obj o, false⟩ ::ₘ given := rfl
    rw [hrefs] at h
    obtain ⟨s', left, hdown, -, h'⟩ := h.countDown hac
    rw [Rt.release, hdown]
    dsimp only
    by_cases hleft : left = 0
    · rw [if_pos hleft] at h'
      rw [if_neg (by omega)]
      exact ⟨_, rfl, h'.park⟩
    · rw [if_neg hleft] at h'
      rw [if_pos (by omega)]
      exact ⟨_, rfl, h'⟩

theorem Counting.releaseAll {vs : List HVal}
    (h : Counting s₀ live₀ live ((vs.flatMap HVal.refs : List HRef) + given) out [] s)
    (hac : Acyclic s₀.kids HRef.loc) :
    ∃ s', releaseAll s vs = some s' ∧ Counting s₀ live₀ live given out [] s' := by
  induction vs generalizing s with
  | nil => exact ⟨s, rfl, by simpa using h⟩
  | cons v vs ih =>
    rw [flatMap_cons, ← Multiset.coe_add, add_assoc] at h
    obtain ⟨s₁, hs₁, h₁⟩ := h.release hac
    obtain ⟨s₂, hs₂, h₂⟩ := ih h₁
    refine ⟨s₂, ?_, h₂⟩
    rw [Rt.releaseAll, hs₁]
    exact hs₂

/-! ### Frees -/

/-- What `frame_free` with the bound `k` does to a frame in hand. -/
def Frees (s₀ : Heap) (live₀ : Finset Loc) (out : Multiset HRef) (k : Nat) : Prop :=
  ∀ {live given f s}, Counting s₀ live₀ live given out [.frame f] s → live.card ≤ k →
    ∃ s' live', frameFree k s f = some s' ∧ live'.card < live.card ∧
      Counting s₀ live₀ live' given out [] s'

theorem Counting.frameExit {k u : Nat} (hfree : Frees s₀ live₀ out k)
    (h : Counting s₀ live₀ live (⟨.frame u, true⟩ ::ₘ given) out [] s) (hk : live.card ≤ k) :
    ∃ s' live', frameExit (frameFree k) s u = some s' ∧ live'.card ≤ live.card ∧
      Counting s₀ live₀ live' given out [] s' := by
  obtain ⟨fr, hf⟩ := (h.frame_mem u).mp (h.closed ⟨.frame u, true⟩ (by simp))
  obtain ⟨hrefs, hact, hlast, h'⟩ := h.downFrame hf
  have hact := hact rfl
  rw [if_pos rfl] at hlast
  simp only [if_true] at h'
  unfold Rt.frameExit
  rw [hf]
  dsimp only
  rw [if_neg (by omega)]
  by_cases hzero : fr.refs = 1 ∧ fr.holds = 0
  · -- no reference is left, so none that is active
    rw [if_pos ⟨by omega, hzero.2⟩] at h'
    rw [if_pos ⟨hzero.1, hlast hzero.1, hzero.2⟩]
    obtain ⟨s', live', hs', hlt, hc⟩ := hfree h' hk
    exact ⟨s', live', hs', hlt.le, hc⟩
  · rw [if_neg (by omega)] at h'
    rw [if_neg (by omega)]
    exact ⟨_, live, rfl, le_rfl, h'⟩

theorem Counting.frameReleaseJudged {k f : Nat} (hfree : Frees s₀ live₀ out k)
    (hac : Acyclic s₀.kids HRef.loc)
    (h : Counting s₀ live₀ live (⟨.frame f, false⟩ ::ₘ given) out [] s) (hk : live.card ≤ k)
    (deep : Bool) :
    ∃ s' live', frameReleaseJudged (frameFree k) s f deep = some s' ∧ live'.card ≤ live.card ∧
      Counting s₀ live₀ live' given out [] s' := by
  obtain ⟨fr, hf⟩ := (h.frame_mem f).mp (h.closed ⟨.frame f, false⟩ (by simp))
  obtain ⟨hrefs, -, hlast, h'⟩ := h.downFrame hf
  simp only [Bool.false_eq_true, if_false, Nat.sub_zero] at h' hlast
  unfold Rt.frameReleaseJudged
  rw [hf]
  dsimp only
  rw [if_neg (by omega)]
  -- the last reference is freed with, any other one is only counted
  have hend : ∃ s' live', (if fr.refs = 1 ∧ fr.active = 0 ∧ fr.holds = 0 then
      frameFree k (s.setFrame f { fr with refs := fr.refs - 1 }) f
      else some (s.setFrame f { fr with refs := fr.refs - 1 })) = some s' ∧
      live'.card ≤ live.card ∧ Counting s₀ live₀ live' given out [] s' := by
    by_cases hzero : fr.refs = 1 ∧ fr.holds = 0
    · rw [if_pos ⟨by omega, hzero.2⟩] at h'
      rw [if_pos ⟨hzero.1, hlast hzero.1, hzero.2⟩]
      obtain ⟨s', live', hs', hlt, hc⟩ := hfree h' hk
      exact ⟨s', live', hs', hlt.le, hc⟩
    · rw [if_neg (by omega)] at h'
      rw [if_neg (by omega)]
      exact ⟨_, live, rfl, le_rfl, h'⟩
  by_cases hshared : fr.shared = true
  · rw [if_neg (by simp [hshared])]
    by_cases hmany : fr.refs > 1
    · rw [if_pos hmany]
      rw [if_neg (by omega)] at h'
      have hread : (s.setFrame f { fr with refs := fr.refs - 1 }).frames f =
          some { fr with refs := fr.refs - 1 } := by simp [Heap.setFrame]
      have hhold : (s.setFrame f { fr with refs := fr.refs - 1 }).setFrame f
          { fr with refs := fr.refs - 1, holds := fr.holds + 1 } =
          s.setFrame f { fr with refs := fr.refs - 1, holds := fr.holds + 1 } := by
        simp only [Heap.setFrame, Heap.mk.injEq, true_and, and_true]
        funext i
        by_cases hi : i = f <;> simp [hi]
      obtain ⟨s', hs', -, hc⟩ := h'.judge hac hread (by dsimp only; omega) deep
      rw [hhold] at hs'
      exact ⟨s', live, hs', le_rfl, hc⟩
    · rw [if_neg hmany]
      exact hend
  · rw [if_pos (by simp [hshared])]
    exact hend

/-- `frame_free` goes up through the frames that nothing else holds. -/
theorem frees (hac : Acyclic s₀.kids HRef.loc) (k : Nat) : Frees s₀ live₀ out k := by
  induction k with
  | zero =>
    intro live given f s h hk
    have hmem := h.unreferred.1
    rw [Finset.card_eq_zero.mp (Nat.le_zero.mp hk)] at hmem
    simp at hmem
  | succ k ih =>
    intro live given f s h hk
    have hmem := h.unreferred.1
    obtain ⟨fr, hf⟩ := (h.frame_mem f).mp hmem
    have hcard := Finset.card_erase_lt_of_mem hmem
    have hc := h.collectFrame
    rw [h.kids_frame hf, Frame.held, flatMap_append, ← Multiset.coe_add, ← Multiset.coe_add,
      add_assoc, add_assoc] at hc
    obtain ⟨s₁, hs₁, h₁⟩ := hc.releaseAll hac
    obtain ⟨s₂, hs₂, h₂⟩ := h₁.releaseAll hac
    rw [frameFree, hf]
    dsimp only
    rw [hs₁]
    dsimp only
    rw [hs₂]
    dsimp only
    cases hup : fr.up with
    | none => exact ⟨s₂, _, rfl, hcard, by simpa [hup] using h₂⟩
    | some u =>
      rw [hup] at h₂
      dsimp only
      cases hin : fr.inact with
      | true =>
        rw [hin] at h₂
        obtain ⟨s₃, live₃, hs₃, hle, h₃⟩ := Counting.frameExit ih h₂ (by omega)
        exact ⟨s₃, live₃, hs₃, by omega, h₃⟩
      | false =>
        rw [hin] at h₂
        obtain ⟨s₃, live₃, hs₃, hle, h₃⟩ :=
          Counting.frameReleaseJudged ih hac h₂ (by omega) false
        exact ⟨s₃, live₃, hs₃, by omega, h₃⟩

/-- `obj_free` of an object in hand. -/
theorem Counting.objFree {k o : Nat} (hac : Acyclic s₀.kids HRef.loc)
    (h : Counting s₀ live₀ live given out [.obj o] s) (hk : live.card ≤ k) :
    ∃ s' live', objFree k s o = some s' ∧ live'.card < live.card ∧
      Counting s₀ live₀ live' given out [] s' := by
  have hmem := h.unreferred.1
  obtain ⟨n, hn⟩ := (h.obj_mem o).mp hmem
  have hcard := Finset.card_erase_lt_of_mem hmem
  have hc := h.collectObj
  rw [h.kids_obj hn] at hc
  rw [objFree_eq k hn]
  by_cases hclosure : ∃ f, n.body = .closure (some f)
  · obtain ⟨f, hbody⟩ := hclosure
    rw [hbody] at hc ⊢
    obtain ⟨s', live', hs', hle, h'⟩ :=
      Counting.frameReleaseJudged (frees hac k) hac hc (by omega) true
    exact ⟨s', live', hs', by omega, h'⟩
  · have hrefs : n.body.refs = n.body.values.flatMap HVal.refs := by
      cases hbody : n.body with
      | closure up =>
        cases up with
        | none => rfl
        | some f => exact absurd ⟨f, hbody⟩ hclosure
      | _ => rfl
    rw [hrefs] at hc
    obtain ⟨s', hs', h'⟩ := hc.releaseAll hac
    refine ⟨s', _, ?_, hcard, h'⟩
    rw [← hs']
    split
    · exact absurd ⟨_, ‹_›⟩ hclosure
    · rfl

/-- The drain empties the worklist. -/
theorem Counting.drain {k rounds : Nat} (hac : Acyclic s₀.kids HRef.loc)
    (h : Counting s₀ live₀ live given out [] s) (hk : live.card ≤ k) (hr : live.card ≤ rounds) :
    ∃ s' live', drain k rounds s = some s' ∧ s'.dead.ndead = 0 ∧
      Counting s₀ live₀ live' given out [] s' := by
  induction rounds generalizing live s with
  | zero =>
    rw [Rt.drain]
    by_cases hn : s.dead.ndead = 0
    · rw [if_pos hn]
      exact ⟨s, live, rfl, hn, h⟩
    · obtain ⟨o, w, -, h'⟩ := h.take hn
      have hmem := h'.unreferred.1
      rw [Finset.card_eq_zero.mp (Nat.le_zero.mp hr)] at hmem
      simp at hmem
  | succ rounds ih =>
    rw [Rt.drain]
    by_cases hn : s.dead.ndead = 0
    · rw [if_pos hn]
      exact ⟨s, live, rfl, hn, h⟩
    · obtain ⟨o, w, htake, h'⟩ := h.take hn
      obtain ⟨s₁, live₁, hs₁, hlt, h₁⟩ := h'.objFree hac hk
      rw [if_neg hn, htake]
      dsimp only
      rw [hs₁]
      exact ih h₁ (by omega) (by omega)

/-! ### A whole release -/

/-- Outside a release: the cells of `live` are there, with no reference dangling, every
count is that of the references from them and from `out`, and nothing is parked. -/
structure Heap.Exact (s : Heap) (live : Finset Loc) (out : Multiset HRef) : Prop where
  closed : Closed HRef.loc live (held s.kids live 0 out)
  obj_mem : ∀ o, Loc.obj o ∈ live ↔ ∃ n, s.objs o = some n
  frame_mem : ∀ f, Loc.frame f ∈ live ↔ ∃ fr, s.frames f = some fr
  rc : ∀ {o n}, s.objs o = some n → n.rc = toLoc (.obj o) (held s.kids live 0 out)
  refs : ∀ {f fr}, s.frames f = some fr → fr.refs = toLoc (.frame f) (held s.kids live 0 out)
  active : ∀ {f fr}, s.frames f = some fr →
    fr.active = activeIn (.frame f) (held s.kids live 0 out)
  holds : ∀ {f fr}, s.frames f = some fr → fr.holds = s.deferred.count f
  deferred_mem : ∀ f ∈ s.deferred, Loc.frame f ∈ live
  counted : ∀ x, ¬ s.zero x
  ndead : s.dead.ndead = 0
  block : s.dead.block = none
  inl : s.dead.inl.length = deadInline

/-- What a release made of the heap `s` and its cells `live`. -/
structure Released (s : Heap) (live : Finset Loc) (out : Multiset HRef) (s' : Heap)
    (live' : Finset Loc) : Prop where
  exact : s'.Exact live' out
  kids : ∀ x ∈ live', s'.kids x = s.kids x
  reached : ∀ x, x ∈ live' ↔ Reaches s.kids HRef.loc (out + s'.deferredRefs) x
  freed : ∃ fs, s'.freed = fs ++ s.freed ∧ fs.Nodup ∧ ∀ x, x ∈ fs ↔ x ∈ live ∧ x ∉ live'
  deferred : ∃ fs, s'.deferred = s.deferred ++ fs ∧
    ∀ f ∈ fs, ∃ fr, s.frames f = some fr ∧ fr.done = true ∧ 0 < fr.active

theorem Heap.Exact.start {r : HRef} (h : s.Exact live (r ::ₘ out)) :
    Counting s live live (r ::ₘ 0) out [] s := by
  have hheld : held s.kids live (r ::ₘ 0) out = held s.kids live 0 (r ::ₘ out) := by
    rw [held_cons, held_cons_out]
  exact {
    closed := by rw [hheld]; exact h.closed
    obj_mem := h.obj_mem
    frame_mem := h.frame_mem
    obj_same := fun hn => ⟨_, hn, rfl⟩
    frame_same := fun hf => ⟨_, hf, rfl, le_rfl⟩
    rc := fun hn => by rw [hheld]; exact h.rc hn
    refs := fun hf => by rw [hheld]; exact h.refs hf
    active := fun hf => by rw [hheld]; exact h.active hf
    holds := h.holds
    deferred_mem := h.deferred_mem
    dead := by
      refine ⟨[], ?_, by simp, fun x => iff_of_false (by simp) (h.counted x)⟩
      exact {
        ndead := h.ndead
        inl := h.inl
        items := by simp
        room := by simp [h.ndead]
        block := by simp [h.block] }
    sub := Finset.Subset.refl _
    freed := ⟨[], rfl, nodup_nil, by simp⟩
    deferred := ⟨[], by simp, by simp⟩ }

/-- When nothing is given up and the worklist is empty, the release is over. -/
theorem Counting.finish (h : Counting s₀ live₀ live 0 out [] s) (hac : Acyclic s₀.kids HRef.loc)
    (hdead : s.dead.ndead = 0) :
    Released s₀ live₀ out { s with dead := dropBlock s.dead } live := by
  obtain ⟨l, hholds, -, hl⟩ := h.dead
  have hnil : l = [] := length_eq_zero_iff.mp (hholds.ndead.symm.trans hdead)
  subst hnil
  have hcounted : ∀ x, ¬ s.zero x := fun x hx => by simpa using (hl x).mpr hx
  have hkids : ∀ x ∈ live, s.kids x = s₀.kids x := by
    intro x hx
    cases x with
    | obj o =>
      obtain ⟨n, hn⟩ := (h.obj_mem o).mp hx
      rw [h.kids_obj hn]
      simp [Heap.kids, hn]
    | frame f =>
      obtain ⟨fr, hf⟩ := (h.frame_mem f).mp hx
      rw [h.kids_frame hf]
      simp [Heap.kids, hf]
  have hkids' : ∀ x, Heap.kids { s with dead := dropBlock s.dead } x = s.kids x := by
    intro x
    cases x <;> rfl
  have hheld : held (Heap.kids { s with dead := dropBlock s.dead }) live 0 out =
      held s₀.kids live 0 out := by
    have hbind := Multiset.bind_congr (m := live.val)
      (f := fun x => (Heap.kids { s with dead := dropBlock s.dead } x : Multiset HRef))
      (g := fun x => (s₀.kids x : Multiset HRef))
      fun x hx => by rw [hkids' x, hkids x hx]
    rw [held, held, hbind]
  have hblock : (dropBlock s.dead).ndead = 0 ∧ (dropBlock s.dead).block = none ∧
      (dropBlock s.dead).inl.length = deadInline := by
    unfold dropBlock
    cases hb : s.dead.block with
    | none => exact ⟨hdead, hb, hholds.inl⟩
    | some b => exact ⟨hdead, rfl, hholds.inl⟩
  exact {
    exact := {
      closed := by rw [hheld]; exact h.closed
      obj_mem := h.obj_mem
      frame_mem := h.frame_mem
      rc := fun hn => by rw [hheld]; exact h.rc hn
      refs := fun hf => by rw [hheld]; exact h.refs hf
      active := fun hf => by rw [hheld]; exact h.active hf
      holds := h.holds
      deferred_mem := h.deferred_mem
      counted := fun x hx => hcounted x (by cases x <;> exact hx)
      ndead := hblock.1
      block := hblock.2.1
      inl := hblock.2.2 }
    kids := fun x hx => (hkids' x).trans (hkids x hx)
    reached := by
      have hroots : ∀ r, r ∈ held s₀.kids live 0 (out + s.deferredRefs) ↔
          r ∈ held s₀.kids live 0 out ∨ r ∈ s.deferredRefs := by
        intro r
        simp [mem_held, or_assoc]
      intro x
      refine mem_iff_reaches hac ?_ ?_ x
      · intro r hr
        rcases (hroots r).mp hr with hr | hr
        · exact h.closed r hr
        · obtain ⟨f, hf, rfl⟩ := mem_map.mp (Multiset.mem_coe.mp hr)
          exact h.deferred_mem f hf
      · -- every cell that is left is counted, or held by a deferred judgement
        have hpos : ∀ y, 0 < toLoc y (held s₀.kids live 0 out) →
            ∃ r ∈ held s₀.kids live 0 (out + s.deferredRefs), r.loc = y := by
          intro y hy
          obtain ⟨r, hr, hry⟩ := Multiset.countP_pos.mp hy
          exact ⟨r, (hroots r).mpr (.inl hr), hry⟩
        intro y hy
        cases y with
        | obj o =>
          obtain ⟨n, hn⟩ := (h.obj_mem o).mp hy
          refine hpos _ ?_
          rw [← h.rc hn]
          exact Nat.pos_of_ne_zero fun hz => hcounted (.obj o) ⟨n, hn, hz⟩
        | frame f =>
          obtain ⟨fr, hf⟩ := (h.frame_mem f).mp hy
          by_cases hz : fr.refs = 0
          · have hholds : fr.holds ≠ 0 := fun hh => hcounted (.frame f) ⟨fr, hf, hz, hh⟩
            rw [h.holds hf] at hholds
            have hmem : f ∈ s.deferred := count_pos_iff.mp (Nat.pos_of_ne_zero hholds)
            refine ⟨⟨.frame f, false⟩, (hroots _).mpr (.inr ?_), rfl⟩
            exact Multiset.mem_coe.mpr (mem_map.mpr ⟨f, hmem, rfl⟩)
          · refine hpos _ ?_
            rw [← h.refs hf]
            exact Nat.pos_of_ne_zero hz
    freed := h.freed
    deferred := h.deferred }

def emptyDead : DeadList := { inl := List.replicate deadInline 0, block := none, ndead := 0, capdead := 0 }

/-- A tuple that holds one string twice. -/
def pairHeap : Heap :=
  { objs := fun o => match o with
      | 0 => some ⟨1, .tuple [.obj 1, .obj 1]⟩
      | 1 => some ⟨2, .plain⟩
      | _ => none
    frames := fun _ => none
    dead := emptyDead
    deferred := []
    freed := [] }

theorem pairHeap_exact : pairHeap.Exact {.obj 0, .obj 1} (⟨.obj 0, false⟩ ::ₘ 0) where
  closed := by decide
  obj_mem := by
    intro o
    rcases o with - | - | o <;> simp [pairHeap]
  frame_mem := by
    intro f
    simp [pairHeap]
  rc := by
    intro o n hn
    rcases o with - | - | o <;> simp only [pairHeap, Option.some.injEq, reduceCtorEq] at hn <;>
      subst hn <;> decide
  refs := by
    intro f fr hf
    exact absurd hf (by simp [pairHeap])
  active := by
    intro f fr hf
    exact absurd hf (by simp [pairHeap])
  holds := by
    intro f fr hf
    exact absurd hf (by simp [pairHeap])
  deferred_mem := by
    intro f hf
    exact absurd hf (by simp [pairHeap])
  counted := by
    rintro ((- | - | o) | f) <;> simp [pairHeap, Heap.zero]
  ndead := rfl
  block := rfl
  inl := length_replicate

theorem pairHeap_acyclic : Acyclic pairHeap.kids HRef.loc := by
  let rank : Loc → Nat := fun x => if x = .obj 0 then 1 else 0
  refine acyclic_of_rank rank ?_
  rintro ((- | - | o) | f) r hr <;> simp [pairHeap, Heap.kids, Body.refs, Body.values, HVal.refs] at hr
  subst hr
  decide

/-- `(outer, outer, outer())`, where `outer` is a closure over a finished frame and returns a
closure over its own: what the tuple holds is held by nothing else. -/
def counterHeap : Heap :=
  { objs := fun o => match o with
      | 0 => some ⟨1, .tuple [.obj 1, .obj 1, .obj 2]⟩
      | 1 => some ⟨2, .closure (some 0)⟩
      | 2 => some ⟨1, .closure (some 1)⟩
      | 3 => some ⟨1, .plain⟩
      | _ => none
    frames := fun f => match f with
      | 0 => some { refs := 2, active := 1, holds := 0, shared := true, done := true, inact := false,
                    up := none, r := [.obj 3], defers := [] }
      | 1 => some { refs := 1, active := 0, holds := 0, shared := true, done := true, inact := true,
                    up := some 0, r := [], defers := [] }
      | _ => none
    dead := emptyDead
    deferred := []
    freed := [] }

def counterLive : Finset Loc := {.obj 0, .obj 1, .obj 2, .obj 3, .frame 0, .frame 1}

theorem counterHeap_exact : counterHeap.Exact counterLive (⟨.obj 0, false⟩ ::ₘ 0) where
  closed := by decide
  obj_mem := by
    intro o
    rcases o with - | - | - | - | o <;> simp [counterHeap, counterLive]
  frame_mem := by
    intro f
    rcases f with - | - | f <;> simp [counterHeap, counterLive]
  rc := by
    intro o n hn
    rcases o with - | - | - | - | o <;>
      simp only [counterHeap, Option.some.injEq, reduceCtorEq] at hn <;> subst hn <;> decide
  refs := by
    intro f fr hf
    rcases f with - | - | f <;> simp only [counterHeap, Option.some.injEq, reduceCtorEq] at hf <;>
      subst hf <;> decide
  active := by
    intro f fr hf
    rcases f with - | - | f <;> simp only [counterHeap, Option.some.injEq, reduceCtorEq] at hf <;>
      subst hf <;> decide
  holds := by
    intro f fr hf
    rcases f with - | - | f <;> simp only [counterHeap, Option.some.injEq, reduceCtorEq] at hf <;>
      subst hf <;> rfl
  deferred_mem := by
    intro f hf
    exact absurd hf (by simp [counterHeap])
  counted := by
    rintro ((- | - | - | - | o) | (- | - | f)) <;> simp [counterHeap, Heap.zero]
  ndead := rfl
  block := rfl
  inl := length_replicate

theorem counterHeap_acyclic : Acyclic counterHeap.kids HRef.loc := by
  let rank : Loc → Nat := fun x => match x with
    | .obj 0 => 4
    | .obj 1 | .obj 2 => 3
    | .frame 1 => 2
    | .frame 0 => 1
    | _ => 0
  refine acyclic_of_rank rank ?_
  rintro ((- | - | - | - | o) | (- | - | f)) r hr <;>
    simp [counterHeap, Heap.kids, Body.refs, Body.values, HVal.refs, Frame.held] at hr
  · rcases hr with rfl | rfl <;> decide
  all_goals subst hr; decide

end Voila.Rt
