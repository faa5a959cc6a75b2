import Voila.Rt.Chan

/-!
# Voila.Rt.ChanSound

What goes through a channel, under any schedule.

Every stretch of a call does one of four things to the channels (`Acts`): nothing, one value
put in, one taken out, or one channel closed. The account of a channel (`Account`) is kept by
each of them: what has been put in is what has been taken out and then what is in the ring.
-/

open List

namespace Voila.Rt

open Lib

variable {T K V : Type*}

/-! ### One channel -/

namespace Chan

variable {c c' : Chan V} {v : V}

/-- The values in the channel, first in first. -/
def items (c : Chan V) : List V := ringItems c.cap_pos c.buf c.ringHead c.count

@[simp] theorem length_items (c : Chan V) : c.items.length = c.count := length_ringItems ..

/-- The channels that a put, a take or a close makes of one. -/
structure Same (c c' : Chan V) : Prop where
  cap : c'.cap = c.cap
  rendezvous : c'.isRendezvous = c.isRendezvous

theorem Same.trans {c'' : Chan V} (h : Same c c') (h' : Same c' c'') : Same c c'' :=
  ⟨h'.cap.trans h.cap, h'.rendezvous.trans h.rendezvous⟩

theorem isRendezvous_new [Inhabited V] (cap : Int) :
    (chanNew cap : Chan V).isRendezvous = decide (cap ≤ 0) := by
  unfold isRendezvous chanNew
  split <;> simp_all

@[simp] theorem items_put (room : c.count < c.cap) : (c.put v room).items = c.items ++ [v] :=
  ringItems_set c.cap_pos c.buf c.ringHead c.count room v

theorem same_put (room : c.count < c.cap) : Same c (c.put v room) := ⟨rfl, rfl⟩

@[simp] theorem closed_put (room : c.count < c.cap) : (c.put v room).closed = c.closed := rfl

@[simp] theorem isRendezvous_put (room : c.count < c.cap) :
    (c.put v room).isRendezvous = c.isRendezvous := rfl

theorem count_put (room : c.count < c.cap) : (c.put v room).count = c.count + 1 := rfl

theorem isRendezvous_iff : c.isRendezvous = true ↔ c.head = -1 := by simp [isRendezvous]

theorem head_shrink (h : c.isRendezvous = false) : c.shrink.head = (c.head + 1) % c.cap := by
  simp [shrink, h]

/-- Only a channel made for rendezvous has the head that marks one. -/
@[simp] theorem isRendezvous_shrink : c.shrink.isRendezvous = c.isRendezvous := by
  cases hr : c.isRendezvous
  · have hpos := c.cap_pos
    have hge := Int.emod_nonneg (c.head + 1) (b := c.cap) (by omega)
    simp only [isRendezvous, head_shrink hr, beq_eq_false_iff_ne]
    omega
  · have hstay : c.shrink.head = c.head := by simp [shrink, hr]
    rw [isRendezvous_iff, hstay]
    exact isRendezvous_iff.mp hr

theorem same_shrink : Same c c.shrink := ⟨rfl, isRendezvous_shrink⟩

@[simp] theorem closed_shrink : c.shrink.closed = c.closed := rfl

/-- A channel for rendezvous has one slot. -/
theorem cap_of_rendezvous (h : c.isRendezvous = true) : c.cap = 1 := by
  have hhead := isRendezvous_iff.mp h
  rcases c.head_ok with ⟨-, hcap⟩ | hge
  · exact hcap
  · omega

/-- The first is at the head, the rest are what is left. -/
theorem items_shrink (h : c.count ≠ 0) :
    c.items = ringAt c.cap_pos c.buf c.ringHead :: c.shrink.items := by
  obtain ⟨n, hn⟩ := Nat.exists_eq_succ_of_ne_zero h
  have hleft : c.shrink.count = n := by simp [shrink, hn]
  have hrest := ringItems_succ c.cap_pos c.buf c.ringHead n
  rw [items, hn, Nat.succ_eq_add_one, hrest, items, hleft]
  congr 1
  cases hr : c.isRendezvous
  · -- the head goes one on
    have hhead : c.shrink.ringHead = (c.ringHead + 1) % c.cap := by
      have hge : 0 ≤ c.head := by
        rcases c.head_ok with ⟨hm, -⟩ | hge
        · rw [isRendezvous_iff.mpr hm] at hr; cases hr
        · exact hge
      simp only [ringHead, isRendezvous_shrink, hr, head_shrink hr, Bool.false_eq_true, if_false]
      rw [Int.toNat_emod (by omega) (by omega), Int.toNat_add hge (by omega)]
      rfl
    rw [hhead]; rfl
  · -- the one slot is empty now
    have hcap := cap_of_rendezvous hr
    have hle := c.count_le
    obtain rfl : n = 0 := by omega
    simp

theorem take_eq_none : c.take = none ↔ c.count = 0 := by
  unfold take
  split <;> simp_all

/-- A take finds the first value and leaves the others. -/
theorem take_eq_some (h : c.take = some (v, c')) : c' = c.shrink ∧ c.items = v :: c.shrink.items := by
  unfold take at h
  split at h
  · cases h
  next hc => cases h; exact ⟨rfl, items_shrink hc⟩

end Chan

/-! ### What a stretch does to the channels -/

section

variable {b : Bool} {chans chans' : K → Chan V} {pc : Pc K V} {s : Stretch K V}
  {ev : List (Event K V)} {k : K}

/-- Nothing is put in, taken out or closed. -/
def Event.quiet : Event K V → Prop
  | .placed .. | .took .. | .shut _ => False
  | .sent .. | .drained _ => True

/-- The second loop ends with the slot empty, the channel closed or the group cancelled. -/
theorem handLoop_cases (b : Bool) (chans : K → Chan V) (k : K) :
    (handLoop b chans k = ⟨chans, .out (some .sent), [.sent k .send (chans k).closed b]⟩ ∧
      ((chans k).closed = false → b = false → (chans k).count = 0)) ∨
    handLoop b chans k = ⟨chans, .handing k, []⟩ := by
  simp only [handLoop]
  split
  next hfull =>
    cases b
    · exact .inr rfl
    · exact .inl ⟨rfl, by simp⟩
  next hleave =>
    refine .inl ⟨rfl, fun hopen _ => ?_⟩
    simpa [hopen] using hleave

theorem handLoop_chans : (handLoop b chans k).chans = chans := by
  rcases handLoop_cases b chans k with ⟨h, -⟩ | h <;> rw [h]

theorem handLoop_quiet : ∀ e ∈ (handLoop b chans k).events, e.quiet := by
  rcases handLoop_cases b chans k with ⟨h, -⟩ | h <;> simp [h, Event.quiet]

variable [DecidableEq K]

/-- The four things that a stretch does to the channels, with what is seen of each. -/
inductive Acts (chans : K → Chan V) : (K → Chan V) → List (Event K V) → Prop
  | none {ev : List (Event K V)} : (∀ e ∈ ev, e.quiet) → Acts chans chans ev
  | put {k : K} {v : V} {ev : List (Event K V)} (room : (chans k).count < (chans k).cap) :
      (chans k).closed = false → (∀ e ∈ ev, e.quiet) →
      Acts chans (Function.update chans k ((chans k).put v room)) (.placed k v :: ev)
  | take {k : K} {v : V} : (chans k).items = v :: (chans k).shrink.items →
      Acts chans (Function.update chans k (chans k).shrink) [.took k v]
  | shut {k : K} : (chans k).closed = false →
      Acts chans (Function.update chans k { chans k with closed := true }) [.shut k]

theorem handLoop_acts : Acts chans (handLoop b chans k).chans (handLoop b chans k).events := by
  rw [handLoop_chans]
  exact .none handLoop_quiet

theorem chanSend_acts {v : V} :
    Acts chans (chanSend b chans k v).chans (chanSend b chans k v).events := by
  simp only [chanSend]
  split
  · exact .none nofun
  next hopen =>
    split
    · exact .none nofun
    · split
      next room =>
        have hopen : (chans k).closed = false := by simpa using hopen
        split
        · -- the second loop adds to the put only how it ends
          rw [handLoop_chans]
          exact .put room hopen handLoop_quiet
        · exact .put room hopen (by simp [Event.quiet])
      · exact .none nofun

theorem chanTrySend_acts {v : V} :
    Acts chans (chanTrySend b chans k v).chans (chanTrySend b chans k v).events := by
  simp only [chanTrySend]
  split
  · exact .none nofun
  next hopen =>
    have hopen : (chans k).closed = false := by simp_all
    split
    next room => exact .put room hopen (by simp [Event.quiet])
    · exact .none nofun

theorem chanRecv_acts [Inhabited V] :
    Acts chans (chanRecv b chans k).chans (chanRecv b chans k).events := by
  simp only [chanRecv]
  split
  next htake =>
    obtain ⟨rfl, hitems⟩ := Chan.take_eq_some htake
    exact .take hitems
  · split
    · exact .none (by simp [Event.quiet])
    · split <;> exact .none nofun

theorem chanClose_acts : Acts chans (chanClose chans k).chans (chanClose chans k).events := by
  simp only [chanClose]
  split
  · exact .none nofun
  next hopen => exact .shut (by simpa using hopen)

variable {i : Nat}

theorem selectCases_acts [Inhabited V] {cases : List (SelCase K V)}
    (h : selectCases b chans i cases = some s) : Acts chans s.chans s.events := by
  fun_induction selectCases b chans i cases with
  | case1 => cases h
  | case2 i k rest c v c' htake =>
    cases h
    obtain ⟨rfl, hitems⟩ := Chan.take_eq_some htake
    exact .take hitems
  | case3 => cases h; exact .none (by simp [Event.quiet])
  | case4 _ _ _ _ _ _ ih => exact ih h
  | case5 i k v rest c room => cases h; exact .put room.2 room.1 (by simp [Event.quiet])
  | case6 _ _ _ _ _ _ ih => exact ih h
  | case7 _ _ ih => exact ih h

theorem chanSelect_acts [Inhabited V] {cases : List (SelCase K V)} :
    Acts chans (chanSelect b chans cases).chans (chanSelect b chans cases).events := by
  unfold chanSelect
  split
  next s hs => exact selectCases_acts hs
  · split
    · exact .none nofun
    · split <;> exact .none nofun

theorem afterMain_acts {v : V} : Acts chans (afterMain chans k v).chans (afterMain chans k v).events := by
  simp only [afterMain]
  split
  next room => exact .put room.2 room.1 nofun
  · exact .none nofun

theorem stretch_acts [Inhabited V] (h : stretch b chans pc = some s) : Acts chans s.chans s.events := by
  cases pc with
  | out => cases h
  | sending => cases h; exact chanSend_acts
  | handing => cases h; exact handLoop_acts
  | trying => cases h; exact chanTrySend_acts
  | receiving => cases h; exact chanRecv_acts
  | closing => cases h; exact chanClose_acts
  | selecting => cases h; exact chanSelect_acts
  | timing => cases h; exact afterMain_acts

/-! ### How sends end, and when a receiver is told of the close -/

/-- What the normal end of a send says of the channels it leaves: by which call it was made. -/
def SentOk (s : Stretch K V) (k : K) (cl ca : Bool) : Path → Prop
  | .send => (s.chans k).isRendezvous = true → cl = false → ca = false → (s.chans k).count = 0
  | .trySend => (s.chans k).isRendezvous = false
  | .select => True

/-- Every send that ends in the stretch is as it says, and has put its value in just before, or
earlier in the second loop of a plain send. -/
def SentAll (pc : Pc K V) (s : Stretch K V) (b : Bool) : Prop :=
  ∀ k path cl ca, .sent k path cl ca ∈ s.events →
    cl = (s.chans k).closed ∧ ca = b ∧ SentOk s k cl ca path ∧
      ((∃ v, s.events = [.placed k v, .sent k path cl ca]) ∨
        path = .send ∧ pc = .handing k ∧ s.events = [.sent k path cl ca])

theorem chanSend_sent {v : V} : SentAll pc (chanSend b chans k v) b := by
  intro k' path cl ca he
  simp only [chanSend] at he ⊢
  split at he
  · cases he
  next hopen =>
    rw [if_neg hopen]
    split at he
    · cases he
    next hlive =>
      rw [if_neg hlive]
      split at he
      next room =>
        rw [dif_pos room]
        split at he
        next hr =>
          rw [if_pos hr]
          rcases handLoop_cases b (Function.update chans k ((chans k).put v room)) k with
            ⟨h, hleft⟩ | h
          · rw [h] at he ⊢
            obtain ⟨rfl, rfl, rfl, rfl⟩ : k' = k ∧ path = .send ∧ cl = _ ∧ ca = b := by
              simpa using he
            exact ⟨by simp, rfl, fun _ hcl => hleft (by simpa using hcl), .inl ⟨v, by simp⟩⟩
          · rw [h] at he
            simp at he
        next hr =>
          rw [if_neg hr]
          obtain ⟨rfl, rfl, rfl, rfl⟩ : k' = k ∧ path = .send ∧ cl = _ ∧ ca = b := by
            simpa using he
          exact ⟨by simp, rfl, fun hr' => absurd (by simpa using hr') hr, .inl ⟨v, rfl⟩⟩
      · cases he

omit [DecidableEq K] in
theorem handLoop_sent : SentAll (.handing k) (handLoop b chans k) b := by
  intro k' path cl ca he
  rcases handLoop_cases b chans k with ⟨h, hleft⟩ | h
  · rw [h] at he ⊢
    obtain ⟨rfl, rfl, rfl, rfl⟩ : k' = k ∧ path = .send ∧ cl = _ ∧ ca = b := by simpa using he
    exact ⟨rfl, rfl, fun _ => hleft, .inr ⟨rfl, rfl, rfl⟩⟩
  · rw [h] at he
    cases he

theorem chanTrySend_sent {v : V} : SentAll pc (chanTrySend b chans k v) b := by
  intro k' path cl ca he
  simp only [chanTrySend] at he ⊢
  split at he
  · cases he
  next hopen =>
    rw [if_neg hopen]
    split at he
    next room =>
      rw [dif_pos room]
      obtain ⟨rfl, rfl, rfl, rfl⟩ : k' = k ∧ path = .trySend ∧ cl = _ ∧ ca = b := by
        simpa using he
      have hbuf : (chans k').isRendezvous = false := by simp_all
      exact ⟨by simp, rfl, by simpa [SentOk] using hbuf, .inl ⟨v, rfl⟩⟩
    · cases he

theorem selectCases_sent [Inhabited V] {cases : List (SelCase K V)}
    (h : selectCases b chans i cases = some s) : SentAll pc s b := by
  intro k' path cl ca he
  fun_induction selectCases b chans i cases with
  | case1 => cases h
  | case2 | case3 => cases h; simp at he
  | case4 _ _ _ _ _ _ ih => exact ih h
  | case5 i k v rest c room =>
    cases h
    obtain ⟨rfl, rfl, rfl, rfl⟩ : k' = k ∧ path = .select ∧ cl = _ ∧ ca = b := by simpa using he
    exact ⟨by simp, rfl, trivial, .inl ⟨v, rfl⟩⟩
  | case6 _ _ _ _ _ _ ih => exact ih h
  | case7 _ _ ih => exact ih h

omit [DecidableEq K] in
/-- A stretch in which no send ends. -/
theorem sentAll_of_none (h : ∀ k path cl ca, .sent k path cl ca ∉ s.events) : SentAll pc s b :=
  fun k path cl ca he => absurd he (h k path cl ca)

/-- A select whose case can go is over. -/
theorem selectCases_out [Inhabited V] {cases : List (SelCase K V)}
    (h : selectCases b chans i cases = some s) : ∃ r, s.pc = .out r := by
  fun_induction selectCases b chans i cases with
  | case1 => cases h
  | case2 | case3 | case5 => cases h; exact ⟨_, rfl⟩
  | case4 _ _ _ _ _ _ ih => exact ih h
  | case6 _ _ _ _ _ _ ih => exact ih h
  | case7 _ _ ih => exact ih h

theorem stretch_sent [Inhabited V] (h : stretch b chans pc = some s) : SentAll pc s b := by
  cases pc with
  | out => cases h
  | sending => cases h; exact chanSend_sent
  | handing => cases h; exact handLoop_sent
  | trying => cases h; exact chanTrySend_sent
  | receiving =>
    cases h
    refine sentAll_of_none fun _ _ _ _ => ?_
    simp only [chanRecv]
    split <;> [skip; split <;> [skip; split]] <;> simp
  | closing =>
    cases h
    refine sentAll_of_none fun _ _ _ _ => ?_
    simp only [chanClose]
    split <;> simp
  | selecting cases =>
    cases h
    unfold chanSelect
    split
    next s hs => exact selectCases_sent hs
    · refine sentAll_of_none fun _ _ _ _ => ?_
      split <;> [skip; split] <;> simp
  | timing =>
    cases h
    refine sentAll_of_none fun _ _ _ _ => ?_
    simp only [afterMain]
    split <;> simp

/-- A receiver is told of the close when there is one and nothing is left. -/
def DrainedAll (chans : K → Chan V) (s : Stretch K V) : Prop :=
  ∀ k, .drained k ∈ s.events →
    s.events = [.drained k] ∧ (chans k).closed = true ∧ (chans k).count = 0

omit [DecidableEq K] in
theorem drainedAll_of_none (h : ∀ k, .drained k ∉ s.events) : DrainedAll chans s :=
  fun k he => absurd he (h k)

omit [DecidableEq K] in
theorem drainedAll_closed {pc : Pc K V} (hc : (chans k).closed = true) (h : (chans k).take = none) :
    DrainedAll chans ⟨chans', pc, [.drained k]⟩ := by
  intro k' he
  obtain rfl : k' = k := by simpa using he
  exact ⟨rfl, hc, Chan.take_eq_none.mp h⟩

theorem chanSend_drained {v : V} : DrainedAll chans (chanSend b chans k v) := by
  refine drainedAll_of_none fun k' => ?_
  simp only [chanSend]
  split <;> [skip; split <;> [skip; split <;> [split; skip]]] <;> try simp
  rcases handLoop_cases b (Function.update chans k ((chans k).put v ‹_›)) k with ⟨h, -⟩ | h <;> simp [h]

theorem chanRecv_drained [Inhabited V] : DrainedAll chans (chanRecv b chans k) := by
  simp only [chanRecv]
  split
  · exact drainedAll_of_none (by simp)
  next htake =>
    split
    next hc => exact drainedAll_closed hc htake
    · split <;> exact drainedAll_of_none (by simp)

theorem selectCases_drained [Inhabited V] {cases : List (SelCase K V)}
    (h : selectCases b chans i cases = some s) : DrainedAll chans s := by
  fun_induction selectCases b chans i cases with
  | case1 => cases h
  | case2 => cases h; exact drainedAll_of_none (by simp)
  | case3 i k rest c htake hc => cases h; exact drainedAll_closed hc htake
  | case4 _ _ _ _ _ _ ih => exact ih h
  | case5 => cases h; exact drainedAll_of_none (by simp)
  | case6 _ _ _ _ _ _ ih => exact ih h
  | case7 _ _ ih => exact ih h

theorem stretch_drained [Inhabited V] (h : stretch b chans pc = some s) : DrainedAll chans s := by
  cases pc with
  | out => cases h
  | sending => cases h; exact chanSend_drained
  | handing k =>
    cases h
    refine drainedAll_of_none fun k' => ?_
    rcases handLoop_cases b chans k with ⟨h, -⟩ | h <;> simp [h]
  | trying =>
    cases h
    refine drainedAll_of_none fun k' => ?_
    simp only [chanTrySend]
    split <;> [skip; split] <;> simp
  | receiving => cases h; exact chanRecv_drained
  | closing =>
    cases h
    refine drainedAll_of_none fun k' => ?_
    simp only [chanClose]
    split <;> simp
  | selecting cases =>
    cases h
    unfold chanSelect
    split
    next s hs => exact selectCases_drained hs
    · refine drainedAll_of_none fun _ => ?_
      split <;> [skip; split] <;> simp
  | timing =>
    cases h
    refine drainedAll_of_none fun k' => ?_
    simp only [afterMain]
    split <;> simp

/-- A task is in the second loop of a send because it was, or has just put its value in. -/
theorem stretch_handing [Inhabited V] (h : stretch b chans pc = some s) (hp : s.pc = .handing k) :
    (pc = .handing k ∧ s.events = []) ∨ ∃ v, s.events = [.placed k v] := by
  cases pc with
  | out => cases h
  | sending k' v =>
    cases h
    simp only [chanSend] at hp ⊢
    split at hp
    · cases hp
    next hopen =>
      rw [if_neg hopen]
      split at hp
      · cases hp
      next hlive =>
        rw [if_neg hlive]
        split at hp
        next room =>
          rw [dif_pos room]
          split at hp
          next hr =>
            rw [if_pos hr]
            rcases handLoop_cases b (Function.update chans k' ((chans k').put v room)) k' with
              ⟨h, -⟩ | h
            · simp [h] at hp
            · simp only [h, Pc.handing.injEq] at hp ⊢
              exact .inr ⟨v, by rw [hp]⟩
          · cases hp
        · cases hp
  | handing k' =>
    cases h
    rcases handLoop_cases b chans k' with ⟨h, -⟩ | h
    · simp [h] at hp
    · simp only [h, Pc.handing.injEq] at hp ⊢
      exact .inl ⟨hp, trivial⟩
  | trying k' v =>
    cases h
    simp only [chanTrySend] at hp
    split at hp <;> [skip; split at hp] <;> cases hp
  | receiving k' =>
    cases h
    simp only [chanRecv] at hp
    split at hp <;> [skip; split at hp <;> [skip; split at hp]] <;> cases hp
  | closing k' =>
    cases h
    simp only [chanClose] at hp
    split at hp <;> cases hp
  | selecting cases =>
    cases h
    unfold chanSelect at hp
    split at hp
    next s hs =>
      obtain ⟨r, hr⟩ := selectCases_out hs
      rw [hr] at hp
      cases hp
    · split at hp <;> [skip; split at hp] <;> cases hp
  | timing k' v =>
    cases h
    simp only [afterMain] at hp
    split at hp <;> cases hp

/-- Whoever receives gets the first value in the channel, closed or not, cancelled or not. -/
theorem stretch_receives [Inhabited V] {v : V} {rest : List V} (hi : (chans k).items = v :: rest)
    (b : Bool) (cases : List (SelCase K V)) : ∃ chans',
      stretch b chans (.receiving k) = some ⟨chans', .out (some (.received v true)), [.took k v]⟩ ∧
      stretch b chans (.selecting (.recv k :: cases)) =
        some ⟨chans', .out (some (.selected 0 (some (v, true)))), [.took k v]⟩ := by
  have hne : (chans k).count ≠ 0 := by
    rw [← Chan.length_items, hi]
    simp
  cases htake : (chans k).take with
  | none => exact absurd (Chan.take_eq_none.mp htake) hne
  | some p =>
    obtain ⟨v', c'⟩ := p
    obtain ⟨-, hitems⟩ := Chan.take_eq_some htake
    obtain ⟨rfl, -⟩ := List.cons.inj (hi.symm.trans hitems)
    exact ⟨Function.update chans k c', by simp only [stretch, chanRecv, htake],
      by simp only [stretch, chanSelect, selectCases, htake]⟩

end

/-! ### The account of a channel -/

section

variable [DecidableEq K] {chans chans' : K → Chan V} {ev : List (Event K V)} {k : K} {t : T}
  {tr tr' : List (T × Event K V)}

@[simp] theorem accepted_append : accepted k (tr ++ tr') = accepted k tr ++ accepted k tr' :=
  filterMap_append

@[simp] theorem received_append : received k (tr ++ tr') = received k tr ++ received k tr' :=
  filterMap_append

theorem accepted_quiet (h : ∀ e ∈ ev, e.quiet) : accepted k (ev.map (t, ·)) = [] := by
  refine filterMap_eq_nil_iff.mpr fun p hp => ?_
  obtain ⟨e, he, rfl⟩ := mem_map.mp hp
  cases e with
  | placed => exact (h _ he).elim
  | took | shut | sent | drained => rfl

theorem received_quiet (h : ∀ e ∈ ev, e.quiet) : received k (ev.map (t, ·)) = [] := by
  refine filterMap_eq_nil_iff.mpr fun p hp => ?_
  obtain ⟨e, he, rfl⟩ := mem_map.mp hp
  cases e with
  | took => exact (h _ he).elim
  | placed | shut | sent | drained => rfl

variable {k' : K}

theorem accepted_placed {v : V} :
    accepted k ((t, .placed k' v) :: tr) = (if k' = k then [v] else []) ++ accepted k tr := by
  by_cases h : k' = k <;> simp [accepted, h]

theorem received_placed {v : V} : received k ((t, .placed k' v) :: tr) = received k tr := rfl

/-- What a stretch puts into a channel and takes out of it. -/
theorem Acts.flow (h : Acts chans chans' ev) (t : T) (k : K) :
    (chans k).items ++ accepted k (ev.map (t, ·)) =
      received k (ev.map (t, ·)) ++ (chans' k).items := by
  cases h with
  | none hq => simp [accepted_quiet hq, received_quiet hq]
  | @put k' v ev room _ hq =>
    rw [map_cons, accepted_placed, received_placed, accepted_quiet hq, received_quiet hq]
    by_cases hk : k' = k
    · subst hk; simp
    · simp [hk, Function.update_of_ne (Ne.symm hk)]
  | @take k' v hitems =>
    by_cases hk : k' = k
    · subst hk; simp [accepted, received, hitems]
    · simp [accepted, received, hk, Function.update_of_ne (Ne.symm hk)]
  | @shut k' =>
    have hsame : (Function.update chans k' { chans k' with closed := true } k).items =
        (chans k).items := by
      by_cases hk : k' = k
      · subst hk; rw [Function.update_self]; rfl
      · rw [Function.update_of_ne (Ne.symm hk)]
    simp [accepted, received, hsame]

/-- No stretch changes what a channel was made to be. -/
theorem Acts.same (h : Acts chans chans' ev) (k : K) : Chan.Same (chans k) (chans' k) := by
  have hupd : ∀ {k' : K} {c : Chan V}, Chan.Same (chans k') c →
      Chan.Same (chans k) (Function.update chans k' c k) := by
    intro k' c hs
    by_cases hk : k' = k
    · subst hk; rwa [Function.update_self]
    · rw [Function.update_of_ne (Ne.symm hk)]; exact ⟨rfl, rfl⟩
  cases h with
  | none => exact ⟨rfl, rfl⟩
  | put => exact hupd (Chan.same_put _)
  | take => exact hupd Chan.same_shrink
  | shut => exact hupd ⟨rfl, rfl⟩

/-- A closed channel stays closed, and nothing is put into it. -/
theorem Acts.closed (h : Acts chans chans' ev) (hc : (chans k).closed = true) :
    (chans' k).closed = true ∧ accepted k (ev.map (t, ·)) = [] := by
  cases h with
  | none hq => exact ⟨hc, accepted_quiet hq⟩
  | @put k' v ev room hopen hq =>
    have hk : k' ≠ k := by
      intro hk; subst hk; simp [hc] at hopen
    rw [map_cons, accepted_placed, accepted_quiet hq, Function.update_of_ne hk.symm]
    exact ⟨hc, by simp [hk]⟩
  | @take k' v =>
    refine ⟨?_, rfl⟩
    by_cases hk : k' = k
    · subst hk; simpa using hc
    · rwa [Function.update_of_ne (Ne.symm hk)]
  | @shut k' =>
    refine ⟨?_, rfl⟩
    by_cases hk : k' = k
    · subst hk; simp
    · rwa [Function.update_of_ne (Ne.symm hk)]

/-- The event of a close is that of a stretch which leaves the channel closed. -/
theorem Acts.shut_closed (h : Acts chans chans' ev) (he : .shut k ∈ ev) :
    (chans' k).closed = true ∧ ev = [.shut k] := by
  cases h with
  | none hq => exact (hq _ he).elim
  | put _ _ hq =>
    rcases mem_cons.mp he with h | h
    · cases h
    · exact (hq _ h).elim
  | take => simp at he
  | shut =>
    obtain rfl : k = _ := by simpa using he
    simp

end

/-! ### Runs -/

section

variable [DecidableEq T] [DecidableEq K] [Inhabited V] {w w' : World T K V} {m : Move T K V}
  {tr ev : List (T × Event K V)} {cap : K → Int}

/-- A move that is not the beginning of a call is a stretch of one. -/
theorem World.step_cases (h : World.step m w = some (ev, w')) :
    (∃ t pc, m = .call t pc ∧ pc.begins = true ∧ ev = [] ∧ w'.chans = w.chans ∧
      w'.pcs = Function.update w.pcs t pc) ∨
    ∃ t b s, m = .run t b ∧ stretch b w.chans (w.pcs t) = some s ∧ ev = s.events.map (t, ·) ∧
      w'.chans = s.chans ∧ w'.pcs = Function.update w.pcs t s.pc := by
  cases m with
  | call t pc =>
    simp only [World.step] at h
    split at h
    · split at h
      next hb => cases h; exact .inl ⟨t, pc, rfl, hb, rfl, rfl, rfl⟩
      · cases h
    · cases h
  | run t b =>
    obtain ⟨s, hs, he⟩ := Option.map_eq_some_iff.mp h
    cases he
    exact .inr ⟨t, b, s, rfl, hs, rfl, rfl, rfl⟩

/-- Every move does one of the four things to the channels. -/
theorem World.step_acts (h : World.step m w = some (ev, w')) :
    ∃ t es, ev = es.map (t, ·) ∧ Acts w.chans w'.chans es := by
  rcases World.step_cases h with ⟨t, pc, -, -, rfl, hw, -⟩ | ⟨t, b, s, -, hs, rfl, hw, -⟩
  · exact ⟨t, [], rfl, hw ▸ .none nofun⟩
  · exact ⟨t, s.events, rfl, hw ▸ stretch_acts hs⟩

/-- In every state reached, what went in is what came out and then what is in the channel. -/
theorem flow_of_run (h : Run World.step (World.start cap) tr w) (k : K) :
    accepted k tr = received k tr ++ (w.chans k).items := by
  refine h.holds (fun tr w => accepted k tr = received k tr ++ (w.chans k).items) ?_ ?_
  · rfl
  · intro tr w m ev w' ih hm
    obtain ⟨t, es, rfl, hacts⟩ := World.step_acts hm
    rw [accepted_append, received_append, ih, append_assoc, append_assoc, hacts.flow t k]

/-- A channel keeps its capacity, and stays for rendezvous or not. -/
theorem same_of_run (h : Run World.step (World.start cap) tr w) (k : K) :
    Chan.Same (chanNew (cap k)) (w.chans k) := by
  refine h.holds (fun _ w => Chan.Same (chanNew (cap k)) (w.chans k)) ⟨rfl, rfl⟩ ?_
  intro tr w m ev w' ih hm
  obtain ⟨t, es, -, hacts⟩ := World.step_acts hm
  exact ih.trans (hacts.same k)

/-- Nothing goes into a channel once it is closed. -/
theorem closed_of_run {w₁ : World T K V} (h : Run World.step w₁ tr w) {k : K}
    (hc : (w₁.chans k).closed = true) : (w.chans k).closed = true ∧ accepted k tr = [] := by
  refine h.holds (fun tr w => (w.chans k).closed = true ∧ accepted k tr = []) ⟨hc, rfl⟩ ?_
  intro tr w m ev w' ih hm
  obtain ⟨t, es, rfl, hacts⟩ := World.step_acts hm
  obtain ⟨hc', hnone⟩ := hacts.closed (t := t) ih.1
  exact ⟨hc', by rw [accepted_append, ih.2, hnone]; rfl⟩

/-- The last event of `t` is that it has put a value into `k`. -/
def LastPlaced (t : T) (k : K) (tr : List (T × Event K V)) : Prop :=
  ∃ pre v mid, tr = pre ++ (t, .placed k v) :: mid ∧ ∀ e ∈ mid, e.1 ≠ t

/-- A task in the second loop of a send has put its value in, and done nothing since. -/
theorem handing_of_run (h : Run World.step (World.start cap) tr w) {t : T} {k : K}
    (hp : w.pcs t = .handing k) : LastPlaced t k tr := by
  refine h.holds (fun tr w => w.pcs t = .handing k → LastPlaced t k tr) nofun ?_ hp
  intro tr w m ev w' ih hm hp
  rcases World.step_cases hm with ⟨t', pc, -, hb, rfl, -, hw⟩ | ⟨t', b, s, -, hs, rfl, -, hw⟩
  · -- no call begins there
    have hne : t' ≠ t := by
      rintro rfl
      rw [hw, Function.update_self] at hp
      rw [hp] at hb
      cases hb
    rw [hw, Function.update_of_ne hne.symm] at hp
    simpa using ih hp
  · by_cases ht : t' = t
    · subst ht
      rw [hw, Function.update_self] at hp
      rcases stretch_handing hs hp with ⟨hpc, hev⟩ | ⟨v, hev⟩
      · rw [hev]
        simpa using ih hpc
      · exact ⟨tr, v, [], by rw [hev]; rfl, nofun⟩
    · rw [hw, Function.update_of_ne (Ne.symm ht)] at hp
      obtain ⟨pre, v, mid, rfl, hmid⟩ := ih hp
      refine ⟨pre, v, mid ++ s.events.map (t', ·), by simp, fun e he => ?_⟩
      rcases mem_append.mp he with he | he
      · exact hmid e he
      · obtain ⟨_, -, rfl⟩ := mem_map.mp he
        exact ht

/-! ### What channels promise -/

/-- The value `v` that went in after `pre` has come out in `tr`: as many came out before it as
had gone in before it. -/
def Taken (k : K) (v : V) (pre tr : List (T × Event K V)) : Prop :=
  (received k tr)[(accepted k pre).length]? = some v

omit [DecidableEq T] [Inhabited V] in
theorem taken_of_empty {k : K} {v : V} {t : T} {pre mid : List (T × Event K V)}
    (h : accepted k (pre ++ (t, .placed k v) :: mid) = received k (pre ++ (t, .placed k v) :: mid)) :
    Taken k v pre (pre ++ (t, .placed k v) :: mid) := by
  have hin : accepted k (pre ++ (t, .placed k v) :: mid) =
      accepted k pre ++ v :: accepted k mid := by
    rw [accepted_append, accepted_placed]
    simp
  rw [Taken, ← h, hin]
  simp

theorem not_taken_yet (h : Run World.step (World.start cap) tr w) {k : K} {v : V} {t : T} :
    ¬ Taken k v tr (tr ++ [(t, .placed k v)]) := by
  have hlen := congrArg List.length (flow_of_run h k)
  rw [length_append] at hlen
  have hnone : (received k (tr ++ [(t, .placed k v)]))[(accepted k tr).length]? = none := by
    refine List.getElem?_eq_none ?_
    rw [received_append, received_placed]
    simp only [received, filterMap_nil, List.append_nil] at hlen ⊢
    omega
  rw [Taken, hnone]
  simp

/-- A send on a channel without a buffer that ends normally, the channel open and the sender's
group not cancelled, has put its value in before, and a receiver has taken that value if and
only if the send is a plain one and not a case of a select. -/
theorem send_taken {k : K} {t : T} {path : Path} {pre post : List (T × Event K V)}
    (h : Run World.step (World.start cap) (pre ++ (t, .sent k path false false) :: post) w)
    (hk : cap k ≤ 0) :
    ∃ before v since, pre = before ++ (t, .placed k v) :: since ∧ (∀ e ∈ since, e.1 ≠ t) ∧
      (Taken k v before pre ↔ path = .send) := by
  obtain ⟨tr, w₁, m, ev₁, ev₂, w₂, tr', hrun, hm, -, rfl, -⟩ := h.performed
  have hrun₂ := hrun.move m hm
  have hr : (w₂.chans k).isRendezvous = true := by
    rw [(same_of_run hrun₂ k).rendezvous, Chan.isRendezvous_new, decide_eq_true hk]
  -- a channel left empty has given out all that went in
  have hfull : ev₂ = [] → (w₂.chans k).count = 0 →
      accepted k (tr ++ ev₁) = received k (tr ++ ev₁) := by
    intro hlast hcount
    have hnil : (w₂.chans k).items = [] := by
      rw [← length_eq_zero_iff, Chan.length_items, hcount]
    have hflow := flow_of_run hrun₂ k
    rw [hnil, hlast, ← append_assoc, accepted_append, received_append] at hflow
    simpa [accepted, received] using hflow
  rcases World.step_cases hm with ⟨_, _, -, -, hev, -⟩ | ⟨t', b, s, -, hs, hes, hchans, -⟩
  · simp at hev
  rw [hchans] at hfull hr
  have hmem : (t, Event.sent k path false false) ∈ s.events.map (t', ·) := by rw [← hes]; simp
  obtain ⟨e, he, heq⟩ := mem_map.mp hmem
  obtain ⟨rfl, rfl⟩ := Prod.mk.inj heq
  obtain ⟨hopen, rfl, hok, hplaced⟩ := stretch_sent hs k path false false he
  rcases hplaced with ⟨v, hev⟩ | ⟨rfl, hpc, hev⟩
  · -- the value went in in this stretch
    obtain ⟨rfl, rfl⟩ : ev₁ = [(t', .placed k v)] ∧ ev₂ = [] := by
      rw [hev] at hes
      cases ev₁ with
      | nil => simp at hes
      | cons a as => cases as <;> simp_all
    refine ⟨tr, v, [], rfl, nofun, ?_⟩
    cases path with
    | send => exact ⟨fun _ => rfl, fun _ => taken_of_empty (hfull rfl (hok hr rfl rfl))⟩
    | trySend => rw [SentOk, hr] at hok; cases hok
    | select => exact ⟨fun htaken => absurd htaken (not_taken_yet hrun), nofun⟩
  · -- it went in earlier, and the task has waited since
    obtain ⟨rfl, rfl⟩ : ev₁ = [] ∧ ev₂ = [] := by
      rw [hev] at hes
      cases ev₁ <;> simp_all
    rw [List.append_nil] at hfull ⊢
    obtain ⟨before, v, since, rfl, hsince⟩ := handing_of_run hrun hpc
    exact ⟨before, v, since, rfl, hsince, fun _ => rfl,
      fun _ => taken_of_empty (hfull rfl (hok hr rfl rfl))⟩

/-- A plain send on a channel without a buffer: the sender waits for the receiver. -/
theorem send_taken_plain : ∃ before v since,
    ([(0, .placed () 5), (1, .took () 5)] : List (Nat × Event Unit Nat)) =
      before ++ (0, .placed () v) :: since ∧ (∀ e ∈ since, e.1 ≠ 0) ∧
      (Taken () v before ([(0, .placed () 5), (1, .took () 5)] : List (Nat × Event Unit Nat)) ↔
        Path.send = .send) := by
  obtain ⟨w, h⟩ : ∃ w : World Nat Unit Nat, Run World.step (World.start fun _ => 0)
      ([(0, .placed () 5), (1, .took () 5)] ++ (0, .sent () .send false false) :: []) w :=
    run_of_schedule [.call 0 (.sending () 5), .run 0 false, .call 1 (.receiving ()), .run 0 false,
      .run 1 false, .run 0 false] (by decide)
  exact send_taken h (by decide)

/-- A select puts its value into a channel without a buffer and ends, and nobody has taken it. -/
theorem select_send_not_taken :
    ∃ w : World Nat Unit Nat, Run World.step (World.start fun _ => 0)
      ([(0, .placed () 5)] ++ (0, .sent () .select false false) :: []) w ∧
      ¬ Taken () 5 ([] : List (Nat × Event Unit Nat)) [(0, .placed () 5)] := by
  obtain ⟨w, h⟩ : ∃ w : World Nat Unit Nat, Run World.step (World.start fun _ => 0)
      [(0, .placed () 5), (0, .sent () .select false false)] w :=
    run_of_schedule [.call 0 (.selecting [.send () 5]), .run 0 false] (by decide)
  exact ⟨w, h, by simp [Taken, received]⟩

end

end Voila.Rt
