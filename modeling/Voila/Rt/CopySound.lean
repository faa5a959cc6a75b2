import Voila.Rt.Fan

/-!
# Voila.Rt.CopySound

What a task that copies does, whatever the tasks around it do.

A stretch of such a task has one of a few effects (`Copier.Does`): a value is taken from its source, or put
into its destination, or it learns that the source is spent, or it is in the call that follows the loop. So
what it has put is what it has taken, but for the value of the turn that it is in (`copied_of_run`).
-/

open List

namespace Voila.Rt

open Lib Program

variable {T K V : Type*} {S : T → Type*}

/-! ### One stretch -/

/-- In the loop. -/
def Copy.InLoop : Copy V → Prop
  | .next _ | .copying _ => True
  | .last | .ended | .failed => False

theorem Copy.InLoop.not_ended {v : Copy V} (h : v.InLoop) : v ≠ .ended := by
  rintro rfl
  exact h

/-- The place after a stretch that leaves the task at `pc`. -/
def Copy.after (v : Copy V) : Pc K V → Copy V
  | .out (some r) => v.back r
  | _ => v

namespace Copier

variable [DecidableEq K] [Inhabited V]

/-- What a stretch of the task does, from a place of its loop and of its call to the next. -/
inductive Does (c : Copier K V) (b : Bool) (chans : K → Chan V) :
    Copy V → Pc K V → Stretch K V → Copy V → Prop
  | takes {again : Bool} {v : V} (items : (chans c.src).items = v :: (chans c.src).shrink.items) :
      Does c b chans (.next again) (.receiving c.src)
        ⟨Function.update chans c.src (chans c.src).shrink, .out (some (.received v true)), [.took c.src v]⟩
        (.copying v)
  | drains {again : Bool} (spent : (chans c.src).Spent) :
      Does c b chans (.next again) (.receiving c.src)
        ⟨chans, .out (some (.received default false)), [.drained c.src]⟩ .last
  | puts {v : V} {pc : Pc K V} {ev : List (Event K V)} {next : Copy V}
      (room : (chans c.dst).count < (chans c.dst).cap) (opened : (chans c.dst).closed = false)
      (quiet : ∀ e ∈ ev, e.quiet)
      (place : pc = .out (some .sent) ∧ next = .next true ∨ pc = .handing c.dst ∧ next = .copying v) :
      Does c b chans (.copying v) (.sending c.dst v)
        ⟨Function.update chans c.dst ((chans c.dst).put v room), pc, .placed c.dst v :: ev⟩ next
  | hands {v : V} {ev : List (Event K V)} (quiet : ∀ e ∈ ev, e.quiet) :
      Does c b chans (.copying v) (.handing c.dst) ⟨chans, .out (some .sent), ev⟩ (.next true)
  | lasts {pc : Pc K V} {st : Stretch K V} (within : c.last.Within pc)
      (hst : stretch b chans pc = some st) : Does c b chans .last pc st (Copy.after .last st.pc)
  | fails {v : Copy V} {pc : Pc K V} {type msg : String} (inLoop : v.InLoop)
      (why : b = true ∨ (chans c.dst).closed = true) :
      Does c b chans v pc ⟨chans, .out (some (.thrown type msg)), []⟩ .failed
  | waits {v : Copy V} {pc : Pc K V} (inLoop : v.InLoop) : Does c b chans v pc ⟨chans, pc, []⟩ v

end Copier

/-- The task `t` copies, with `get` its place. -/
structure IsCopier (P : Program T K V S) (t : T) (c : Copier K V) (get : S t → Copy V) : Prop where
  call : ∀ v, P.call t v = c.call (get v)
  back : ∀ v r, get (P.back t v r) = (get v).back r
  cancel : ∀ v v', P.cancel t v = some v' → (get v).cancel = some (get v')
  free : ∀ pc, P.free t pc = false

section

variable {P : Program T K V S} {t : T} {c : Copier K V}
  {get : S t → Copy V} {s s' s₀ : Sys T K V S} {tr ev : List (T × Event K V)} {b : Bool}

/-- A task that copies is in the call of its place. -/
theorem IsCopier.within (copier : IsCopier P t c get) (begun : s.Begun P) :
    (∃ r, s.world.pcs t = .out r) ∨
      ∃ pc, c.call (get (s.vars t)) = some pc ∧ pc.Within (s.world.pcs t) := by
  rcases begun t with out | ⟨pc, made | free, within⟩
  · exact .inl out
  · exact .inr ⟨pc, copier.call _ ▸ made, within⟩
  · rw [copier.free] at free
    cases free

theorem IsCopier.after (copier : IsCopier P t c get) (v : S t) (pc : Pc K V) :
    get (P.after t v pc) = (get v).after pc := by
  cases pc with
  | out r =>
    cases r with
    | none => rfl
    | some r => exact copier.back v r
  | sending | handing | trying | receiving | closing | selecting | timing => rfl

variable [DecidableEq K] [Inhabited V]

variable {st : Stretch K V} {es : List (Event K V)} {k : K} {chans : K → Chan V} {pc : Pc K V}
  {v v' : Copy V}

theorem IsCopier.does (copier : IsCopier P t c get) (begun : s.Begun P)
    (hst : stretch b s.world.chans (s.world.pcs t) = some st) :
    c.Does b s.world.chans (get (s.vars t)) (s.world.pcs t) st (get (P.after t (s.vars t) st.pc)) := by
  rcases copier.within begun with ⟨r, out⟩ | ⟨pc, call, within⟩
  · rw [out] at hst
    cases hst
  rw [copier.after]
  generalize get (s.vars t) = place at call
  generalize s.world.pcs t = at_ at within hst
  cases place with
  | next again =>
    cases call
    obtain rfl : at_ = .receiving c.src := by
      rcases within with same | ⟨_, _, no, -⟩
      · exact same
      · cases no
    rcases recv_cases hst with ⟨x, items, rfl⟩ | ⟨empty, ⟨closed, rfl⟩ | ⟨cancelled, _, _, rfl⟩ | ⟨-, rfl⟩⟩
    · exact .takes items
    · exact .drains ⟨closed, empty⟩
    · exact .fails trivial (.inl cancelled)
    · exact .waits trivial
  | copying x =>
    cases call
    obtain rfl | rfl : at_ = .sending c.dst x ∨ at_ = .handing c.dst := by
      rcases within with same | ⟨k, v, same, rfl⟩
      · exact .inl same
      · cases same
        exact .inr rfl
    · rcases send_cases hst with
        ⟨room, opened, pc, ev, rfl, quiet, rfl | ⟨-, rfl⟩⟩ | ⟨why, _, _, rfl⟩ | ⟨-, rfl⟩
      · exact .puts room opened quiet (.inl ⟨rfl, rfl⟩)
      · exact .puts room opened quiet (.inr ⟨rfl, rfl⟩)
      · exact .fails trivial why.symm
      · exact .waits trivial
    · cases hst
      rcases handLoop_cases b s.world.chans c.dst with ⟨h, -⟩ | h
      · rw [h]
        exact .hands (by simp [Event.quiet])
      · rw [h]
        exact .waits trivial
  | last =>
    cases call
    exact .lasts within hst
  | ended | failed => cases call

omit [DecidableEq K] [Inhabited V] in
theorem Event.not_quiet {v : V} (quiet : ∀ e ∈ es, e.quiet) : .placed k v ∉ es ∧ .shut k ∉ es :=
  ⟨fun mem => quiet _ mem, fun mem => quiet _ mem⟩

/-- A stretch is in the loop, where it closes nothing and puts into the destination only, or past it. -/
theorem Copier.Does.loop_or_last (h : c.Does b chans v pc st v') :
    (v.InLoop ∧ v' ≠ .ended ∧ (∀ k x, .placed k x ∈ st.events → k = c.dst) ∧ ∀ k, .shut k ∉ st.events) ∨
    v = .last ∧ c.last.Within pc ∧ stretch b chans pc = some st ∧ v' = Copy.after .last st.pc := by
  cases h with
  | takes | drains => exact .inl ⟨trivial, nofun, by simp, by simp⟩
  | @puts x pc ev next room opened quiet place =>
    refine .inl ⟨trivial, ?_, ?_, ?_⟩
    · rcases place with ⟨-, rfl⟩ | ⟨-, rfl⟩ <;> nofun
    · intro k y mem
      rcases mem_cons.mp mem with same | mem
      · cases same
        rfl
      · exact absurd mem (Event.not_quiet quiet).1
    · intro k mem
      rcases mem_cons.mp mem with same | mem
      · cases same
      · exact (Event.not_quiet (v := x) quiet).2 mem
  | @hands x ev quiet =>
    exact .inl ⟨trivial, nofun, fun k y mem => absurd mem (Event.not_quiet quiet).1,
      fun k => (Event.not_quiet (v := x) quiet).2⟩
  | lasts within hst => exact .inr ⟨rfl, within, hst, rfl⟩
  | fails inLoop => exact .inl ⟨inLoop, nofun, by simp, by simp⟩
  | waits inLoop =>
    exact .inl ⟨inLoop, inLoop.not_ended, by simp, by simp⟩

/-! ### What has been copied -/

omit [DecidableEq K] [Inhabited V] in
/-- The call after the loop is about other things. -/
structure Copier.Apart (c : Copier K V) : Prop where
  puts : ¬ c.last.Puts c.dst
  takes : ¬ c.last.Takes c.src

/-- What has been taken is what has been put, but for the value of the turn that the task is in; an
exception may lose that one. -/
def Copy.Account (took put : List V) : Copy V → Pc K V → Prop
  | .next _, _ | .last, _ | .ended, _ => took = put
  | .copying _, .handing _ => took = put
  | .copying v, _ => took = put ++ [v]
  | .failed, _ => ∃ left, took = put ++ left ∧ left.length ≤ 1

omit [DecidableEq K] [Inhabited V] in
theorem Copy.Account.short {took put : List V} (acc : v.Account took put pc) :
    ∃ left, took = put ++ left ∧ left.length ≤ 1 := by
  cases v with
  | next | last | ended => exact ⟨[], acc.trans (List.append_nil _).symm, Nat.zero_le _⟩
  | copying x =>
    cases pc with
    | handing => exact ⟨[], acc.trans (List.append_nil _).symm, Nat.zero_le _⟩
    | out | sending | trying | receiving | closing | selecting | timing => exact ⟨[x], acc, le_rfl⟩
  | failed => exact acc

omit [Inhabited V] in
theorem accepted_none (h : ∀ v, .placed k v ∉ es) : accepted k (es.map (t, ·)) = [] := by
  refine filterMap_eq_nil_iff.mpr fun p hp => ?_
  obtain ⟨e, he, rfl⟩ := mem_map.mp hp
  cases e with
  | placed k' v =>
    have other : k' ≠ k := by
      rintro rfl
      exact h v he
    exact if_neg other
  | took | shut | sent | drained => rfl

omit [DecidableEq K] [Inhabited V] in
/-- A call that begins leaves the account as it is. -/
theorem Copy.Account.begins {took put : List V} {v : Copy V} {r : Option (Result V)} {pc : Pc K V}
    (acc : v.Account took put (.out r : Pc K V)) (call : c.call v = some pc) : v.Account took put pc := by
  cases v with
  | copying x => cases call; exact acc
  | next | last | ended | failed => exact acc

omit [Inhabited V] in
theorem received_none (h : ∀ v, .took k v ∉ es) : received k (es.map (t, ·)) = [] := by
  refine filterMap_eq_nil_iff.mpr fun p hp => ?_
  obtain ⟨e, he, rfl⟩ := mem_map.mp hp
  cases e with
  | took k' v =>
    have other : k' ≠ k := by
      rintro rfl
      exact h v he
    exact if_neg other
  | placed | shut | sent | drained => rfl

omit [DecidableEq K] [Inhabited V] in
theorem Copy.after_last (pc : Pc K V) :
    Copy.after .last pc = (.last : Copy V) ∨ Copy.after .last pc = (.ended : Copy V) ∨
      Copy.after .last pc = (.failed : Copy V) := by
  cases pc with
  | out r =>
    cases r with
    | none => exact .inl rfl
    | some r =>
      cases r with
      | sent | closed => exact .inr (.inl rfl)
      | refused | received | selected | thrown => exact .inr (.inr rfl)
  | sending | handing | trying | receiving | closing | selecting | timing => exact .inl rfl

theorem Copier.Does.account
    {took put : List V} (h : c.Does b chans v pc st v') (apart : c.Apart) (acc : v.Account took put pc) :
    v'.Account (took ++ received c.src (st.events.map (t, ·)))
      (put ++ accepted c.dst (st.events.map (t, ·))) st.pc := by
  cases h with
  | @takes again x items =>
    have same : took = put := acc
    simp [Copy.Account, received, accepted, same]
  | drains spent =>
    have same : took = put := acc
    simp [Copy.Account, received, accepted, same]
  | @puts x pc ev next room opened quiet place =>
    have same : took = put ++ [x] := acc
    rw [map_cons, received_placed, received_quiet quiet, accepted_placed, accepted_quiet quiet,
      if_pos rfl, same]
    rcases place with ⟨rfl, rfl⟩ | ⟨rfl, rfl⟩ <;> simp [Copy.Account]
  | hands quiet =>
    rw [received_quiet quiet, accepted_quiet quiet]
    have same : took = put := acc
    simp [Copy.Account, same]
  | @lasts pc st within hst =>
    have makes := stretch_makes hst within
    rw [received_none fun v he => apart.takes (makes _ he),
      accepted_none fun v he => apart.puts (makes _ he), List.append_nil, List.append_nil]
    have same : took = put := acc
    rcases Copy.after_last st.pc with here | here | here
    · rw [here]; exact same
    · rw [here]; exact same
    · rw [here]
      exact ⟨[], same.trans (List.append_nil _).symm, Nat.zero_le _⟩
  | fails => simpa [Copy.Account, received, accepted] using acc.short
  | waits => simpa [received, accepted] using acc

variable [DecidableEq T]

/-- The moves of a task that copies, and those of the others. -/
theorem IsCopier.cases (copier : IsCopier P t c get) (begun : s.Begun P) {u : T}
    (h : Effect P s u b ev s') :
    (u ≠ t ∧ s'.world.pcs t = s.world.pcs t ∧ s'.vars t = s.vars t ∧ own t ev = []) ∨
    u = t ∧
      ((ev = [] ∧ s'.world.chans = s.world.chans ∧ (∃ r, s.world.pcs t = .out r) ∧
          c.call (get (s.vars t)) = some (s'.world.pcs t) ∧ s'.vars t = s.vars t) ∨
        (∃ st, stretch b s.world.chans (s.world.pcs t) = some st ∧
          c.Does b s.world.chans (get (s.vars t)) (s.world.pcs t) st (get (s'.vars t)) ∧
          ev = st.events.map (t, ·) ∧ s'.world.chans = st.chans ∧ s'.world.pcs t = st.pc) ∨
        b = true ∧ ev = [] ∧ s'.world = s.world ∧ get (s.vars t) = .next true ∧ get (s'.vars t) = .failed ∧
          ∃ r, s.world.pcs t = .out r) := by
  by_cases hu : u = t
  · subst hu
    refine .inr ⟨rfl, ?_⟩
    rcases h.self with ⟨hev, hchans, outside, made | free, hvars⟩ |
      ⟨st, hst, hev, hchans, hpc, hvars⟩ | ⟨cancelled, hev, hworld, outside, left⟩
    · exact .inl ⟨hev, hchans, outside, (copier.call _).symm.trans made, hvars⟩
    · rw [copier.free] at free
      cases free
    · exact .inr (.inl ⟨st, hst, hvars ▸ copier.does begun hst, hev, hchans, hpc⟩)
    · have cancel := copier.cancel _ _ left
      refine .inr (.inr ⟨cancelled, hev, hworld, ?_⟩)
      generalize get (s.vars u) = place at cancel ⊢
      cases place with
      | next again =>
        cases again with
        | true => exact ⟨rfl, (Option.some.inj cancel).symm, outside⟩
        | false => cases cancel
      | copying | last | ended | failed => cases cancel
  · obtain ⟨hpc, hvars, hown⟩ := h.other (Ne.symm hu)
    exact .inl ⟨hu, hpc, hvars, hown⟩

/-- The account holds in every state reached. -/
theorem copied_of_run (copier : IsCopier P t c get) (apart : c.Apart) (start : s₀.Begun P)
    (first : get (s₀.vars t) = .next false) (h : Run P.step s₀ tr s) :
    (get (s.vars t)).Account (received c.src (own t tr)) (accepted c.dst (own t tr))
      (s.world.pcs t) := by
  suffices both : s.Begun P ∧ (get (s.vars t)).Account (received c.src (own t tr))
      (accepted c.dst (own t tr)) (s.world.pcs t) from both.2
  refine h.holds (fun tr s => s.Begun P ∧ (get (s.vars t)).Account (received c.src (own t tr))
    (accepted c.dst (own t tr)) (s.world.pcs t)) ⟨start, by rw [first]; rfl⟩ ?_
  intro tr s m ev s' ⟨begun, acc⟩ hm
  have effect := step_effect hm
  refine ⟨begun.next effect, ?_⟩
  rw [own_append, received_append, accepted_append]
  rcases copier.cases begun effect with ⟨-, hpc, hvars, hown⟩ | ⟨-, hmine⟩
  · rw [hown, hpc, hvars]
    simpa [received, accepted] using acc
  · rcases hmine with ⟨rfl, -, ⟨r, out⟩, call, hvars⟩ | ⟨st, hst, does, rfl, -, hpc⟩ |
      ⟨-, rfl, hworld, before, after, -⟩
    · rw [hvars]
      rw [out] at acc
      have same := Copy.Account.begins acc call
      simpa [own, received, accepted] using same
    · rw [own_map, hpc]
      exact does.account apart acc
    · rw [hworld, after]
      have short := Copy.Account.short acc
      simpa [own, received, accepted, Copy.Account] using short

/-- Past the loop the source is spent. -/
theorem spent_of_run (copier : IsCopier P t c get) (start : s₀.Begun P)
    (first : get (s₀.vars t) = .next false) (h : Run P.step s₀ tr s)
    (past : get (s.vars t) = .last ∨ get (s.vars t) = .ended) : (s.world.chans c.src).Spent := by
  suffices both : s.Begun P ∧
      (get (s.vars t) = .last ∨ get (s.vars t) = .ended → (s.world.chans c.src).Spent) from both.2 past
  refine h.holds (fun _ s => s.Begun P ∧
    (get (s.vars t) = .last ∨ get (s.vars t) = .ended → (s.world.chans c.src).Spent)) ⟨start, ?_⟩ ?_
  · rw [first]
    exact (Or.elim · nofun nofun)
  intro tr s m ev s' ⟨begun, spent⟩ hm
  have effect := step_effect hm
  refine ⟨begun.next effect, ?_⟩
  obtain ⟨es, -, acts⟩ := effect.acts
  rcases copier.cases begun effect with ⟨-, -, hvars, -⟩ | ⟨-, hmine⟩
  · rw [hvars]
    exact fun past => acts.spent (spent past)
  · rcases hmine with ⟨-, -, -, -, hvars⟩ | ⟨st, -, does, -, hchans, -⟩ | ⟨-, -, -, -, after, -⟩
    · rw [hvars]
      exact fun past => acts.spent (spent past)
    · generalize get (s'.vars t) = place' at does ⊢
      generalize get (s.vars t) = place at does spent
      generalize s.world.pcs t = pc at does
      intro past
      cases does with
      | takes | hands | fails => exact past.elim nofun nofun
      | drains here => exact hchans ▸ here
      | puts room opened quiet place =>
        rcases place with ⟨-, rfl⟩ | ⟨-, rfl⟩ <;> exact past.elim nofun nofun
      | lasts => exact acts.spent (spent (.inl rfl))
      | waits => exact acts.spent (spent past)
    · rw [after]
      exact (Or.elim · nofun nofun)

/-! ### Progress -/

/-- While it has something to take or knows of the close, room to put it and a call that can go, a task that
copies has a move. -/
theorem IsCopier.moves (copier : IsCopier P t c get) (begun : s.Begun P)
    (closed : (s.world.chans c.src).closed = true) (empty : (s.world.chans c.dst).count = 0)
    (opened : (s.world.chans c.dst).closed = false) (begins : c.last.begins = true)
    (lasts : c.last.Within (s.world.pcs t) → ∃ st,
      stretch false s.world.chans (s.world.pcs t) = some st ∧ st.pc ≠ s.world.pcs t)
    (notEnded : get (s.vars t) ≠ .ended) (notFailed : get (s.vars t) ≠ .failed) : Moves P s t := by
  have room : (s.world.chans c.dst).count < (s.world.chans c.dst).cap := empty ▸ (s.world.chans c.dst).cap_pos
  obtain ⟨pc, call, canBegin⟩ : ∃ pc, c.call (get (s.vars t)) = some pc ∧ pc.begins = true := by
    generalize get (s.vars t) = place at notEnded notFailed
    cases place with
    | next | copying => exact ⟨_, rfl, rfl⟩
    | last => exact ⟨_, rfl, begins⟩
    | ended => exact absurd rfl notEnded
    | failed => exact absurd rfl notFailed
  rcases copier.within begun with ⟨r, out⟩ | ⟨pc', call', within⟩
  · exact moves_call out ((copier.call _).trans call) canBegin
  obtain rfl : pc = pc' := Option.some.inj (call.symm.trans call')
  suffices runs : ∃ st, stretch false s.world.chans (s.world.pcs t) = some st ∧
      st.pc ≠ s.world.pcs t by
    obtain ⟨st, hst, away⟩ := runs
    exact moves_run hst away
  generalize s.world.pcs t = at_ at within lasts
  generalize get (s.vars t) = place at call
  cases place with
  | next again =>
    cases call
    obtain rfl : at_ = .receiving c.src := by
      rcases within with same | ⟨_, _, no, -⟩
      · exact same
      · cases no
    refine ⟨_, rfl, ?_⟩
    rcases recv_cases (show stretch false s.world.chans (.receiving c.src) = some _ from rfl) with
      ⟨x, -, h⟩ | ⟨-, ⟨-, h⟩ | ⟨no, -⟩ | ⟨no, -⟩⟩
    · rw [h]; simp
    · rw [h]; simp
    · cases no
    · rw [closed] at no; cases no
  | copying x =>
    cases call
    rcases within with rfl | ⟨k, v, same, rfl⟩
    · refine ⟨_, rfl, ?_⟩
      rcases send_cases (show stretch false s.world.chans (.sending c.dst x) = some _ from rfl) with
        ⟨_, -, pc, ev, h, -, rfl | ⟨-, rfl⟩⟩ | ⟨no | no, -⟩ | ⟨no, -⟩
      · rw [h]; simp
      · rw [h]; simp
      · rw [opened] at no; cases no
      · cases no
      · exact absurd room no
    · cases same
      refine ⟨_, rfl, ?_⟩
      simp only [handLoop, empty, lt_self_iff_false, decide_false, Bool.false_and, Bool.false_eq_true,
        if_false]
      simp
  | last =>
    cases call
    exact lasts within
  | ended | failed => cases call

variable {u : T}

/-- A move of a task that copies does not fail it, unless its group is cancelled, its destination is closed or
the call after its loop fails. -/
theorem IsCopier.keeps (copier : IsCopier P t c get) (begun : s.Begun P) (h : Effect P s u b ev s')
    (calm : u = t → b = false)
    (opened : (get (s.vars t)).InLoop → (s.world.chans c.dst).closed = false)
    (lasts : get (s.vars t) = .last → ∀ st, c.last.Within (s.world.pcs t) →
      stretch false s.world.chans (s.world.pcs t) = some st → Copy.after .last st.pc ≠ (.failed : Copy V))
    (fine : get (s.vars t) ≠ .failed) : get (s'.vars t) ≠ .failed := by
  rcases copier.cases begun h with ⟨-, -, hvars, -⟩ | ⟨here, hmine⟩
  · rw [hvars]
    exact fine
  obtain rfl := calm here
  rcases hmine with ⟨-, -, -, -, hvars⟩ | ⟨st, -, does, -, -, -⟩ | ⟨no, -⟩
  · rw [hvars]
    exact fine
  · generalize get (s'.vars t) = place' at does ⊢
    generalize get (s.vars t) = place at does opened lasts fine
    generalize s.world.pcs t = pc at does lasts
    cases does with
    | takes | drains | hands => nofun
    | puts room here quiet place => rcases place with ⟨-, rfl⟩ | ⟨-, rfl⟩ <;> nofun
    | lasts within hst => exact lasts rfl _ within hst
    | fails inLoop why =>
      rcases why with no | closed
      · cases no
      · rw [opened inLoop] at closed
        cases closed
    | waits => exact fine
  · cases no

/-- What is left of the turn, and past the loop. -/
def copyWork : Copy V → Pc K V → Nat
  | .next _, .out _ => 5
  | .next _, _ => 4
  | .copying _, .out _ => 8
  | .copying _, .handing _ => 6
  | .copying _, _ => 7
  | .last, .out _ => 3
  | .last, .handing _ => 1
  | .last, _ => 2
  | .ended, _ | .failed, _ => 0

omit [DecidableEq T] in
theorem Copier.Does.work (h : c.Does b chans v pc st v')
    (last : (∃ k v, c.last = .sending k v ∧ k ≠ c.src) ∨ ∃ k, c.last = .closing k)
    (apart : c.dst ≠ c.src) :
    st.pc = pc ∧ st.chans = chans ∨
      copyWork v' st.pc + 5 * (st.chans c.src).count < copyWork v pc + 5 * (chans c.src).count := by
  have elsewhere : ∀ {k : K} {ch : Chan V}, k ≠ c.src →
      (Function.update chans k ch c.src).count = (chans c.src).count := by
    intro k ch hk
    rw [Function.update_of_ne (Ne.symm hk)]
  cases h with
  | @takes again x items =>
    right
    have less := congrArg List.length items
    rw [Chan.length_items, length_cons, Chan.length_items] at less
    simp only [copyWork, Function.update_self]
    omega
  | drains => exact .inr (by simp [copyWork])
  | puts room opened quiet place =>
    right
    rw [elsewhere apart]
    rcases place with ⟨rfl, rfl⟩ | ⟨rfl, rfl⟩ <;> simp [copyWork]
  | hands => exact .inr (by simp [copyWork])
  | lasts within hst =>
    rcases last with ⟨k, x, same, hk⟩ | ⟨k, same⟩
    · rw [same] at within
      rcases within with rfl | ⟨_, _, same, rfl⟩
      · rcases send_cases hst with
          ⟨room, -, pc, ev, rfl, -, rfl | ⟨-, rfl⟩⟩ | ⟨-, _, _, rfl⟩ | ⟨-, rfl⟩
        · right; rw [elsewhere hk]; simp [copyWork, Copy.after, Copy.back]
        · right; rw [elsewhere hk]; simp [copyWork, Copy.after]
        · right; simp [copyWork, Copy.after, Copy.back]
        · exact .inl ⟨rfl, rfl⟩
      · cases same
        cases hst
        rcases handLoop_cases b chans k with ⟨h, -⟩ | h
        · right; rw [h]; simp [copyWork, Copy.after, Copy.back]
        · left; rw [h]; exact ⟨rfl, rfl⟩
    · rw [same] at within
      obtain rfl : pc = .closing k := by
        rcases within with here | ⟨_, _, no, -⟩
        · exact here
        · cases no
      right
      rcases close_cases hst with ⟨-, rfl⟩ | ⟨-, _, _, rfl⟩
      · have count : (Function.update chans k { chans k with closed := true } c.src).count =
            (chans c.src).count := by
          by_cases hk : k = c.src
          · rw [← hk, Function.update_self]
          · exact elsewhere hk
        rw [count]
        simp [copyWork, Copy.after, Copy.back]
      · simp [copyWork, Copy.after, Copy.back]
  | fails inLoop =>
    right
    cases v with
    | next => cases pc <;> simp [copyWork]
    | copying => cases pc <;> simp [copyWork]
    | last | ended | failed => exact inLoop.elim
  | waits => exact .inl ⟨rfl, rfl⟩

/-- Every move of a task that copies leaves less to be done, unless it waits. -/
theorem IsCopier.work (copier : IsCopier P t c get) (begun : s.Begun P) (h : Effect P s t b ev s')
    (last : (∃ k v, c.last = .sending k v ∧ k ≠ c.src) ∨ ∃ k, c.last = .closing k)
    (apart : c.dst ≠ c.src) :
    s' = s ∨ copyWork (get (s'.vars t)) (s'.world.pcs t) + 5 * (s'.world.chans c.src).count <
      copyWork (get (s.vars t)) (s.world.pcs t) + 5 * (s.world.chans c.src).count := by
  rcases h.self with ⟨rfl, hchans, ⟨r, out⟩, made | free, hvars⟩ |
    ⟨st, hst, -, hchans, hpc, hvars⟩ | ⟨-, -, hworld, ⟨r, out⟩, left⟩
  · right
    rw [copier.call] at made
    rw [hvars, hchans, out]
    generalize s'.world.pcs t = pc at made
    generalize get (s.vars t) = place at made
    cases place with
    | next | copying => cases made; simp [copyWork]
    | last =>
      rcases last with ⟨k, v, same, -⟩ | ⟨k, same⟩
      · cases (same ▸ made : some (.sending k v) = some pc)
        simp [copyWork]
      · cases (same ▸ made : some (.closing k) = some pc)
        simp [copyWork]
    | ended | failed => cases made
  · rw [copier.free] at free
    cases free
  · have does := copier.does begun hst
    rcases does.work last apart with ⟨pc, chans⟩ | less
    · left
      refine h.eq_of_same (hchans.trans chans) (hpc.trans pc) ?_
      rw [hvars, after_same hst pc]
    · right
      rw [hpc, hchans, hvars]
      exact less
  · right
    have cancel := copier.cancel _ _ left
    rw [hworld, out]
    generalize get (s.vars t) = place at cancel ⊢
    cases place with
    | next again =>
      cases again with
      | true => rw [← Option.some.inj cancel]; simp [copyWork]
      | false => cases cancel
    | copying | last | ended | failed => cases cancel

/-- What is left for tasks that copy. -/
def copiesWork {ι : Type*} [Fintype ι] (t : ι → T) (c : ι → Copier K V) (get : ∀ i, S (t i) → Copy V)
    (s : Sys T K V S) : Nat :=
  ∑ i, (copyWork (get i (s.vars (t i))) (s.world.pcs (t i)) + 5 * (s.world.chans (c i).src).count)

/-- With their sources closed, no move of any task leaves more to be done, and every move of their own leaves
less, unless it waits. -/
theorem copiesWork_le {ι : Type*} [Fintype ι] {t : ι → T} {c : ι → Copier K V} {get : ∀ i, S (t i) → Copy V}
    (copier : ∀ i, IsCopier P (t i) (c i) (get i)) (begun : s.Begun P) (h : Effect P s u b ev s')
    (closed : ∀ i, (s.world.chans (c i).src).closed = true)
    (last : ∀ i, (∃ k v, (c i).last = .sending k v ∧ k ≠ (c i).src) ∨ ∃ k, (c i).last = .closing k)
    (apart : ∀ i, (c i).dst ≠ (c i).src) :
    copiesWork t c get s' ≤ copiesWork t c get s ∧
      ∀ i, u = t i → s' = s ∨ copiesWork t c get s' < copiesWork t c get s := by
  have each : ∀ i, copyWork (get i (s'.vars (t i))) (s'.world.pcs (t i)) +
      5 * (s'.world.chans (c i).src).count ≤
        copyWork (get i (s.vars (t i))) (s.world.pcs (t i)) + 5 * (s.world.chans (c i).src).count := by
    intro i
    by_cases hu : u = t i
    · subst hu
      rcases (copier i).work begun h (last i) (apart i) with rfl | less
      · exact le_rfl
      · exact less.le
    · obtain ⟨hpc, hvars, -⟩ := h.other (Ne.symm hu)
      rw [hpc, hvars]
      exact Nat.add_le_add_left (Nat.mul_le_mul_left 5 (h.count_le (closed i))) _
  refine ⟨Finset.sum_le_sum fun i _ => each i, ?_⟩
  rintro i rfl
  rcases (copier i).work begun h (last i) (apart i) with same | less
  · exact .inl same
  · exact .inr (Finset.sum_lt_sum (fun j _ => each j) ⟨i, Finset.mem_univ i, less⟩)

end

end Voila.Rt
