import Voila.Rt.CopySound

/-!
# Voila.Rt.MergeSound

What `chan.merge` promises, under any schedule and whatever the world outside does.

Each forwarder copies (`copied_of_run`), and reports once, when its input is spent (`reported`). The closer
has as many reports as it has counted (`Counted`), so when it closes the output they are all in.
-/

namespace Voila.Rt.Merge

open Lib Program List

variable {C E : Type*} {V : Type} {n : Nat}

/-- The states of the system. -/
abbrev State (C E : Type*) (V : Type) (n : Nat) := Sys (Task E n) (Port C) (Item V) (Vars V)

/-- Where a forwarder is. -/
abbrev fwd (s : State C E V n) (i : Fin n) : Copy (Item V) := s.vars (.forwarder i)

/-- Where the closer is. -/
abbrev close (s : State C E V n) : Closer := s.vars .closer

variable {srcs : Fin n → C} {cap : C → Int} {s s' : State C E V n} {t : Task E n} {v : Item V}
  {tr ev : List (Task E n × Event (Port C) (Item V))}

/-! ### Who does what -/

theorem forward_copies (i : Fin n) :
    IsCopier (program srcs : Program (Task E n) _ _ (Vars V)) (.forwarder i) (forward (srcs i)) id where
  call _ := rfl
  back _ _ := rfl
  cancel _ _ h := h
  free _ := rfl

theorem forward_apart (c : C) : (forward c : Copier (Port C) (Item V)).Apart :=
  ⟨nofun, nofun⟩

/-- What each task may be seen to do. -/
def Deals (srcs : Fin n → C) : Task E n → Event (Port C) (Item V) → Prop
  | .env _, .placed k _ | .env _, .shut k => ∃ c, k = .src c
  | .env _, .took k _ => k = .out
  | .forwarder _, .placed k _ => k = .out ∨ k = .done
  | .forwarder i, .took k _ => k = .src (srcs i)
  | .forwarder _, .shut _ => False
  | .closer, .placed .. => False
  | .closer, .took k _ => k = .done
  | .closer, .shut k => k = .out
  | _, .sent .. | _, .drained _ => True

variable {pc : Pc (Port C) (Item V)} {e : Event (Port C) (Item V)} {i : Fin n} {x : Closer}

theorem free_deals {e : E} {x : Event (Port C) (Item V)} (h : free pc = true)
    (makes : pc.Makes x) : Deals srcs (.env e) x := by
  cases x with
  | placed k v =>
    cases pc with
    | sending k' | trying k' | timing k' =>
      obtain rfl : k' = k := makes
      cases k' with
      | src c => exact ⟨c, rfl⟩
      | out | done => cases h
    | selecting cases =>
      obtain ⟨x, mem⟩ := makes
      have each := all_eq_true.mp h _ mem
      cases k with
      | src c => exact ⟨c, rfl⟩
      | out | done => cases each
    | out | handing | receiving | closing => exact makes.elim
  | took k v =>
    cases pc with
    | receiving k' =>
      obtain rfl : k' = k := makes
      cases k' with
      | out => rfl
      | src | done => cases h
    | selecting cases =>
      have each := all_eq_true.mp h _ makes
      cases k with
      | out => rfl
      | src | done => cases each
    | out | sending | handing | trying | closing | timing => exact makes.elim
  | shut k =>
    cases pc with
    | closing k' =>
      obtain rfl : k' = k := makes
      cases k' with
      | src c => exact ⟨c, rfl⟩
      | out | done => cases h
    | out | sending | handing | trying | receiving | selecting | timing => exact makes.elim
  | sent | drained => trivial

theorem forwarder_deals {x : Copy (Item V)}
    (call : (forward (srcs i)).call x = some pc) (makes : pc.Makes e) :
    Deals srcs (.forwarder i : Task E n) e := by
  cases e with
  | placed k v =>
    cases x with
    | copying => cases call; exact .inl makes.symm
    | last => cases call; exact .inr makes.symm
    | next => cases call; exact makes.elim
    | ended | failed => cases call
  | took k v =>
    cases x with
    | next => cases call; exact makes.symm
    | copying | last => cases call; exact makes.elim
    | ended | failed => cases call
  | shut k =>
    cases x with
    | next | copying | last => cases call; exact makes.elim
    | ended | failed => cases call
  | sent | drained => trivial

theorem closer_call (call : x.call = some pc) :
    ∃ again m, x = .left again m ∧ (0 < m ∧ pc = .receiving .done ∨ m ≤ 0 ∧ pc = .closing .out) := by
  cases x with
  | left again m =>
    simp only [Closer.call] at call
    split at call
    next pos => cases call; exact ⟨again, m, rfl, .inl ⟨pos, rfl⟩⟩
    next neg => cases call; exact ⟨again, m, rfl, .inr ⟨not_lt.mp neg, rfl⟩⟩
  | ended | failed => cases call

theorem closer_deals
    (call : x.call = some pc) (makes : pc.Makes e) : Deals srcs (.closer : Task E n) e := by
  obtain ⟨_, _, -, ⟨-, rfl⟩ | ⟨-, rfl⟩⟩ := closer_call call
  · cases e with
    | took => exact makes.symm
    | placed | shut => exact makes.elim
    | sent | drained => trivial
  · cases e with
    | shut => exact makes.symm
    | placed | took => exact makes.elim
    | sent | drained => trivial

theorem Deals.put_out (h : Deals srcs t (.placed .out v)) : ∃ i, t = .forwarder i := by
  cases t with
  | env e => obtain ⟨c, no⟩ := h; cases no
  | forwarder i => exact ⟨i, rfl⟩
  | closer => exact h.elim

theorem Deals.put_done (h : Deals srcs t (.placed .done v)) : ∃ i, t = .forwarder i := by
  cases t with
  | env e => obtain ⟨c, no⟩ := h; cases no
  | forwarder i => exact ⟨i, rfl⟩
  | closer => exact h.elim

theorem Deals.took_src {c : C} (h : Deals srcs t (.took (.src c) v)) :
    ∃ i, t = .forwarder i ∧ srcs i = c := by
  cases t with
  | env e => cases h
  | forwarder i => exact ⟨i, rfl, (Port.src.inj h).symm⟩
  | closer => cases h

theorem Deals.took_done (h : Deals srcs t (.took .done v)) : t = .closer := by
  cases t with
  | closer => rfl
  | env | forwarder => cases h

theorem Deals.shut_out (h : Deals srcs t (.shut .out : Event (Port C) (Item V))) : t = .closer := by
  cases t with
  | closer => rfl
  | env e => obtain ⟨c, no⟩ := h; cases no
  | forwarder => exact h.elim

theorem begun_start : (start cap : State C E V n).Begun (program srcs) := fun _ => .inl ⟨none, rfl⟩

theorem closer_cancel {c c' : Closer} (left : c.cancel = some c') : c' = .failed ∧ ∃ m, c = .left true m := by
  cases c with
  | left again m =>
    cases again with
    | true => exact ⟨(Option.some.inj left).symm, m, rfl⟩
    | false => cases left
  | ended | failed => cases left

/-- The closer is in the call of its place. -/
theorem closer_within (begun : s.Begun (program srcs)) :
    (∃ r, s.world.pcs .closer = .out r) ∨ (close s).call = some (s.world.pcs .closer) := by
  rcases begun .closer with out | ⟨pc, made, within⟩
  · exact .inl out
  · have call := made.resolve_right nofun
    rcases within with same | ⟨k, v, rfl, -⟩
    · exact .inr (same ▸ call)
    · obtain ⟨_, _, -, ⟨-, no⟩ | ⟨-, no⟩⟩ := closer_call call
      · cases no
      · cases no

theorem forwarder_injective : Function.Injective (Task.forwarder : Fin n → Task E n) :=
  fun _ _ h => Task.forwarder.inj h

variable [DecidableEq C] [DecidableEq E]

theorem deals_of_run (h : Run (program srcs).step (start cap) tr s) : ∀ e ∈ tr, Deals srcs e.1 e.2 := by
  intro ⟨t, e⟩ mem
  obtain ⟨x, pc, made, makes⟩ := made_of_run begun_start h _ mem
  cases t with
  | env _ => exact free_deals (made.resolve_left nofun) makes
  | forwarder i => exact forwarder_deals (made.resolve_right nofun) makes
  | closer => exact closer_deals (made.resolve_right nofun) makes

theorem world_of_run (h : Run (program srcs).step (start cap) tr s) :
    Run World.step (World.start (caps cap n)) tr s.world := run_world h

/-! ### The reports -/

theorem done_buffered (h : Run (program srcs).step (start cap) tr s) (t : Task E n) :
    (s.world.chans .done).isRendezvous = false ∧ s.world.pcs t ≠ .handing .done := by
  have hcap : (0 : Int) < caps cap n .done := by simp [caps]
  refine ⟨?_, not_handing_of_run (world_of_run h) hcap t⟩
  rw [(same_of_run (world_of_run h) .done).rendezvous, Chan.isRendezvous_new]
  simpa using hcap

/-- A forwarder has reported when it has ended, and not before. -/
def Reported (c : Copy (Item V)) (put : List (Item V)) : Prop :=
  (c = .ended → put = [.int 1]) ∧ (c ≠ .ended → put = [])

theorem reported_of_run (h : Run (program srcs).step (start cap) tr s) (i : Fin n) :
    Reported (fwd s i) (accepted .done (own (.forwarder i) tr)) := by
  suffices both : Run (program srcs).step (start cap) tr s ∧
      Reported (fwd s i) (accepted .done (own (.forwarder i) tr)) from both.2
  refine h.holds (fun tr s => Run (program srcs).step (start cap) tr s ∧
    Reported (fwd s i) (accepted .done (own (.forwarder i) tr))) ⟨.start, fun h => (by cases h), fun _ => rfl⟩ ?_
  rintro tr s m ev s' ⟨hrun, ih⟩ hm
  refine ⟨hrun.move m hm, ?_⟩
  have begun := begun_of_run begun_start hrun
  rw [own_append, accepted_append]
  rcases (forward_copies i).cases begun (step_effect hm) with ⟨-, -, hvars, hown⟩ | ⟨-, hmine⟩
  · rw [hown, fwd, hvars]
    simpa [accepted] using ih
  · rcases hmine with ⟨rfl, -, -, -, hvars⟩ | ⟨st, -, does, rfl, -, -⟩ | ⟨-, rfl, -, before, after, -⟩
    · rw [fwd, hvars]
      simpa [own, accepted] using ih
    · rw [own_map]
      rcases does.loop_or_last with ⟨inLoop, notEnded, put, -⟩ | ⟨here, within, hst, next⟩
      · have none : ∀ v, .placed .done v ∉ st.events := fun v mem => by cases put .done v mem
        rw [accepted_none none, append_nil, ih.2 inLoop.not_ended]
        exact ⟨fun he => absurd he notEnded, fun _ => rfl⟩
      · have hold : fwd s i ≠ .ended := by
          intro he
          cases here.symm.trans he
        obtain ⟨buffered, notHanding⟩ := done_buffered hrun (.forwarder i)
        have same : s.world.pcs (.forwarder i) = .sending .done (.int 1) := by
          rcases within with same | ⟨k, v, same, hands⟩
          · exact same
          · cases same
            exact absurd hands notHanding
        rw [same] at hst
        rw [ih.2 hold, nil_append, show fwd s' i = Copy.after .last st.pc from next]
        rcases send_cases hst with
          ⟨room, -, pc, es, rfl, quiet, rfl | ⟨rendezvous, -⟩⟩ | ⟨-, _, _, rfl⟩ | ⟨-, rfl⟩
        · rw [map_cons, accepted_placed, accepted_quiet quiet]
          exact ⟨fun _ => rfl, fun no => absurd rfl no⟩
        · rw [buffered] at rendezvous
          cases rendezvous
        · exact ⟨fun h => (by cases h), fun _ => rfl⟩
        · exact ⟨fun h => (by cases h), fun _ => rfl⟩
    · rw [show fwd s' i = .failed from after]
      have hold : fwd s i ≠ .ended := by
        intro he
        cases before.symm.trans he
      rw [ih.2 hold]
      exact ⟨by simp, fun _ => rfl⟩

/-- Every report is a one. -/
theorem report_eq (h : Run (program srcs).step (start cap) tr s) (mem : v ∈ accepted .done tr) :
    v = .int 1 := by
  obtain ⟨t, placed⟩ := mem_accepted.mp mem
  obtain ⟨i, rfl⟩ := (deals_of_run h _ placed).put_done
  have mine : v ∈ accepted .done (own (.forwarder i) tr) :=
    mem_filterMap.mpr ⟨_, mem_filter.mpr ⟨placed, by simp⟩, if_pos rfl⟩
  obtain ⟨ended, before⟩ := reported_of_run h i
  by_cases here : fwd s i = .ended
  · rw [ended here] at mine
    exact mem_singleton.mp mine
  · rw [before here] at mine
    cases mine

/-- A report that is taken is one that has been made. -/
theorem taken_report (h : Run (program srcs).step (start cap) (tr ++ [(t, .took .done v)]) s) :
    v ∈ accepted .done (tr ++ [(t, .took .done v)]) := by
  rw [flow_of_run (world_of_run h)]
  refine mem_append_left _ (mem_received.mpr ⟨t, ?_⟩)
  exact mem_append_right _ (mem_singleton_self _)

theorem length_reports (h : Run (program srcs).step (start cap) tr s) :
    (accepted .done tr).length = ∑ i, (accepted .done (own (.forwarder i) tr)).length := by
  have split := accepted_owners forwarder_injective fun t v mem =>
    (deals_of_run h (t, .placed .done v) mem).put_done
  simpa [Multiset.card_sum] using congrArg Multiset.card split

/-- A forwarder reports at most once. -/
theorem length_report (h : Run (program srcs).step (start cap) tr s) (i : Fin n) :
    (accepted .done (own (.forwarder i) tr)).length ≤ 1 := by
  obtain ⟨ended, before⟩ := reported_of_run h i
  by_cases here : fwd s i = .ended
  · rw [ended here]
    exact le_rfl
  · rw [before here]
    exact Nat.zero_le 1

/-- With as many reports as there are forwarders, all have ended. -/
theorem all_ended (h : Run (program srcs).step (start cap) tr s) (all : n ≤ (accepted .done tr).length)
    (i : Fin n) : fwd s i = .ended := by
  by_contra notEnded
  have none : (accepted .done (own (.forwarder i) tr)).length = 0 := by
    rw [(reported_of_run h i).2 notEnded]
    rfl
  have less : ∑ i, (accepted .done (own (.forwarder i) tr)).length < ∑ _i : Fin n, 1 :=
    Finset.sum_lt_sum (fun j _ => length_report h j) ⟨i, Finset.mem_univ i, by rw [none]; decide⟩
  rw [← length_reports h] at less
  simp at less
  exact absurd all (not_le.mpr less)

/-! ### The closer -/

/-- The closer knows how many reports it has had. -/
def Counted (n had : Nat) : Closer → Prop
  | .left _ m => m = n - had
  | .ended => n ≤ had
  | .failed => True

theorem counted_of_run (h : Run (program srcs).step (start cap) tr s) :
    Counted n (received .done tr).length (close s) := by
  suffices both : Run (program srcs).step (start cap) tr s ∧
      Counted n (received .done tr).length (close s) from both.2
  refine h.holds (fun tr s => Run (program srcs).step (start cap) tr s ∧
    Counted n (received .done tr).length (close s)) ⟨.start, ?_⟩ ?_
  · show ((n : Nat) : Int) = n - ((0 : Nat) : Int)
    simp
  intro tr s m ev s' ⟨hrun, ih⟩ hm
  have next := hrun.move m hm
  refine ⟨next, ?_⟩
  rw [received_append, length_append]
  have effect := step_effect hm
  by_cases hcloser : m.task = .closer
  · rw [hcloser] at effect
    rcases effect.self with ⟨rfl, -, -, -, hvars⟩ | ⟨st, hst, rfl, -, -, hvars⟩ | ⟨-, rfl, -, -, left⟩
    · rw [close, hvars]
      exact ih
    · rcases closer_within (begun_of_run begun_start hrun) with ⟨r, out⟩ | call
      · rw [out] at hst
        cases hst
      obtain ⟨again, m, here, ⟨pos, hat⟩ | ⟨neg, hat⟩⟩ := closer_call call
      · have ih : m = n - (received .done tr).length := by rwa [here] at ih
        rw [hat] at hst
        rw [close, hvars, show s.vars .closer = .left again m from here]
        rcases recv_cases hst with ⟨x, -, rfl⟩ | ⟨-, ⟨-, rfl⟩ | ⟨-, _, _, rfl⟩ | ⟨-, rfl⟩⟩
        · -- the report that it takes is one that was put in
          change Run _ _ (tr ++ [(.closer, .took .done x)]) s' at next
          obtain rfl := report_eq next (taken_report next)
          show m - 1 = n - (((received .done tr).length + 1 : Nat) : Int)
          rw [ih, Int.natCast_add]
          exact Int.sub_sub ..
        · show m - 0 = n - (((received .done tr).length : Nat) : Int)
          rw [ih, sub_zero]
        · trivial
        · exact ih
      · have ih : m = n - (received .done tr).length := by rwa [here] at ih
        rw [hat] at hst
        rw [close, hvars, show s.vars .closer = .left again m from here]
        rcases close_cases hst with ⟨-, rfl⟩ | ⟨-, _, _, rfl⟩
        · show n ≤ (received .done tr).length
          omega
        · trivial
    · obtain ⟨failed, -⟩ : close s' = .failed ∧ _ := closer_cancel left
      rw [failed]
      trivial
  · obtain ⟨-, hvars, hown⟩ := effect.other (Ne.symm hcloser)
    have none : received .done ev = [] := by
      refine eq_nil_iff_forall_not_mem.mpr fun x mem => ?_
      obtain ⟨t, took⟩ := mem_received.mp mem
      obtain rfl := (deals_of_run next _ (mem_append_right _ took)).took_done
      have mine : (Task.closer, Event.took Port.done x) ∈ own (.closer : Task E n) ev :=
        mem_filter.mpr ⟨took, by simp⟩
      rw [hown] at mine
      cases mine
    rw [close, hvars, none]
    exact ih

/-- The closer has closed the output when it has ended, and not before. -/
theorem shut_iff_ended (h : Run (program srcs).step (start cap) tr s) :
    (.closer, .shut .out) ∈ tr ↔ close s = .ended := by
  suffices both : Run (program srcs).step (start cap) tr s ∧
      ((.closer, .shut .out) ∈ tr ↔ close s = .ended) from both.2
  refine h.holds (fun tr s => Run (program srcs).step (start cap) tr s ∧
    ((.closer, .shut .out) ∈ tr ↔ close s = .ended)) ⟨.start, iff_of_false nofun nofun⟩ ?_
  intro tr s m ev s' ⟨hrun, ih⟩ hm
  refine ⟨hrun.move m hm, ?_⟩
  have effect := step_effect hm
  by_cases hcloser : m.task = .closer
  · rw [hcloser] at effect
    rcases effect.self with ⟨rfl, -, -, -, hvars⟩ | ⟨st, hst, rfl, -, -, hvars⟩ | ⟨-, rfl, -, -, left⟩
    · rw [close, hvars, append_nil]
      exact ih
    · rcases closer_within (begun_of_run begun_start hrun) with ⟨r, out⟩ | call
      · rw [out] at hst
        cases hst
      obtain ⟨again, m, here, ⟨pos, hat⟩ | ⟨neg, hat⟩⟩ := closer_call call
      · have before : (Task.closer, Event.shut Port.out) ∉ tr := fun mem => by cases here.symm.trans (ih.mp mem)
        rw [hat] at hst
        rw [close, hvars, show s.vars .closer = .left again m from here]
        rcases recv_cases hst with ⟨x, -, rfl⟩ | ⟨-, ⟨-, rfl⟩ | ⟨-, _, _, rfl⟩ | ⟨-, rfl⟩⟩
        all_goals exact iff_of_false (by simpa using before) nofun
      · have before : (Task.closer, Event.shut Port.out) ∉ tr := fun mem => by cases here.symm.trans (ih.mp mem)
        rw [hat] at hst
        rw [close, hvars, show s.vars .closer = .left again m from here]
        rcases close_cases hst with ⟨-, rfl⟩ | ⟨-, _, _, rfl⟩
        · exact iff_of_true (by simp) rfl
        · exact iff_of_false (by simpa using before) nofun
    · obtain ⟨failed, m, here⟩ : close s' = .failed ∧ ∃ m, close s = .left true m := closer_cancel left
      rw [failed, append_nil]
      refine iff_of_false (fun mem => ?_) nofun
      cases here.symm.trans (ih.mp mem)
  · obtain ⟨-, hvars, hown⟩ := effect.other (Ne.symm hcloser)
    rw [close, hvars, mem_append, ih]
    refine or_iff_left fun mine => ?_
    have own : (Task.closer, Event.shut Port.out) ∈ own (.closer : Task E n) ev :=
      mem_filter.mpr ⟨mine, by simp⟩
    rw [hown] at own
    cases own

theorem closed_iff_ended (h : Run (program srcs).step (start cap) tr s) :
    (s.world.chans .out).closed = true ↔ close s = .ended := by
  rw [closed_iff_shut (world_of_run h), ← shut_iff_ended h]
  constructor
  · intro ⟨t, mem⟩
    obtain rfl := (deals_of_run h _ mem).shut_out
    exact mem
  · intro mem
    exact ⟨_, mem⟩

/-- The output is closed when all forwarders have ended. -/
theorem ended_of_closed (h : Run (program srcs).step (start cap) tr s)
    (closed : (s.world.chans .out).closed = true) (i : Fin n) : fwd s i = .ended := by
  have counted := counted_of_run h
  rw [(closed_iff_ended h).mp closed] at counted
  refine all_ended h (le_trans counted ?_) i
  rw [flow_of_run (world_of_run h)]
  simp

/-! ### What has been delivered -/

theorem forwarder_copied (h : Run (program srcs).step (start cap) tr s) (i : Fin n) :
    (fwd s i).Account (received (.src (srcs i)) (own (.forwarder i) tr))
      (accepted .out (own (.forwarder i) tr)) (s.world.pcs (.forwarder i)) :=
  copied_of_run (forward_copies i) (forward_apart _) begun_start rfl h

/-- A forwarder that has ended has put all of its input. -/
theorem ended_copied (h : Run (program srcs).step (start cap) tr s) (ended : fwd s i = .ended) :
    received (.src (srcs i)) (own (.forwarder i) tr) = accepted .out (own (.forwarder i) tr) := by
  have acc := forwarder_copied h i
  rw [ended] at acc
  exact acc

theorem ended_spent (h : Run (program srcs).step (start cap) tr s) (ended : fwd s i = .ended) :
    (s.world.chans (.src (srcs i))).Spent ∧
      received (.src (srcs i)) tr = accepted (.src (srcs i)) tr := by
  have spent := spent_of_run (forward_copies i) begun_start rfl h (.inr ended)
  refine ⟨spent, ?_⟩
  have none : (s.world.chans (.src (srcs i))).items = [] := by
    rw [← length_eq_zero_iff, Chan.length_items]
    exact spent.2
  rw [flow_of_run (world_of_run h), none, append_nil]

/-- What is taken from the inputs, as the forwarders take it. -/
theorem taken_split (h : Run (program srcs).step (start cap) tr s) :
    ∑ c ∈ Finset.univ.image srcs, (received (.src c) tr : Multiset (Item V)) =
      ∑ i, (received (.src (srcs i)) (own (.forwarder i) tr) : Multiset (Item V)) := by
  have deals := deals_of_run h
  have taken : ∀ c ∈ Finset.univ.image srcs, (received (.src c) tr : Multiset (Item V)) =
      ∑ i, (received (.src c) (own (.forwarder i) tr) : Multiset (Item V)) := by
    intro c _
    refine received_owners forwarder_injective fun t v mem => ?_
    obtain ⟨j, rfl, -⟩ := (deals _ mem).took_src
    exact ⟨j, rfl⟩
  have elsewhere : ∀ (c : C) (i : Fin n), srcs i ≠ c →
      (received (.src c) (own (.forwarder i) tr) : Multiset (Item V)) = 0 := by
    intro c i hne
    refine (Multiset.coe_eq_zero _).mpr (eq_nil_iff_forall_not_mem.mpr fun v mem => ?_)
    obtain ⟨t, took⟩ := mem_received.mp mem
    obtain ⟨took, mine⟩ := mem_filter.mp took
    obtain ⟨j, rfl, at_⟩ := (deals _ took).took_src
    obtain rfl : j = i := by simpa using mine
    exact hne at_
  rw [Finset.sum_congr rfl taken, sum_image_places srcs
    (fun c i => (received (.src c) (own (.forwarder i) tr) : Multiset (Item V))) elsewhere]

/-- What is on the output, as the forwarders put it there. -/
theorem put_split (h : Run (program srcs).step (start cap) tr s) :
    (accepted .out tr : Multiset (Item V)) =
      ∑ i, (accepted .out (own (.forwarder i) tr) : Multiset (Item V)) :=
  accepted_owners forwarder_injective fun t v mem => (deals_of_run h (t, .placed .out v) mem).put_out

/-- All the values of all the inputs are on the output, once each. -/
theorem ended_all (h : Run (program srcs).step (start cap) tr s) (ended : ∀ i, fwd s i = .ended) :
    (accepted .out tr : Multiset (Item V)) =
      ∑ c ∈ Finset.univ.image srcs, (accepted (.src c) tr : Multiset (Item V)) :=
  calc (accepted .out tr : Multiset (Item V))
      = ∑ i, (accepted .out (own (.forwarder i) tr) : Multiset (Item V)) := put_split h
    _ = ∑ i, (received (.src (srcs i)) (own (.forwarder i) tr) : Multiset (Item V)) :=
        Finset.sum_congr rfl fun i _ => by rw [ended_copied h (ended i)]
    _ = ∑ c ∈ Finset.univ.image srcs, (received (.src c) tr : Multiset (Item V)) := (taken_split h).symm
    _ = _ := by
        refine Finset.sum_congr rfl fun c hc => ?_
        obtain ⟨i, -, rfl⟩ := Finset.mem_image.mp hc
        rw [(ended_spent h (ended i)).2]

/-- No forwarder puts a value that it has not taken, or one twice. -/
theorem put_le (h : Run (program srcs).step (start cap) tr s) (i : Fin n) :
    accepted .out (own (.forwarder i) tr) <+: received (.src (srcs i)) (own (.forwarder i) tr) := by
  obtain ⟨left, took, -⟩ := (forwarder_copied h i).short
  exact ⟨left, took.symm⟩

/-- What has come out of an input went in. -/
theorem took_le (h : Run (program srcs).step (start cap) tr s) (c : C) :
    received (.src c) tr <+: accepted (.src c) tr :=
  ⟨_, (flow_of_run (world_of_run h) (.src c)).symm⟩

/-- An input that is given once has one forwarder, which takes all that is taken from it. -/
theorem took_alone (h : Run (program srcs).step (start cap) tr s)
    (alone : ∀ j, srcs j = srcs i → j = i) :
    received (.src (srcs i)) (own (.forwarder i) tr) = received (.src (srcs i)) tr := by
  refine received_alone fun u v mem => ?_
  obtain ⟨j, rfl, same⟩ := (deals_of_run h _ mem).took_src
  rw [alone j same]

/-- At any time, what is on the output is part of what went into the inputs. -/
theorem out_le (h : Run (program srcs).step (start cap) tr s) :
    (accepted .out tr : Multiset (Item V)) ≤
      ∑ c ∈ Finset.univ.image srcs, (accepted (.src c) tr : Multiset (Item V)) :=
  calc (accepted .out tr : Multiset (Item V))
      = ∑ i, (accepted .out (own (.forwarder i) tr) : Multiset (Item V)) := put_split h
    _ ≤ ∑ i, (received (.src (srcs i)) (own (.forwarder i) tr) : Multiset (Item V)) :=
        Finset.sum_le_sum fun i _ => Multiset.coe_le.mpr (put_le h i).sublist.subperm
    _ = ∑ c ∈ Finset.univ.image srcs, (received (.src c) tr : Multiset (Item V)) :=
        (taken_split h).symm
    _ ≤ _ := Finset.sum_le_sum fun c _ => Multiset.coe_le.mpr (took_le h c).sublist.subperm

/-! ### The promise -/

/-- What has gone into the inputs. -/
def inputs (srcs : Fin n → C) (tr : List (Task E n × Event (Port C) (Item V))) : Multiset (Item V) :=
  ∑ c ∈ Finset.univ.image srcs, (accepted (.src c) tr : Multiset (Item V))

/-- The output is closed once, when every forwarder has reported and is over, and all is on it. -/
structure Closing (srcs : Fin n → C) (pre post : List (Task E n × Event (Port C) (Item V))) : Prop where
  once : ∀ e ∈ pre ++ post, e.2 ≠ .shut .out
  reported : ∀ i, (.forwarder i, .placed .done (.int 1)) ∈ pre
  past : ∀ i, own (.forwarder i) post = []
  all : (accepted .out pre : Multiset (Item V)) = inputs srcs pre
  nothing : accepted .out post = [] ∧ inputs srcs post = 0

/-- What `merge` promises of a run. -/
structure Promise (srcs : Fin n → C) (tr : List (Task E n × Event (Port C) (Item V))) : Prop where
  /-- At any time nothing is on the output that is not from the inputs, and nothing twice. -/
  once : (accepted .out tr : Multiset (Item V)) ≤ inputs srcs tr
  /-- The output gives out what is on it in order. -/
  fifo : received .out tr <+: accepted .out tr
  /-- What is on it is from the forwarders, each of which puts what it takes in order. -/
  parts : (accepted .out tr : Multiset (Item V)) = ∑ i, (accepted .out (own (.forwarder i) tr) : Multiset (Item V))
  share : ∀ i, accepted .out (own (.forwarder i) tr) <+: received (.src (srcs i)) (own (.forwarder i) tr)
  /-- So an input that is given once keeps its order. -/
  order : ∀ i, (∀ j, srcs j = srcs i → j = i) →
    accepted .out (own (.forwarder i) tr) <+: accepted (.src (srcs i)) tr
  closing : ∀ t pre post, tr = pre ++ (t, .shut .out) :: post → Closing srcs pre post
  /-- A receiver is told of the close when all has been received. -/
  told : ∀ t, (t, .drained .out) ∈ tr → (received .out tr : Multiset (Item V)) = inputs srcs tr

omit [DecidableEq E] in
theorem inputs_eq_zero {tr : List (Task E n × Event (Port C) (Item V))}
    (none : ∀ i, accepted (.src (srcs i)) tr = []) : inputs srcs tr = 0 := by
  refine Finset.sum_eq_zero fun c hc => ?_
  obtain ⟨i, -, rfl⟩ := Finset.mem_image.mp hc
  rw [none i]
  rfl

omit [DecidableEq E] in
theorem inputs_append (tr tr' : List (Task E n × Event (Port C) (Item V))) :
    inputs srcs (tr ++ tr') = inputs srcs tr + inputs srcs tr' := by
  unfold inputs
  rw [← Finset.sum_add_distrib]
  refine Finset.sum_congr rfl fun c _ => ?_
  rw [accepted_append, ← Multiset.coe_add]

theorem report_mem (h : Run (program srcs).step (start cap) tr s) (ended : fwd s i = .ended) :
    (.forwarder i, .placed .done (.int 1)) ∈ tr := by
  have mem : Item.int 1 ∈ accepted .done (own (.forwarder i) tr) := by
    rw [(reported_of_run h i).1 ended]
    exact mem_singleton_self _
  obtain ⟨t, placed⟩ := mem_accepted.mp mem
  obtain ⟨placed, mine⟩ := mem_filter.mp placed
  obtain rfl : t = .forwarder i := by simpa using mine
  exact placed

theorem closing_of_run {pre post : List (Task E n × Event (Port C) (Item V))}
    (h : Run (program srcs).step (start cap) (pre ++ (t, .shut .out) :: post) s) :
    Closing srcs pre post := by
  obtain ⟨s₂, before, closed, after⟩ := shut_performed h
  have ended := ended_of_closed before closed
  have all := ended_all before ended
  have nothing : accepted .out [(t, (.shut .out : Event (Port C) (Item V)))] = [] := rfl
  have none : inputs srcs [(t, (.shut .out : Event (Port C) (Item V)))] = 0 := inputs_eq_zero fun _ => rfl
  refine ⟨shut_once (world_of_run h), fun i => ?_, fun i => ?_, ?_, ?_, ?_⟩
  · rcases mem_append.mp (report_mem before (ended i)) with mem | mem
    · exact mem
    · cases mem_singleton.mp mem
  · have past : s₂.vars (.forwarder i) = (.ended : Copy (Item V)) := ended i
    refine over_of_run (begun_of_run begun_start before) ?_ ?_ (fun _ => rfl) after
    · rw [past]
      rfl
    · rw [past]
      rfl
  · change _ = inputs srcs _ at all
    rw [accepted_append, nothing, append_nil, inputs_append, none, add_zero] at all
    exact all
  · exact (closed_of_run (run_world after) closed).2
  · refine inputs_eq_zero fun i => ?_
    exact (closed_of_run (run_world after) (ended_spent before (ended i)).1.1).2

theorem promise_of_run (h : Run (program srcs).step (start cap) tr s) : Promise srcs tr where
  once := out_le h
  fifo := ⟨_, (flow_of_run (world_of_run h) .out).symm⟩
  parts := put_split h
  share := put_le h
  order i alone := by
    have put := put_le h i
    rw [took_alone h alone] at put
    exact put.trans (took_le h (srcs i))
  closing := by
    rintro t pre post rfl
    exact closing_of_run h
  told t told := by
    have spent := spent_of_drained (world_of_run h) told
    have none : (s.world.chans .out).items = [] := by
      rw [← length_eq_zero_iff, Chan.length_items]
      exact spent.2
    have flow := flow_of_run (world_of_run h) .out
    rw [none, append_nil] at flow
    rw [← flow]
    exact ended_all h (ended_of_closed h spent.1)

end Voila.Rt.Merge
