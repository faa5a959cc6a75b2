import Voila.Rt.JudgeSound

/-!
# Voila.Rt.JudgeRuns

The judgement of a frame under any schedule of any number of threads, as long as the counts fit
into their fields; and what happens when they do not. Nothing in the code keeps the holds below the
1024 that their field counts: every judgement that is deferred keeps one.
-/

namespace Voila.Rt.Judge

open Lib List

variable {o : Others} {t : Nat} {sh sh' : Shared} {th th' : Thread} {ev : List Event}

/-! ### All threads -/

/-- What all threads but one contribute. -/
def others (ts : List Thread) (t : Nat) : Others :=
  ⟨tallyOthers Thread.refsHeld ts t, tallyOthers Thread.callsHeld ts t,
    tallyOthers Thread.calls ts t, tallyOthers Thread.holdsHeld ts t,
    tallyOthers Thread.flagsHeld ts t, tallyOthers (fun th => th.pc.frees) ts t⟩

/-- The counts of a state fit into the fields of the word: fewer than 2^32 references, 2^20 calls
and 2^10 holds. -/
def Fits (s : State) : Prop :=
  s.sh.own + tally Thread.refsHeld s.threads < 2 ^ 32 ∧
    tally Thread.callsHeld s.threads < 2 ^ 20 ∧
    s.sh.deferred + tally Thread.holdsHeld s.threads < 2 ^ 10

/-- The word counts what the threads have. -/
structure Sums (sh : Shared) (ts : List Thread) : Prop where
  word : sh.word = pack (sh.own + tally Thread.refsHeld ts) (tally Thread.callsHeld ts)
    (sh.deferred + tally Thread.holdsHeld ts) (tally Thread.flagsHeld ts)
  one : tally Thread.flagsHeld ts ≤ 1
  alone : 0 < tally Thread.flagsHeld ts → tally Thread.calls ts = 0
  freed : sh.freed + tally (fun th => th.pc.frees) ts ≤ 1
  gone : 0 < sh.freed + tally (fun th => th.pc.frees) ts →
    sh.own + tally Thread.refsHeld ts = 0 ∧ sh.deferred + tally Thread.holdsHeld ts = 0

variable {s s' s₀ : State} {ts : List Thread} {u : Nat} {uh : Thread} {tr : List Event}

theorem add_tallyOthers (k : Nat) (g : Thread → Nat) (h : ts[t]? = some th) :
    k + tallyOthers g ts t + g th = k + tally g ts := by
  rw [tally_eq h, Nat.add_assoc]

theorem counted_iff (h : ts[t]? = some th) : Counted (others ts t) sh th ↔ Sums sh ts := by
  have hr : sh.own + (others ts t).refs + th.refsHeld = _ := add_tallyOthers _ _ h
  have ha : (others ts t).calls + th.callsHeld = _ := (tally_eq h).symm
  have hp : (others ts t).past + th.calls = _ := (tally_eq h).symm
  have hh : sh.deferred + (others ts t).holds + th.holdsHeld = _ := add_tallyOthers _ _ h
  have hj : (others ts t).flags + th.flagsHeld = _ := (tally_eq h).symm
  have he : sh.freed + (others ts t).frees + th.pc.frees = _ :=
    add_tallyOthers _ (fun th => th.pc.frees) h
  constructor
  · intro ⟨hword, hone, halone, hfreed, hgone⟩
    rw [hr, ha, hh, hj] at hword
    rw [hj] at hone
    rw [hj, hp] at halone
    rw [he] at hfreed
    rw [he, hr, hh] at hgone
    exact ⟨hword, hone, halone, hfreed, hgone⟩
  · intro ⟨hword, hone, halone, hfreed, hgone⟩
    rw [← hr, ← ha, ← hh, ← hj] at hword
    rw [← hj] at hone
    rw [← hj, ← hp] at halone
    rw [← he] at hfreed
    rw [← he, ← hr, ← hh] at hgone
    exact ⟨hword, hone, halone, hfreed, hgone⟩

theorem Fits.fit (hf : Fits ⟨sh, ts⟩) (h : ts[t]? = some th) : Fit (others ts t) sh th := by
  obtain ⟨hr, ha, hh⟩ := hf
  refine ⟨?_, ?_, ?_⟩
  · exact (add_tallyOthers sh.own Thread.refsHeld h).symm ▸ hr
  · exact (tally_eq (g := Thread.callsHeld) h) ▸ ha
  · exact (add_tallyOthers sh.deferred Thread.holdsHeld h).symm ▸ hh

theorem others_set (th' : Thread) : others (ts.set t th') t = others ts t := by
  unfold others
  simp only [tallyOthers_set]

/-- Thread `u` has dropped a reference, no verdict has stood since, and it was not in dropping the
registers of a garbage frame. -/
def owed (tr : List Event) (u : Nat) : Prop :=
  ∃ pre post, tr = pre ++ .dropped u :: post ∧ (∀ v, .judged v ∉ post) ∧ .reaped u ∉ post

theorem owed_append (h : owed (tr ++ ev) u) :
    (owed tr u ∧ (∀ v, .judged v ∉ ev) ∧ .reaped u ∉ ev) ∨ .dropped u ∈ ev := by
  obtain ⟨pre, post, heq, hj, hr⟩ := h
  rcases append_eq_append_iff.mp heq with ⟨mid, rfl, hev⟩ | ⟨mid, htr, hev⟩
  · refine .inr ?_
    rw [hev]
    simp
  · cases mid with
    | nil =>
      have hev : .dropped u :: post = ev := hev
      exact .inr (hev ▸ mem_cons_self)
    | cons x mid =>
      obtain ⟨rfl, rfl⟩ : Event.dropped u = x ∧ post = mid ++ ev := by simpa using hev
      refine .inl ⟨⟨pre, mid, htr, fun v hv => hj v ?_, fun hv => hr ?_⟩, fun v hv => hj v ?_,
        fun hv => hr ?_⟩
      · exact mem_append_left _ hv
      · exact mem_append_left _ hv
      · exact mem_append_right _ hv
      · exact mem_append_right _ hv

/-- The invariant. -/
structure Inv (tr : List Event) (s : State) : Prop where
  sums : Sums s.sh s.threads
  reaper : ∀ (t : Nat) (th : Thread), s.threads[t]? = some th → (th.clearing = true ↔ s.sh.reaper = some t)
  reaperIn : ∀ t, s.sh.reaper = some t → t < s.threads.length
  knows : ∀ (t : Nat) (th : Thread), s.threads[t]? = some th → th.Knows s.sh.own
  reaps : ∀ (t : Nat) (th : Thread), s.threads[t]? = some th → th.reaps = true →
    tallyOthers Thread.refsHeld s.threads t = 0
  owed : ∀ u, owed tr u → 0 < s.sh.deferred ∨ ∃ th ∈ s.threads, th.judges = true
  owedBy : ∀ (t : Nat) (th : Thread), s.threads[t]? = some th → th.reaps = true →
    ∀ u, Judge.owed tr u → u = t

theorem Inv.good (hi : Inv tr s) (h : s.threads[t]? = some th) :
    Good (others s.threads t) t s.sh th :=
  ⟨(counted_iff h).mpr hi.sums, hi.reaper t th h, hi.knows t th h, hi.reaps t th h⟩

theorem others_past (ts : List Thread) (t : Nat) : (others ts t).past ≤ (others ts t).calls :=
  tallyOthers_le (fun _ => Nat.le_add_right ..) ts t

/-- A thread that is clearing has the flag up. -/
theorem Inv.other_reaper (hi : Inv tr s) (h : s.sh.reaper = some u) (hne : u ≠ t) :
    0 < (others s.threads t).flags := by
  obtain ⟨uh, huh⟩ : ∃ uh, s.threads[u]? = some uh :=
    ⟨_, List.getElem?_eq_getElem (hi.reaperIn u h)⟩
  refine tallyOthers_pos.mpr ⟨u, hne, uh, huh, ?_⟩
  rw [Thread.flagsHeld, (hi.reaper u uh huh).mpr h]
  exact Nat.succ_pos _

theorem Thread.flagsHeld_of_reaps (h : th.reaps = true) : 0 < th.flagsHeld := by
  simp only [Thread.reaps, Bool.or_eq_true, decide_eq_true_iff] at h
  unfold Thread.flagsHeld
  rcases h with (h | h) | h <;> rw [h]
  · exact Nat.succ_pos _
  · exact Nat.le_add_right ..
  · exact Nat.le_add_right ..

theorem Thread.judges_of_flagsHeld (h : 0 < th.flagsHeld) : th.judges = true := by
  unfold Thread.judges
  unfold Thread.flagsHeld at h
  cases hcl : th.clearing with
  | true => rfl
  | false =>
    rw [hcl] at h
    cases hpc : th.pc <;> simp_all [Pc.flags]

/-- More references that are the frame's own hurt nobody, and none are missed but by a judge. -/
theorem Thread.Knows.mono {own own' : Nat} (h : th.Knows own)
    (hle : 0 < th.flagsHeld → own ≤ own') : th.Knows own' := by
  unfold Thread.Knows Thread.flagsHeld at *
  cases hpc : th.pc with
  | verdict c garbage =>
    rw [hpc] at h hle
    exact ⟨h.1, h.2.1, fun hgar => Nat.le_trans (h.2.2 hgar) (hle (Nat.le_add_right ..))⟩
  | _ =>
    rw [hpc] at h
    exact h

variable {a : Act} {g : Thread → Nat}

/-- What the events of a thread's step say about it. -/
theorem Act.run_events {e : Event} (h : a.run t sh th = some (ev, sh', th')) (he : e ∈ ev) :
    (e = .dropped t ∧ ∃ c, th.pc = .releasing c) ∨ e = .judged t ∨
      (e = .reaped t ∧ th.pc = .lowering) := by
  unfold Act.run at h
  split at h
  next n b =>
    cases hpc : th.pc
    all_goals
      rw [hpc] at h
      simp only [goes] at h
      repeat' split at h
      all_goals simp only [Option.some.injEq, Prod.mk.injEq, reduceCtorEq] at h
      all_goals
        obtain ⟨rfl, -, -⟩ := h
        simp at he
      all_goals simp [he]
  next =>
    split at h
    · obtain ⟨x, -, heq⟩ := Option.map_eq_some_iff.mp h
      cases heq
      cases he
    · cases h

/-- A thread finds the frame to be garbage only when its verdict stands. -/
theorem Act.run_reaps (h : a.run t sh th = some (ev, sh', th'))
    (hr : th'.reaps = true) : th.reaps = true ∨ .judged t ∈ ev := by
  unfold Act.run at h
  split at h
  next n b =>
    cases hpc : th.pc
    all_goals
      rw [hpc] at h
      simp only [goes] at h
      repeat' split at h
      all_goals simp only [Option.some.injEq, Prod.mk.injEq, reduceCtorEq] at h
      all_goals
        obtain ⟨rfl, -, rfl⟩ := h
        simp_all [Thread.reaps]
  next =>
    split at h
    next hpc =>
      obtain ⟨⟨sh₁, th₁⟩, hb, heq⟩ := Option.map_eq_some_iff.mp h
      cases heq
      refine .inl ?_
      cases a
      all_goals
        simp only [Act.begins] at hb
        repeat' split at hb
        all_goals simp only [Option.some.injEq, Prod.mk.injEq, reduceCtorEq] at hb
        all_goals
          obtain ⟨rfl, rfl⟩ := hb
          simp_all [Thread.reaps]
    · cases h

/-- The step of one thread keeps the invariant. -/
theorem Inv.act (hi : Inv tr s) (hf : Fits s) (h : step (.act t a) s = some (ev, s'))
    (hf' : Fits s') : Inv (tr ++ ev) s' := by
  simp only [step, Option.bind_eq_bind, Option.bind_eq_some_iff, Option.pure_def] at h
  obtain ⟨th, hth, ⟨ev, sh', th'⟩, hrun, heq⟩ := h
  obtain ⟨rfl, rfl⟩ : ev = _ ∧ _ = s' := by simpa using heq
  obtain ⟨hlt, -⟩ := List.getElem?_eq_some_iff.mp hth
  have hset : (s.threads.set t th')[t]? = some th' := List.getElem?_set_self hlt
  have hget : ∀ u, u ≠ t → (s.threads.set t th')[u]? = s.threads[u]? := fun u hu =>
    List.getElem?_set_ne (Ne.symm hu)
  have hfit' := hf'.fit hset
  rw [others_set] at hfit'
  obtain ⟨hg, ha⟩ := run_keeps hrun (hi.good hth) (hf.fit hth) hfit' (others_past ..)
    fun u hre hne => hi.other_reaper hre hne
  have hsums : Sums sh' (s.threads.set t th') :=
    (counted_iff hset).mp (by rw [others_set]; exact hg.counted)
  refine ⟨hsums, fun u uh huh => ?_, fun u hu => ?_, fun u uh huh => ?_, fun u uh huh hre => ?_,
    fun w ho => ?_, fun u uh huh hre w ho => ?_⟩
  · by_cases hne : u = t
    · subst hne
      cases hset.symm.trans huh
      exact hg.reaper
    · exact (hi.reaper u uh (hget u hne ▸ huh)).trans (ha.reaper u hne).symm
  · show u < (s.threads.set t th').length
    rw [length_set]
    by_cases hne : u = t
    · exact hne ▸ hlt
    · exact hi.reaperIn u ((ha.reaper u hne).mp hu)
  · by_cases hne : u = t
    · subst hne
      cases hset.symm.trans huh
      exact hg.knows
    · have hold := hget u hne ▸ huh
      refine Thread.Knows.mono (hi.knows u uh hold) fun hflag => ?_
      -- its flag is up, and the others' count it
      refine ha.own.resolve_right fun hnone => ?_
      have hle : uh.flagsHeld ≤ (others s.threads t).flags := le_tallyOthers hne hold
      omega
  · by_cases hne : u = t
    · subst hne
      cases hset.symm.trans huh
      have hnone := hg.reaps hre
      rwa [← others_set th'] at hnone
    · have hold := hget u hne ▸ huh
      have hnone := hi.reaps u uh hold hre
      have hflag : uh.flagsHeld ≤ tallyOthers Thread.flagsHeld s.threads t := le_tallyOthers hne hold
      have hup := Thread.flagsHeld_of_reaps hre
      have hone := hi.sums.one
      rw [tally_eq hth] at hone
      have hcl : th.clearing = false := by
        refine Bool.eq_false_iff.mpr fun hcl => ?_
        rw [Thread.flagsHeld, hcl] at hone
        simp at hone
        omega
      have hle : th.refsHeld ≤ tallyOthers Thread.refsHeld s.threads u :=
        le_tallyOthers (Ne.symm hne) hth
      have hth' := ha.refs (by omega) hcl
      have hbefore := tally_eq (g := Thread.refsHeld) hth
      rw [tally_eq hold] at hbefore
      have hafter := tally_set (g := Thread.refsHeld) hth th'
      rw [tally_eq huh] at hafter
      omega
  · rcases owed_append ho with ⟨ho, hno, hnor⟩ | hw
    · have hth' : th' ∈ s.threads.set t th' := mem_of_getElem? hset
      rcases hi.owed w ho with hd | ⟨uh, huh, hj⟩
      · exact (ha.deferred hd).imp_right fun hj => ⟨th', hth', hj⟩
      · obtain ⟨u, hu⟩ := mem_iff_getElem?.mp huh
        by_cases hne : u = t
        · subst hne
          cases hth.symm.trans hu
          rcases ha.judged hj with hj | hev | hev | hd | hflags
          · exact .inr ⟨th', hth', hj⟩
          · exact absurd hev (hno _)
          · -- the thread has cleared the frame, and nobody else has dropped a reference meanwhile
            obtain ⟨heq, -⟩ | heq | ⟨-, hlow⟩ := Act.run_events hrun hev
            · cases heq
            · cases heq
            · cases hi.owedBy u th hth (by simp [Thread.reaps, hlow]) w ho
              exact absurd hev hnor
          · exact .inl hd
          · -- another thread judges
            obtain ⟨v, hv, vh, hvh, hup⟩ := tallyOthers_pos.mp hflags
            refine .inr ⟨vh, mem_of_getElem? ((hget v hv).trans hvh), ?_⟩
            exact Thread.judges_of_flagsHeld hup
        · exact .inr ⟨uh, mem_of_getElem? ((hget u hne).trans hu), hj⟩
    · obtain ⟨heq, -⟩ | heq | ⟨heq, -⟩ := Act.run_events hrun hw
      · cases heq
        exact .inr ⟨th', mem_of_getElem? hset, ha.dropped hw⟩
      · cases heq
      · cases heq
  · rcases owed_append ho with ⟨ho, hno, -⟩ | hw
    · by_cases hne : u = t
      · subst hne
        cases hset.symm.trans huh
        rcases Act.run_reaps hrun hre with hre | hev
        · exact hi.owedBy u th hth hre w ho
        · exact absurd hev (hno u)
      · exact hi.owedBy u uh (hget u hne ▸ huh) hre w ho
    · obtain ⟨heq, c, hpc⟩ | heq | ⟨heq, -⟩ := Act.run_events hrun hw
      · cases heq
        by_cases hne : u = t
        · exact hne.symm
        · -- the thread has no reference that it could have dropped
          have hnone := hi.reaps u uh (hget u hne ▸ huh) hre
          have hle : th.refsHeld ≤ tallyOthers Thread.refsHeld s.threads u :=
            le_tallyOthers (Ne.symm hne) hth
          have hin : 0 < th.refs := by simpa [Thread.Knows, hpc] using hi.knows t th hth
          rw [Thread.refsHeld] at hle
          omega
      · cases heq
      · cases heq

theorem tally_set_set (ht : ts[t]? = some th) (hu : ts[u]? = some uh) (hne : t ≠ u)
    (th' uh' : Thread) :
    tally g ((ts.set t th').set u uh') + g th + g uh = tally g ts + g th' + g uh' := by
  have hu' : (ts.set t th')[u]? = some uh := (List.getElem?_set_ne hne).trans hu
  have hlast := tally_set (g := g) hu' uh'
  have hmid := tally_eq (g := g) hu'
  have hfirst := tally_set (g := g) ht th'
  have hbefore := tally_eq (g := g) ht
  omega

/-- Nothing that counts changes when a reference is handed over. -/
theorem Inv.give (hi : Inv tr s) (h : step (.give t u) s = some (ev, s')) : Inv (tr ++ ev) s' := by
  simp only [step, Option.bind_eq_bind, Option.bind_eq_some_iff, Option.pure_def] at h
  obtain ⟨th, hth, uh, huh, h⟩ := h
  split at h
  next hin =>
    obtain ⟨hne, hpc, hcl, hrefs⟩ := hin
    cases h
    rw [append_nil]
    have hsame : ∀ g : Thread → Nat,
        g { th with refs := th.refs - 1 } + g { uh with refs := uh.refs + 1 } = g th + g uh →
          tally g ((s.threads.set t { th with refs := th.refs - 1 }).set u
            { uh with refs := uh.refs + 1 }) = tally g s.threads := by
      intro g hg
      have := tally_set_set (g := g) hth huh hne { th with refs := th.refs - 1 }
        { uh with refs := uh.refs + 1 }
      omega
    -- whoever is in the list was there, but for a reference
    have hwas : ∀ (v : Nat) (vh : Thread),
        ((s.threads.set t { th with refs := th.refs - 1 }).set u { uh with refs := uh.refs + 1 })[v]? =
          some vh → (v = t ∧ vh = { th with refs := th.refs - 1 }) ∨
            ∃ wh k, s.threads[v]? = some wh ∧ vh = { wh with refs := wh.refs + k } := by
      intro v vh hv
      by_cases hvu : v = u
      · subst hvu
        rw [List.getElem?_set_self (by simpa using (List.getElem?_eq_some_iff.mp huh).1)] at hv
        cases hv
        exact .inr ⟨uh, 1, huh, rfl⟩
      · rw [List.getElem?_set_ne (Ne.symm hvu)] at hv
        by_cases hvt : v = t
        · subst hvt
          rw [List.getElem?_set_self (List.getElem?_eq_some_iff.mp hth).1] at hv
          cases hv
          exact .inl ⟨rfl, rfl⟩
        · rw [List.getElem?_set_ne (Ne.symm hvt)] at hv
          exact .inr ⟨vh, 0, hv, rfl⟩
    have hreaps : ∀ (v : Nat) (vh : Thread), s.threads[v]? = some vh → vh.reaps = true → False := by
      intro v vh hv hre
      by_cases hvt : v = t
      · subst hvt
        cases hth.symm.trans hv
        simp [Thread.reaps, hpc, hcl] at hre
      · have hnone := hi.reaps v vh hv hre
        have hle : th.refsHeld ≤ tallyOthers Thread.refsHeld s.threads v :=
          le_tallyOthers (Ne.symm hvt) hth
        rw [Thread.refsHeld] at hle
        omega
    have hreaps' : ∀ (v : Nat) (vh : Thread),
        ((s.threads.set t { th with refs := th.refs - 1 }).set u { uh with refs := uh.refs + 1 })[v]? =
          some vh → vh.reaps = true → False := by
      intro v vh hv hre
      obtain ⟨rfl, rfl⟩ | ⟨wh, k, hwh, rfl⟩ := hwas v vh hv
      · exact hreaps v th hth hre
      · exact hreaps v wh hwh hre
    refine ⟨?_, fun v vh hv => ?_, fun v hv => ?_, fun v vh hv => ?_,
      fun v vh hv hre => (hreaps' v vh hv hre).elim, fun w ho => ?_,
      fun v vh hv hre => (hreaps' v vh hv hre).elim⟩
    · obtain ⟨hword, hone, halone, hfreed, hgone⟩ := hi.sums
      have hr := hsame Thread.refsHeld (by simp only [Thread.refsHeld, Thread.callsHeld]; omega)
      have hp := hsame Thread.calls rfl
      have ha := hsame Thread.callsHeld rfl
      have hh := hsame Thread.holdsHeld rfl
      have hj := hsame Thread.flagsHeld rfl
      have he := hsame (fun th => th.pc.frees) rfl
      constructor
      · rw [hr, ha, hh, hj]
        exact hword
      · rw [hj]
        exact hone
      · rw [hj, hp]
        exact halone
      · rw [he]
        exact hfreed
      · rw [he, hr, hh]
        exact hgone
    · obtain ⟨rfl, rfl⟩ | ⟨wh, k, hwh, rfl⟩ := hwas v vh hv
      · exact hi.reaper v th hth
      · exact hi.reaper v wh hwh
    · simpa using hi.reaperIn v hv
    · obtain ⟨rfl, rfl⟩ | ⟨wh, k, hwh, rfl⟩ := hwas v vh hv
      · simp [Thread.Knows, hpc]
      · have hk := hi.knows v wh hwh
        unfold Thread.Knows at hk ⊢
        cases hw : wh.pc
        all_goals
          rw [hw] at hk
          simp only at hk ⊢
        all_goals first | exact hk | exact Nat.lt_add_right k hk
    · refine (hi.owed w ho).imp_right ?_
      rintro ⟨vh, hvh, hj⟩
      obtain ⟨v, hv⟩ := mem_iff_getElem?.mp hvh
      by_cases hvu : v = u
      · subst hvu
        cases huh.symm.trans hv
        exact ⟨{ uh with refs := uh.refs + 1 }, mem_of_getElem? (i := v) (by
          rw [List.getElem?_set_self]
          simpa using (List.getElem?_eq_some_iff.mp huh).1), hj⟩
      · by_cases hvt : v = t
        · subst hvt
          cases hth.symm.trans hv
          refine ⟨{ th with refs := th.refs - 1 }, mem_of_getElem? (i := v) ?_, hj⟩
          rw [List.getElem?_set_ne (Ne.symm hvu),
            List.getElem?_set_self (List.getElem?_eq_some_iff.mp hth).1]
        · refine ⟨vh, mem_of_getElem? (i := v) ?_, hj⟩
          rw [List.getElem?_set_ne (Ne.symm hvu), List.getElem?_set_ne (Ne.symm hvt)]
          exact hv
  · cases h

theorem Inv.step {m : Move} (hi : Inv tr s) (hf : Fits s) (h : Judge.step m s = some (ev, s'))
    (hf' : Fits s') : Inv (tr ++ ev) s' := by
  cases m with
  | act t a => exact hi.act hf h hf'
  | give t u => exact hi.give h

/-! ### Every run -/

/-- The function of the frame has returned: there are references, and calls over the frame. -/
structure Begins (s : State) : Prop where
  idle : ∀ th ∈ s.threads, th.pc = .idle ∧ th.todo = 0 ∧ th.clearing = false
  reaper : s.sh.reaper = none
  deferred : s.sh.deferred = 0
  freed : s.sh.freed = 0
  word : s.sh.word = pack (s.sh.own + tally Thread.refsHeld s.threads)
    (tally Thread.callsHeld s.threads) 0 0

theorem tally_eq_zero (h : ∀ th ∈ ts, g th = 0) : tally g ts = 0 := by
  refine Nat.eq_zero_of_not_pos fun hpos => ?_
  obtain ⟨th, hth, hg⟩ := tally_pos.mp hpos
  exact absurd (h th hth) (Nat.ne_of_gt hg)

theorem Begins.inv (hb : Begins s) : Inv [] s := by
  obtain ⟨hidle, hreaper, hdeferred, hfreed, hword⟩ := hb
  have hh : tally Thread.holdsHeld s.threads = 0 := tally_eq_zero fun th hth => by
    obtain ⟨hpc, htodo, hcl⟩ := hidle th hth
    simp [Thread.holdsHeld, hpc, htodo, hcl, Pc.holds]
  have hj : tally Thread.flagsHeld s.threads = 0 := tally_eq_zero fun th hth => by
    obtain ⟨hpc, -, hcl⟩ := hidle th hth
    simp [Thread.flagsHeld, hpc, hcl, Pc.flags]
  have he : tally (fun th => th.pc.frees) s.threads = 0 := tally_eq_zero fun th hth => by
    rw [(hidle th hth).1]
    rfl
  have hreaps : ∀ th ∈ s.threads, th.reaps = true → False := fun th hth hre => by
    obtain ⟨hpc, -, hcl⟩ := hidle th hth
    simp [Thread.reaps, hpc, hcl] at hre
  have howed : ∀ u, ¬ owed [] u := fun u ⟨pre, post, heq, _⟩ => by simp at heq
  refine ⟨⟨?_, ?_, ?_, ?_, ?_⟩, fun t th hth => ?_, fun t ht => ?_, fun t th hth => ?_,
    fun t th hth hre => (hreaps th (mem_of_getElem? hth) hre).elim,
    fun u ho => (howed u ho).elim, fun t th hth hre => (hreaps th (mem_of_getElem? hth) hre).elim⟩
  · rw [hword, hdeferred, hh, hj]
  · omega
  · omega
  · omega
  · omega
  · rw [hreaper, (hidle th (mem_of_getElem? hth)).2.2]
    exact ⟨nofun, nofun⟩
  · rw [hreaper] at ht
    cases ht
  · rw [Thread.Knows, (hidle th (mem_of_getElem? hth)).1]
    trivial

/-- What the protocol is for. -/
structure Safe (tr : List Event) (s : State) : Prop where
  /-- While a thread has the flag up, and so while it reads or drops the registers of the frame as
  its judge, no other is past `frame_enter`, and no other judges. -/
  alone : ∀ (t u : Nat) (th uh : Thread), s.threads[t]? = some th → s.threads[u]? = some uh →
    0 < th.flagsHeld → u ≠ t → uh.calls = 0 ∧ uh.flagsHeld = 0
  once : s.sh.freed ≤ 1
  /-- Who frees the frame is the only one to know of it. -/
  free : ∀ th ∈ s.threads, th.pc = .freeing → s.sh.freed = 0 ∧ s.sh.own = 0 ∧ s.sh.deferred = 0 ∧
    ∀ uh ∈ s.threads, uh.refsHeld = 0 ∧ uh.holdsHeld = 0
  /-- Then nobody touches it: what is left to do is `vl_judge_deferred`, of a list without it. -/
  untouched : 0 < s.sh.freed → s.sh.deferred = 0 ∧ ∀ m ev s', step m s = some (ev, s') →
    ∃ t, m = .act t .judgeDeferred ∧ s'.sh = s.sh
  /-- After a reference was dropped and others were left, a verdict has stood, or the reference was
  dropped in clearing a garbage frame, which is done, or the frame is on the deferred list, or a
  thread judges it or has it on the part of that list that it has taken. -/
  judged : ∀ pre t post, tr = pre ++ .dropped t :: post → (∃ u, .judged u ∈ post) ∨
    .reaped t ∈ post ∨ 0 < s.sh.deferred ∨ ∃ th ∈ s.threads, th.judges = true

/-- When no reference and no hold is left, all threads are between two operations. -/
theorem Inv.idle_of_gone (hi : Inv tr s) (hth : s.threads[t]? = some th) (hfreed : 0 < s.sh.freed) :
    th.pc = .idle ∧ th.clearing = false ∧ th.todo = 0 ∧ th.refs = 0 ∧ th.calls = 0 := by
  obtain ⟨hr, hh⟩ := hi.sums.gone (Nat.add_pos_left hfreed _)
  have hfree := hi.sums.freed
  have hmem := mem_of_getElem? hth
  have hrefs : th.refs + (th.calls + th.pc.waits) ≤ tally Thread.refsHeld s.threads :=
    le_tally (g := Thread.refsHeld) hmem
  have hholds : th.todo + th.pc.holds + th.clearing.toNat ≤ tally Thread.holdsHeld s.threads :=
    le_tally (g := Thread.holdsHeld) hmem
  have hfrees : th.pc.frees ≤ tally (fun th => th.pc.frees) s.threads :=
    le_tally (g := fun th => th.pc.frees) hmem
  have hk := hi.knows t th hth
  have hcl : th.clearing = false := by
    cases hcl : th.clearing with
    | false => rfl
    | true =>
      rw [hcl] at hholds
      simp at hholds
      omega
  refine ⟨?_, hcl, by omega, by omega, by omega⟩
  unfold Thread.Knows at hk
  cases hpc : th.pc with
  | idle => rfl
  | entering =>
    rw [hpc] at hrefs
    simp only [Pc.waits] at hrefs
    omega
  | releasing c =>
    rw [hpc] at hk
    simp only at hk
    omega
  | freeing =>
    have hends : th.pc.frees = 1 := by rw [hpc, Pc.frees]
    omega
  | _ =>
    rw [hpc] at hholds
    simp only [Pc.holds] at hholds
    omega

theorem Inv.safe (hi : Inv tr s) : Safe tr s := by
  refine ⟨fun t u th uh hth huh hflag hne => ?_, ?_, fun th hmem hpc => ?_, fun hfreed => ⟨?_, ?_⟩,
    fun pre t post htr => ?_⟩
  · have hone := hi.sums.one
    have hcalls := hi.sums.alone
    rw [tally_eq hth] at hone hcalls
    have hle : uh.flagsHeld ≤ tallyOthers Thread.flagsHeld s.threads t := le_tallyOthers hne huh
    have hle' : uh.calls ≤ tally Thread.calls s.threads := le_tally (mem_of_getElem? huh)
    have := hcalls (by omega)
    omega
  · have := hi.sums.freed
    omega
  · have hle : th.pc.frees ≤ tally (fun th => th.pc.frees) s.threads :=
      le_tally (g := fun th => th.pc.frees) hmem
    have hends : th.pc.frees = 1 := by rw [hpc, Pc.frees]
    have hfreed := hi.sums.freed
    obtain ⟨hr, hh⟩ := hi.sums.gone (by omega)
    refine ⟨by omega, by omega, by omega, fun uh huh => ?_⟩
    exact ⟨by have := le_tally (g := Thread.refsHeld) huh; omega,
      by have := le_tally (g := Thread.holdsHeld) huh; omega⟩
  · have := (hi.sums.gone (Nat.add_pos_left hfreed _)).2
    omega
  · intro m ev s' h
    have hgone := hi.sums.gone (Nat.add_pos_left hfreed _)
    cases m with
    | give t u =>
      simp only [Judge.step, Option.bind_eq_bind, Option.bind_eq_some_iff] at h
      obtain ⟨th, hth, uh, huh, h⟩ := h
      obtain ⟨-, -, -, hrefs, -⟩ := hi.idle_of_gone hth hfreed
      rw [if_neg (by omega)] at h
      cases h
    | act t a =>
      simp only [Judge.step, Option.bind_eq_bind, Option.bind_eq_some_iff, Option.pure_def] at h
      obtain ⟨th, hth, ⟨ev, sh', th'⟩, hrun, heq⟩ := h
      obtain ⟨rfl, rfl⟩ : ev = _ ∧ _ = s' := by simpa using heq
      obtain ⟨hpc, hcl, htodo, hrefs, hcalls⟩ := hi.idle_of_gone hth hfreed
      unfold Act.run at hrun
      cases a
      case judgeDeferred =>
        refine ⟨t, rfl, ?_⟩
        simp only [hpc, Act.begins, hcl, htodo] at hrun
        obtain ⟨-, rfl, -⟩ : ev = [] ∧ sh' = { s.sh with deferred := 0 } ∧ _ := by
          simpa [eq_comm] using hrun
        show { s.sh with deferred := 0 } = s.sh
        rw [show (0 : Nat) = s.sh.deferred by omega]
      all_goals simp [hpc, goes, Act.begins, hcl, htodo, hrefs, hcalls] at hrun
  · by_contra hno
    simp only [not_or, not_exists] at hno
    obtain ⟨hj, hr, hd, hth⟩ := hno
    rcases hi.owed t ⟨pre, post, htr, hj, hr⟩ with h | ⟨th, h⟩
    · exact hd h
    · exact hth th h

/-- As long as the counts fit into their fields, the judgement is safe under every schedule. -/
theorem judgement_safe (hb : Begins s₀) (h : RunIn Fits step s₀ tr s) : Safe tr s :=
  (h.holds Inv hb.inv fun _ _ _ _ _ hi hf hm hf' => hi.step hf hm hf').safe

instance (s : State) : Decidable (Fits s) := inferInstanceAs (Decidable (_ ∧ _ ∧ _))

/-- A thread drops its reference while another is in a call: the judgement is deferred, and made
when the call is over. -/
theorem judgement_safe_deferred : Safe [.dropped 0, .judged 0]
    ⟨⟨0, false, none, 0, 0, 1⟩, [⟨0, 0, 0, false, .idle⟩, ⟨0, 0, 0, false, .idle⟩]⟩ := by
  have hrun : runScheduleIn Fits step
      [.act 0 .release, .act 0 (.go 0 false), .act 0 (.go 0 false), .act 0 (.go 0 false),
        .act 0 (.go 0 false), .act 1 .exit, .act 0 .judgeDeferred, .act 0 .judgeNext,
        .act 0 (.go 0 false), .act 0 (.go 0 false), .act 0 (.go 0 false), .act 0 (.go 0 false),
        .act 0 (.go 0 false), .act 0 (.go 0 false), .act 0 (.go 0 false), .act 0 (.go 0 false),
        .act 0 (.go 0 false), .act 1 .release, .act 1 (.go 0 false), .act 1 (.go 0 false)]
      ⟨⟨3 + frameAct, false, none, 0, 0, 0⟩,
        [⟨1, 0, 0, false, .idle⟩, ⟨1, 1, 0, false, .idle⟩]⟩ =
      some ([.dropped 0, .judged 0], ⟨⟨0, false, none, 0, 0, 1⟩,
        [⟨0, 0, 0, false, .idle⟩, ⟨0, 0, 0, false, .idle⟩]⟩) := by decide +kernel
  refine judgement_safe ⟨?_, rfl, rfl, rfl, rfl⟩ (runScheduleIn_runIn _ hrun)
  simp

/-! ### More holds than the word counts -/

/-- One call over the frame is in progress. -/
def calling (w own refs k : Nat) (pc : Pc) : State :=
  ⟨⟨w, false, none, k, own, 0⟩, [⟨refs, 1, 0, false, pc⟩]⟩

/-- The call copies the closure that is in a register of the frame, and lets the copy go. What the
word counts but the calls does not matter: the judgement is deferred. -/
theorem copy_relists {w v : Nat} (k : Nat) (hv : fetchAdd w frameHold = v) (h : frameActs v ≠ 0) :
    Run step (calling w 1 0 k .idle) [] (calling v 1 0 (k + 1) .idle) := by
  have htake : step (.act 0 .take) (calling w 1 0 k .idle) = some ([], calling w 0 1 k .idle) := rfl
  have hdrop : step (.act 0 .drop) (calling w 0 1 k .idle) =
      some ([], calling (fetchAdd w frameHold) 0 1 k .dropping) := rfl
  have hlast : step (.act 0 (.go 0 true)) (calling v 0 1 k .dropping) =
      some ([], calling v 1 0 k .judging) := rfl
  have hjudge : step (.act 0 (.go 0 false)) (calling v 1 0 k .judging) =
      some ([], calling v 1 0 k .deferCheck) := rfl
  have hcheck : step (.act 0 (.go 0 false)) (calling v 1 0 k .deferCheck) =
      some ([], calling v 1 0 k .deferring) := by
    simp [calling, step, Act.run, goes, h]
  have hdefer : step (.act 0 (.go 0 false)) (calling v 1 0 k .deferring) =
      some ([], calling v 1 0 (k + 1) .idle) := rfl
  rw [hv] at hdrop
  exact (((((Run.start.move _ htake).move _ hdrop).move _ hlast).move _ hjudge).move _ hcheck).move _
    hdefer

/-- The frame is `k` times on the deferred list. -/
def relisted (k : Nat) : State := calling ((2 + frameAct + k * frameHold) % 2 ^ 64) 1 0 k .idle

theorem relisted_run (k : Nat) : Run step (relisted 0) [] (relisted k) := by
  induction k with
  | zero => exact .start
  | succ k ih =>
    refine ih.append (copy_relists k ?_ ?_)
    · unfold fetchAdd frameAct frameHold
      omega
    · unfold frameActs frameAct frameHold
      omega

/-- Before the last judgement that is deferred the closure leaves the frame. The word is then that
of a frame with one call and no hold. -/
def leaves : List Move :=
  [.act 0 .take, .act 0 .release, .act 0 (.go 0 false), .act 0 (.go 0 false), .act 0 (.go 0 false),
    .act 0 (.go 0 false), .act 0 .exit, .act 0 (.go 0 false)]

theorem relisted_freed : runSchedule step leaves (relisted 4095) =
    some ([.dropped 0], ⟨⟨0, false, none, 4096, 0, 1⟩, [⟨0, 0, 0, false, .idle⟩]⟩) := by
  decide +kernel

/-- The frame is freed while it is on the deferred list. -/
theorem freed_deferred : ∃ s₀ tr s, Begins s₀ ∧ Run step s₀ tr s ∧ ¬ Safe tr s := by
  refine ⟨relisted 0, _, _, ⟨?_, rfl, rfl, rfl, rfl⟩,
    (relisted_run 4095).append (runSchedule_run leaves relisted_freed), fun hs => ?_⟩
  · simp [relisted, calling]
  · exact absurd (hs.untouched (by decide)).1 (by decide)

end Voila.Rt.Judge
