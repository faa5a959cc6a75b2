import Voila.Low.KillSound
import Voila.Ir.Pad
import Voila.Opt.Dce

/-!
# Voila.Low.KillRun

`insert_kills` is not observed: with its `KILL`s a function performs the same operations on the same values and ends
the same way as without, whatever a `KILL` leaves in a register.
-/

namespace Voila.Low

open Ir Lib List

section

variable {f : Func} {ks : Nat → List Nat} {m : Module}

theorem exists_ahead (ks : Nat → List Nat) (p : Nat) : ∃ k, Ahead ks p k := by
  induction p with
  | zero => exact ⟨0, Nat.zero_le _, fun i hi => absurd hi (Nat.not_lt_zero i)⟩
  | succ p ih =>
    obtain ⟨k, hle, hlt⟩ := ih
    obtain hp | rfl := Nat.lt_or_eq_of_le hle
    · exact ⟨k, hp, fun i hi => Nat.lt_succ_of_lt (hlt i hi)⟩
    · exact ⟨k + 1, ahead_behind (Nat.zero_le _)⟩

/-- `KILL`s of dead registers are idle. -/
theorem addKills_padded {kept : Nat → Prop} (hdead : ∀ i, ∀ r ∈ ks i, Dead kept f (i + 1) r) :
    ∃ g, Padded m kept f (addKills f ks) g := by
  choose g hg using exists_ahead ks
  have at_pos (k : Nat) : g (pos ks k) = k := (hg _).unique (ahead_pos k)
  refine ⟨g, rfl, rfl, rfl, at_pos 0, fun l => ?_, fun p hp => ?_, fun p b hb => ?_⟩
  · rw [addKills_labelIdx]
    cases f.labelIdx l <;> simp [at_pos]
  · cases hb : f.bodies[g p]? with
    | none => rfl
    | some b =>
      have old : (addKills f ks).bodies[pos ks (g p)]? = some b := (addKills_at _).trans hb
      have hlt := (List.getElem?_eq_some_iff.mp old).1
      have := getElem?_eq_none_iff.mp hp
      have := (hg p).1
      omega
  · obtain ⟨i, ⟨rfl, hi⟩ | ⟨j, hj, rfl, hop, r, hr, harg⟩⟩ := addKills_cases hb
    · left
      rw [at_pos]
      exact ⟨hi, (addKills_selCases i).symm, (hg _).unique (ahead_behind (Nat.zero_le _))⟩
    · right
      have here := (hg _).unique (ahead_behind (Nat.le_of_lt hj))
      rw [here]
      refine ⟨Or.inr ⟨by rw [hop]; rfl, fun n hn => ?_⟩, (hg _).unique (ahead_behind hj)⟩
      rw [harg, cgSlot_of_regSlot (regSlot_newReg r)] at hn
      exact Option.some.inj hn ▸ hdead i r hr

theorem insertKills_wellSpelled (hf : Lowered (killBase f)) : WellSpelled (insertKills m f) := by
  intro b hb
  obtain ⟨p, hp⟩ := mem_iff_getElem?.mp hb
  obtain ⟨i, ⟨-, hi⟩ | ⟨j, -, -, hop, r, -, harg⟩⟩ := addKills_cases hp
  · exact hf.spelled b (mem_of_getElem? hi)
  · refine ⟨by simp [Body.dsts, Body.caseDsts, hop, Op.dsts], fun _ n hn => ?_, ?_⟩
    · rw [harg, cgSlot_of_regSlot (regSlot_newReg r)] at hn
      rw [harg, Option.some.inj hn]
    · simp [Body.targets, Body.caseTargets, hop, Op.targets, Op.isCase]

/-- Nothing is killed behind a `RET`, and nothing at all behind the code. -/
theorem kills_ret {i : Nat} (h : ∀ b ∈ (killBase f).bodies[i]?, b.op = .ret) : kills m f i = [] := by
  unfold kills killBase at *
  split at h
  · rename_i hh
    rw [if_pos hh, killLocal]
    split
    · rename_i b hb
      simp [h b hb, readerOp]
    · rfl
  · rename_i hh
    rw [if_neg hh, killLive]
    split
    · rename_i b hb
      simp [h b hb, endsFlow]
    · rfl

theorem insertKills_endsRet (h : Opt.EndsRet (killBase f)) : Opt.EndsRet (insertKills m f) := by
  obtain ⟨b, hb, hop⟩ := h
  obtain ⟨before, code⟩ := getLast?_eq_some_iff.mp hb
  have last : (killBase f).bodies[before.length]? = some b := by simp [code]
  refine ⟨b, ?_, hop⟩
  rw [insertKills, addKills_bodies, code, weave_concat, kills_ret fun c hc => ?_]
  · simp
  · exact Option.some.inj (last.symm.trans hc) ▸ hop

variable {V W : Type*} {x : Runtime V W}

theorem insertKills_obsEq (hf : Lowered (killBase f)) (hdef : hasHandler f = true → Defined f)
    (hx : Fills x (killBase f) (· ∈ pinned m (killBase f))) (args : List V) (w : W) :
    ObsEq (machine x m (insertKills m f)) (machine x m (killBase f)) (entry x (insertKills m f) args w)
      (entry x (killBase f) args w) := by
  have dead : ∀ i, ∀ r ∈ kills m f i, Dead (· ∈ pinned m (killBase f)) (killBase f) (i + 1) r :=
    fun i r hr => (kills_sound hf hdef hr).symm
  obtain ⟨g, hP⟩ := addKills_padded (m := m) dead
  exact hP.obsEq (fun r hr => mem_append_left _ hr) (fun _ _ => hx) args w

end

end Voila.Low
