import Voila.Low.KillLive

/-!
# Voila.Low.KillLocal

The straight-line rule is sound: a register named twice, written and then read in code
without labels, is dead behind its reader (`killLocal_sound`).

Both occurrences are all there is (`Once`): whatever else reads or writes the register
would name it a third time. Control reaches the reader only through the definition.
-/

namespace Voila.Low

open Ir Lib List

/-- A register that is read in a loop is a parameter, or some instruction writes it. -/
def Defined (f : Func) : Prop :=
  ∀ k b r, f.bodies[k]? = some b → r ∈ f.reads k b → (∃ u, k < u ∧ Reach f u k) →
    r < f.nparams ∨ ∃ j c, f.bodies[j]? = some c ∧ r ∈ f.writes j c

/-! ### Two occurrences -/

section

variable {f : Func} {r : Nat}

/-- Distinct instructions together name `r` at most as often as the function does. -/
theorem sum_count_le (is : Finset (Fin f.bodies.length)) :
    ∑ i ∈ is, (tokens f.bodies[i]).count r ≤ count f r := by
  have htotal : count f r = ∑ i : Fin f.bodies.length, (tokens f.bodies[i]).count r := by
    rw [count, count_flatMap]
    exact (Fin.sum_univ_fun_getElem f.bodies fun b => (tokens b).count r).symm
  rw [htotal]
  exact Finset.sum_le_sum_of_subset (Finset.subset_univ is)

/-- `r` is named as argument 0 of `d`, once more at `u` behind it, and nowhere else. -/
structure Once (f : Func) (r d u : Nat) (bd bu : Body) : Prop where
  defAt : f.bodies[d]? = some bd
  useAt : f.bodies[u]? = some bu
  lt : d < u
  dst : bd.arg 0 = newReg r
  two : count f r = 2
  defOnce : (tokens bd).count r = 1
  useOnce : (tokens bu).count r = 1

variable {b bd bu : Body} {d k u : Nat} {o : Op} {m : Module}

/-- An instruction that names `r` is one of the two. -/
theorem Once.named (h : Once f r d u bd bu)
    (hb : f.bodies[k]? = some b) (hr : r ∈ tokens b) : k = d ∨ k = u := by
  by_contra hne
  obtain ⟨hkd, hku⟩ := not_or.mp hne
  obtain ⟨hdlt, hbd⟩ := List.getElem?_eq_some_iff.mp h.defAt
  obtain ⟨hult, hbu⟩ := List.getElem?_eq_some_iff.mp h.useAt
  obtain ⟨hklt, hbk⟩ := List.getElem?_eq_some_iff.mp hb
  have hsum := sum_count_le (f := f) (r := r) {⟨d, hdlt⟩, ⟨u, hult⟩, ⟨k, hklt⟩}
  have hlt := h.lt
  rw [Finset.sum_insert (by simp [Fin.ext_iff]; omega), Finset.sum_insert (by simp [Fin.ext_iff]; omega),
    Finset.sum_singleton] at hsum
  simp only [Fin.getElem_fin, hbd, hbu, hbk, h.defOnce, h.useOnce, h.two] at hsum
  have := count_pos_iff.mpr hr
  omega

theorem regsOf_newReg (n : Nat) : n ∈ regsOf (newReg n) :=
  mem_regTokens wordByte_digit (Delimited.refl _ _) (regSlot_newReg n)

theorem Body.tokens_split (b : Body) :
    tokens b = regsOf (b.arg 0) ++ (b.args.drop 1).flatMap regsOf := by
  unfold tokens Body.arg
  cases b.args with
  | nil => rfl
  | cons a as => simp

/-- The definition names `r` as its argument 0 only. -/
theorem Once.def_tokens (h : Once f r d u bd bu) {n : Nat}
    (hn : 1 ≤ n) : r ∉ bd.tokens wordByte n := by
  intro hr
  have hone : r ∈ bd.tokens wordByte 1 := Body.tokens_mono hn hr
  have hcount := h.defOnce
  rw [Body.tokens_split, count_append, h.dst] at hcount
  have h₁ := count_pos_iff.mpr (regsOf_newReg r)
  have h₂ : 0 < ((bd.args.drop 1).flatMap regsOf).count r := count_pos_iff.mpr hone
  omega

theorem Once.use_ne (h : Once f r d u bd bu) (huse : uses bu r = true) : bu.arg 0 ≠ newReg r := by
  intro harg
  have hone : r ∈ (bu.args.drop 1).flatMap regsOf := by
    simpa [uses, readsAlso, harg] using huse
  have hcount := h.useOnce
  rw [Body.tokens_split, count_append, harg] at hcount
  have h₁ := count_pos_iff.mpr (regsOf_newReg r)
  have h₂ := count_pos_iff.mpr hone
  omega

theorem once_of_counts (hbd : f.bodies[d]? = some bd)
    (hbu : f.bodies[u]? = some bu) (hlt : d < u) (hdst : bd.arg 0 = newReg r)
    (huse : uses bu r = true) (htwo : count f r = 2) : Once f r d u bd bu := by
  obtain ⟨hdlt, hd⟩ := List.getElem?_eq_some_iff.mp hbd
  obtain ⟨hult, hu⟩ := List.getElem?_eq_some_iff.mp hbu
  have hsum := sum_count_le (f := f) (r := r) {⟨d, hdlt⟩, ⟨u, hult⟩}
  rw [Finset.sum_insert (by simp [Fin.ext_iff]; omega), Finset.sum_singleton] at hsum
  simp only [Fin.getElem_fin, hd, hu, htwo] at hsum
  have h₁ : 0 < (tokens bd).count r := by
    rw [count_pos_iff, Body.tokens_split, hdst]
    exact mem_append_left _ (regsOf_newReg r)
  have h₂ : 0 < (tokens bu).count r := by
    rw [count_pos_iff, Body.tokens_split, mem_append]
    simp only [uses, readsAlso, Bool.or_eq_true, Bool.and_eq_true, decide_eq_true_eq] at huse
    exact huse.elim Or.inr fun h => Or.inl h.1
  exact ⟨hbd, hbu, hlt, hdst, htwo, by omega, by omega⟩

/-! ### Who reads and writes the register -/

/-- A case of a select is neither occurrence. -/
theorem Once.not_case (hf : Lowered f) (h : Once f r d u bd bu)
    (hread : readerOp bu.op = true) {c : Body} (hc : c ∈ f.cases k)
    (hr : r ∈ tokens c) : False := by
  obtain ⟨hcase, j, -, hj⟩ := Func.mem_cases hc
  rcases h.named hj hr with rfl | rfl
  · -- the definition's argument 0 is a register, a case's a label
    obtain rfl := Option.some.inj (hj.symm.trans h.defAt)
    have hlab := (hf.spelled c (mem_of_getElem? hj)).label (c.arg 0)
      (by simp [Body.caseTargets, hcase])
    rw [h.dst] at hlab
    exact absurd hlab (by simp [isLabel, newReg])
  · obtain rfl := Option.some.inj (hj.symm.trans h.useAt)
    cases hop : c.op <;> rw [hop] at hcase hread <;>
      first | exact absurd hcase (by decide) | exact absurd hread (by decide)

theorem Once.reads (hf : Lowered f) (h : Once f r d u bd bu)
    (hread : readerOp bu.op = true) (hb : f.bodies[k]? = some b)
    (hr : r ∈ f.reads k b) : k = d ∨ k = u := by
  rcases Func.mem_reads wordByte_digit wordByte_punct hr with ⟨-, t, ht, hn⟩ | ⟨-, c, hc, hn⟩
  · exact h.named hb (Body.mem_tokens_of_srcs wordByte_digit wordByte_punct ht hn)
  · exact (h.not_case hf hread hc hn).elim

/-- What a reader of the straight-line rule writes is its argument 0. -/
theorem readerOp_dsts (h : readerOp o = true) : ∀ a ∈ o.dsts, a = .arg 0 := by
  cases o <;> first | exact absurd h (by decide) | decide

/-- No instruction both reads and writes through its argument 0. -/
theorem Op.arg0_once {a a' : Access} (ha : a ∈ o.srcs) (ha' : a' ∈ o.dsts)
    (h : a.index = 0) : a'.index ≠ 0 := by
  cases o <;> simp only [Op.srcs, Op.dsts, mem_cons, not_mem_nil, or_false] at ha ha' <;>
    first
    | exact absurd ha id
    | exact absurd ha' id
    | (subst ha; simp [Access.index] at h)
    | (rcases ha with rfl | rfl <;> simp [Access.index] at h)
    | (rcases ha with rfl | rfl | rfl <;> simp [Access.index] at h)

/-- Only the definition writes the register. -/
theorem Once.writes (hf : Lowered f) {m : Module} {d u : Nat} {bd bu : Body}
    (h : Once f r d u bd bu) (hread : readerOp bu.op = true) (huse : bu.arg 0 ≠ newReg r)
    (hpin : r ∉ pinned m f) {k : Nat} {b : Body} (hb : f.bodies[k]? = some b)
    (hr : r ∈ f.writes k b) : k = d ∧ ∃ a ∈ bd.op.dsts, r ∈ bd.tokens wordByte a.index := by
  have hmem := mem_of_getElem? hb
  obtain ⟨s, hs, hn⟩ := mem_filterMap.mp hr
  have hslot {c : Body} (hc : c ∈ f.bodies) (hs : s ∈ c.dsts ++ c.caseDsts) : s = newReg r :=
    (hf.spelled c hc).dst s hs r hn
  unfold Func.dstsAt at hs
  split at hs
  · -- a select writes for a case that names the register
    obtain ⟨c, hc, hsc⟩ := mem_flatMap.mp hs
    obtain ⟨hcase, j, -, hj⟩ := Func.mem_cases hc
    have hname := hslot (mem_of_getElem? hj) (mem_append_right _ hsc)
    refine (h.not_case hf hread hc ?_).elim
    unfold Body.caseDsts at hsc
    split at hsc
    · obtain ⟨a, ha, has⟩ := mem_filterMap.mp hsc
      obtain ⟨i, hi⟩ := mem_iff_getElem?.mp (mem_of_mem_drop (mem_of_mem_take ha))
      have hw : c.Within 0 s := ⟨i, a, Nat.zero_le _, hi, delimited_afterEq has⟩
      exact hw.mem_tokens wordByte_digit wordByte_punct (by rw [hname, regSlot_newReg])
    · simp at hsc
  have hname := hslot hmem (mem_append_left _ hs)
  have hreg : regSlot s = some r := by rw [hname, regSlot_newReg]
  rcases mem_append.mp hs with hs | hs
  · obtain ⟨a, ha, hsa⟩ := mem_flatMap.mp hs
    have htok := Body.mem_tokens_of_resolve wordByte_digit wordByte_punct hsa hreg
    rcases h.named hb (Body.tokens_mono (Nat.zero_le _) htok) with rfl | rfl
    · obtain rfl := Option.some.inj (hb.symm.trans h.defAt)
      exact ⟨rfl, a, ha, htok⟩
    · obtain rfl := Option.some.inj (hb.symm.trans h.useAt)
      obtain rfl := readerOp_dsts hread a ha
      rw [mem_singleton.mp hsa] at hname
      exact absurd hname huse
  · -- a pattern's or a template's register is pinned
    exfalso
    refine hpin ?_
    split at hs
    · simp only [pinned, mem_append, mem_flatMap]
      refine Or.inr ⟨b, hmem, ?_⟩
      rcases mem_append.mp hs with hp | ht
      · have hsome : b.pat.isSome = true := by
          cases hpat : b.pat with
          | none => simp [hpat] at hp
          | some p => rfl
        rw [if_pos (Or.inl hsome)]
        exact mem_append_left _ (hf.binds b hmem s hp r hreg)
      · obtain ⟨t, hterm, rfl⟩ := mem_map.mp (mem_filter.mp ht).1
        have hne : b.terms ≠ [] := ne_nil_of_mem hterm
        rw [if_pos (Or.inr hne)]
        refine mem_append_right _ (mem_flatMap.mpr ⟨t, hterm, ?_⟩)
        rw [hname]
        exact regsOf_newReg r
    · simp at hs

/-! ### Straight-line code -/

/-- Control gets between the two occurrences only past the definition. -/
theorem flow_between (hlabels : ∀ k, d < k → k ≤ u → labelsAt f k = [])
    (hbd : f.bodies[d]? = some bd) (hw : r ∈ f.writes d bd) {k q : Nat}
    (h : Flow f r k q) (hdq : d < q) (hqu : q ≤ u) : d < k ∧ k ≤ u := by
  induction h with
  | refl k => exact ⟨hdq, hqu⟩
  | step he hkeep _ ih =>
    obtain ⟨hdj, hju⟩ := ih hdq hqu
    cases he with
    | @fall k b hb _ =>
      refine ⟨?_, by omega⟩
      rcases Nat.lt_succ_iff_lt_or_eq.mp hdj with h | rfl
      · exact h
      · exact absurd hw (hkeep rfl bd hbd)
    | jump _ _ hidx => exact absurd (hlabels _ hdj hju) (labelsAt_of_labelIdx hidx)
    | raise _ _ _ _ hidx => exact absurd (hlabels _ hdj hju) (labelsAt_of_labelIdx hidx)

/-- What the rule checks before it places a `KILL` behind `u`. -/
theorem mem_killLocal (h : r ∈ killLocal m f u) :
    r ∉ pinned m f ∧ ¬r < f.nparams ∧ ∃ d bd bu, Once f r d u bd bu ∧ readerOp bu.op = true ∧
      bu.arg 0 ≠ newReg r ∧ ∀ k, d < k → k ≤ u → labelsAt f k = [] := by
  unfold killLocal at h
  cases hbu : f.bodies[u]? with
  | none => simp [hbu] at h
  | some bu =>
    simp only [hbu, mem_filter, Bool.and_eq_true, Bool.not_eq_true', beq_iff_eq] at h
    obtain ⟨-, ⟨⟨⟨hkeep, htwo⟩, huse⟩, hread⟩, hdef⟩ := h
    simp only [keepLocal, Bool.or_eq_false_iff, decide_eq_false_iff_not] at hkeep
    refine ⟨hkeep.1.1, hkeep.1.2, ?_⟩
    cases hd : defAt f r with
    | none => simp [hd] at hdef
    | some d =>
      simp only [hd, Bool.and_eq_true, decide_eq_true_eq] at hdef
      obtain ⟨hlt, hnol⟩ := hdef
      have hdmem := (mem_filter.mp (mem_of_getLast? hd)).2
      cases hbd : f.bodies[d]? with
      | none => simp [hbd] at hdmem
      | some bd =>
        have humem := (mem_filter.mp (mem_of_getLast? huse)).2
        simp only [hbd, Option.map_some, Option.getD_some, decide_eq_true_eq] at hdmem
        simp only [hbu, Option.map_some, Option.getD_some] at humem
        have honce := once_of_counts hbd hbu hlt hdmem humem htwo
        refine ⟨d, bd, bu, honce, hread, honce.use_ne humem, fun k hdk hku => ?_⟩
        simp only [noLabels, all_eq_true, mem_range, Bool.or_eq_true,
          decide_eq_true_eq] at hnol
        exact (hnol k (by omega)).resolve_left (by omega)

/-- Behind a `KILL r` of the straight-line rule no path reads `r` before overwriting it. -/
theorem killLocal_sound (hf : Lowered f) (hdef : Defined f)
    (h : r ∈ killLocal m f u) : ¬ReadsFirst f r (u + 1) ∧ r ∉ pinned m f := by
  obtain ⟨hpin, hparam, d, bd, bu, honce, hread, harg, hlabels⟩ := mem_killLocal h
  refine ⟨?_, hpin⟩
  rintro ⟨q, b, hflow, hb, hr⟩
  have hlt := honce.lt
  have hqu : q ≤ u := by
    rcases honce.reads hf hread hb hr with h | h <;> omega
  -- some instruction writes the register, and it is the definition
  rcases hdef q b r hb hr ⟨u + 1, by omega, hflow.reach⟩ with h | ⟨j, c, hc, hw⟩
  · exact hparam h
  · obtain ⟨rfl, a, ha, htok⟩ := honce.writes hf hread harg hpin hc hw
    obtain rfl := Option.some.inj (hc.symm.trans honce.defAt)
    rcases honce.reads hf hread hb hr with rfl | rfl
    · -- the definition does not read its own destination
      obtain rfl := Option.some.inj (hb.symm.trans hc)
      have hzero {a : Access} (htok : r ∈ b.tokens wordByte a.index) : a.index = 0 := by
        by_contra hne
        exact honce.def_tokens (Nat.one_le_iff_ne_zero.mpr hne) htok
      rcases Func.mem_reads wordByte_digit wordByte_punct hr with ⟨-, t, ht, hn⟩ | ⟨-, e, he, hn⟩
      · obtain ⟨a', ha', hta⟩ := mem_flatMap.mp ht
        have htok' := Body.mem_tokens_of_resolve wordByte_digit wordByte_punct hta hn
        exact Op.arg0_once ha' ha (hzero htok') (hzero htok)
      · exact honce.not_case hf hread he hn
    · have hbetween := flow_between hlabels hc hw hflow hlt (le_refl q)
      omega

end

end Voila.Low
