import Voila.Ir.Exec

/-!
# Voila.Ir.Cfg

The control-flow graph of a function, exceptional edges included: any instruction the
runtime performs may raise, into any handler of the function.

`ReadsFirst f r k` says that some path from `k` reads `r` before it overwrites it. Only
falling through counts as having written: a jump or a raise may leave an instruction
before its writes. The machine moves along edges (`execBody_edge`).
-/

namespace Voila.Ir

open Lib List

/-- Control never falls through to the next instruction. -/
def Op.ends : Op → Bool
  | .jump | .ret | .throw | .rethrow | .abort => true
  | _ => false

/-- The edges, and whether control falls through. -/
inductive Edge (f : Func) : Bool → Nat → Nat → Prop
  | fall {k : Nat} {b : Body} : f.bodies[k]? = some b → b.op.ends = false → Edge f true k (k + 1)
  | jump {k j : Nat} {b : Body} {l : Str} : f.bodies[k]? = some b → l ∈ f.targetsAt k b →
      f.labelIdx l = some j → Edge f false k j
  /-- Into the handler of an `EHPUSH`. -/
  | raise {k j : Nat} {b c : Body} : f.bodies[k]? = some b → b.op.cls = .perform →
      c ∈ f.bodies → c.op = .ehpush → f.labelIdx (c.arg 0) = some j → Edge f false k j

/-- Control can get from one instruction to the other. -/
def Reach (f : Func) : Nat → Nat → Prop := Relation.ReflTransGen fun k j => ∃ c, Edge f c k j

/-- A path on which nothing overwrites register `r`. -/
inductive Flow (f : Func) (r : Nat) : Nat → Nat → Prop
  | refl (k : Nat) : Flow f r k k
  | step {c : Bool} {k j q : Nat} : Edge f c k j →
      (c = true → ∀ b, f.bodies[k]? = some b → r ∉ f.writes k b) → Flow f r j q → Flow f r k q

/-- Some path reads `r` before it overwrites it. -/
def ReadsFirst (f : Func) (r k : Nat) : Prop :=
  ∃ q b, Flow f r k q ∧ f.bodies[q]? = some b ∧ r ∈ f.reads q b

theorem Flow.reach {f : Func} {r k q : Nat} (h : Flow f r k q) : Reach f k q := by
  induction h with
  | refl k => exact .refl
  | step he _ _ ih => exact .head ⟨_, he⟩ ih

/-- A label stands at its index. -/
theorem Func.labelIdx_spec {f : Func} {l : Str} {j : Nat} (h : f.labelIdx l = some j) :
    ∃ i, f.instrs[j]? = some i ∧ l ∈ i.labels := by
  obtain ⟨hlt, hl, -⟩ := findIdx?_eq_some_iff_getElem.mp h
  exact ⟨f.instrs[j], List.getElem?_eq_getElem hlt, by simpa using hl⟩

/-! ### The machine moves along edges -/

section

variable {V W : Type*} {x : Runtime V W} {m : Module} {f : Func}

theorem jumpTo_at {l : Str} {j : Nat} (h : (jumpTo f l : Ctl V) = .at j) : f.labelIdx l = some j := by
  unfold jumpTo at h
  split at h
  · rename_i hl
    rw [hl, Ctl.at.inj h]
  · exact absurd h (by simp)

/-- A handler on the stack was pushed by an `EHPUSH` of the function. -/
def Pushed (f : Func) (l : Str) : Prop := ∃ c ∈ f.bodies, c.op = .ehpush ∧ l = c.arg 0

theorem exec_pushed {rd : Nat → V} {pc : Nat} {w : W} {hs : List Str}
    (hhs : ∀ l ∈ hs, Pushed f l) : ∀ l ∈ (exec x m f rd pc w hs).handlers, Pushed f l := by
  unfold exec
  cases hb : f.bodies[pc]? with
  | none => exact hhs
  | some b =>
    dsimp only
    unfold execBody
    cases hc : b.op.cls with
    | silent | copy | kill | jump => exact hhs
    | push =>
      have hop : b.op = .ehpush := by
        cases hop : b.op <;> rw [hop] at hc <;> first | rfl | exact absurd hc (by decide)
      intro l hl
      rcases mem_cons.mp hl with rfl | hl
      · exact ⟨b, mem_of_getElem? hb, hop, rfl⟩
      · exact hhs l hl
    | pop => exact fun l hl => hhs l (mem_of_mem_tail hl)
    | perform =>
      dsimp only
      generalize (x.op b (f.cases pc) _ _ w).next = n
      cases n with
      | fall | ret v | halt => exact hhs
      | goto k =>
        simp only [follow]
        split <;> exact hhs
      | raise =>
        cases hs with
        | nil => exact hhs
        | cons l hs => exact fun l' hl' => hhs l' (mem_cons_of_mem _ hl')

theorem Func.writes_none {k : Nat} {b : Body} (h : b.op.cls ≠ .copy) (h' : b.op.cls ≠ .perform) : f.writes k b = [] := by
  have none : b.op.dsts = [] ∧ b.op ≠ .selend ∧ b.op ≠ .pmatch ∧ b.op ≠ .parse := by
    cases hop : b.op <;> rw [hop] at h h' <;> simp_all [Op.cls, Op.dsts]
  simp [Func.writes, Func.dstsAt, Body.dsts, none]

/-- The runtime goes where the C goes: `THROW` and its like do not come back, and an instruction that falls through
has written its destinations, the `kept` ones apart (a pattern binds on a match only). -/
def Fills (x : Runtime V W) (f : Func) (kept : Nat → Prop) : Prop :=
  ∀ k b, f.bodies[k]? = some b → b.op.cls = .perform → ∀ vals cells w,
    (x.op b (f.cases k) vals cells w).next = .fall → b.op.ends = false ∧ ∀ r ∈ f.writes k b,
      kept r ∨ r ∈ (paired (f.writes k b) (x.op b (f.cases k) vals cells w).writes).map Prod.fst

variable {kept : Nat → Prop} {rd : Nat → V} {pc pc' : Nat} {w : W} {hs : List Str} {b : Body}

/-- An instruction follows an edge, and falls through with its destinations written. -/
theorem execBody_edge (hx : Fills x f kept) (hb : f.bodies[pc]? = some b) (hhs : ∀ l ∈ hs, Pushed f l)
    (h : (execBody x m f rd pc w hs b).ctl = .at pc') :
    ∃ c, Edge f c pc pc' ∧ (c = true → ∀ r ∈ f.writes pc b,
      kept r ∨ r ∈ (execBody x m f rd pc w hs b).writes.map Prod.fst) := by
  have hnot (hc : b.op.cls ≠ .perform ∧ b.op.cls ≠ .jump) : b.op.ends = false := by
    cases hop : b.op <;> rw [hop] at hc <;> first | rfl | exact absurd hc (by decide)
  unfold execBody at h ⊢
  cases hc : b.op.cls with
  | silent | kill | push | pop =>
    rw [hc] at h
    cases h
    refine ⟨true, .fall hb (hnot (by simp [hc])), fun _ r hr => ?_⟩
    simp [Func.writes_none (f := f) (k := pc) (b := b) (by simp [hc]) (by simp [hc])] at hr
  | copy =>
    rw [hc] at h
    cases h
    exact ⟨true, .fall hb (hnot (by simp [hc])), fun _ r hr => Or.inr (by simpa using hr)⟩
  | jump =>
    rw [hc] at h
    have hl : b.arg 0 ∈ f.targetsAt pc b := by
      rw [f.targetsAt_jump (Or.inl hc)]
      exact mem_singleton.mpr rfl
    exact ⟨false, .jump hb hl (jumpTo_at h), by simp⟩
  | perform =>
    rw [hc] at h
    dsimp only at h ⊢
    have fills := hx pc b hb hc ((f.srcsAt pc b).map (operand x m f rd w)) ((m.upSlots f).map rd) w
    generalize x.op b (f.cases pc) _ _ w = e at h fills
    cases hn : e.next with
    | fall =>
      rw [hn] at h
      cases h
      obtain ⟨falls, writes⟩ := fills hn
      refine ⟨true, .fall hb falls, fun _ r hr => (writes r hr).imp_right fun hw => ?_⟩
      rw [map_append]
      exact mem_append_left _ hw
    | goto k =>
      simp only [hn, follow] at h
      split at h
      · rename_i l hl
        exact ⟨false, .jump hb (mem_of_getElem? hl) (jumpTo_at h), by simp⟩
      · exact absurd h (by simp)
    | ret v => exact absurd h (by simp [follow, hn])
    | raise =>
      cases hs with
      | nil => exact absurd h (by simp [follow, hn])
      | cons l hs' =>
        obtain ⟨c, hcm, hop, rfl⟩ := hhs l (by simp)
        simp only [hn, follow] at h
        exact ⟨false, .raise hb hc hcm hop (jumpTo_at h), by simp⟩
    | halt => exact absurd h (by simp [follow, hn])

end

end Voila.Ir
