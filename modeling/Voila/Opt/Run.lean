import Voila.Low.KillRun
import Voila.Opt.TypingSound

/-!
# Voila.Opt.Run

The passes between lowering and the C backend, over a module: `insert_kills` on every function, then `Run`.

A pass looks at the other functions for their names and captures only, and keeps these (`Like`). So the functions may
be taken one after the other (`each_forall₂`), and each runs as before (`compile_obsEq`).
-/

namespace Voila.Opt

open Ir Lib Low List

/-! ### The passes -/

def elideNote : Instr where
  op := .comment
  args := ["opt: frame=stack".toList]

/-- `elide_func`. The slots of a frame on the C stack are those of one on the heap: what is left to see is the note. -/
def elideFunc (f : Func) : Func :=
  if f.nregs > 256 ∨ f.bodies.any (fun b => b.op == .mkclos || b.op == .defer) then f
  else { f with instrs := [elideNote] ++ f.instrs }

/-- `type_func`, with turns enough for its loops (`typeTable_some`). -/
def typed (m : Module) (f : Func) : Func := (typeFunc (2 * f.nregs + 1) m f).getD f

/-- A pass over function `fi`, in place. -/
def pass (p : Module → Func → Func) (m : Module) (fi : Nat) : Module :=
  { m with funcs := m.funcs.modify fi (p m) }

/-- The loop over the functions. -/
def each (turn : Module → Nat → Module) (m : Module) : Module := (List.range m.funcs.length).foldl turn m

/-- One turn of `Run`. -/
def runFunc (level : Int) (m : Module) (fi : Nat) : Module :=
  let m := pass shrinkFunc (pass dceFunc m fi) fi
  let m := if level ≥ 3 then pass typed m fi else m
  if level ≥ 2 then pass (fun _ => elideFunc) m fi else m

/-- `Run`. -/
def run (m : Module) (level : Int) : Module := if level < 1 then m else each (runFunc level) m

/-- The end of lowering, and `Run`. -/
def compile (m : Module) (level : Int) : Module := run (each (pass insertKills) m) level

/-! ### Modules that differ in code only -/

section

variable {m m' : Module} {f f' : Func}

/-- What the functions of a module know of a function. -/
def sig (f : Func) : Str × List UpRef := (f.name, f.ups)

def Like (m m' : Module) : Prop := m'.consts = m.consts ∧ m'.funcs.map sig = m.funcs.map sig

theorem Like.symm (h : Like m m') : Like m' m := ⟨h.1.symm, h.2.symm⟩

theorem Like.upSlots (h : Like m m') (f : Func) : m'.upSlots f = m.upSlots f := by
  have eq (m : Module) : m.upSlots f =
      ((m.funcs.map sig).filter fun s => s.1.startsWith (f.name ++ ['$', 'f', 'n'])).flatMap fun s =>
        s.2.filterMap UpRef.slot := by
    simp [Module.upSlots, Module.descendants, filter_map, flatMap_map, Function.comp_def, sig]
  rw [eq, eq, h.2]

variable {V W : Type*} {x : Runtime V W}

theorem Like.machine (h : Like m m') (f : Func) : machine x m' f = machine x m f := by
  unfold Ir.machine exec execBody operand
  simp only [h.1, h.upSlots]

theorem Like.passed {P : Func → Prop} {p : Module → Func → Func} {fi : Nat} (h : Like m m')
    (hf : m'.funcs[fi]? = some f) (hsig : sig (p m' f) = sig f) (hP : P (p m' f)) :
    Like m (pass p m' fi) ∧ ∃ f' ∈ (pass p m' fi).funcs[fi]?, P f' := by
  refine ⟨⟨h.1, h.2 ▸ ext_getElem? fun i => ?_⟩, p m' f, by simp [Opt.pass, hf], hP⟩
  simp only [Opt.pass, List.getElem?_map, getElem?_modify]
  by_cases hi : fi = i
  · subst hi
    simp [hf, hsig]
  · simp [hi]

/-- A loop that changes function `fi` in turn `fi`, whatever the turns before made of the others. -/
theorem each_forall₂ {turn : Module → Nat → Module} {P : Func → Func → Prop}
    (hother : ∀ m fi i, i ≠ fi → (turn m fi).funcs[i]? = m.funcs[i]?)
    (hturn : ∀ m' fi, ∀ f ∈ m.funcs, Like m m' → m'.funcs[fi]? = some f →
      Like m (turn m' fi) ∧ ∃ f' ∈ (turn m' fi).funcs[fi]?, P f f') :
    Like m (each turn m) ∧ Forall₂ P m.funcs (each turn m).funcs := by
  have upto (n : Nat) (hn : n ≤ m.funcs.length) : Like m ((List.range n).foldl turn m) ∧
      (∀ i < n, ∀ f ∈ m.funcs[i]?, ∃ f' ∈ ((List.range n).foldl turn m).funcs[i]?, P f f') ∧
        ∀ i, n ≤ i → ((List.range n).foldl turn m).funcs[i]? = m.funcs[i]? := by
    induction n with
    | zero => exact ⟨⟨rfl, rfl⟩, fun i hi => absurd hi (Nat.not_lt_zero i), fun _ _ => rfl⟩
    | succ n ih =>
      obtain ⟨like, done, rest⟩ := ih (Nat.le_of_succ_le hn)
      rw [range_succ, foldl_append]
      generalize (List.range n).foldl turn m = m' at like done rest
      have here := List.getElem?_eq_getElem hn
      obtain ⟨like', f', hf', hP⟩ := hturn m' n _ (getElem_mem hn) like ((rest n (Nat.le_refl n)).trans here)
      refine ⟨like', fun i hi f hf => ?_, fun i hi => (hother m' n i (by omega)).trans (rest i (by omega))⟩
      obtain hi | rfl := Nat.lt_succ_iff_lt_or_eq.mp hi
      · exact hother m' n i (Nat.ne_of_lt hi) ▸ done i hi f hf
      · exact ⟨f', hf', Option.some.inj (here.symm.trans hf) ▸ hP⟩
  obtain ⟨like, all, -⟩ := upto _ (Nat.le_refl _)
  have length : m.funcs.length = (each turn m).funcs.length := by
    simpa [each] using (congrArg List.length like.2).symm
  refine ⟨like, forall₂_iff_get.mpr ⟨length, fun i hi hi' => ?_⟩⟩
  obtain ⟨f', hf', hP⟩ := all i hi _ (List.getElem?_eq_getElem hi)
  obtain ⟨_, rfl⟩ := List.getElem?_eq_some_iff.mp hf'
  exact hP

end

/-! ### One function -/

section

variable {V W : Type*} {x : Runtime V W} {m m' : Module} {f f' : Func}

/-- `f'` stands for `f`: other functions see the same of it, and it runs alike. -/
def Stands (x : Runtime V W) (m : Module) (f f' : Func) : Prop :=
  sig f' = sig f ∧ ∀ args w, ObsEq (machine x m f) (machine x m f') (entry x f args w) (entry x f' args w)

theorem Stands.refl : Stands x m f f := ⟨rfl, fun _ _ => ObsEq.refl _ _⟩

theorem Stands.trans {f'' : Func} (h : Stands x m f f') (h' : Stands x m f' f'') : Stands x m f f'' :=
  ⟨h'.1.trans h.1, fun args w => (h.2 args w).trans (h'.2 args w)⟩

theorem Stands.like (h : Like m m') : Stands x m' f f' ↔ Stands x m f f' := by
  unfold Stands
  rw [h.machine f, h.machine f']

/-- Comments at the head of the code are not observed. -/
theorem stands_notes {ns : List Instr} (hns : ∀ i ∈ ns, IsNote i) (t : List RegType) :
    Stands x m f { f with instrs := ns ++ f.instrs, regT := t } := by
  refine ⟨rfl, fun args w => ?_⟩
  have code : (Func.bodies { f with instrs := ns ++ f.instrs, regT := t }) = ns.map Instr.toBody ++ f.bodies := by
    simp [Func.bodies]
  have padded : Padded m (fun _ => True) f { f with instrs := ns ++ f.instrs, regT := t } (· - ns.length) := by
    refine ⟨rfl, rfl, rfl, Nat.zero_sub _, fun l => ?_, fun p hp => ?_, fun p b hb => ?_⟩
    · have none : ns.findIdx? (fun i => decide (l ∈ i.labels)) = none :=
        findIdx?_eq_none_iff.mpr fun i hi => by simp [(hns i hi).2.1]
      simp [Func.labelIdx, findIdx?_append, none, Function.comp_def]
    · rw [code, getElem?_eq_none_iff, length_append, length_map] at hp
      exact getElem?_eq_none_iff.mpr (by omega)
    · obtain hp | hp := Nat.lt_or_ge p ns.length
      · right
        rw [code, List.getElem?_append_left (by simpa using hp), List.getElem?_map, Option.map_eq_some_iff] at hb
        obtain ⟨i, hi, rfl⟩ := hb
        refine ⟨Or.inl ?_, by omega⟩
        rw [(hns i (mem_of_getElem? hi)).1]
        rfl
      · left
        rw [code, List.getElem?_append_right (by simpa using hp), length_map] at hb
        refine ⟨hb, ?_, by omega⟩
        have quiet : ((ns.map Instr.toBody).take p).filter (·.op.isSel) = [] := by
          refine filter_eq_nil_iff.mpr fun b hb => ?_
          obtain ⟨i, hi, rfl⟩ := mem_map.mp (mem_of_mem_take hb)
          simp [(hns i hi).1, Op.isSel, Op.isCase]
        unfold Func.cases
        rw [code, take_append, filter_append, quiet, nil_append, length_map]
  exact (padded.obsEq (fun _ _ => trivial) (fun _ hr => absurd trivial hr) args w).symm

theorem isNote_elide : ∀ i ∈ [elideNote], IsNote i := by
  intro i hi
  exact mem_singleton.mp hi ▸ ⟨rfl, rfl, rfl, rfl⟩

theorem stands_elide : Stands x m f (elideFunc f) := by
  unfold elideFunc
  split
  · exact .refl
  · exact stands_notes isNote_elide f.regT

theorem typeFunc_typed : typeFunc (2 * f.nregs + 1) m f = some (typed m f) := by
  obtain ⟨t, ht⟩ := typeTable_some m f (Nat.lt_succ_self (2 * f.nregs))
  unfold typed typeFunc
  rw [ht]
  split <;> rfl

theorem stands_typed : Stands x m f (typed m f) := by
  have h := typeFunc_typed (m := m) (f := f)
  unfold typeFunc at h
  split at h
  · exact Option.some.inj h ▸ .refl
  · obtain ⟨t, -, ht⟩ := Option.map_eq_some_iff.mp h
    split at ht
    · exact ht ▸ .refl
    · exact ht ▸ stands_notes isNote_typeNotes t

theorem stands_shrink : Stands x m f (shrinkFunc m f) := by
  obtain ⟨n, hn⟩ := shrinkFunc_eq m f
  exact ⟨by rw [hn]; rfl, fun args w => shrinkFunc_obsEq f args w⟩

/-- Deleting instructions leaves the rest of a function as it is. -/
theorem dceLoop_keeps {α : Type*} (P : Func → α) (hP : ∀ f is, P { f with instrs := is } = P f) (f : Func) :
    P (dceLoop m f) = P f := by
  induction f using dceLoop.induct (m := m) with
  | case1 f ii h ih =>
    rw [dceLoop, h]
    refine Eq.trans ih ?_
    unfold deleteInstr
    split
    · exact hP _ _
    · rfl
  | case2 f h => rw [dceLoop, h]

theorem stands_dce (hf : WellSpelled f) (hret : EndsRet f) : Stands x m f (dceFunc m f) :=
  ⟨dceLoop_keeps sig (fun _ _ => rfl) f, fun args w =>
    (dceLoop_obsEq hf hret args w).trans (pruneLabels_obsEq (dceLoop_wellSpelled hf hret) args w)⟩

theorem pass_other {p : Module → Func → Func} {fi i : Nat} (h : i ≠ fi) : (pass p m fi).funcs[i]? = m.funcs[i]? := by
  simp [pass, Ne.symm h]

/-- The table is none, or one that `type_func` stored. -/
def Ready (m : Module) (f : Func) : Prop := f.regT = [] ∨ Typed m f f.regT ∧ WellSpelled f

theorem Ready.like (h : Like m m') (hf : Ready m' f) : Ready m f := by
  refine hf.imp_right fun h' => ⟨⟨fun b hb => ?_, fun r hr => h'.1.hidden r ?_, h'.1.seen⟩, h'.2⟩
  · have def_type : defType m' b = defType m b := by
      unfold defType operandType constType
      rw [h.1]
    simpa only [ClosedAt, def_type] using h'.1.closed b hb
  · simpa only [Opt.pinned, h.upSlots] using hr

theorem ready_typed (hf : WellSpelled f) (hnil : f.regT = []) : Ready m (typed m f) :=
  typeFunc_inv hf hnil typeFunc_typed

theorem Ready.elide (h : Ready m f) : Ready m (elideFunc f) := by
  unfold elideFunc
  split
  · exact h
  · exact h.imp_right fun h => ⟨h.1.notes isNote_elide, wellSpelled_notes isNote_elide h.2⟩

theorem dceFunc_wellSpelled (hf : WellSpelled f) (hret : EndsRet f) : WellSpelled (dceFunc m f) := by
  unfold WellSpelled dceFunc
  rw [pruneLabels_bodies]
  exact dceLoop_wellSpelled hf hret

/-- A pass whose result stands for what it took. -/
theorem Stands.passed {g : Func} {Q : Func → Prop} {p : Module → Func → Func} {fi : Nat} (like : Like m m')
    (hg : m'.funcs[fi]? = some g) (s : Stands x m f g) (hp : Stands x m' g (p m' g)) (hQ : Q (p m' g)) :
    Like m (pass p m' fi) ∧ ∃ f' ∈ (pass p m' fi).funcs[fi]?, Stands x m f f' ∧ Q f' :=
  like.passed hg hp.1 ⟨s.trans ((Stands.like like).mp hp), hQ⟩

/-- A pass of some levels. -/
theorem Stands.when {c : Prop} [Decidable c] {g : Func} {Q : Func → Prop} {p : Module → Func → Func} {fi : Nat}
    (like : Like m m') (hg : m'.funcs[fi]? = some g) (s : Stands x m f g) (hp : Stands x m' g (p m' g))
    (hQ : Q (p m' g)) (hskip : Q g) :
    Like m (if c then pass p m' fi else m') ∧
      ∃ f' ∈ (if c then pass p m' fi else m').funcs[fi]?, Stands x m f f' ∧ Q f' := by
  split
  · exact s.passed like hg hp hQ
  · exact ⟨like, g, hg, s, hskip⟩

/-! ### The module -/

theorem run_stands (hm : ∀ f ∈ m.funcs, WellSpelled f ∧ EndsRet f) (level : Int) :
    Like m (run m level) ∧
      Forall₂ (fun f f' => Stands x m f f' ∧ (f.regT = [] → Ready m f')) m.funcs (run m level).funcs := by
  unfold run
  split
  · exact ⟨⟨rfl, rfl⟩, forall₂_same.mpr fun _ _ => ⟨.refl, Or.inl⟩⟩
  refine each_forall₂ (fun m fi i hi => ?_) fun m' fi f hf like here => ?_
  · unfold runFunc
    dsimp only
    split <;> split <;> simp only [pass_other hi]
  -- no pass before `type_func` stores a type
  let early (g : Func) := WellSpelled g ∧ (f.regT = [] → g.regT = [])
  let late (g : Func) := f.regT = [] → Ready m g
  obtain ⟨spelled, ends⟩ := hm f hf
  obtain ⟨like, f₁, here, s₁, spelled₁, nil₁⟩ := Stands.passed (Q := early) like here .refl (stands_dce spelled ends)
    ⟨dceFunc_wellSpelled spelled ends, (dceLoop_keeps Func.regT (fun _ _ => rfl) f).trans⟩
  obtain ⟨n, shrunk⟩ := shrinkFunc_eq (pass dceFunc m' fi) f₁
  obtain ⟨like, f₂, here, s₂, spelled₂, nil₂⟩ := Stands.passed (Q := early) like here s₁ stands_shrink
    (by rw [shrunk]; exact ⟨spelled₁, nil₁⟩)
  obtain ⟨like, f₃, here, s₃, ready₃⟩ := Stands.when (c := level ≥ 3) (Q := late) like here s₂ stands_typed
    (fun nil => .like like (ready_typed spelled₂ (nil₂ nil))) fun nil => Or.inl (nil₂ nil)
  exact Stands.when (p := fun _ => elideFunc) (Q := late) like here s₃ stands_elide (fun nil => (ready₃ nil).elide) ready₃

/-- What `LowerModule` leaves of a function for `insert_kills`. -/
def Comes (x : Runtime V W) (m : Module) (f : Func) : Prop :=
  Lowered (killBase f) ∧ (hasHandler f = true → Defined f) ∧ EndsRet (killBase f) ∧
    Fills x (killBase f) (· ∈ Low.pinned m (killBase f))

theorem kills_stand (hm : ∀ f ∈ m.funcs, Comes x m f) :
    Like m (each (pass insertKills) m) ∧ Forall₂ (fun f f' => Stands x m (killBase f) f' ∧
      (WellSpelled f' ∧ EndsRet f') ∧ f'.regT = f.regT) m.funcs (each (pass insertKills) m).funcs := by
  refine each_forall₂ (fun m fi i hi => pass_other hi) fun m' fi f hf like here => ?_
  obtain ⟨lowered, defined, ends, fills⟩ := hm f hf
  have same : Low.pinned m' (killBase f) = Low.pinned m (killBase f) := by
    unfold Low.pinned
    rw [like.upSlots]
  have base : sig (killBase f) = sig f ∧ (killBase f).regT = f.regT := by
    unfold killBase
    split <;> exact ⟨rfl, rfl⟩
  have runs : Stands x m' (killBase f) (insertKills m' f) :=
    ⟨rfl, fun args w => (insertKills_obsEq lowered defined (same ▸ fills) args w).symm⟩
  exact like.passed here base.1
    ⟨(Stands.like like).mp runs, ⟨insertKills_wellSpelled lowered, insertKills_endsRet ends⟩, base.2⟩

theorem compile_stands (hm : ∀ f ∈ m.funcs, Comes x m f) (level : Int) :
    Like m (compile m level) ∧ Forall₂ (fun f f' => Stands x m (killBase f) f' ∧ (f.regT = [] → Ready m f'))
      m.funcs (compile m level).funcs := by
  obtain ⟨like, killed⟩ := kills_stand hm
  obtain ⟨len, killed⟩ := forall₂_iff_get.mp killed
  obtain ⟨like', ran⟩ := run_stands (x := x) (m := each (pass insertKills) m) (fun f' hf' => by
    obtain ⟨i, hi, rfl⟩ := getElem_of_mem hf'
    exact (killed i (len ▸ hi) hi).2.1) level
  obtain ⟨len', ran⟩ := forall₂_iff_get.mp ran
  refine ⟨⟨like'.1.trans like.1, like'.2.trans like.2⟩, forall₂_iff_get.mpr ⟨len.trans len', fun i hi hi' => ?_⟩⟩
  obtain ⟨stands, -, untyped⟩ := killed i hi (len ▸ hi)
  obtain ⟨stands', ready⟩ := ran i (len ▸ hi) hi'
  exact ⟨stands.trans ((Stands.like like).mp stands'), fun nil => .like like (ready (untyped.trans nil))⟩

/-- From the same arguments, captured cells and world every function of the compiled module performs the operations on
the values that the one in its place does as lowered, without plain `KILL`s, and ends the same way. -/
def RunsAsLowered (x : Runtime V W) (m : Module) (level : Int) : Prop :=
  Forall₂ (fun f f' => ∀ args w, ObsEq (machine x m (killBase f)) (machine x (compile m level) f')
    (entry x (killBase f) args w) (entry x f' args w)) m.funcs (compile m level).funcs

end

end Voila.Opt
