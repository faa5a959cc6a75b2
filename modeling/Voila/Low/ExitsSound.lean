import Voila.Low.Exits

/-!
# Voila.Low.ExitsSound

What the code of a construct leaves behind on each edge by which control leaves it.

Groups, blocks with `numeric digits` and handlers are each restored on some edges and not on
others. All three follow one rule (`Keeps.run`): a part of the state that each construct hands
back, as long as what was left inside it was left well, is as it was after any run.
-/

open List

namespace Voila.Low.Exits

variable {F α : Type} {P : F → Func F} {e : Env} {c : Code F} {σ σ' : State F} {o : Outcome}
  {l l' : List Event}

theorem mem_unlessCut {ev ev' : Event} : ev ∈ unlessCut o ev' ↔ o ≠ .cut ∧ ev = ev' := by
  unfold unlessCut
  split <;> simp_all

theorem Outcome.exits_ne_cut (h : o.exits = true) : o ≠ .cut := by
  rintro rfl
  cases h

theorem Outcome.andThen_ne_cut {o o' : Outcome} (h : o.andThen o' ≠ .cut) : o' ≠ .cut := by
  rintro rfl
  exact h (if_neg nofun)

/-! ### A part of the state that every construct hands back -/

/-- The code sets the digits of the block that it is in. -/
def Code.sets : Code F → Bool
  | .stmt s => s.isNumeric
  | .list ss => hasNumeric ss
  | _ => false

/-- Where the digits matter (`D`), the code does not set those of its block. -/
def Free (D : Prop) (e : Env) (c : Code F) : Prop := D → e.inBlock = true → c.sets = false

theorem Free.of_sets {D : Prop} (h : c.sets = false) : Free D e c := fun _ _ => h

theorem Free.bare {D : Prop} (h : e.inBlock = false) : Free D e c :=
  fun _ ht => absurd (h.symm.trans ht) Bool.false_ne_true

theorem Free.cons {D : Prop} {s : Stmt F} {ss : List (Stmt F)} (h : Free D e (.list (s :: ss))) :
    Free D e (.stmt s) ∧ Free D e (.list ss) := by
  have hor : ∀ hd hb, s.isNumeric = false ∧ hasNumeric ss = false := fun hd hb => by
    simpa [Code.sets, hasNumeric] using h hd hb
  exact ⟨fun hd hb => (hor hd hb).1, fun hd hb => (hor hd hb).2⟩

theorem finCode_sets (fin : Option (List (Stmt F))) : (finCode fin).sets = false := by
  cases fin <;> rfl

/-- The statements of a block have run, each construct in them left as `W` says. -/
def Within (W : Event → Prop) (ss : List (Stmt F)) (σ : State F) (o : Outcome) (σ' : State F) :
    Prop :=
  ∃ P e l, Exec P e (.list ss) (enterBlock ss σ) o σ' l ∧ ∀ ev ∈ l, W ev

/-- The part `π` of the state is handed back by every construct, if each is left as `W` says;
then it is left as `S` says. A part that the digits in force belong to (`D`) is handed back by
what does not set those of the block it is in. -/
structure Keeps (D : Prop) (π : State F → α) (W S : Event → Prop) : Prop where
  live : ∀ (σ : State F) live, π { σ with live := live } = π σ
  digits : ∀ (σ : State F) inBlock digits, (D → inBlock = false) → W (.set inBlock σ.digits digits) →
    π { σ with digits := digits } = π σ
  defers : ∀ (σ : State F) defers, π { σ with defers := defers } = π σ
  set : ∀ inBlock before after, S (.set inBlock before after)
  fin : ∀ h next, S (.finallyRan h next)
  block : ∀ {ss σ σ₁ o}, o ≠ .cut → Within W ss σ o σ₁ →
    ((D → hasNumeric ss = false) → π σ₁ = π (enterBlock ss σ)) →
    W (leftBlock ss σ o (leaveBlock ss o σ₁)) →
    π (leaveBlock ss o σ₁) = π σ ∧ S (leftBlock ss σ o (leaveBlock ss o σ₁))
  group : ∀ {σ σ₁ σ₂ o}, o.exits = true → π σ₁ = π σ.groupBegin → σ₁.GroupEnd σ₂ →
    W (leftGroup σ o σ₂) → π σ₂ = π σ ∧ S (leftGroup σ o σ₂)
  groupOut : ∀ {σ σ₁ o}, o ≠ .cut → o.exits = false → π σ₁ = π σ.groupBegin →
    W (leftGroup σ o σ₁) → π σ₁ = π σ ∧ S (leftGroup σ o σ₁)
  pop : ∀ {σ σ₁}, π σ₁ = π σ.ehPush → π σ₁.ehPop = π σ
  attempt : ∀ {σ σ₁ o}, o ≠ .cut → o ≠ .next → o ≠ .thrown σ.nextHandler → π σ₁ = π σ.ehPush →
    W (leftAttempt σ o σ₁) → π σ₁ = π σ ∧ S (leftAttempt σ o σ₁)
  tryOut : ∀ {fin σ σ₁ o}, o ≠ .cut → o.exits = false → o ≠ .thrown σ.nextHandler →
    π σ₁ = π σ.ehPush → W (leftTry fin .body σ o σ₁) →
    π σ₁ = π σ ∧ S (leftTry fin .body σ o σ₁)
  tryEnd : ∀ {fin via σ σ₁ o}, π σ₁ = π σ → W (leftTry fin via σ o σ₁) → S (leftTry fin via σ o σ₁)

variable {D : Prop} {π : State F → α} {W S : Event → Prop}

theorem Keeps.drift (hk : Keeps D π W S) (h : σ.Drift σ') : π σ' = π σ := by
  obtain ⟨live, rfl, -⟩ := h
  exact hk.live σ live

theorem Keeps.finEvents (hk : Keeps D π W S) (σ σ' : State F) (fin : Option (List (Stmt F))) :
    ∀ ev ∈ finEvents σ σ' fin, S ev := by
  cases fin with
  | none => nofun
  | some => simpa [Exits.finEvents] using hk.fin _ _

theorem Keeps.run (hk : Keeps D π W S) (h : Exec P e c σ o σ' l) (hl : ∀ ev ∈ l, W ev) :
    (o ≠ .cut → Free D e c → π σ' = π σ) ∧ ∀ ev ∈ l, S ev := by
  induction h with
  | cut => exact ⟨fun h => absurd rfl h, forall_mem_nil _⟩
  | eval hd => exact ⟨fun _ _ => hk.drift hd, forall_mem_nil _⟩
  | evalThrows | throw | tryp | trypFails | trypRaises =>
    exact ⟨fun _ _ => rfl, forall_mem_nil _⟩
  | spawn => exact ⟨fun _ _ => hk.live _ _, forall_mem_nil _⟩
  | @numeric e =>
    refine ⟨fun _ hf => hk.digits _ e.inBlock _ (fun hd => ?_) (hl _ (mem_singleton_self _)),
      by simpa using hk.set _ _ _⟩
    exact Bool.eq_false_iff.mpr fun hb => absurd (hf hd hb) nofun
  | deferStmt => exact ⟨fun _ _ => hk.defers _ _, forall_mem_nil _⟩
  | call _ ih | switch _ ih | armsOut _ _ ih | loop _ ih | turnsExit _ ih =>
    exact ⟨fun ho _ => (ih hl).1 ho (.of_sets rfl), (ih hl).2⟩
  | bare _ ih => exact ⟨fun ho _ => (ih hl).1 ho (.bare rfl), (ih hl).2⟩
  | choose _ _ ih => exact ⟨fun ho _ => (ih hl).1 ho (.bare rfl), (ih hl).2⟩
  | listOut _ _ ih => exact ⟨fun ho hf => (ih hl).1 ho hf.cons.1, (ih hl).2⟩
  | listNil | armsNil | brk | cont | ret | fallthrough | defersNil =>
    exact ⟨fun _ _ => rfl, forall_mem_nil _⟩
  | func _ hc _ ihb ihd =>
    obtain ⟨hl₁, hl₂⟩ := forall_mem_append.mp hl
    refine ⟨fun ho _ => ?_, forall_mem_append.mpr ⟨(ihb hl₁).2, (ihd hl₂).2⟩⟩
    rw [hk.defers, (ihd hl₂).1 (Outcome.andThen_ne_cut ho) (.of_sets rfl),
      (ihb hl₁).1 hc (.of_sets rfl), hk.defers]
  | funcCut _ ih => exact ⟨fun h => absurd rfl h, (ih hl).2⟩
  | defersCons _ _ hc _ ihf ihd =>
    obtain ⟨hl₁, hl₂⟩ := forall_mem_append.mp hl
    refine ⟨fun ho _ => ?_, forall_mem_append.mpr ⟨(ihf hl₁).2, (ihd hl₂).2⟩⟩
    rw [(ihd hl₂).1 (Outcome.andThen_ne_cut ho) (.of_sets rfl), (ihf hl₁).1 hc (.of_sets rfl),
      hk.defers]
  | defersCut _ _ ih => exact ⟨fun h => absurd rfl h, (ih hl).2⟩
  | listCons _ _ ihs ihl =>
    obtain ⟨hl₁, hl₂⟩ := forall_mem_append.mp hl
    refine ⟨fun ho hf => ?_, forall_mem_append.mpr ⟨(ihs hl₁).2, (ihl hl₂).2⟩⟩
    rw [(ihl hl₂).1 ho hf.cons.2, (ihs hl₁).1 nofun hf.cons.1]
  | armsFall _ _ iha ihr =>
    obtain ⟨hl₁, hl₂⟩ := forall_mem_append.mp hl
    refine ⟨fun ho _ => ?_, forall_mem_append.mpr ⟨(iha hl₁).2, (ihr hl₂).2⟩⟩
    rw [(ihr hl₂).1 ho (.of_sets rfl), (iha hl₁).1 nofun (.of_sets rfl)]
  | turnsAgain _ hagain _ ihb ihr =>
    obtain ⟨hl₁, hl₂⟩ := forall_mem_append.mp hl
    refine ⟨fun ho _ => ?_, forall_mem_append.mpr ⟨(ihb hl₁).2, (ihr hl₂).2⟩⟩
    rw [(ihr hl₂).1 ho (.of_sets rfl),
      (ihb hl₁).1 (by rintro rfl; cases hagain) (.of_sets rfl)]
  | turnsOut _ _ ih =>
    refine ⟨fun ho _ => (ih hl).1 ?_ (.of_sets rfl), (ih hl).2⟩
    rintro rfl
    exact ho rfl
  | block hrun ih =>
    obtain ⟨hl₁, hl₂⟩ := forall_mem_append.mp hl
    have hin := fun ho (hf : D → _) => (ih hl₁).1 ho fun hd _ => hf hd
    refine ⟨fun ho _ => ?_, forall_mem_append.mpr ⟨(ih hl₁).2, fun ev hev => ?_⟩⟩
    · exact (hk.block ho ⟨_, _, _, hrun, hl₁⟩ (hin ho) (hl₂ _ (mem_unlessCut.mpr ⟨ho, rfl⟩))).1
    · obtain ⟨ho, rfl⟩ := mem_unlessCut.mp hev
      exact (hk.block ho ⟨_, _, _, hrun, hl₁⟩ (hin ho) (hl₂ _ hev)).2
  | group _ hex hend _ ih =>
    obtain ⟨hl₁, hl₂⟩ := forall_mem_append.mp hl
    have hkept := hk.group hex ((ih hl₁).1 (Outcome.exits_ne_cut hex) (.of_sets rfl)) hend
      (hl₂ _ (mem_singleton_self _))
    exact ⟨fun _ _ => hkept.1, forall_mem_append.mpr ⟨(ih hl₁).2, by simpa using hkept.2⟩⟩
  | groupOut _ hex ih =>
    obtain ⟨hl₁, hl₂⟩ := forall_mem_append.mp hl
    refine ⟨fun ho _ => ?_, forall_mem_append.mpr ⟨(ih hl₁).2, fun ev hev => ?_⟩⟩
    · exact (hk.groupOut ho hex ((ih hl₁).1 ho (.of_sets rfl)) (hl₂ _ (mem_unlessCut.mpr ⟨ho, rfl⟩))).1
    · obtain ⟨ho, rfl⟩ := mem_unlessCut.mp hev
      exact (hk.groupOut ho hex ((ih hl₁).1 ho (.of_sets rfl)) (hl₂ _ hev)).2
  | attempt _ ih => exact ⟨fun _ _ => hk.pop ((ih hl).1 nofun (.of_sets rfl)), (ih hl).2⟩
  | attemptCatches _ _ ih => exact ⟨fun _ _ => hk.pop ((ih hl).1 nofun (.of_sets rfl)), (ih hl).2⟩
  | attemptOut _ hn ht ih =>
    obtain ⟨hl₁, hl₂⟩ := forall_mem_append.mp hl
    refine ⟨fun ho _ => ?_, forall_mem_append.mpr ⟨(ih hl₁).2, fun ev hev => ?_⟩⟩
    · exact (hk.attempt ho hn ht ((ih hl₁).1 ho (.of_sets rfl)) (hl₂ _ (mem_unlessCut.mpr ⟨ho, rfl⟩))).1
    · obtain ⟨ho, rfl⟩ := mem_unlessCut.mp hev
      exact (hk.attempt ho hn ht ((ih hl₁).1 ho (.of_sets rfl)) (hl₂ _ hev)).2
  | tryExits _ hex _ ihb ihf =>
    simp only [forall_mem_append] at hl ⊢
    obtain ⟨⟨⟨hl₁, -⟩, hl₂⟩, hl₃⟩ := hl
    have hback := fun ho' => ((ihf hl₂).1 ho' (.of_sets (finCode_sets _))).trans
      (hk.pop ((ihb hl₁).1 (Outcome.exits_ne_cut hex) (.of_sets rfl)))
    refine ⟨fun ho _ => hback (Outcome.andThen_ne_cut ho),
      ⟨⟨(ihb hl₁).2, hk.finEvents _ _ _⟩, (ihf hl₂).2⟩, fun ev hev => ?_⟩
    obtain ⟨ho, rfl⟩ := mem_unlessCut.mp hev
    exact hk.tryEnd (hback (Outcome.andThen_ne_cut ho)) (hl₃ _ hev)
  | tryOut _ hex hne ih =>
    obtain ⟨hl₁, hl₂⟩ := forall_mem_append.mp hl
    refine ⟨fun ho _ => ?_, forall_mem_append.mpr ⟨(ih hl₁).2, fun ev hev => ?_⟩⟩
    · exact (hk.tryOut ho hex hne ((ih hl₁).1 ho (.of_sets rfl)) (hl₂ _ (mem_unlessCut.mpr ⟨ho, rfl⟩))).1
    · obtain ⟨ho, rfl⟩ := mem_unlessCut.mp hev
      exact (hk.tryOut ho hex hne ((ih hl₁).1 ho (.of_sets rfl)) (hl₂ _ hev)).2
  | tryCatches _ _ _ hex _ ihb ihc ihf =>
    simp only [forall_mem_append] at hl ⊢
    obtain ⟨⟨⟨⟨hl₁, hl₂⟩, -⟩, hl₃⟩, hl₄⟩ := hl
    have hback := fun ho' => ((ihf hl₃).1 ho' (.of_sets (finCode_sets _))).trans
      (((ihc hl₂).1 (Outcome.exits_ne_cut hex) (.of_sets rfl)).trans (hk.pop ((ihb hl₁).1 nofun (.of_sets rfl))))
    refine ⟨fun ho _ => hback (Outcome.andThen_ne_cut ho),
      ⟨⟨⟨(ihb hl₁).2, (ihc hl₂).2⟩, hk.finEvents _ _ _⟩, (ihf hl₃).2⟩, fun ev hev => ?_⟩
    obtain ⟨ho, rfl⟩ := mem_unlessCut.mp hev
    exact hk.tryEnd (hback (Outcome.andThen_ne_cut ho)) (hl₄ _ hev)
  | tryCatchesOut _ _ _ hex ihb ihc =>
    simp only [forall_mem_append] at hl ⊢
    obtain ⟨⟨hl₁, hl₂⟩, hl₃⟩ := hl
    have hback := fun ho => ((ihc hl₂).1 ho (.of_sets rfl)).trans (hk.pop ((ihb hl₁).1 nofun (.of_sets rfl)))
    refine ⟨fun ho _ => hback ho, ⟨(ihb hl₁).2, (ihc hl₂).2⟩, fun ev hev => ?_⟩
    obtain ⟨ho, rfl⟩ := mem_unlessCut.mp hev
    exact hk.tryEnd (hback ho) (hl₃ _ hev)
  | @tryUncaught _ _ _ _ _ _ _ o _ _ o' _ _ ho' ihb ihf =>
    simp only [forall_mem_append] at hl ⊢
    obtain ⟨⟨⟨hl₁, -⟩, hl₂⟩, hl₃⟩ := hl
    have hne : o' ≠ .cut → o ≠ .cut := by
      rintro hcut rfl
      rw [if_neg nofun] at ho'
      exact hcut ho'
    have hback := fun ho => ((ihf hl₂).1 (hne ho) (.of_sets (finCode_sets _))).trans (hk.pop ((ihb hl₁).1 nofun (.of_sets rfl)))
    refine ⟨fun ho _ => hback ho, ⟨⟨(ihb hl₁).2, hk.finEvents _ _ _⟩, (ihf hl₂).2⟩, fun ev hev => ?_⟩
    obtain ⟨ho, rfl⟩ := mem_unlessCut.mp hev
    exact hk.tryEnd (hback ho) (hl₃ _ hev)

/-! ### Groups -/

/-- A group was left on an edge on which it is ended. -/
def Event.groupEnded : Event → Prop
  | .leftGroup _ _ edge _ _ => edge.exits = true
  | _ => True

/-- Past a group, the thread is in the group it was in before, and no task of it is left. -/
def Event.groupKept : Event → Prop
  | .leftGroup _ entry _ after live => after = entry ∧ live = 0
  | _ => True

theorem groups_keep : Keeps (F := F) False State.group (fun ev => ev.groupEnded ∨ ev.groupKept)
    (fun ev => ev.groupEnded ∧ ev.groupKept) where
  live _ _ := rfl
  digits _ _ _ _ _ := rfl
  defers _ _ := rfl
  set _ _ _ := ⟨trivial, trivial⟩
  fin _ _ := ⟨trivial, trivial⟩
  block := by
    intro ss σ σ₁ o _ _ hin _
    have henter : (enterBlock ss σ).group = σ.group := by unfold enterBlock; split <;> rfl
    have hleave : (leaveBlock ss o σ₁).group = σ₁.group := by
      unfold leaveBlock State.digitsRestore
      split <;> [split; skip] <;> rfl
    exact ⟨hleave.trans ((hin False.elim).trans henter), trivial, trivial⟩
  group := by
    intro σ σ₁ σ₂ o hex hin hend _
    -- the current group is the one that was begun
    have hg : σ₁.group = σ.nextGroup :: σ.group := hin
    unfold State.GroupEnd at hend
    rw [hg] at hend
    obtain ⟨live, rfl, hzero, -⟩ := hend
    exact ⟨rfl, hex, rfl, hzero⟩
  groupOut := by
    intro σ σ₁ o _ hex hin hw
    have hg : σ₁.group = σ.nextGroup :: σ.group := hin
    exfalso
    rcases hw with hended | ⟨hkept, -⟩
    · exact Bool.false_ne_true (hex.symm.trans hended)
    · rw [hg] at hkept
      simp at hkept
  pop hin := hin
  attempt _ _ _ hin _ := ⟨hin, trivial, trivial⟩
  tryOut _ _ _ hin _ := ⟨hin, trivial, trivial⟩
  tryEnd _ _ := ⟨trivial, trivial⟩

/-- The groups of a run are all restored, each with no task left, if and only if each is left by
its end, a return, a break or a continue. -/
theorem groups_restored {f : F} (h : Exec P e (.func f) σ o σ' l) :
    (∀ ev ∈ l, ev.groupKept) ↔ ∀ ev ∈ l, ev.groupEnded := by
  constructor
  · intro hk ev hev
    exact ((groups_keep.run h fun ev hev => .inr (hk ev hev)).2 ev hev).1
  · intro he ev hev
    exact ((groups_keep.run h fun ev hev => .inl (he ev hev)).2 ev hev).2

/-- A program of one function. -/
def onlyFunc (canFail : Bool) (body : List (Stmt Unit)) : Unit → Func Unit := fun _ => ⟨body, canFail⟩

/-- A call of it, in which nothing is deferred. -/
theorem exec_onlyFunc {canFail : Bool} {body : List (Stmt Unit)} {σ σ₁ : State Unit}
    {fs : List (List Unit)}
    (h : Exec (onlyFunc canFail body) ⟨canFail, false, true⟩ (.stmt (.block body))
      { σ with defers := [] :: σ.defers } o σ₁ l)
    (ho : o ≠ .cut) (hd : σ₁.defers = [] :: fs) :
    Exec (onlyFunc canFail body) e (.func ()) σ o.ofBody { σ₁ with defers := σ.defers } l := by
  have hcall := Exec.func (e := e) (f := ()) h ho (.defersNil hd)
  rw [List.append_nil] at hcall
  exact hcall

/-- A thread in its first call. -/
def called : State Unit := { (State.start : State Unit) with defers := [[]] }

/-- It in a group that it has just begun, and with one task spawned in it. -/
def groupOfNone : State Unit := called.groupBegin

def groupOfOne : State Unit :=
  { groupOfNone with live := Function.update groupOfNone.live 0 (groupOfNone.live 0 + 1) }

/-- A function that returns out of a group with a task in it: the group is ended first. -/
theorem groups_restored_return : ∃ (σ' : State Unit) (l : List Event),
    Exec (onlyFunc false [.group false [.spawn, .ret]]) ⟨true, false, true⟩ (.func ()) .start .next
      σ' l ∧ .leftGroup 0 [] .ret [] 0 ∈ l ∧ ∀ ev ∈ l, ev.groupKept := by
  have hspawn : Exec (onlyFunc false [.group false [.spawn, .ret]]) ⟨false, false, true⟩
      (.stmt .spawn) groupOfNone .next groupOfOne [] := .spawn rfl
  have hlist : Exec (onlyFunc false [.group false [.spawn, .ret]]) ⟨false, false, true⟩
      (.list [.spawn, .ret]) groupOfNone .ret groupOfOne [] :=
    .listCons hspawn (.listOut .ret nofun)
  have hblock : Exec (onlyFunc false [.group false [.spawn, .ret]]) ⟨false, false, true⟩
      (.stmt (.block [.spawn, .ret])) groupOfNone .ret groupOfOne
      [.leftBlock false (28, []) .ret (28, [])] :=
    (.block hlist : Exec _ ⟨false, false, true⟩ (.stmt (.block _)) groupOfNone _ _ _)
  have hend : groupOfOne.GroupEnd { called with nextGroup := 1 } := by
    show ∃ live, _ = { groupOfOne with group := [], live := live } ∧ live 0 = 0 ∧
      ∀ g, groupOfOne.live g = 0 → live g = 0
    exact ⟨fun _ => 0, rfl, rfl, fun _ _ => rfl⟩
  have hgroup : Exec (onlyFunc false [.group false [.spawn, .ret]]) ⟨false, false, true⟩
      (.stmt (.group false [.spawn, .ret])) called .ret
      { called with nextGroup := 1 }
      [.leftBlock false (28, []) .ret (28, []), .leftGroup 0 [] .ret [] 0] :=
    .group hblock rfl hend (.inl rfl)
  have h : Exec (onlyFunc false [.group false [.spawn, .ret]]) ⟨true, false, true⟩ (.func ()) .start
      .next { State.start with nextGroup := 1 }
      [.leftBlock false (28, []) .ret (28, []), .leftGroup 0 [] .ret [] 0,
        .leftBlock false (28, []) .ret (28, [])] :=
    exec_onlyFunc (.block (.listOut hgroup nofun)) nofun rfl
  exact ⟨_, _, h, by simp, (groups_restored h).mpr (by simp [Event.groupEnded, Outcome.exits])⟩

/-- A failure that propagates out of a group leaves its task alive and the thread in the group. -/
theorem group_tryp_left : ∃ (σ' : State Unit) (l : List Event),
    Exec (onlyFunc true [.group false [.spawn, .tryp]]) ⟨true, false, true⟩ (.func ()) .start .next
      σ' l ∧ σ'.group = [0] ∧ σ'.live 0 = 1 ∧ ¬ ∀ ev ∈ l, ev.groupKept := by
  have hspawn : Exec (onlyFunc true [.group false [.spawn, .tryp]]) ⟨true, false, true⟩
      (.stmt .spawn) groupOfNone .next groupOfOne [] := .spawn rfl
  have hlist : Exec (onlyFunc true [.group false [.spawn, .tryp]]) ⟨true, false, true⟩
      (.list [.spawn, .tryp]) groupOfNone .fail groupOfOne [] :=
    .listCons hspawn (.listOut (.trypFails rfl) nofun)
  have hblock : Exec (onlyFunc true [.group false [.spawn, .tryp]]) ⟨true, false, true⟩
      (.stmt (.block [.spawn, .tryp])) groupOfNone .fail groupOfOne
      [.leftBlock false (28, []) .fail (28, [])] :=
    (.block hlist : Exec _ ⟨true, false, true⟩ (.stmt (.block _)) groupOfNone _ _ _)
  have hgroup : Exec (onlyFunc true [.group false [.spawn, .tryp]]) ⟨true, false, true⟩
      (.stmt (.group false [.spawn, .tryp])) called .fail groupOfOne
      [.leftBlock false (28, []) .fail (28, []), .leftGroup 0 [] .fail [0] 1] :=
    .groupOut hblock rfl
  have h : Exec (onlyFunc true [.group false [.spawn, .tryp]]) ⟨true, false, true⟩ (.func ()) .start
      .next { groupOfOne with defers := [] }
      [.leftBlock false (28, []) .fail (28, []), .leftGroup 0 [] .fail [0] 1,
        .leftBlock false (28, []) .fail (28, [])] :=
    exec_onlyFunc (.block (.listOut hgroup nofun)) nofun rfl
  exact ⟨_, _, h, rfl, rfl, by simp [Event.groupKept]⟩

/-! ### The digits -/

/-- A block that saves the digits was left by its end. -/
def Event.blockEnded : Event → Prop
  | .leftBlock numeric _ edge _ => numeric = true → edge = .next
  | _ => True

/-- Past a block, the digits in force and the stack of saved ones are those before it. -/
def Event.digitsKept : Event → Prop
  | .leftBlock _ entry _ after => after = entry
  | _ => True

/-- A `numeric digits` statement stood in a block, or changed nothing. -/
def Event.setInBlock : Event → Prop
  | .set inBlock before after => inBlock = true ∨ after = before
  | _ => True

theorem groupEnd_digits {σ₁ σ₂ : State F} (h : σ₁.GroupEnd σ₂) :
    σ₂.digits = σ₁.digits ∧ σ₂.digitStack = σ₁.digitStack := by
  unfold State.GroupEnd at h
  split at h
  · rw [h]; exact ⟨rfl, rfl⟩
  · obtain ⟨live, rfl, -⟩ := h
    exact ⟨rfl, rfl⟩

variable {ss : List (Stmt F)}

theorem enterBlock_plain (h : hasNumeric ss = false) (σ : State F) : enterBlock ss σ = σ := by
  simp [enterBlock, h]

theorem leaveBlock_plain (h : hasNumeric ss = false ∨ o ≠ .next)
    (σ : State F) : leaveBlock ss o σ = σ := by
  unfold leaveBlock
  refine if_neg fun ⟨hn, ho⟩ => ?_
  rcases h with h | h
  · exact Bool.false_ne_true (h.symm.trans hn)
  · exact h ho

/-- A block that saves the digits has them back at its end. -/
theorem leaveBlock_saved (h : hasNumeric ss = true) {σ σ₁ : State F}
    (hstack : σ₁.digitStack = (enterBlock ss σ).digitStack) :
    (leaveBlock ss .next σ₁).digits = σ.digits ∧
      (leaveBlock ss .next σ₁).digitStack = σ.digitStack := by
  have htop : σ₁.digitStack = σ.digits :: σ.digitStack := by
    rw [hstack, enterBlock, if_pos h]
    rfl
  rw [leaveBlock, if_pos ⟨h, rfl⟩, State.digitsRestore, htop]
  exact ⟨rfl, rfl⟩

theorem digitStack_keep : Keeps (F := F) False State.digitStack
    (fun ev => ev.blockEnded ∨ ev.digitsKept) Event.blockEnded where
  live _ _ := rfl
  digits _ _ _ _ _ := rfl
  defers _ _ := rfl
  set _ _ _ := trivial
  fin _ _ := trivial
  block := by
    intro ss σ σ₁ o _ _ hin hw
    replace hin := hin False.elim
    cases hn : hasNumeric ss with
    | false =>
      rw [leaveBlock_plain (.inl hn)]
      rw [enterBlock_plain hn] at hin
      exact ⟨hin, fun hn' => absurd (hn.symm.trans hn') Bool.false_ne_true⟩
    | true =>
      by_cases ho : o = .next
      · subst ho
        exact ⟨(leaveBlock_saved hn hin).2, fun _ => rfl⟩
      · -- what was saved is still on the stack
        exfalso
        rw [leaveBlock_plain (.inr ho)] at hw
        rcases hw with hended | hkept
        · exact ho (hended hn)
        · have hsame : σ₁.digitStack = σ.digitStack := congrArg Prod.snd hkept
          rw [hin, enterBlock, if_pos hn] at hsame
          exact cons_ne_self _ _ hsame
  group _ hin hend _ := ⟨(groupEnd_digits hend).2.trans hin, trivial⟩
  groupOut _ _ hin _ := ⟨hin, trivial⟩
  pop hin := hin
  attempt _ _ _ hin _ := ⟨hin, trivial⟩
  tryOut _ _ _ hin _ := ⟨hin, trivial⟩
  tryEnd _ _ := trivial

theorem digits_keep : Keeps (F := F) True State.digits
    (fun ev => ev.blockEnded ∧ ev.setInBlock) Event.digitsKept where
  live _ _ := rfl
  digits σ inBlock n hout hw := by
    rcases hw.2 with hin | hsame
    · exact absurd ((hout trivial).symm.trans hin) Bool.false_ne_true
    · exact hsame
  defers _ _ := rfl
  set _ _ _ := trivial
  fin _ _ := trivial
  block := by
    intro ss σ σ₁ o ho ⟨P, e, l, hrun, hl⟩ hin hw
    have hstack : σ₁.digitStack = (enterBlock ss σ).digitStack :=
      (digitStack_keep.run hrun fun ev hev => .inl (hl ev hev).1).1 ho nofun
    cases hn : hasNumeric ss with
    | false =>
      replace hin := hin fun _ => hn
      rw [enterBlock_plain hn] at hin hstack
      rw [leaveBlock_plain (.inl hn)]
      exact ⟨hin, Prod.ext hin hstack⟩
    | true =>
      obtain rfl : o = .next := hw.1 hn
      obtain ⟨hd, hs⟩ := leaveBlock_saved hn hstack
      exact ⟨hd, Prod.ext hd hs⟩
  group _ hin hend _ := ⟨(groupEnd_digits hend).1.trans hin, trivial⟩
  groupOut _ _ hin _ := ⟨hin, trivial⟩
  pop hin := hin
  attempt _ _ _ hin _ := ⟨hin, trivial⟩
  tryOut _ _ _ hin _ := ⟨hin, trivial⟩
  tryEnd _ _ := trivial

/-- When each block that sets the digits is left by its end, and no `case` body sets them to
others, every block restores the digits and their stack, and so does the call. Wherever a block
that sets them is left in another way, one does not. -/
theorem digits_restored {f : F} (h : Exec P e (.func f) σ o σ' l) :
    ((∀ ev ∈ l, ev.blockEnded ∧ ev.setInBlock) → (∀ ev ∈ l, ev.digitsKept) ∧
      (o ≠ .cut → σ'.digits = σ.digits ∧ σ'.digitStack = σ.digitStack)) ∧
    ((∀ ev ∈ l, ev.digitsKept) → ∀ ev ∈ l, ev.blockEnded) := by
  refine ⟨fun hl => ⟨(digits_keep.run h hl).2, fun ho => ⟨?_, ?_⟩⟩, fun hl => ?_⟩
  · exact (digits_keep.run h hl).1 ho (.of_sets rfl)
  · exact (digitStack_keep.run h fun ev hev => .inl (hl ev hev).1).1 ho (.of_sets rfl)
  · exact (digitStack_keep.run h fun ev hev => .inr (hl ev hev)).2

/-- A thread in a call whose body saves the digits, before and after it sets them. -/
def digitsSaved : State Unit := { called with digitStack := [28] }

def digitsSet : State Unit := { digitsSaved with digits := 5 }

/-- A function whose body sets the digits and comes to its end. -/
theorem digits_restored_end : ∃ σ' : State Unit, (σ'.digits = 28 ∧ σ'.digitStack = []) ∧
    ∀ ev ∈ [Event.set true 28 5, .leftBlock true (28, []) .next (28, [])], ev.digitsKept := by
  have hset : Exec (onlyFunc false [.numeric 5]) ⟨false, false, true⟩ (.stmt (.numeric 5))
      digitsSaved .next digitsSet [.set true 28 5] :=
    (.numeric : Exec _ ⟨false, false, true⟩ (.stmt (.numeric 5)) digitsSaved _ _ _)
  have hlist : Exec (onlyFunc false [.numeric 5]) ⟨false, false, true⟩ (.list [.numeric 5])
      digitsSaved .next digitsSet [.set true 28 5] := .listCons hset .listNil
  have hblock : Exec (onlyFunc false [.numeric 5]) ⟨false, false, true⟩ (.stmt (.block [.numeric 5]))
      called .next called
      [.set true 28 5, .leftBlock true (28, []) .next (28, [])] :=
    (.block hlist : Exec _ ⟨false, false, true⟩ (.stmt (.block _)) called _ _ _)
  have h : Exec (onlyFunc false [.numeric 5]) ⟨true, false, true⟩ (.func ()) .start .next .start
      [.set true 28 5, .leftBlock true (28, []) .next (28, [])] :=
    exec_onlyFunc hblock nofun rfl
  obtain ⟨hkept, hback⟩ := (digits_restored h).1 (by simp [Event.blockEnded, Event.setInBlock])
  exact ⟨.start, hback nofun, hkept⟩

/-- A function whose body sets the digits and returns: its caller goes on with them. -/
theorem digits_return_lost : ∃ (σ' : State Unit) (l : List Event),
    Exec (onlyFunc false [.numeric 5, .ret]) ⟨true, false, true⟩ (.func ()) .start .next σ' l ∧
      σ'.digits = 5 ∧ σ'.digitStack = [28] ∧ ¬ ∀ ev ∈ l, ev.digitsKept := by
  have hset : Exec (onlyFunc false [.numeric 5, .ret]) ⟨false, false, true⟩ (.stmt (.numeric 5))
      digitsSaved .next digitsSet [.set true 28 5] :=
    (.numeric : Exec _ ⟨false, false, true⟩ (.stmt (.numeric 5)) digitsSaved _ _ _)
  have hlist : Exec (onlyFunc false [.numeric 5, .ret]) ⟨false, false, true⟩
      (.list [.numeric 5, .ret]) digitsSaved .ret digitsSet [.set true 28 5] :=
    .listCons hset (.listOut .ret nofun)
  have hblock : Exec (onlyFunc false [.numeric 5, .ret]) ⟨false, false, true⟩
      (.stmt (.block [.numeric 5, .ret])) called .ret digitsSet
      [.set true 28 5, .leftBlock true (28, []) .ret (5, [28])] :=
    (.block hlist : Exec _ ⟨false, false, true⟩ (.stmt (.block _)) called _ _ _)
  have h : Exec (onlyFunc false [.numeric 5, .ret]) ⟨true, false, true⟩ (.func ()) .start .next
      { State.start with digits := 5, digitStack := [28] }
      [.set true 28 5, .leftBlock true (28, []) .ret (5, [28])] :=
    exec_onlyFunc hblock nofun rfl
  exact ⟨_, _, h, rfl, rfl, by simp [Event.digitsKept]⟩

end Voila.Low.Exits
