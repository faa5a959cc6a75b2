import Voila.Low.ExitsSound

/-!
# Voila.Low.FinallySound

What leaving a `try` statement does: its finally block, and the handlers it leaves installed.

Handlers are numbered as they are installed, so the events of a run carry numbers that grow
(`Spans`): an inner statement has a greater number than the one around it, and nothing that
comes after a statement is about its number. This holds of every run. On top of it, the handlers
are a part of the state that is handed back (`handlers_keep`) where no statement is left straight
out of its body.
-/

open List

namespace Voila.Low.Exits

variable {F : Type} {P : F → Func F} {e : Env} {c : Code F} {σ σ' : State F} {o : Outcome}
  {l l' : List Event}

/-! ### The numbers of the events of a run -/

/-- The finally block of the statement with handler `h` began. -/
def Event.isFinally (h : Nat) : Event → Bool
  | .finallyRan h' _ => h' = h
  | _ => false

/-- An event of what ran while the handlers from `a` up to `b` were numbered. -/
def Event.Within (a b : Nat) : Event → Prop
  | .finallyRan h next => a ≤ h ∧ h < next ∧ next ≤ b
  | .leftTry h .. => a ≤ h ∧ h < b
  | _ => True

/-- Of two events, the first before the second. When the finally block of `h` begins, every
statement begun within that of `h` has been left: no finally block of theirs comes later. -/
def Event.Follows : Event → Event → Prop
  | .finallyRan h next, .finallyRan k _ => k < h ∨ next ≤ k
  | .leftTry h .., .finallyRan k _ => k ≠ h
  | _, _ => True

/-- What left a handler installed. -/
def Event.held : Event → Prop
  | .leftTry _ _ via entry _ after => via = .body → after ≠ entry
  | .leftAttempt _ entry _ after => after ≠ entry
  | _ => True

/-- How often the finally block of `h` began. -/
def finallies (h : Nat) (l : List Event) : Nat := l.countP (Event.isFinally h)

/-- The handlers, and the number of the one to come. -/
def State.numbered (σ : State F) : Nat × List Nat := (σ.nextHandler, σ.handlers)

/-- The events of what ran from the handlers `s` to the handlers `t`. -/
structure Spans (l : List Event) (s t : Nat × List Nat) : Prop where
  le : s.1 ≤ t.1
  below : s.2 <:+ t.2
  within : ∀ ev ∈ l, ev.Within s.1 t.1
  held : ∀ ev ∈ l, ev.held
  order : l.Pairwise Event.Follows
  once : ∀ h hasFin via entry edge after, .leftTry h hasFin via entry edge after ∈ l →
    finallies h l = if hasFin = true ∧ via = .done then 1 else 0

variable {s t u : Nat × List Nat} {a b : Nat} {hs : List Nat}

@[simp] theorem finallies_append (h : Nat) :
    finallies h (l ++ l') = finallies h l + finallies h l' := countP_append

variable {h : Nat} {ev : Event} {edge : Outcome}

theorem finallies_zero (hout : ∀ k next, Event.finallyRan k next ∈ l → k ≠ h) :
    finallies h l = 0 := by
  refine countP_eq_zero.mpr fun ev hev => ?_
  cases ev with
  | finallyRan k next => simpa [Event.isFinally] using hout k next hev
  | _ => exact Bool.false_ne_true

theorem Spans.finallies_lt (h : Spans l s t) (ha : a < s.1) : finallies a l = 0 := by
  refine finallies_zero fun k next hk => ?_
  have hw : s.1 ≤ k ∧ k < next ∧ next ≤ t.1 := h.within _ hk
  omega

theorem Spans.finallies_ge (h : Spans l s t) (ha : t.1 ≤ a) : finallies a l = 0 := by
  refine finallies_zero fun k next hk => ?_
  have hw : s.1 ≤ k ∧ k < next ∧ next ≤ t.1 := h.within _ hk
  omega

theorem Event.Within.mono {a' b' : Nat} (h : ev.Within a b) (ha : a' ≤ a)
    (hb : b ≤ b') : ev.Within a' b' := by
  cases ev <;> simp only [Event.Within] at h ⊢ <;> omega

theorem Spans.nil (s : Nat × List Nat) : Spans [] s s :=
  ⟨Nat.le_refl _, suffix_refl _, forall_mem_nil _, forall_mem_nil _, .nil,
    fun _ _ _ _ _ _ h => absurd h not_mem_nil⟩

/-- An event about no `try` statement. -/
def Event.quiet : Event → Bool
  | .set .. | .leftBlock .. | .leftGroup .. => true
  | _ => false

theorem Spans.single (h : ev.quiet = true) (s : Nat × List Nat) : Spans [ev] s s := by
  refine ⟨Nat.le_refl _, suffix_refl _, ?_, ?_, pairwise_singleton _ _, ?_⟩
  all_goals cases ev <;> simp_all [Event.quiet, Event.Within, Event.held]

theorem Spans.append (h : Spans l s t) (h' : Spans l' t u) : Spans (l ++ l') s u := by
  refine ⟨Nat.le_trans h.le h'.le, h.below.trans h'.below, ?_, ?_, ?_, ?_⟩
  · exact forall_mem_append.mpr ⟨fun ev hev => (h.within ev hev).mono (Nat.le_refl _) h'.le,
      fun ev hev => (h'.within ev hev).mono h.le (Nat.le_refl _)⟩
  · exact forall_mem_append.mpr ⟨h.held, h'.held⟩
  · refine pairwise_append.mpr ⟨h.order, h'.order, fun ev hev ev' hev' => ?_⟩
    -- the numbers of the one end where those of the other begin
    have hw := h.within ev hev
    have hw' := h'.within ev' hev'
    cases ev <;> cases ev' <;> simp only [Event.Follows, Event.Within] at hw hw' ⊢ <;> omega
  · intro k hasFin via entry edge after hmem
    rw [finallies_append]
    rcases mem_append.mp hmem with hin | hin
    · have hw : s.1 ≤ k ∧ k < t.1 := h.within _ hin
      rw [h.once _ _ _ _ _ _ hin, h'.finallies_lt hw.2, Nat.add_zero]
    · have hw : t.1 ≤ k ∧ k < u.1 := h'.within _ hin
      rw [h'.once _ _ _ _ _ _ hin, h.finallies_ge hw.1, Nat.zero_add]

/-- The handler on top is popped. -/
theorem Spans.pop (hsp : Spans l (a, h :: hs) t) : Spans l (a, hs) (t.1, t.2.tail) := by
  refine ⟨hsp.le, ?_, hsp.within, hsp.held, hsp.order, hsp.once⟩
  obtain ⟨pre, hpre⟩ := hsp.below
  cases pre with
  | nil => exact ⟨[], by rw [← hpre]; rfl⟩
  | cons x pre => exact ⟨pre ++ [h], by rw [← hpre]; simp⟩

/-- More handlers are below. -/
theorem Spans.drop {hs' : List Nat} (hsp : Spans l (a, hs') t) (hsuf : hs <:+ hs') (hb : b ≤ a) :
    Spans l (b, hs) t :=
  ⟨Nat.le_trans hb hsp.le, hsuf.trans hsp.below, fun ev hev => (hsp.within ev hev).mono hb (Nat.le_refl _),
    hsp.held, hsp.order, hsp.once⟩

/-- The finally block begins of the statement that had the number before. -/
theorem Spans.finallyRan (h : Spans l (a + 1, hs) t) :
    Spans (l ++ [.finallyRan a t.1]) (a, hs) t := by
  have hle : a + 1 ≤ t.1 := h.le
  refine ⟨Nat.le_of_succ_le hle, h.below, ?_, ?_, ?_, ?_⟩
  · refine forall_mem_append.mpr ⟨fun ev hev => (h.within ev hev).mono (Nat.le_succ a) (Nat.le_refl _), ?_⟩
    exact forall_mem_singleton.mpr ⟨(Nat.le_refl _), hle, (Nat.le_refl _)⟩
  · exact forall_mem_append.mpr ⟨h.held, forall_mem_singleton.mpr trivial⟩
  · refine pairwise_append.mpr ⟨h.order, pairwise_singleton _ _, fun ev hev ev' hev' => ?_⟩
    obtain rfl := mem_singleton.mp hev'
    have hw := h.within ev hev
    cases ev <;> simp only [Event.Follows, Event.Within] at hw ⊢ <;> omega
  · intro k hasFin via entry edge after hmem
    have hin : .leftTry k hasFin via entry edge after ∈ l := by simpa using hmem
    have hw : a + 1 ≤ k ∧ k < t.1 := h.within _ hin
    rw [finallies_append, h.once _ _ _ _ _ _ hin]
    have hne : a ≠ k := by omega
    simp [finallies, Event.isFinally, hne]

/-- A statement is left that has the least number. -/
theorem Spans.left {hasFin : Bool} {via : Via} {edge : Outcome} (h : Spans l (a, hs) t)
    (ha : a < t.1) (hheld : via = .body → t.2 ≠ hs)
    (hcount : finallies a l = if hasFin = true ∧ via = .done then 1 else 0) :
    Spans (l ++ unlessCut o (.leftTry a hasFin via hs edge t.2)) (a, hs) t := by
  by_cases ho : o = .cut
  · rw [unlessCut, if_pos ho, List.append_nil]
    exact h
  rw [unlessCut, if_neg ho]
  refine ⟨h.le, h.below, ?_, ?_, ?_, ?_⟩
  · exact forall_mem_append.mpr ⟨h.within, forall_mem_singleton.mpr ⟨(Nat.le_refl _), ha⟩⟩
  · exact forall_mem_append.mpr ⟨h.held, forall_mem_singleton.mpr hheld⟩
  · refine pairwise_append.mpr ⟨h.order, pairwise_singleton _ _, fun ev _ ev' hev' => ?_⟩
    obtain rfl := mem_singleton.mp hev'
    cases ev <;> trivial
  · intro k hasFin' via' entry edge' after hmem
    rw [finallies_append]
    rcases mem_append.mp hmem with hin | hin
    · rw [h.once _ _ _ _ _ _ hin]
      rfl
    · cases mem_singleton.mp hin
      exact hcount

/-- A statement is left straight out of its body. -/
theorem Spans.leftBody (fin : Bool) (h : Spans l (a + 1, a :: hs) t) :
    Spans (l ++ unlessCut o (.leftTry a fin .body hs edge t.2)) (a, hs) t := by
  refine (h.drop (suffix_cons _ _) (Nat.le_succ a)).left h.le (fun _ heq => ?_) ?_
  · have hlen : hs.length + 1 ≤ t.2.length := h.below.length_le
    rw [heq] at hlen
    omega
  · rw [h.finallies_lt (Nat.lt_succ_self a), if_neg nofun]

theorem Spans.leftClause (fin : Bool) (h : Spans l (a + 1, hs) t) :
    Spans (l ++ unlessCut o (.leftTry a fin .clause hs edge t.2)) (a, hs) t := by
  refine (h.drop (suffix_refl _) (Nat.le_succ a)).left h.le nofun ?_
  rw [h.finallies_lt (Nat.lt_succ_self a), if_neg nofun]

theorem Spans.leftAttempt (h : Spans l (a + 1, a :: hs) t) :
    Spans (l ++ unlessCut o (.leftAttempt a hs edge t.2)) (a, hs) t := by
  have hdrop := h.drop (suffix_cons _ _) (Nat.le_succ a)
  by_cases ho : o = .cut
  · rw [unlessCut, if_pos ho, List.append_nil]
    exact hdrop
  rw [unlessCut, if_neg ho]
  refine ⟨hdrop.le, hdrop.below, ?_, ?_, ?_, ?_⟩
  · exact forall_mem_append.mpr ⟨hdrop.within, forall_mem_singleton.mpr trivial⟩
  · refine forall_mem_append.mpr ⟨hdrop.held, forall_mem_singleton.mpr fun heq => ?_⟩
    have hlen : hs.length + 1 ≤ t.2.length := h.below.length_le
    rw [heq] at hlen
    omega
  · refine pairwise_append.mpr ⟨h.order, pairwise_singleton _ _, fun ev _ ev' hev' => ?_⟩
    obtain rfl := mem_singleton.mp hev'
    cases ev <;> trivial
  · intro k hasFin via entry edge after hmem
    have hin : .leftTry k hasFin via entry edge after ∈ l := by simpa using hmem
    rw [finallies_append, h.once _ _ _ _ _ _ hin]
    rfl

/-- A statement is left past its finally block, which ran from `t` to `u`. -/
theorem Spans.leftDone {σ τ : State F} (fin : Option (List (Stmt F)))
    (h : Spans l (σ.nextHandler + 1, σ.handlers) τ.numbered) (h' : Spans l' τ.numbered u) :
    Spans (l ++ finEvents σ τ fin ++ l' ++
      unlessCut o (.leftTry σ.nextHandler fin.isSome .done σ.handlers edge u.2)) σ.numbered u := by
  have hlt : σ.nextHandler < τ.nextHandler := h.le
  have hzero : finallies σ.nextHandler l = 0 := h.finallies_lt (Nat.lt_succ_self _)
  have hzero' : finallies σ.nextHandler l' = 0 := h'.finallies_lt hlt
  cases fin with
  | none =>
    have hall := (h.drop (suffix_refl _) (Nat.le_succ _)).append h'
    rw [finEvents, List.append_nil]
    refine hall.left (Nat.lt_of_lt_of_le hlt h'.le) (by simp) ?_
    rw [finallies_append, hzero, hzero']
    rfl
  | some ss =>
    have hall := h.finallyRan.append h'
    refine hall.left (Nat.lt_of_lt_of_le hlt h'.le) (by simp) ?_
    rw [finallies_append, finallies_append, hzero, hzero']
    simp [finallies, Event.isFinally]

theorem numbered_leaveBlock (ss : List (Stmt F)) (o : Outcome) (σ : State F) :
    (leaveBlock ss o σ).numbered = σ.numbered := by
  unfold leaveBlock State.digitsRestore
  split <;> [split; skip] <;> rfl

theorem numbered_enterBlock (ss : List (Stmt F)) (σ : State F) :
    (enterBlock ss σ).numbered = σ.numbered := by
  unfold enterBlock
  split <;> rfl

theorem numbered_groupEnd {σ₁ σ₂ : State F} (h : σ₁.GroupEnd σ₂) :
    σ₂.numbered = σ₁.numbered := by
  unfold State.GroupEnd at h
  split at h
  · rw [h]
  · obtain ⟨live, rfl, -⟩ := h
    rfl

/-- Every run numbers its handlers in the order in which they are installed, and pops none but
its own. -/
theorem Exec.spans (h : Exec P e c σ o σ' l) : Spans l σ.numbered σ'.numbered := by
  induction h with
  | cut | evalThrows | throw | tryp | trypFails | trypRaises | defersNil | listNil | armsNil | brk
  | cont | ret | fallthrough => exact .nil _
  | eval hd =>
    obtain ⟨live, rfl, -⟩ := hd
    exact .nil _
  | spawn | deferStmt => exact .nil _
  | numeric => exact .single rfl _
  | call _ ih | funcCut _ ih | defersCut _ _ ih | listOut _ _ ih | bare _ ih | choose _ _ ih
  | switch _ ih | armsOut _ _ ih | loop _ ih | turnsExit _ ih | turnsOut _ _ ih => exact ih
  | func _ _ _ ih ih' | defersCons _ _ _ _ ih ih' | listCons _ _ ih ih' | armsFall _ _ ih ih'
  | turnsAgain _ _ _ ih ih' => exact ih.append ih'
  | @block _ ss _ o _ _ _ ih =>
    rw [numbered_enterBlock] at ih
    rw [numbered_leaveBlock]
    refine ih.append ?_
    by_cases ho : o = .cut
    · rw [unlessCut, if_pos ho]
      exact .nil _
    · rw [unlessCut, if_neg ho]
      exact .single rfl _
  | group _ _ hend _ ih =>
    rw [numbered_groupEnd hend]
    exact ih.append (.single rfl _)
  | @groupOut _ _ _ _ o _ _ _ _ ih =>
    refine Spans.append ih ?_
    by_cases ho : o = .cut
    · rw [unlessCut, if_pos ho]
      exact .nil _
    · rw [unlessCut, if_neg ho]
      exact .single rfl _
  | attempt _ ih | attemptCatches _ _ ih =>
    exact (Spans.pop ih).drop (suffix_refl _) (Nat.le_succ _)
  | attemptOut _ _ _ ih => exact Spans.leftAttempt ih
  | tryExits _ _ _ ihb ihf => exact Spans.leftDone _ (Spans.pop ihb) ihf
  | tryOut _ _ _ ih => exact Spans.leftBody _ ih
  | tryCatches _ _ _ _ _ ihb ihc ihf =>
    exact Spans.leftDone _ ((Spans.pop ihb).append ihc) ihf
  | tryCatchesOut _ _ _ _ ihb ihc => exact Spans.leftClause _ ((Spans.pop ihb).append ihc)
  | tryUncaught _ _ _ ihb ihf => exact Spans.leftDone _ (Spans.pop ihb) ihf

/-! ### What a statement hands back -/

/-- A `try` statement was left past its finally block, or it has none and was left out of a clause;
no `attempt` was left early. -/
def Event.tryEnded : Event → Prop
  | .leftTry _ hasFin via .. => via = .done ∨ via = .clause ∧ hasFin = false
  | .leftAttempt .. => False
  | _ => True

/-- Past a statement the handlers are those before it, and its finally block, when it has one,
began once in the run. -/
def Event.tryKept (l : List Event) : Event → Prop
  | .leftTry h hasFin _ entry _ after =>
    after = entry ∧ finallies h l = if hasFin = true then 1 else 0
  | .leftAttempt _ entry _ after => after = entry
  | _ => True

/-- The part of `tryKept` that is about the handlers. -/
def Event.handlersKept : Event → Prop
  | .leftTry _ _ _ entry _ after => after = entry
  | _ => True

theorem handlers_keep : Keeps (F := F) False State.handlers Event.tryEnded Event.handlersKept where
  live _ _ := rfl
  digits _ _ _ _ _ := rfl
  defers _ _ := rfl
  set _ _ _ := trivial
  fin _ _ := trivial
  block := by
    intro ss σ σ₁ o _ _ hin _
    have henter := congrArg Prod.snd (numbered_enterBlock ss σ)
    have hleave := congrArg Prod.snd (numbered_leaveBlock ss o σ₁)
    exact ⟨hleave.trans ((hin False.elim).trans henter), trivial⟩
  group _ hin hend _ := ⟨(congrArg Prod.snd (numbered_groupEnd hend)).trans hin, trivial⟩
  groupOut _ _ hin _ := ⟨hin, trivial⟩
  pop := by
    intro σ σ₁ hin
    show σ₁.handlers.tail = σ.handlers
    rw [hin]
    rfl
  attempt _ _ _ _ hw := hw.elim
  tryOut := by
    intro fin σ σ₁ o _ _ _ _ hw
    rcases hw with hvia | ⟨hvia, -⟩ <;> cases hvia
  tryEnd hin _ := hin

/-- In a run, every `try` statement and every `attempt` leaves the handlers as it found them and
every finally block begins exactly once, if and only if each statement is left past its finally
block (or out of a clause, when it has none) and no `attempt` is left early. In every run, those
of inner statements come first. -/
theorem finallies_run {f : F} (h : Exec P e (.func f) σ o σ' l) :
    ((∀ ev ∈ l, ev.tryKept l) ↔ ∀ ev ∈ l, ev.tryEnded) ∧
    ((∀ ev ∈ l, ev.tryEnded) → o ≠ .cut → σ'.handlers = σ.handlers) ∧
    l.Pairwise Event.Follows := by
  have hsp := h.spans
  refine ⟨⟨fun hk ev hev => ?_, fun he ev hev => ?_⟩, fun he ho => ?_, hsp.order⟩
  · have hkept := hk ev hev
    have hheld := hsp.held ev hev
    cases ev with
    | leftTry h hasFin via entry edge after =>
      have honce := hsp.once _ _ _ _ _ _ hev
      cases via with
      | done => exact .inl rfl
      | body => exact absurd hkept.1 (hheld rfl)
      | clause =>
        refine .inr ⟨rfl, Bool.eq_false_iff.mpr fun hfin => ?_⟩
        -- left out of a clause, its finally block did not begin
        have hcount := honce.symm.trans hkept.2
        rw [if_neg nofun, if_pos hfin] at hcount
        cases hcount
    | leftAttempt => exact hheld hkept
    | _ => trivial
  · have hkept := (handlers_keep.run h he).2 ev hev
    have hended := he ev hev
    cases ev with
    | leftTry h hasFin via entry edge after =>
      refine ⟨hkept, (hsp.once _ _ _ _ _ _ hev).trans ?_⟩
      rcases hended with rfl | ⟨rfl, rfl⟩
      · simp
      · rfl
    | leftAttempt => exact hended.elim
    | _ => trivial
  · exact (handlers_keep.run h he).1 ho (.of_sets rfl)

/-- A thread in its first call, with a handler, and after that has been popped. -/
def inTry : State Unit := called.ehPush

def afterTry : State Unit := inTry.ehPop

/-- A function that returns out of a `try` statement with a finally block. -/
theorem finallies_run_return : ∃ (σ' : State Unit) (l : List Event),
    Exec (onlyFunc false [.tryCatch [.ret] [] (some [])]) ⟨true, false, true⟩ (.func ()) .start
      .next σ' l ∧ Event.finallyRan 0 1 ∈ l ∧ (∀ ev ∈ l, ev.tryKept l) ∧ σ'.handlers = [] ∧
      l.Pairwise Event.Follows := by
  have hlist : Exec (onlyFunc false [.tryCatch [.ret] [] (some [])]) ⟨false, false, true⟩
      (.list [.ret]) inTry .ret inTry [] := .listOut .ret nofun
  have hbody : Exec (onlyFunc false [.tryCatch [.ret] [] (some [])]) ⟨false, false, true⟩
      (.stmt (.block [.ret])) inTry .ret inTry [.leftBlock false (28, []) .ret (28, [])] :=
    (.block hlist : Exec _ ⟨false, false, true⟩ (.stmt (.block _)) inTry _ _ _)
  have hnil : Exec (onlyFunc false [.tryCatch [.ret] [] (some [])]) ⟨false, true, true⟩
      (.list []) afterTry .next afterTry [] := .listNil
  have hfin : Exec (onlyFunc false [.tryCatch [.ret] [] (some [])]) ⟨false, true, true⟩
      (finCode (some [])) afterTry .next afterTry [.leftBlock false (28, []) .next (28, [])] :=
    (.block hnil : Exec _ ⟨false, true, true⟩ (.stmt (.block _)) afterTry _ _ _)
  have htry : Exec (onlyFunc false [.tryCatch [.ret] [] (some [])]) ⟨false, false, true⟩
      (.stmt (.tryCatch [.ret] [] (some []))) called .ret afterTry
      [.leftBlock false (28, []) .ret (28, []), .finallyRan 0 1,
        .leftBlock false (28, []) .next (28, []), .leftTry 0 true .done [] .ret []] :=
    .tryExits hbody rfl hfin
  have h : Exec (onlyFunc false [.tryCatch [.ret] [] (some [])]) ⟨true, false, true⟩ (.func ())
      .start .next { afterTry with defers := [] }
      [.leftBlock false (28, []) .ret (28, []), .finallyRan 0 1,
        .leftBlock false (28, []) .next (28, []), .leftTry 0 true .done [] .ret [],
        .leftBlock false (28, []) .ret (28, [])] :=
    exec_onlyFunc (.block (.listOut htry nofun)) nofun rfl
  obtain ⟨hkept, hback, horder⟩ := finallies_run h
  exact ⟨_, _, h, by simp, hkept.mpr (by simp [Event.tryEnded]),
    hback (by simp [Event.tryEnded]) nofun, horder⟩

/-- A failure that propagates out of a `try` statement: its finally block does not run, and its
handler stays, for a call that is over. -/
theorem finally_tryp_skipped : ∃ (σ' : State Unit) (l : List Event),
    Exec (onlyFunc true [.tryCatch [.tryp] [] (some [])]) ⟨true, false, true⟩ (.func ()) .start
      .next σ' l ∧ finallies 0 l = 0 ∧ σ'.handlers = [0] ∧ ¬ ∀ ev ∈ l, ev.tryKept l := by
  have hlist : Exec (onlyFunc true [.tryCatch [.tryp] [] (some [])]) ⟨true, false, true⟩
      (.list [.tryp]) inTry .fail inTry [] := .listOut (.trypFails rfl) nofun
  have hbody : Exec (onlyFunc true [.tryCatch [.tryp] [] (some [])]) ⟨true, false, true⟩
      (.stmt (.block [.tryp])) inTry .fail inTry [.leftBlock false (28, []) .fail (28, [])] :=
    (.block hlist : Exec _ ⟨true, false, true⟩ (.stmt (.block _)) inTry _ _ _)
  have htry : Exec (onlyFunc true [.tryCatch [.tryp] [] (some [])]) ⟨true, false, true⟩
      (.stmt (.tryCatch [.tryp] [] (some []))) called .fail inTry
      [.leftBlock false (28, []) .fail (28, []), .leftTry 0 true .body [] .fail [0]] :=
    .tryOut hbody rfl nofun
  have h : Exec (onlyFunc true [.tryCatch [.tryp] [] (some [])]) ⟨true, false, true⟩ (.func ())
      .start .next { inTry with defers := [] }
      [.leftBlock false (28, []) .fail (28, []), .leftTry 0 true .body [] .fail [0],
        .leftBlock false (28, []) .fail (28, [])] :=
    exec_onlyFunc (.block (.listOut htry nofun)) nofun rfl
  exact ⟨_, _, h, rfl, rfl, by simp [Event.tryKept]⟩

end Voila.Low.Exits
