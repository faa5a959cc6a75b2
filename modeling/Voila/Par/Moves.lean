import Voila.Par.Decl

/-!
# Voila.Par.Moves

What every parsing function does to the parser, said once (`Step`): the tokens stay,
the cursor goes forward and stays on a token, the nesting counters come back to what
they were, and diagnostics are only added.

`Does A b E m` says that `m` ends so, from every sound state that satisfies `A` and
whose remaining tokens weigh at most half of `b`; and that it has taken a token
whenever `E` says so of its result. The budget `b` is what makes the open recursion
end: after a token is taken two more calls are allowed (`Does.moves`), and a call of an
entry point takes one or two (`Ok`). The rules follow the shape of the programs, so the
proof of a function is written in the order of its statements.
-/

namespace Voila.Par

open Tok Lib List

/-! ### States -/

/-- The cursor stands on a token, and the last token is `EOF`. -/
structure Good (s : Parser) : Prop where
  inRange : s.i < s.ts.length
  last : ∀ t, s.ts[s.ts.length - 1]? = some t → t.kind = .EOF

/-- The current token. -/
def AtTok (t : Token) (s : Parser) : Prop := s.ts[s.i]? = some t

/-- The current token is not `EOF`. -/
def Live (s : Parser) : Prop := ∃ t, AtTok t s ∧ t.kind ≠ .EOF

/-- The weight of the tokens from the cursor on. -/
def left (s : Parser) : Nat := weightTokens (s.ts.drop s.i)

/-- What a parsing function does to the state. -/
structure Step (s s' : Parser) : Prop where
  ts : s'.ts = s.ts
  le : s.i ≤ s'.i
  inRange : s'.i < s'.ts.length
  noLit : s'.noLit = s.noLit
  lev : s'.lev = s.lev
  armComma : s'.armComma = s.armComma
  errs : s.errs <+: s'.errs

variable {s s' : Parser}

theorem Step.refl (h : s.i < s.ts.length) : Step s s :=
  ⟨rfl, Nat.le_refl _, h, rfl, rfl, rfl, prefix_refl _⟩

theorem Step.trans {s s' s'' : Parser} (h : Step s s') (h' : Step s' s'') : Step s s'' :=
  ⟨h'.ts.trans h.ts, h.le.trans h'.le, h'.inRange, h'.noLit.trans h.noLit, h'.lev.trans h.lev,
    h'.armComma.trans h.armComma, h.errs.trans h'.errs⟩

theorem Step.good (h : Step s s') (hg : Good s) : Good s' :=
  ⟨h.inRange, by rw [h.ts]; exact hg.last⟩

theorem weight_pos (t : Token) : 0 < t.weight := by
  cases t
  simp only [Token.weight]
  omega

@[simp] theorem weightTokens_cons (t : Token) (ts : List Token) :
    weightTokens (t :: ts) = t.weight + weightTokens ts := rfl

theorem weightTokens_append (ts us : List Token) :
    weightTokens (ts ++ us) = weightTokens ts + weightTokens us := by
  induction ts with
  | nil => simp [weightTokens]
  | cons t ts ih => simp only [cons_append, weightTokens_cons, ih, Nat.add_assoc]

theorem weightTokens_drop_add (ts : List Token) (k : Nat) :
    weightTokens (ts.drop k) ≤ weightTokens ts := by
  have h := weightTokens_append (ts.take k) (ts.drop k)
  rw [take_append_drop] at h
  omega

theorem Step.left_le (h : Step s s') : left s' ≤ left s := by
  have hd : s'.ts.drop s'.i = (s.ts.drop s.i).drop (s'.i - s.i) := by
    rw [drop_drop, h.ts, Nat.add_sub_cancel' h.le]
  unfold left
  rw [hd]
  exact weightTokens_drop_add _ _

theorem left_eq {t : Token} (h : s.ts[s.i]? = some t) :
    left s = t.weight + weightTokens (s.ts.drop (s.i + 1)) := by
  obtain ⟨hlt, ht⟩ := List.getElem?_eq_some_iff.mp h
  unfold left
  rw [drop_eq_getElem_cons hlt, ht, weightTokens_cons]

theorem Good.left_pos (h : Good s) : 0 < left s := by
  have hin := h.inRange
  have := weight_pos s.ts[s.i]
  rw [left_eq (List.getElem?_eq_getElem hin)]
  omega

/-- A token taken is a token less. -/
theorem Step.left_lt (h : Step s s') (hlt : s.i < s'.i) : left s' < left s := by
  have hin : s.i < s.ts.length := by have := h.inRange; rw [h.ts] at this; omega
  have hpos := weight_pos s.ts[s.i]
  have hd : s'.ts.drop s'.i = (s.ts.drop (s.i + 1)).drop (s'.i - (s.i + 1)) := by
    rw [drop_drop, h.ts, Nat.add_sub_cancel' hlt]
  have hle := weightTokens_drop_add (s.ts.drop (s.i + 1)) (s'.i - (s.i + 1))
  rw [left_eq (List.getElem?_eq_getElem hin)]
  unfold left
  rw [hd]
  omega

theorem Good.exists_tok (h : Good s) : ∃ t, AtTok t s :=
  have hin := h.inRange
  ⟨s.ts[s.i], List.getElem?_eq_getElem hin⟩

/-- A token that is not `EOF` is not the last one. -/
theorem Live.lt (hl : Live s) (h : Good s) : s.i + 1 < s.ts.length := by
  obtain ⟨t, ht, hne⟩ := hl
  by_contra hge
  have hlast : s.i = s.ts.length - 1 := by
    have := h.inRange
    omega
  exact hne (h.last t (hlast ▸ ht))

/-- Where the cursor has not moved, the current token is the same. -/
theorem Step.live_eq (h : Step s s') (hi : s'.i = s.i) : Live s = Live s' := by
  simp only [Live, AtTok, hi, h.ts]

/-! ### The judgement -/

/-- `m` ends, as a step that has taken a token whenever `E` asks for it. -/
def Does {α : Type} (A : Parser → Prop) (b : Nat) (E : Prop → α → Prop) (m : P α) : Prop :=
  ∀ s, Good s → A s → 2 * left s ≤ b →
    Ends m s fun a s' => Step s s' ∧ (E (Live s) a → s.i < s'.i)

/-- No token need be taken. -/
def anyhow {α : Type} : Prop → α → Prop := fun _ _ => False

/-- A token is taken unless it is `EOF`. -/
def ifLive {α : Type} : Prop → α → Prop := fun live _ => live

/-- A token is taken. -/
def always {α : Type} : Prop → α → Prop := fun _ _ => True

/-- A token is taken in a turn that goes round again. -/
def ifAgain {α β : Type} : Prop → Turn α β → Prop := fun _ r => ∃ x, r = .again x

section

variable {α β : Type} {A A' : Parser → Prop} {b b' : Nat} {E E' : Prop → α → Prop} {m : P α}

theorem Does.weaken (h : Does A b E m) (hA : ∀ s, Good s → A' s → A s) (hb : b' ≤ b)
    (hE : ∀ p a, E' p a → E p a) : Does A' b' E' m := fun s hg ha hl =>
  (h s hg (hA s hg ha) (hl.trans hb)).mono fun _ _ hr => ⟨hr.1, fun he => hr.2 (hE _ _ he)⟩

theorem Does.le (h : Does A b E m) (hb : b' ≤ b) : Does A b' E m :=
  h.weaken (fun _ _ ha => ha) hb fun _ _ he => he

theorem Does.loose (h : Does A b E m) : Does A b anyhow m :=
  h.weaken (fun _ _ ha => ha) (Nat.le_refl _) fun _ _ he => he.elim

theorem Does.pre (h : Does A b E m) (hA : ∀ s, A' s → A s) : Does A' b E m :=
  h.weaken (fun s _ => hA s) (Nat.le_refl _) fun _ _ he => he

theorem Does.ret {a : α} (h : ∀ p, ¬E p a) : Does A b E (pure a : P α) := fun _ hg _ _ =>
  .pure ⟨Step.refl hg.inRange, fun he => absurd he (h _)⟩

theorem Does.pure {a : α} : Does A b anyhow (pure a : P α) := Does.ret fun _ he => he

theorem Does.stop {y : β} : Does A b ifAgain (Pure.pure (.stop y) : P (Turn α β)) :=
  Does.ret fun _ ⟨_, he⟩ => nomatch he

/-- A token is taken first when the result says so. -/
theorem Does.cases {moved : α → Prop} {E : Prop → β → Prop} {g : α → P β}
    (hm : Does A b (fun _ a => moved a) m)
    (hyes : ∀ a, moved a → Does (fun _ => True) (b - 2) anyhow (g a))
    (hno : ∀ a, ¬moved a → Does (fun _ => True) b E (g a)) : Does A b E (m >>= g) := by
  intro s hgood ha hl
  refine (hm s hgood ha hl).bind fun a s' hr => ?_
  have hl' := hr.1.left_le
  by_cases hmoved : moved a
  · have hlt := hr.1.left_lt (hr.2 hmoved)
    refine (hyes a hmoved s' (hr.1.good hgood) trivial (by omega)).mono fun c s'' hr' => ?_
    exact ⟨hr.1.trans hr'.1, fun _ => lt_of_lt_of_le (hr.2 hmoved) hr'.1.le⟩
  · refine (hno a hmoved s' (hr.1.good hgood) trivial (by omega)).mono fun c s'' hr' => ?_
    refine ⟨hr.1.trans hr'.1, fun he => ?_⟩
    rcases Nat.lt_or_ge s.i s'.i with hlt | hge
    · exact lt_of_lt_of_le hlt hr'.1.le
    · have hi : s'.i = s.i := Nat.le_antisymm hge hr.1.le
      rw [hr.1.live_eq hi] at he
      have := hr'.2 he
      omega

variable {g : α → P β} {c : Prop} {body : β → P (Turn β α)} {x : β} {enter : Parser → Parser}
  {leave : Parser → Parser → Parser}

/-- Two steps in turn. If the first has stood still, it is for the second to move. -/
theorem Does.bind {E' : Prop → α → Prop} {E : Prop → β → Prop}
    (hm : Does A b E' m) (hg : ∀ a, Does (fun _ => True) b E (g a)) : Does A b E (m >>= g) :=
  @Does.cases _ _ _ _ _ (fun _ => False) _ _ hm.loose (fun _ hf => hf.elim) fun a _ => hg a

/-- A token is taken first: two more calls are allowed after it. -/
theorem Does.moves {E : Prop → β → Prop} (hm : Does A b always m)
    (hg : ∀ a, Does (fun _ => True) (b - 2) anyhow (g a)) : Does A b E (m >>= g) :=
  @Does.cases _ _ _ _ _ (fun _ => True) _ _ hm (fun a _ => hg a) fun _ hf => absurd trivial hf

/-- A token is taken first, unless it is `EOF`. -/
theorem Does.live (hm : Does A b ifLive m)
    (hg : ∀ a, Does (fun _ => True) b anyhow (g a)) : Does A b ifLive (m >>= g) := by
  intro s hgood ha hl
  refine (hm s hgood ha hl).bind fun a s' hr => ?_
  have hl' := hr.1.left_le
  refine (hg a s' (hr.1.good hgood) trivial (by omega)).mono fun c s'' hr' => ?_
  exact ⟨hr.1.trans hr'.1, fun he => lt_of_lt_of_le (hr.2 he) hr'.1.le⟩

theorem Does.ite [Decidable c] {m' : P α} (ht : c → Does A b E m)
    (hf : ¬c → Does A b E m') : Does A b E (if c then m else m') := by
  split
  · next h => exact ht h
  · next h => exact hf h

/-- A read of the state. -/
theorem Does.get {E : Prop → β → Prop} {g : Parser → P β} (h : ∀ x, Does A b E (g x)) :
    Does A b E (MonadState.get >>= g) :=
  fun s hg ha hl => h s s hg ha hl

theorem Does.check [Decidable c] {m : P Unit} {E' : Prop → Unit → Prop}
    (h : Does A b E' m) : Does A b anyhow (Par.check c m) :=
  Does.ite (fun _ => Does.pure) fun _ => h.loose

/-- A change of the state that is no step of its own. -/
theorem Does.modify {f : Parser → Parser} (h : ∀ s, s.i < s.ts.length → Step s (f s)) :
    Does A b anyhow (modify f : P PUnit) :=
  fun s hg _ _ => ⟨(), f s, rfl, h s hg.inRange, fun he => he.elim⟩

/-- The turns of a loop. -/
theorem Does.loop (h : ∀ x, Does (fun _ => True) b ifAgain (body x))
    : Does A b anyhow (Par.loop body x) := by
  intro s hg _ hl
  refine Ends.turns (fun _ s' => Step s s') (fun s' => s'.ts.length - 1 - s'.i) ?_
    (Step.refl hg.inRange) ?_
  · intro y s' hst
    have hl' := hst.left_le
    refine (h y s' (hst.good hg) trivial (by omega)).mono fun r s'' hr => ⟨?_, ?_⟩
    · intro z hz
      have hlt := hr.2 ⟨z, hz⟩
      have hin := hr.1.inRange
      refine ⟨hst.trans hr.1, ?_⟩
      rw [hr.1.ts] at hin ⊢
      omega
    · intro z _
      exact ⟨hst.trans hr.1, fun he => he.elim⟩
  · have := hg.inRange
    omega

/-- Two steps in turn from a known token: either the first takes it, or it is still there. -/
theorem Does.bindAt {E' : Prop → α → Prop} {E : Prop → β → Prop} {t : Token}
    (hm : Does (fun s => A s ∧ AtTok t s) b E' m)
    (hyes : ∀ a, Does (fun _ => True) (b - 2) anyhow (g a))
    (hno : ∀ a, Does (fun s => True ∧ AtTok t s) b E (g a)) :
    Does (fun s => A s ∧ AtTok t s) b E (m >>= g) := by
  intro s hgood ha hl
  refine (hm s hgood ha hl).bind fun a s' hr => ?_
  have hl' := hr.1.left_le
  rcases Nat.lt_or_ge s.i s'.i with hlt | hge
  · have hlt' := hr.1.left_lt hlt
    refine (hyes a s' (hr.1.good hgood) trivial (by omega)).mono fun c s'' hr' => ?_
    exact ⟨hr.1.trans hr'.1, fun _ => lt_of_lt_of_le hlt hr'.1.le⟩
  · have hi : s'.i = s.i := Nat.le_antisymm hge hr.1.le
    have htok : AtTok t s' := by
      show s'.ts[s'.i]? = some t
      rw [hi, hr.1.ts]
      exact ha.2
    refine (hno a s' (hr.1.good hgood) ⟨trivial, htok⟩ (by omega)).mono fun c s'' hr' => ?_
    exact ⟨hr.1.trans hr'.1, fun he => hi ▸ hr'.2 (hr.1.live_eq hi ▸ he)⟩

/-- A computation that takes every token but `EOF`. -/
theorem Does.ofTok (h : Does A b anyhow m)
    (ht : ∀ t, t.kind ≠ .EOF → Does (fun s => A s ∧ AtTok t s) b always m) :
    Does A b ifLive m := by
  intro s hg ha hl
  obtain ⟨t, htok⟩ := hg.exists_tok
  by_cases hne : t.kind = .EOF
  · refine (h s hg ha hl).mono fun _ _ hr => ⟨hr.1, fun ⟨u, hu, hu'⟩ => ?_⟩
    exact absurd (Option.some.inj (htok.symm.trans hu) ▸ hne) hu'
  · exact (ht t hne s hg ⟨ha, htok⟩ hl).mono fun _ _ hr => ⟨hr.1, fun _ => hr.2 trivial⟩

/-- A token is known only once. -/
theorem Does.same {t u : Token} (h : u = t → Does (fun s => A s ∧ AtTok t s) b E m) :
    Does (fun s => (A s ∧ AtTok t s) ∧ AtTok u s) b E m := fun s hg ha hl =>
  h (Option.some.inj (ha.2.symm.trans ha.1.2)) s hg ha.1 hl

/-- A loop whose first turn takes a token. -/
theorem Does.loopMoves (hx : Does A b always (body x))
    (h : ∀ x, Does (fun _ => True) b ifAgain (body x)) : Does A b always (Par.loop body x) := by
  intro s hg ha hl
  obtain ⟨k, hk⟩ : ∃ k, s.ts.length - s.i = k + 1 :=
    ⟨s.ts.length - s.i - 1, by have := hg.inRange; omega⟩
  show Ends (turns .stuck body (s.ts.length - s.i) x) s _
  rw [hk, turns]
  refine (hx s hg ha hl).bind fun r s₁ hr => ?_
  have hlt := hr.2 trivial
  cases r with
  | stop z => exact .pure hr
  | again y =>
    refine Ends.turns (fun _ s' => Step s s' ∧ s.i < s'.i) (fun s' => s'.ts.length - 1 - s'.i) ?_
      ⟨hr.1, hlt⟩ ?_
    · intro y s' hst
      have hl' := hst.1.left_le
      refine (h y s' (hst.1.good hg) trivial (by omega)).mono fun r s'' hr' => ⟨?_, ?_⟩
      · intro z hz
        have hlt' := hr'.2 ⟨z, hz⟩
        have hin := hr'.1.inRange
        refine ⟨⟨hst.1.trans hr'.1, by omega⟩, ?_⟩
        rw [hr'.1.ts] at hin ⊢
        omega
      · intro z _
        exact ⟨hst.1.trans hr'.1, fun _ => lt_of_lt_of_le hst.2 hr'.1.le⟩
    · have hin := hr.1.inRange
      rw [hr.1.ts] at hin ⊢
      omega

/-- A body between two changes of the state, the second of which undoes the first. -/
theorem Does.withinAt (he : ∀ s, Good s → Good (enter s) ∧ (enter s).ts = s.ts ∧ (enter s).i = s.i)
    (hle : ∀ s s', Step (enter s) s' → Step s (leave s s') ∧ (leave s s').i = s'.i)
    (h : Does (fun s => A' s) b E m) (hA : ∀ s, A s → A' (enter s)) :
    Does A b E (Par.within enter leave m) := by
  intro s hg ha hl
  obtain ⟨hg', hts, hi⟩ := he s hg
  have hl' : left (enter s) = left s := by simp only [left, hts, hi]
  have hlive : Live (enter s) = Live s := by simp only [Live, AtTok, hts, hi]
  refine Ends.bind (R := fun x s₁ => s = x ∧ s = s₁) ⟨s, s, rfl, rfl, rfl⟩ ?_
  rintro _ _ ⟨rfl, rfl⟩
  refine Ends.bind (R := fun _ s₁ => enter s = s₁) ⟨(), enter s, rfl, rfl⟩ ?_
  rintro _ _ rfl
  refine (h (enter s) hg' (hA s ha) (by omega)).bind fun a s' hr => ?_
  obtain ⟨hst, hi'⟩ := hle s s' hr.1
  refine Ends.bind (R := fun _ s₁ => leave s s' = s₁) ⟨(), leave s s', rfl, rfl⟩ ?_
  rintro _ _ rfl
  refine .pure ⟨hst, fun he' => ?_⟩
  rw [hi', ← hi]
  exact hr.2 (hlive ▸ he')

theorem Does.within (he : ∀ s, Good s → Good (enter s) ∧ (enter s).ts = s.ts ∧ (enter s).i = s.i)
    (hle : ∀ s s', Step (enter s) s' → Step s (leave s s') ∧ (leave s s').i = s'.i)
    (h : Does (fun _ => True) b E m) : Does A b E (Par.within enter leave m) :=
  Does.withinAt he hle h fun _ _ => trivial

end

/-! ### Plumbing -/

section

variable {α β : Type} {A : Parser → Prop} {b : Nat} {E : Prop → β → Prop} {t : Token} {k : Kind}

variable {s : Parser} {g : Token → P β} {p : Token → Bool} {X Y : P β} {ks : List Kind}
  {w what : String} {j n : Nat} {msg : Str}

theorem cur_eq (h : AtTok t s) : cur s = .ok (t, s) := by
  show (tokenAt s s.i).bind _ = _
  unfold tokenAt
  rw [h]
  rfl

theorem Does.cur (h : ∀ t, Does (fun s => A s ∧ AtTok t s) b E (g t)) :
    Does A b E (Par.cur >>= g) := by
  intro s hg ha hl
  obtain ⟨t, ht⟩ := hg.exists_tok
  refine Ends.bind (R := fun a s' => t = a ∧ s = s') ⟨t, s, cur_eq ht, rfl, rfl⟩ ?_
  rintro _ _ ⟨rfl, rfl⟩
  exact h t s hg ⟨ha, ht⟩ hl

/-- A read of the current token, which is known. -/
theorem Does.curAt (h : Does (fun s => A s ∧ AtTok t s) b E (g t)) :
    Does (fun s => A s ∧ AtTok t s) b E (Par.cur >>= g) := by
  intro s hg ha hl
  refine Ends.bind (R := fun a s' => t = a ∧ s = s') ⟨t, s, cur_eq ha.2, rfl, rfl⟩ ?_
  rintro _ _ ⟨rfl, rfl⟩
  exact h s hg ha hl

/-- A test of the current token leaves the state alone. -/
theorem test_ends (h : AtTok t s) :
    Ends (do let t ← Par.cur; Pure.pure (p t) : P Bool) s fun r s' => p t = r ∧ s = s' := by
  refine ⟨p t, s, ?_, rfl, rfl⟩
  show (Par.cur s).bind _ = _
  rw [cur_eq h]
  rfl

theorem Does.test (ht : ∀ t, p t = true → Does (fun s => A s ∧ AtTok t s) b E X)
    (hf : ∀ t, p t = false → Does (fun s => A s ∧ AtTok t s) b E Y) :
    Does A b E ((do let t ← Par.cur; Pure.pure (p t)) >>= fun r => if r = true then X else Y) := by
  intro s hg ha hl
  obtain ⟨t, htok⟩ := hg.exists_tok
  refine (test_ends htok).bind ?_
  rintro _ _ ⟨rfl, rfl⟩
  exact Ends.ite (fun hp => ht t hp s hg ⟨ha, htok⟩ hl)
    fun hp => hf t (by simpa using hp) s hg ⟨ha, htok⟩ hl

theorem Does.atKind (ht : ∀ t, t.kind = k → Does (fun s => A s ∧ AtTok t s) b E X)
    (hf : ∀ t, t.kind ≠ k → Does (fun s => A s ∧ AtTok t s) b E Y) :
    Does A b E (Par.atKind k >>= fun r => if r = true then X else Y) :=
  Does.test (fun t h => ht t (by simpa using h)) (fun t h => hf t (by simpa using h))

theorem Does.atAny (ht : ∀ t, t.kind ∈ ks → Does (fun s => A s ∧ AtTok t s) b E X)
    (hf : ∀ t, t.kind ∉ ks → Does (fun s => A s ∧ AtTok t s) b E Y) :
    Does A b E (Par.atAny ks >>= fun r => if r = true then X else Y) :=
  Does.test (fun t h => ht t (by simpa using h)) (fun t h => hf t (by simpa using h))

theorem Does.atWord (ht : ∀ t, t.kind = .IDENT → Does (fun s => A s ∧ AtTok t s) b E X)
    (hf : ∀ t, Does (fun s => A s ∧ AtTok t s) b E Y) :
    Does A b E (Par.atWord w >>= fun r => if r = true then X else Y) :=
  Does.test (fun t h => ht t (by simp only [Bool.and_eq_true, beq_iff_eq] at h; exact h.1))
    (fun t _ => hf t)

/-- The result of a test kept for later, with the token it was about. -/
theorem Does.lookAt {g : Bool → P β}
    (h : ∀ t r, (r = true → t.kind = k) → Does (fun s => A s ∧ AtTok t s) b E (g r)) :
    Does A b E (Par.atKind k >>= g) := by
  intro s hg ha hl
  obtain ⟨t, htok⟩ := hg.exists_tok
  refine (test_ends (p := fun t => t.kind == k) htok).bind ?_
  rintro r _ ⟨hr, rfl⟩
  exact h t r (fun he => by simpa [he] using hr) s hg ⟨ha, htok⟩ hl

/-- The result of a test for a word kept for later, the token being known. -/
theorem Does.lookWord {g : Bool → P β}
    (h : ∀ r, (r = true → t.kind = .IDENT) → Does (fun s => A s ∧ AtTok t s) b E (g r)) :
    Does (fun s => A s ∧ AtTok t s) b E (Par.atWord w >>= g) := by
  intro s hg ha hl
  refine (test_ends (p := fun t => t.kind == .IDENT && t.lit == w.toList) ha.2).bind ?_
  rintro r _ ⟨hr, rfl⟩
  refine h r (fun he => ?_) s hg ha hl
  rw [he, Bool.and_eq_true, beq_iff_eq] at hr
  exact hr.1

/-- The result of a test kept for later. -/
theorem Does.look {g : Bool → P β} (h : ∀ r, Does A b E (g r)) :
    Does A b E ((do let t ← Par.cur; Pure.pure (p t)) >>= g) := by
  intro s hg ha hl
  obtain ⟨t, htok⟩ := hg.exists_tok
  refine (test_ends htok).bind ?_
  rintro _ _ ⟨rfl, rfl⟩
  exact h _ s hg ha hl

theorem tokenAt_ok (h : j < s.ts.length) : ∃ t, tokenAt s j = .ok t := by
  unfold tokenAt
  rw [List.getElem?_eq_getElem h]
  exact ⟨_, rfl⟩

theorem peekKind_ends (hg : Good s) : Ends (Par.peekKind n) s fun _ s' => s = s' := by
  have hin : (if s.i + n ≥ s.ts.length then s.ts.length - 1 else s.i + n) < s.ts.length := by
    have := hg.inRange
    split <;> omega
  obtain ⟨t, ht⟩ := tokenAt_ok hin
  refine ⟨t.kind, s, ?_, rfl⟩
  show ((tokenAt s _).bind _).bind _ = _
  rw [ht]
  rfl

theorem Does.peekKind {g : Kind → P β} (h : ∀ k, Does A b E (g k)) :
    Does A b E (Par.peekKind n >>= g) := by
  intro s hg ha hl
  refine (peekKind_ends hg).bind ?_
  rintro k _ rfl
  exact h k s hg ha hl

/-- The state after `next`. -/
def advance (s : Parser) : Parser := if s.i < s.ts.length - 1 then { s with i := s.i + 1 } else s

theorem next_eq (h : AtTok t s) : next s = .ok (t, advance s) := by
  show (tokenAt s s.i).bind _ = _
  unfold tokenAt
  rw [h]
  rfl

theorem step_advance (hg : Good s) : Step s (advance s) ∧ (Live s → s.i < (advance s).i) := by
  unfold advance
  split
  · next hlt =>
      exact ⟨⟨rfl, Nat.le_succ _, by show s.i + 1 < s.ts.length; omega, rfl, rfl, rfl,
        prefix_refl _⟩, fun _ => Nat.lt_succ_self _⟩
  · next hge =>
      refine ⟨Step.refl hg.inRange, fun hlive => ?_⟩
      have := hlive.lt hg
      omega

theorem next_does : Does A b ifLive next := by
  intro s hg _ _
  obtain ⟨t, ht⟩ := hg.exists_tok
  exact ⟨t, advance s, next_eq ht, step_advance hg⟩

/-- `next` takes the current token, unless that is `EOF`. -/
theorem Does.next {g : Token → P β} (hne : t.kind ≠ .EOF)
    (hg : ∀ a, Does (fun _ => True) (b - 2) anyhow (g a)) :
    Does (fun s => A s ∧ AtTok t s) b E (Par.next >>= g) := by
  refine Does.moves ?_ hg
  intro s hgood ha hl
  exact (next_does (A := A) s hgood ha.1 hl).mono fun _ _ hr =>
    ⟨hr.1, fun _ => hr.2 ⟨t, ha.2, hne⟩⟩

/-- A computation that goes on where there are tokens left, started at one that is not `EOF`. -/
theorem Does.goes {m : P α} {g : α → P β} (hne : t.kind ≠ .EOF)
    (hm : Does (fun _ => True) b ifLive m)
    (hg : ∀ a, Does (fun _ => True) (b - 2) anyhow (g a)) :
    Does (fun s => A s ∧ AtTok t s) b E (m >>= g) := by
  refine Does.moves ?_ hg
  intro s hgood ha hl
  exact (hm s hgood trivial hl).mono fun _ _ hr => ⟨hr.1, fun _ => hr.2 ⟨t, ha.2, hne⟩⟩

/-- `accept` takes a token, or leaves the state alone. -/
theorem accept_ends (hg : Good s) (hk : k ≠ .EOF) :
    Ends (Par.accept k) s fun r s' =>
      (r = true ∧ Step s s' ∧ s.i < s'.i) ∨
        (r = false ∧ s = s' ∧ ∀ t, AtTok t s → t.kind ≠ k) := by
  obtain ⟨t, htok⟩ := hg.exists_tok
  refine (test_ends (p := fun t => t.kind == k) htok).bind ?_
  rintro r _ ⟨hr, rfl⟩
  refine Ends.ite (fun hr' => ?_) fun hr' => ?_
  · have htk : t.kind = k := by simpa [hr'] using hr
    have hst := step_advance hg
    refine Ends.bind (R := fun _ s' => Step s s' ∧ s.i < s'.i)
      ⟨t, advance s, next_eq htok, hst.1, hst.2 ⟨t, htok, htk ▸ hk⟩⟩ ?_
    rintro _ _ hst
    exact .pure (Or.inl ⟨rfl, hst⟩)
  · have htk : t.kind ≠ k := fun he => hr' (by simp [← hr, he])
    refine .pure (Or.inr ⟨rfl, rfl, fun u hu => ?_⟩)
    obtain rfl := Option.some.inj (htok.symm.trans hu)
    exact htk

theorem Does.accept {X Y : P β} (hk : k ≠ .EOF) (ht : Does (fun _ => True) (b - 2) anyhow X)
    (hf : Does A b E Y) : Does A b E (Par.accept k >>= fun r => if r = true then X else Y) := by
  intro s hg ha hl
  refine (accept_ends hg hk).bind ?_
  rintro r s' (⟨rfl, hst, hlt⟩ | ⟨rfl, rfl, -⟩)
  · have hlt' := hst.left_lt hlt
    refine (ht s' (hst.good hg) trivial (by omega)).mono fun _ _ hr => ?_
    exact ⟨hst.trans hr.1, fun _ => lt_of_lt_of_le hlt hr.1.le⟩
  · exact hf s hg ha hl

/-- `accept` takes the token that is there. -/
theorem Does.acceptAt (ht : t.kind = k) (hk : k ≠ .EOF)
    (hX : Does (fun _ => True) (b - 2) anyhow X) : Does (fun s => A s ∧ AtTok t s) b E
      (Par.accept k >>= fun r => if r = true then X else Y) := by
  intro s hg ha hl
  refine (accept_ends hg hk).bind ?_
  rintro r s' (⟨rfl, hst, hlt⟩ | ⟨rfl, rfl, hne⟩)
  · have hlt' := hst.left_lt hlt
    refine (hX s' (hst.good hg) trivial (by omega)).mono fun _ _ hr => ?_
    exact ⟨hst.trans hr.1, fun _ => lt_of_lt_of_le hlt hr.1.le⟩
  · exact absurd ht (hne t ha.2)

theorem accept_does (hk : k ≠ .EOF := by decide) : Does A b anyhow (Par.accept k) :=
  fun _ hg _ _ => (accept_ends hg hk).mono fun _ _ hr =>
    ⟨hr.elim (fun hr => hr.2.1) fun hr => hr.2.1 ▸ Step.refl hg.inRange, fun he => he.elim⟩

theorem step_report (h : s.i < s.ts.length) (msg : Str) :
    Step s { s with errs := s.errs ++ [msg] } :=
  ⟨rfl, Nat.le_refl _, h, rfl, rfl, rfl, prefix_append _ _⟩

theorem errorAt_ends (hg : Good s) : Ends (errorAt t msg) s fun _ s' => Step s s' ∧ s'.i = s.i :=
  ⟨(), _, rfl, step_report hg.inRange _, rfl⟩

theorem error_ends (hg : Good s) : Ends (error msg) s fun _ s' => Step s s' ∧ s'.i = s.i := by
  obtain ⟨t, htok⟩ := hg.exists_tok
  refine Ends.bind (R := fun a s' => t = a ∧ s = s') ⟨t, s, cur_eq htok, rfl, rfl⟩ ?_
  rintro _ _ ⟨rfl, rfl⟩
  exact errorAt_ends hg

theorem errorFound_ends (hg : Good s) :
    Ends (errorFound what) s fun _ s' => Step s s' ∧ s'.i = s.i := by
  obtain ⟨t, htok⟩ := hg.exists_tok
  refine Ends.bind (R := fun a s' => t = a ∧ s = s') ⟨t, s, cur_eq htok, rfl, rfl⟩ ?_
  rintro _ _ ⟨rfl, rfl⟩
  exact error_ends hg

theorem errorAt_does : Does A b anyhow (errorAt t msg) :=
  fun _ hg _ _ => (errorAt_ends hg).mono fun _ _ hr => ⟨hr.1, fun he => he.elim⟩

theorem error_does : Does A b anyhow (error msg) :=
  fun _ hg _ _ => (error_ends hg).mono fun _ _ hr => ⟨hr.1, fun he => he.elim⟩

theorem errorFound_does : Does A b anyhow (errorFound what) :=
  fun _ hg _ _ => (errorFound_ends hg).mono fun _ _ hr => ⟨hr.1, fun he => he.elim⟩

/-- A report leaves the cursor where it is. -/
theorem Does.stays {m : P Unit} {g : Unit → P β}
    (hm : ∀ s, Good s → Ends m s fun _ s' => Step s s' ∧ s'.i = s.i)
    (h : Does (fun s => True ∧ AtTok t s) b E (g ())) :
    Does (fun s => A s ∧ AtTok t s) b E (m >>= g) := by
  intro s hg ha hl
  refine (hm s hg).bind fun _ s' ⟨hst, hi⟩ => ?_
  have hl' := hst.left_le
  refine (h s' (hst.good hg) ⟨trivial, ?_⟩ (by omega)).mono fun _ _ hr => ?_
  · show s'.ts[s'.i]? = some t
    rw [hst.ts, hi]
    exact ha.2
  · exact ⟨hst.trans hr.1, fun he => hi ▸ hr.2 (hst.live_eq hi ▸ he)⟩

theorem Does.error {g : Unit → P β} (h : Does (fun s => True ∧ AtTok t s) b E (g ())) :
    Does (fun s => A s ∧ AtTok t s) b E (Par.error msg >>= g) :=
  .stays (fun _ hg => error_ends hg) h

theorem expect_does : Does A b anyhow (expect k) :=
  Does.atKind (fun _ _ => next_does.loose)
    fun _ _ => (.bind errorFound_does fun _ => .cur fun _ => .pure)

/-- `expect` takes the token that is there. -/
theorem Does.expect (ht : t.kind = k) (hk : k ≠ .EOF)
    (hg : ∀ a, Does (fun _ => True) (b - 2) anyhow (g a)) :
    Does (fun s => A s ∧ AtTok t s) b E (Par.expect k >>= g) := by
  refine Does.moves ?_ hg
  intro s hgood ha hl
  refine (test_ends (p := fun t => t.kind == k) ha.2).bind ?_
  rintro r _ ⟨hr, rfl⟩
  have hr' : r = true := by simpa [ht] using hr.symm
  subst hr'
  have hst := step_advance hgood
  exact ⟨t, advance s, next_eq ha.2, hst.1, fun _ => hst.2 ⟨t, ha.2, ht ▸ hk⟩⟩

theorem skipSemis_does : Does A b anyhow skipSemis :=
  Does.loop fun _ => Does.atKind
    (fun _ ht => (.next (by simp [ht]) fun _ => .pure)) fun _ _ => .stop

theorem skipTo_does (hks : .EOF ∈ ks) : Does A b anyhow (skipTo ks) :=
  Does.loop fun _ => Does.atAny (fun _ _ => .stop)
    fun _ ht => (.next (fun he => ht (he ▸ hks)) fun _ => .pure)

theorem skipTo_at (hks : .EOF ∈ ks) (ht : t.kind ∉ ks) :
    Does (fun s => A s ∧ AtTok t s) b always (skipTo ks) :=
  Does.loopMoves
    (.atAny (fun _ hu => .same fun he => absurd (he ▸ hu) ht)
      fun _ _ => .same fun _ => .next (fun he => ht (he ▸ hks)) fun _ => .pure)
    fun _ => Does.atAny (fun _ _ => .stop)
      fun _ ht => .next (fun he => ht (he ▸ hks)) fun _ => .pure

theorem expectSemi_does : Does A b anyhow expectSemi :=
  Does.atKind (fun _ _ => skipSemis_does) fun _ _ => .get fun _ => .look fun _ => .ite
    (fun _ => .bind next_does fun _ => skipSemis_does) fun _ => Does.atAny (fun _ _ => .pure) fun _ _ => .bind errorFound_does fun _ =>
      .bind (skipTo_does (by simp)) fun _ => skipSemis_does

/-- `expect_semi` takes every token but the end of a body. -/
theorem expectSemi_at (ht : t.kind ∉ [.RBRACE, .EOF]) :
    Does (fun s => A s ∧ AtTok t s) b always expectSemi := by
  have hne : t.kind ≠ .EOF := fun he => ht (by simp [he])
  refine .atKind (fun u hu => .same fun he => ?_) fun u hu => .same fun he => .get fun _ =>
    .look fun _ => .ite (fun _ => .next hne fun _ => skipSemis_does) fun _ => ?_
  · exact .loopMoves (.atKind (fun _ _ => .same fun _ => .next hne fun _ => .pure)
      fun v hv => .same fun he' => absurd (he' ▸ he ▸ hu) hv) fun _ => .atKind
        (fun _ hk => .next (by simp [hk]) fun _ => .pure) fun _ _ => .stop
  · refine .atAny (fun v hv => .same fun he' => absurd (he' ▸ hv) ht) fun _ _ => .same fun _ => ?_
    have hks : t.kind ∉ [.SEMI, .RBRACE, .EOF] := by
      rw [he] at hu
      simp only [mem_cons] at ht ⊢
      tauto
    exact .stays (fun _ hg => errorFound_ends hg)
      (.moves (skipTo_at (by simp) hks) fun _ => skipSemis_does)

theorem pastSemis_ok {ts : List Token} (h : ∃ t ∈ ts, t.kind ≠ .SEMI) :
    ∃ t i, pastSemis ts j = .ok (t, j + i) ∧ ts[i]? = some t := by
  induction ts generalizing j with
  | nil => simp at h
  | cons u ts ih =>
    by_cases hu : u.kind = .SEMI
    · have h' : ∃ t ∈ ts, t.kind ≠ .SEMI := by
        obtain ⟨t, ht, hne⟩ := h
        rcases mem_cons.mp ht with rfl | ht
        · exact absurd hu hne
        · exact ⟨t, ht, hne⟩
      obtain ⟨t, i, hrun, ht⟩ := ih h' (j := j + 1)
      refine ⟨t, i + 1, ?_, by simpa using ht⟩
      rw [pastSemis, if_pos hu, hrun, Nat.add_right_comm, Nat.add_assoc]
    · exact ⟨u, 0, by rw [pastSemis, if_neg hu, Nat.add_zero], rfl⟩

theorem Good.exists_not_semi (h : Good s) : ∃ t ∈ s.ts.drop s.i, t.kind ≠ .SEMI := by
  have hin := h.inRange
  have hlast : s.ts.length - 1 < s.ts.length := by omega
  refine ⟨s.ts[s.ts.length - 1], mem_iff_getElem?.mpr ⟨s.ts.length - 1 - s.i, ?_⟩, ?_⟩
  · rw [List.getElem?_drop, Nat.add_sub_cancel' (by omega), List.getElem?_eq_getElem hlast]
  · rw [h.last _ (List.getElem?_eq_getElem hlast)]
    decide

/-- `skip_semis_before` stands at a token of the kind, or leaves the state alone. -/
theorem skipSemisBefore_ends (hg : Good s) :
    Ends (Par.skipSemisBefore k) s fun r s' =>
      (r = true ∧ Step s s' ∧ ∃ t, AtTok t s' ∧ t.kind = k) ∨ (r = false ∧ s = s') := by
  obtain ⟨t, i, hrun, htok⟩ := pastSemis_ok hg.exists_not_semi (j := s.i)
  have hrun' : Par.skipSemisBefore k s =
      if t.kind = k then .ok (true, { s with i := s.i + i }) else .ok (false, s) := by
    show (pastSemis _ _).bind _ = _
    rw [hrun]
    rfl
  rw [List.getElem?_drop] at htok
  obtain ⟨hlt, -⟩ := List.getElem?_eq_some_iff.mp htok
  by_cases htk : t.kind = k
  · rw [if_pos htk] at hrun'
    exact ⟨_, _, hrun', Or.inl ⟨rfl, ⟨rfl, Nat.le_add_right _ _, hlt, rfl, rfl, rfl,
      prefix_refl _⟩, t, htok, htk⟩⟩
  · rw [if_neg htk] at hrun'
    exact ⟨_, _, hrun', Or.inr ⟨rfl, rfl⟩⟩

/-- After `skip_semis_before` the token it looked for is taken. -/
theorem Does.skipSemisBefore {X : Token → P β} (hk : k ≠ .EOF)
    (ht : ∀ t, Does (fun _ => True) (b - 2) anyhow (X t)) (hf : Does A b E Y) :
    Does A b E (Par.skipSemisBefore k >>= fun r => if r = true then Par.next >>= X else Y) := by
  intro s hg ha hl
  refine (skipSemisBefore_ends hg).bind ?_
  rintro r s' (⟨rfl, hst, t, htok, htk⟩ | ⟨rfl, rfl⟩)
  · have hl' := hst.left_le
    have hne : t.kind ≠ .EOF := htk ▸ hk
    have hX : Does (fun s => True ∧ AtTok t s) b always (Par.next >>= X) := .next hne ht
    refine (hX s' (hst.good hg) ⟨trivial, htok⟩ (by omega)).mono fun _ _ hr => ?_
    exact ⟨hst.trans hr.1, fun _ => lt_of_le_of_lt hst.le (hr.2 trivial)⟩
  · exact hf s hg ha hl

/-! ### Lists -/

section

variable {γ : Type} {item : P γ} {E' : Prop → γ → Prop}

variable {close : Kind} {xs : List γ} {done : P Bool} {φ : Token → Prop}

theorem commaList_does (h : Does (fun _ => True) b E' item) :
    Does A b anyhow (commaList close item) :=
  Does.loop fun _ => .atAny (fun _ _ => .stop) fun _ _ => .bind (h.pre fun _ _ => trivial)
    fun _ => .accept (by decide) .pure .stop

/-- The items of `commaMore` each come after a comma. -/
theorem commaMore_does (h : Does (fun _ => True) (b - 2) E' item) :
    Does A b anyhow (commaMore item xs) :=
  Does.loop fun _ => .accept (by decide) (.bind h fun _ => .pure) .stop

theorem commaMore_moves (ht : t.kind = .COMMA) (h : Does (fun _ => True) (b - 2) E' item) :
    Does (fun s => A s ∧ AtTok t s) b always (commaMore item xs) :=
  Does.loopMoves
    (.acceptAt ht (by decide) (.bind h fun _ => .pure))
    fun _ => .accept (by decide) (.bind h fun _ => .pure) .stop

theorem commaUntil_does {item : P Node} {E' : Prop → Node → Prop} {xs : List Node}
    (h : Does (fun _ => True) (b - 2) E' item) : Does A b anyhow (commaUntil close item xs) :=
  Does.loop fun _ => .accept (by decide)
    (.atKind (fun _ _ => .pure) fun _ _ => .bind (h.pre fun _ _ => trivial) fun _ => .pure) .stop

/-- A test that leaves the state alone, and fails only at tokens that satisfy `φ`. -/
def Stops (φ : Token → Prop) (done : P Bool) : Prop :=
  ∀ s, Good s → Ends done s fun r s' => s = s' ∧ (r = false → ∃ t, AtTok t s ∧ φ t)

theorem test_does {p : Token → Bool} :
    Does A b anyhow (do let t ← Par.cur; Pure.pure (p t) : P Bool) := by
  intro s hg _ _
  obtain ⟨t, htok⟩ := hg.exists_tok
  refine (test_ends htok).mono ?_
  rintro r _ ⟨-, rfl⟩
  exact ⟨Step.refl hg.inRange, fun he => he.elim⟩

theorem atBodyEnd_stops : Stops (fun t => t.kind ∉ [.RBRACE, .EOF]) atBodyEnd := by
  intro s hg
  obtain ⟨t, htok⟩ := hg.exists_tok
  refine (test_ends htok).mono fun r s' hr => ⟨hr.2, ?_⟩
  rintro rfl
  refine ⟨t, htok, fun he => ?_⟩
  have := hr.1
  simp_all

theorem members_at (hdone : Stops φ done)
    (h : ∀ t, φ t → Does (fun s => True ∧ AtTok t s) b always item) :
    Does A b anyhow (members done item) := by
  refine Does.loop fun xs => Does.bind skipSemis_does fun _ => ?_
  intro s hg _ hl
  refine (hdone s hg).bind ?_
  rintro r _ ⟨rfl, hlive⟩
  refine Ends.ite (fun _ => .pure ⟨Step.refl hg.inRange, fun ⟨_, he⟩ => nomatch he⟩) fun hr => ?_
  obtain ⟨t, htok, hφ⟩ := hlive (by simpa using hr)
  refine (h t hφ s hg ⟨trivial, htok⟩ hl).bind fun x s' hst => .pure ⟨hst.1, fun _ => hst.2 trivial⟩

theorem members_does (hdone : Stops φ done)
    (hφ : ∀ t, φ t → t.kind ≠ .EOF) (h : Does (fun _ => True) b ifLive item) :
    Does A b anyhow (members done item) :=
  members_at hdone fun t ht s hg ha hl => (h s hg trivial hl).mono fun _ _ hr =>
    ⟨hr.1, fun _ => hr.2 ⟨t, ha.2, hφ t ht⟩⟩

/-- The members of a body in braces. -/
theorem body_does (h : Does (fun _ => True) b ifLive item) :
    Does A b anyhow (members atBodyEnd item) :=
  members_does atBodyEnd_stops (fun t ht he => ht (by simp [he])) h

theorem fieldsUpTo_does {item : P (Turn γ γ)} {E'' : Prop → Bool → Prop}
    {E' : Prop → Turn γ γ → Prop} (hdone : Does (fun _ => True) b E'' done)
    (h : Does (fun _ => True) b E' item) : Does A b anyhow (fieldsUpTo done item) :=
  Does.loop fun _ => .bind skipSemis_does fun _ => .bind hdone fun _ => .ite (fun _ => .stop)
    fun _ => .bind h fun
      | .again _ => .accept (by decide) .pure (.bind skipSemis_does fun _ => .stop)
      | .stop _ => .bind skipSemis_does fun _ => .stop

end

/-! ### Scopes -/

theorem bracketed_at {m : P β} (h : Does (fun s => True ∧ AtTok t s) b E m) :
    Does (fun s => A s ∧ AtTok t s) b E (bracketed m) :=
  Does.withinAt (fun s hg => ⟨⟨hg.inRange, hg.last⟩, rfl, rfl⟩)
    (fun s s' hst => ⟨⟨hst.ts, hst.le, hst.inRange, hst.noLit, by simp [hst.lev], hst.armComma,
      hst.errs⟩, rfl⟩) h fun _ ha => ⟨trivial, ha.2⟩

theorem bracketed_does {m : P β} (h : Does (fun _ => True) b E m) :
    Does A b E (bracketed m) :=
  Does.within (fun s hg => ⟨⟨hg.inRange, hg.last⟩, rfl, rfl⟩)
    (fun s s' hst => ⟨⟨hst.ts, hst.le, hst.inRange, hst.noLit, by simp [hst.lev], hst.armComma,
      hst.errs⟩, rfl⟩) h

end

/-- The entry points are good for `n` calls inside one another. -/
structure Ok (n : Nat) (c : Calls) : Prop where
  typeExpr : Does (fun _ => True) (n - 1) ifLive c.typeExpr
  expr : Does (fun _ => True) (n - 1) ifLive c.expr
  unary : Does (fun _ => True) (n - 1) ifLive c.unary
  binary : ∀ min, Does (fun _ => True) (n - 1) ifLive (c.binary min)
  pattern : Does (fun _ => True) (n - 1) ifLive c.pattern
  stmt : Does (fun _ => True) (n - 1) ifLive c.stmt
  block : Does (fun _ => True) (n - 2) anyhow c.block
  ifExpr : ∀ t, t.kind = .IF → Does (fun s => True ∧ AtTok t s) (n - 1) anyhow c.ifExpr
  ifStmt : ∀ t, t.kind = .IF → Does (fun s => True ∧ AtTok t s) (n - 1) anyhow c.ifStmt

end Voila.Par
