import Voila.Par.ExprRuns

/-!
# Voila.Par.ExprSound

What `Parser.expr` accepts over the tokens of operator expressions the table derives, read
loosely (`fragment_reads`): the parser goes on with an operator of the level of the left
operand whatever the row's associativity. So it agrees with the table on every list of
tokens but those where comparisons, or ranges, chain (`parseExpr_exact`).
-/

namespace Voila.Par

open Tok Lib List

/-! ### What a run has read -/

/-- A parser over the tokens of operator expressions without `fn` and `make`, outside any
`impl`. -/
structure Over (s : Parser) : Prop where
  good : Good s
  sym : ∀ t ∈ s.ts, t.kind ∈ alphabet ∧ ops.word t = false
  noSelf : s.selfName = []

/-- The tokens from the cursor on. -/
def rest (s : Parser) : List Token := s.ts.drop s.i

/-- From `s` the parser has only gone on to `s'`, and if it reported nothing, it took
tokens of which `R` holds. -/
structure Reads (R : List Token → Prop) (s s' : Parser) : Prop where
  valid : Over s'
  ts : s'.ts = s.ts
  errs : s.errs <+: s'.errs
  took : s'.errs = s.errs → ∃ us, rest s = us ++ rest s' ∧ R us

section

variable {R R' Q : List Token → Prop} {s s₁ s' : Parser} {t u : Token} {us : List Token} {k : Kind}

theorem Reads.trans (h : Reads R s s₁) (h' : Reads R' s₁ s')
    (hQ : ∀ us vs, R us → R' vs → Q (us ++ vs)) : Reads Q s s' := by
  refine ⟨h'.valid, h'.ts.trans h.ts, h.errs.trans h'.errs, fun he => ?_⟩
  have hle := h.errs.length_le
  have hle' := h'.errs.length_le
  rw [he] at hle'
  have he₁ : s₁.errs = s.errs := (h.errs.eq_of_length (Nat.le_antisymm hle hle')).symm
  obtain ⟨us, hus, hr⟩ := h.took he₁
  obtain ⟨vs, hvs, hr'⟩ := h'.took (he.trans he₁.symm)
  exact ⟨us ++ vs, by rw [hus, hvs, append_assoc], hQ us vs hr hr'⟩

theorem Reads.mono (h : Reads R s s') (hQ : ∀ us, R us → Q us) : Reads Q s s' :=
  ⟨h.valid, h.ts, h.errs, fun he => by
    obtain ⟨us, hus, hr⟩ := h.took he
    exact ⟨us, hus, hQ us hr⟩⟩

/-- The words `fn` and `make` are not among the tokens. -/
theorem Reads.wordless (h : Reads R s s') (ho : Over s) :
    Reads (fun us => R us ∧ ∀ t ∈ us, ops.word t = false) s s' :=
  ⟨h.valid, h.ts, h.errs, fun he => by
    obtain ⟨us, hus, hr⟩ := h.took he
    refine ⟨us, hus, hr, fun t ht => (ho.sym t ?_).2⟩
    have hmem : t ∈ rest s := hus ▸ mem_append_left _ ht
    exact mem_of_mem_drop hmem⟩

theorem Reads.refl (h : Over s) (hR : R []) : Reads R s s :=
  ⟨h, rfl, prefix_refl _, fun _ => ⟨[], rfl, hR⟩⟩

theorem Over.at (h : Over s) : ∃ t us, At s (t :: us) := by
  have hin := h.good.inRange
  exact ⟨s.ts[s.i], s.ts.drop (s.i + 1), h.good, fun t ht => (h.sym t ht).1, h.noSelf,
    drop_eq_getElem_cons hin⟩

/-- A token that is not `EOF` has another one after it. -/
theorem At.more (h : At s (t :: us)) (hne : t.kind ≠ .EOF) : ∃ u us', us = u :: us' := by
  have hlt := Live.lt ⟨t, h.tok, hne⟩ h.good
  have hlen := congrArg List.length h.drop
  simp only [length_drop, length_cons] at hlen
  cases us with
  | nil =>
    simp only [length_nil] at hlen
    omega
  | cons u us' => exact ⟨u, us', rfl⟩

theorem next_reads (ho : Over s) (h : At s (t :: us)) (hne : t.kind ≠ .EOF) :
    Gives next s fun a s' => a = t ∧ Reads (· = [t]) s s' := by
  obtain ⟨u, us', rfl⟩ := h.more hne
  refine .of_run h.next ⟨rfl, ⟨h.fwd_one.good, ho.sym, ho.noSelf⟩, rfl, prefix_refl _, fun _ => ?_⟩
  refine ⟨[t], ?_, rfl⟩
  show s.ts.drop s.i = [t] ++ s.ts.drop (s.i + 1)
  rw [h.drop, show s.ts.drop (s.i + 1) = u :: us' from h.fwd_one.drop]
  rfl

/-- `next` at any token, `EOF` included. -/
theorem skip_reads (ho : Over s) : Gives next s fun _ s' => Reads (fun _ => True) s s' := by
  obtain ⟨t, us, h⟩ := ho.at
  by_cases hne : t.kind = .EOF
  · have hstep := (step_advance ho.good).1
    refine .of_run (next_eq h.tok) ⟨⟨hstep.good ho.good, ?_, ?_⟩, hstep.ts, hstep.errs, fun _ => ?_⟩
    · rw [hstep.ts]
      exact ho.sym
    · unfold advance
      split <;> exact ho.noSelf
    · refine ⟨(rest s).take ((advance s).i - s.i), ?_, trivial⟩
      have hle := hstep.le
      have hrest : rest (advance s) = (rest s).drop ((advance s).i - s.i) := by
        simp only [rest, hstep.ts, drop_drop, Nat.add_sub_cancel' hle]
      rw [hrest, take_append_drop]
  · exact (next_reads ho h hne).mono fun _ _ hr => hr.2.mono fun _ _ => trivial

/-- A report: nothing is claimed of what was read. -/
theorem error_reads (ho : Over s) {msg : Str} : Gives (error msg) s fun _ s' => Reads R s s' := by
  obtain ⟨t, us, h⟩ := ho.at
  refine .step h.cur (.step (a := s) rfl (.of_run (a := ()) rfl ?_))
  refine ⟨⟨⟨ho.good.inRange, ho.good.last⟩, ho.sym, ho.noSelf⟩, rfl, prefix_append _ _, fun he => ?_⟩
  have := congrArg List.length he
  simp at this

theorem errorFound_reads (ho : Over s) {what : String} :
    Gives (errorFound what) s fun _ s' => Reads R s s' := by
  obtain ⟨t, us, h⟩ := ho.at
  exact .step h.cur (error_reads ho)

theorem expect_reads (ho : Over s) (hk : k ≠ .EOF) :
    Gives (expect k) s fun _ s' => Reads (fun us => ∃ t, us = [t] ∧ t.kind = k) s s' := by
  obtain ⟨t, us, h⟩ := ho.at
  refine .step h.atKind (.ite (fun hc => ?_) fun _ => ?_)
  · have ht : t.kind = k := by simpa using hc
    exact (next_reads ho h (ht ▸ hk)).mono fun _ _ hr => hr.2.mono fun us hus => ⟨t, hus, ht⟩
  · refine (errorFound_reads (R := fun us => ∃ t, us = [t] ∧ t.kind = k) ho).bind fun _ s' hr => ?_
    obtain ⟨t', us', h'⟩ := hr.valid.at
    exact .step h'.cur (.pure hr)

end

/-! ### Operands -/

/-- The node is not the name `make`, whose call would read a type. -/
def NotMake (a : Node) : Prop := ¬(a.kind = some .IDENT ∧ a.sval = "make".toList)

/-- The tokens of an expression at level `l`. -/
def Derived (l : Nat) (us : List Token) : Prop := ∃ x : Cst Token, x.Wf ops false l ∧ x.toks = us

/-- The current token does not go on with an operand of level `l`. -/
def AtYield (l : Nat) (s : Parser) : Prop := ∀ t, AtTok t s → Yields l t

/-- The entry points read what the table derives. -/
structure Reader (c : Calls) : Prop where
  expr : ∀ {s}, Over s → Gives c.expr s fun a s' => NotMake a ∧ Reads (Derived 10) s s'
  unary : ∀ {s}, Over s → Gives c.unary s fun a s' => NotMake a ∧ Reads (Derived 100) s s'
  binary : ∀ {m s}, m ≤ 100 → Over s → Gives (c.binary m) s fun a s' =>
    NotMake a ∧ Reads (fun us => Derived m us ∧ AtYield m s') s s'

section

variable {c : Calls} (h : Reader c) {s : Parser} {t u : Token} {us : List Token} {X : Node}

/-! ### Primaries -/

theorem identExpr_reads (ho : Over s) (hat : At s (t :: us)) (ht : t.kind = .IDENT) :
    Gives (identExpr c t) s fun a s' => NotMake a ∧ Reads (· = [t]) s s' := by
  obtain ⟨u, us', rfl⟩ := hat.more (by simp [ht])
  have hword := (ho.sym t (mem_of_getElem? hat.tok)).2
  have hrun : Gives (identExpr c t) s fun a s' => a = add .IDENT t 0 0 t.lit [] ∧ s' = fwd s 1 :=
    identExpr_gives hat ht fun hw => by
      rw [hword] at hw
      cases hw
  refine fun a s' hm => ⟨?_, ?_⟩
  · rw [(hrun a s' hm).1]
    intro hc
    have hlit : t.lit = "make".toList := hc.2
    simp [ops, ht, hlit] at hword
  · rw [(hrun a s' hm).2]
    exact (next_reads ho hat (by simp [ht]) _ _ hat.next).2

theorem bracketed_reads {α : Type} {m : P α} {R : α → List Token → Prop} {N : α → Prop} (ho : Over s)
    (hm : ∀ {s}, Over s → Gives m s fun a s' => N a ∧ Reads (R a) s s') :
    Gives (bracketed m) s fun a s' => N a ∧ Reads (R a) s s' := by
  have hin : Over (inner s) := ⟨⟨ho.good.inRange, ho.good.last⟩, ho.sym, ho.noSelf⟩
  refine Gives.bracketed ((hm hin).mono fun a s' hr => ⟨hr.1, ?_⟩)
  have hr := hr.2
  exact ⟨⟨⟨hr.valid.good.inRange, hr.valid.good.last⟩, hr.valid.sym, hr.valid.noSelf⟩, hr.ts, hr.errs,
    hr.took⟩

include h in
theorem parenBody_reads (ho : Over s) : Gives (parenBody c) s fun r s' => NotMake r.2 ∧
    Reads (fun us => r.1 = none ∧ Derived 10 us ∨ r.1 = some [] ∧ us = []) s s' := by
  obtain ⟨t, us, hat⟩ := ho.at
  refine .step hat.atKind (.ite (fun _ => .pure ⟨fun hc => (by cases hc.1), ?_⟩) fun _ => ?_)
  · exact .refl ho (Or.inr ⟨rfl, rfl⟩)
  · refine (h.expr ho).bind fun x s' hr => ?_
    obtain ⟨t', us', hat'⟩ := hr.2.valid.at
    refine .step hat'.atKind (.ite (fun hc => ?_) fun _ => .pure ⟨hr.1, ?_⟩)
    · exact absurd (by simpa using hc) (hat'.kind_ne (k := .COMMA) (by decide))
    · exact hr.2.mono fun us hus => Or.inl ⟨rfl, hus⟩

include h in
theorem parenExpr_reads (ho : Over s) {o : Token} (hk : o.kind = .LPAREN) :
    Gives (parenExpr c o) s fun a s' =>
      NotMake a ∧ Reads (fun us => Derived 110 (o :: us)) s s' := by
  refine (bracketed_reads ho fun ho => parenBody_reads h ho).bind fun r s₁ hr => ?_
  obtain ⟨hn, hr⟩ := hr
  refine (expect_reads hr.valid (by decide)).bind fun _ s₂ hr₂ => ?_
  have hopn : ops.lead o = .opn := by simp [ops, hk, leadKind, atoms, prefixOps]
  have hreads : Reads (fun us => Derived 110 (o :: us)) s s₂ := hr.trans hr₂ fun us vs hus hvs => by
    obtain ⟨cl, rfl, hcl⟩ := hvs
    have htail : ops.tail cl = .close := by simp [ops, tailOf, isBy, tailKind, hcl]
    rcases hus with ⟨_, x, hx, rfl⟩ | ⟨_, rfl⟩
    · exact ⟨.paren o x cl, ⟨hopn, hx, htail⟩, rfl⟩
    · exact ⟨.unit o cl, ⟨hopn, by simp [ops, hcl, leadKind, atoms, prefixOps]⟩, rfl⟩
  obtain ⟨es, x⟩ := r
  cases es with
  | none => exact .pure ⟨hn, hreads⟩
  | some es => exact .pure ⟨fun hc => (by cases hc.1), hreads⟩

theorem literal_notMake {a : Node} (hat : At s (t :: us)) (hl : literal t = some a) :
    ops.lead t = .atom ∧ NotMake a := by
  have hmem := hat.mem (mem_cons_self ..)
  have hatom : leadKind t.kind = .atom ∧ t.kind ∈ atoms := by
    unfold literal at hl
    generalize t.kind = k at hl hmem
    revert hmem
    cases k <;> cases hl <;> decide
  exact ⟨hatom.1, fun hc => literal_ne_name hl hatom.2 hc.1⟩

include h in
theorem primary_reads (ho : Over s) :
    Gives (primary c) s fun a s' => NotMake a ∧ Reads (Derived 110) s s' := by
  obtain ⟨t, us, hat⟩ := ho.at
  refine .step hat.cur (Gives.peekKind ho.good fun _ => Gives.peekKind ho.good fun _ => ?_)
  have hnot {k : Kind} (hk : k ∉ alphabet) : t.kind ≠ k := hat.kind_ne hk
  cases hl : literal t with
  | some a =>
    obtain ⟨hlead, hmake⟩ := literal_notMake hat hl
    have hne : t.kind ≠ .EOF := fun he => by simp [literal, he] at hl
    refine (next_reads ho hat hne).bind fun _ s' hr => .pure ⟨hmake, ?_⟩
    exact hr.2.mono fun us hus => ⟨.atom t, hlead, hus.symm⟩
  | none =>
    iterate 5 refine .ite (fun hc => absurd hc (hnot (by decide))) fun _ => ?_
    refine .ite (fun hid => ?_) fun _ => .ite (fun hp => ?_) fun _ => ?_
    · refine (identExpr_reads ho hat hid).mono fun a s' hr => ⟨hr.1, hr.2.mono fun us hus => ?_⟩
      exact ⟨.atom t, by simp [Cst.Wf, ops, hid, leadKind, atoms], hus.symm⟩
    · refine (next_reads ho hat (by simp [hp])).bind fun _ s₁ hr => ?_
      refine (parenExpr_reads h hr.2.valid hp).mono fun a s' hr' => ⟨hr'.1, ?_⟩
      exact hr.2.trans hr'.2 fun us vs hus hvs => by
        subst hus
        exact hvs
    · refine .ite (fun hc => absurd hc.1 (hnot (by decide))) fun _ => ?_
      refine .ite (fun hc => absurd hc (hnot (by decide))) fun _ => ?_
      refine (errorFound_reads (R := fun _ => False) ho).bind fun _ s₁ hr => ?_
      refine (skip_reads hr.valid).bind fun _ s₂ hr' => .pure ⟨fun hc => (by cases hc.1), ?_⟩
      exact hr.trans hr' fun _ _ hf => hf.elim

/-! ### Applications -/

include h in
theorem callArg_reads (ho : Over s) (hat : At s (t :: us)) (hne : t.kind ≠ .EOF) :
    Gives (callArg c) s fun _ s' => Reads (Derived 10) s s' := by
  obtain ⟨u, us', rfl⟩ := hat.more hne
  refine .step hat.cur (.step hat.peekOne (.ite (fun hc => ?_) fun _ => ?_))
  · have hmem := hat.mem (mem_cons_of_mem _ (mem_cons_self ..))
    rw [hc.2] at hmem
    exact absurd hmem (by decide)
  · refine (h.expr ho).bind fun a s' hr => ?_
    obtain ⟨t', us', hat'⟩ := hr.2.valid.at
    exact .step (hat'.accept (hat'.kind_ne (by decide))) (.pure hr.2)

include h in
/-- A list of arguments has at most one: the alphabet has no comma. -/
theorem args_reads (ho : Over s) :
    Gives (commaList .RPAREN (callArg c)) s fun _ s' =>
      Reads (fun us => us = [] ∨ Derived 10 us) s s' := by
  obtain ⟨t, us, hat⟩ := ho.at
  refine .turns_step ?_ _
  refine .step (hat.test _) (.ite (fun _ => .pure ⟨nofun, fun z _ => ?_⟩) fun hc => ?_)
  · exact .refl ho (Or.inl rfl)
  · have hne : t.kind ≠ .EOF := fun he => hc (by simp [he])
    refine (callArg_reads h ho hat hne).bind fun a s' hr => ?_
    obtain ⟨t', us', hat'⟩ := hr.valid.at
    refine .step (hat'.accept (hat'.kind_ne (by decide))) (.pure ⟨nofun, fun z _ => ?_⟩)
    exact hr.mono fun us hus => Or.inr hus

include h in
theorem callTail_reads (ho : Over s) (hat : At s (t :: us)) (ht : t.kind = .LPAREN)
    (hX : NotMake X) : Gives (callTail c X) s fun a s' => NotMake a ∧
      Reads (fun us => ∃ vs cl, us = t :: (vs ++ [cl]) ∧ cl.kind = .RPAREN ∧
        (vs = [] ∨ Derived 10 vs)) s s' := by
  obtain ⟨u, us', rfl⟩ := hat.more (by simp [ht])
  refine .step (hat.expect ht) ?_
  have hnext := (next_reads ho hat (by simp [ht]) _ _ hat.next).2
  refine Gives.bind (bracketed_reads (N := fun _ => True)
    (R := fun _ us => us = [] ∨ Derived 10 us) hnext.valid fun {s} ho => ?_) fun r s₁ hr => ?_
  · obtain ⟨v, vs, hat₁⟩ := ho.at
    refine .step hat₁.atKind ?_
    refine Gives.bind (R := fun r s' => r = [] ∧ s' = s)
      (.ite (fun hc => absurd ⟨hc.1, hc.2.1⟩ hX) fun _ => .pure ⟨rfl, rfl⟩) fun r s₁ hr => ?_
    obtain ⟨rfl, rfl⟩ := hr
    exact (args_reads h ho).bind fun args s' hr => .pure ⟨trivial, hr⟩
  · refine (expect_reads hr.2.valid (by decide)).bind fun _ s₂ hr₂ => ?_
    have hargs : Reads (fun ws => ∃ vs cl, ws = vs ++ [cl] ∧ cl.kind = .RPAREN ∧
        (vs = [] ∨ Derived 10 vs)) (fwd s 1) s₂ := hr.2.trans hr₂ fun us vs hus hvs => by
      obtain ⟨cl, rfl, hcl⟩ := hvs
      exact ⟨us, cl, rfl, hcl, hus⟩
    refine .pure ⟨fun hc => (by cases hc.1), hnext.trans hargs fun us vs hus hvs => ?_⟩
    obtain ⟨ws, cl, rfl, hcl⟩ := hvs
    exact ⟨ws, cl, by rw [hus]; rfl, hcl⟩

theorem name_mem {x : Cst Token} {w : Token} (hw : x.name = some w) : w ∈ x.toks := by
  induction x with
  | atom t =>
    cases hw
    exact mem_cons_self ..
  | paren o x c ih => exact mem_cons_of_mem _ (mem_append_left _ (ih hw))
  | unit | call0 | call | unary | binary | ternary => cases hw

include h in
/-- The tails of a primary: the alphabet has only calls. -/
theorem postfixExpr_reads (ho : Over s) (hX : NotMake X) {s₁ : Parser} (hr : Reads (Derived 110) s s₁) :
    Gives (postfixExpr c X) s₁ fun a s' => NotMake a ∧ Reads (Derived 110) s s' := by
  refine Gives.turns (fun x s' => NotMake x ∧ Reads (Derived 110) s s') ?_ ⟨hX, hr⟩
  rintro x s' ⟨hx, hr⟩
  obtain ⟨t, us, hat⟩ := hr.valid.at
  by_cases ht : t.kind = .LPAREN
  · refine postfixTurn_call hat ht ((callTail_reads h hr.valid hat ht hx).mono fun a s₂ hr' => ?_)
    refine ⟨fun y hy => ?_, (by simp)⟩
    cases hy
    refine ⟨hr'.1, (hr.wordless ho).trans hr'.2 fun us vs hus hvs => ?_⟩
    obtain ⟨⟨f, hf, rfl⟩, hword⟩ := hus
    obtain ⟨ws, cl, rfl, hcl, hws⟩ := hvs
    have hword : ∀ w, f.name = some w → ops.word w = false := fun w hw => hword w (name_mem hw)
    have hopn : ops.tail t = .opn := by simp [ops, tailOf, isBy, tailKind, ht]
    have hclose : ops.tail cl = .close := by simp [ops, tailOf, isBy, tailKind, hcl]
    rcases hws with rfl | ⟨x, hx, rfl⟩
    · refine ⟨.call0 f t cl, ⟨Nat.le_refl _, hword, hf, hopn, ?_⟩, rfl⟩
      simp [ops, hcl, leadKind, atoms, prefixOps]
    · exact ⟨.call f t x cl, ⟨Nat.le_refl _, hword, hf, hopn, hx, hclose⟩, rfl⟩
  · refine (postfixTurn_stop hat ht).mono fun r s₂ hr' => ?_
    obtain ⟨rfl, rfl⟩ := hr'
    refine ⟨(by simp), fun z hz => ?_⟩
    cases hz
    exact ⟨hx, hr⟩

/-! ### Operators -/

theorem prefixNode_notMake : NotMake (prefixNode t X) := by
  intro hc
  have := hc.1
  simp only [prefixNode] at this
  split at this <;> cases this

theorem prefixOp_lead {k : Kind} (h : prefixOps.contains k = true) : leadKind k = .unary := by
  revert h
  cases k <;> decide

include h in
theorem unary_reads (ho : Over s) :
    Gives (unary c) s fun a s' => NotMake a ∧ Reads (Derived 100) s s' := by
  obtain ⟨t, us, hat⟩ := ho.at
  refine .step hat.cur (.ite (fun hc => ?_) fun _ => ?_)
  · have hlead := prefixOp_lead hc
    have hne : t.kind ≠ .EOF := fun he => by
      rw [he] at hc
      cases hc
    refine (next_reads ho hat hne).bind fun _ s₁ hr => ?_
    refine (h.unary hr.2.valid).bind fun x s₂ hr' => .pure ⟨prefixNode_notMake, ?_⟩
    refine hr.2.trans hr'.2 fun us vs hus hvs => ?_
    obtain ⟨x, hx, rfl⟩ := hvs
    exact ⟨.unary t x, ⟨Nat.le_refl _, hlead, hx⟩, by rw [hus]; rfl⟩
  · refine (primary_reads h ho).bind fun x s₁ hr => ?_
    refine (postfixExpr_reads h ho hr.1 hr.2).mono fun a s' hr' => ⟨hr'.1, hr'.2.mono fun us hus => ?_⟩
    obtain ⟨x, hx, rfl⟩ := hus
    exact ⟨x, hx.mono (by decide), rfl⟩

/-- What stands on the right of a range: its bound, and perhaps a step. -/
def Bounds (us : List Token) : Prop :=
  Derived 46 us ∨ ∃ vs m ws, us = vs ++ m :: ws ∧ isBy m = true ∧ Derived 46 vs ∧ Derived 46 ws

include h in
theorem rangeRest_reads (ho : Over s) {inc : Int} :
    Gives (rangeRest c inc) s fun _ s' => Reads (fun us => Bounds us ∧ AtYield 46 s') s s' := by
  obtain ⟨t, us, hat⟩ := ho.at
  refine .step (a := s) rfl (.step hat.atKind ?_)
  refine Gives.bind (R := fun _ s' => Reads (fun us => Derived 46 us ∧ AtYield 46 s') s s')
    (.ite (fun hc => ?_) fun _ => ?_) fun hi s₁ hr => ?_
  · exact absurd (by simpa using hc.2) (hat.kind_ne (k := .RBRACKET) (by decide))
  · exact (h.binary (by decide) ho).mono fun a s' hr => hr.2
  · obtain ⟨m, vs, hat₁⟩ := hr.valid.at
    refine .step (hat₁.test _) (.ite (fun hc => ?_) fun _ => .pure ?_)
    · have hby : isBy m = true := by simpa [isBy] using hc
      have hid : m.kind ≠ .EOF := fun he => by simp [he] at hc
      refine (next_reads hr.valid hat₁ hid).bind fun _ s₂ hr₂ => ?_
      refine (h.binary (by decide) hr₂.2.valid).bind fun _ s₃ hr₃ => .pure ?_
      have hmark : Reads (fun us => ∃ vs, us = vs ++ [m] ∧ Derived 46 vs) s s₂ :=
        hr.trans hr₂.2 fun us vs hus hvs => ⟨us, by rw [hvs], hus.1⟩
      refine hmark.trans hr₃.2 fun us ws hus hws => ⟨Or.inr ?_, hws.2⟩
      obtain ⟨vs, rfl, hvs⟩ := hus
      exact ⟨vs, m, ws, by simp, hby, hvs, hws.1⟩
    · exact hr.mono fun us hus => ⟨Or.inl hus.1, hus.2⟩

include h in
theorem elseRest_reads (ho : Over s) :
    Gives (elseRest c) s fun r s' => r.2 = 0 ∧ Reads (fun us => Derived 10 us ∧ AtYield 10 s') s s' := by
  obtain ⟨t, us, hat⟩ := ho.at
  refine .step hat.cur (.step (a := s) rfl (.ite (fun hc => ?_) fun _ => .ite (fun hc => ?_)
    fun _ => ?_))
  · have hnone : ∀ k ∈ alphabet, [Kind.RETURN, .THROW, .BREAK, .CONTINUE].contains k = false := by
      decide
    rw [hnone _ (hat.mem (mem_cons_self ..))] at hc
    cases hc
  · exact absurd hc.1 (hat.kind_ne (by decide))
  · exact (h.binary (by decide) ho).bind fun a s' hr => .pure ⟨rfl, hr.2⟩

/-- After an expression of a level the parser has not gone past an operator that the level
would take as one of its operands'. -/
def Goes (m : Nat) (s' : Parser) (us : List Token) : Prop :=
  ∃ l, m ≤ l ∧ Derived l us ∧ ∀ t, AtTok t s' → ∀ r b, tailOf t = .oper r b → r.leftLevel false ≤ l

theorem rows_right_le : ∀ r ∈ rows.map (·.1), r.rightLevel ≤ 100 := by decide

theorem rows_left_le : ∀ r ∈ rows.map (·.1), r.leftLevel false ≤ 100 := by decide

theorem rows_next : ∀ r ∈ rows.map (·.1), ∀ r' ∈ rows.map (·.1),
    r'.level < r.rightLevel → r'.leftLevel false ≤ r.level := by decide

variable {b : Bool} {m : Nat} {r : Row}

/-- After an operator's right operand comes an operator that may have the whole for its left
operand. -/
theorem goes_of_yield {s' : Parser} (ht : tailOf t = .oper r b)
    (hm : m ≤ r.level) (hy : AtYield r.rightLevel s') (hd : Derived r.level us) : Goes m s' us :=
  ⟨r.level, hm, hd, fun u hu r' b' hop => rows_next r (tailKind_mem (tailOf_oper ht)) r'
    (tailKind_mem (tailOf_oper hop)) (hy u hu r' b' hop)⟩

/-- The state of `binary`'s loop at a left operand. -/
def LeftOperand (m : Nat) (s : Parser) (x : Node) (s' : Parser) : Prop :=
  NotMake x ∧ Reads (Goes m s') s s'

/-- An operator taken with its right operand extends the expression on its left. -/
theorem Reads.extend {s₁ s₂ s₃ : Parser} {R : List Token → Prop}
    (hr : Reads (Goes m s₁) s s₁) (hat : AtTok t s₁) (ht : tailOf t = .oper r b) (hm : m ≤ r.level)
    (h₂ : Reads (· = [t]) s₁ s₂) (h₃ : Reads (fun us => R us ∧ AtYield r.rightLevel s₃) s₂ s₃)
    (hR : ∀ us vs, Derived (r.leftLevel false) us → R vs → Derived r.level (us ++ t :: vs)) :
    Reads (Goes m s₃) s s₃ := by
  have hop : Reads (fun us => ∃ vs, us = vs ++ [t] ∧ Derived (r.leftLevel false) vs) s s₂ :=
    hr.trans h₂ fun us vs ⟨l, _, ⟨x, hx, hxus⟩, hl⟩ hvs =>
      ⟨us, by rw [hvs], x, hx.mono (hl t hat r b ht), hxus⟩
  refine hop.trans h₃ fun us vs hus hvs => goes_of_yield ht hm hvs.2 ?_
  obtain ⟨ws, rfl, hws⟩ := hus
  have := hR ws vs hws hvs.1
  simpa using this

theorem derived_binary (ht : tailOf t = .oper r b) (us vs : List Token)
    (hus : Derived (r.leftLevel false) us) (hvs : Derived r.rightLevel vs) :
    Derived r.level (us ++ t :: vs) := by
  obtain ⟨x, hx, rfl⟩ := hus
  obtain ⟨y, hy, rfl⟩ := hvs
  exact ⟨.binary t x y, ⟨r, b, ht, Nat.le_refl _, hx, hy⟩, rfl⟩

theorem derived_range (ht : tailOf t = .oper ⟨45, .none⟩ true) (us vs : List Token)
    (hus : Derived 45 us) (hvs : Bounds vs) : Derived 45 (us ++ t :: vs) := by
  rcases hvs with hvs | ⟨ws, m, zs, rfl, hm, hws, hzs⟩
  · exact derived_binary ht us vs hus hvs
  · obtain ⟨x, hx, rfl⟩ := hus
    obtain ⟨y, hy, rfl⟩ := hws
    obtain ⟨z, hz, rfl⟩ := hzs
    have hmark : tailOf m = .mark ⟨45, .none⟩ := by simp [tailOf, hm]
    exact ⟨.ternary t m x y z, ⟨_, ht, hmark, Nat.le_refl _, hx, hy, hz⟩, rfl⟩

include h in
/-- The turns of `binary`: an infix operator and its right operand extend the expression. -/
theorem binaryTurn_reads {s₁ : Parser} (hl : LeftOperand m s X s₁) :
    Gives (binaryTurn c m X) s₁ fun r s' => (∀ x, r = .again x → LeftOperand m s x s') ∧
      ∀ x, r = .stop x → NotMake x ∧ Reads (fun us => Derived m us ∧ AtYield m s') s s' := by
  obtain ⟨hmake, hr⟩ := hl
  obtain ⟨t, us, hat⟩ := hr.valid.at
  have hagain {a : Node} {s' : Parser} (hn : NotMake a) (hr : Reads (Goes m s') s s') :
      (∀ x, (.again a : Turn Node Node) = .again x → LeftOperand m s x s') ∧
        ∀ x, (.again a : Turn Node Node) = .stop x →
          NotMake x ∧ Reads (fun us => Derived m us ∧ AtYield m s') s s' :=
    ⟨fun x hx => by cases hx; exact ⟨hn, hr⟩, nofun⟩
  refine .step hat.cur (.ite (fun hc => ?_) fun hrange => .ite (fun hc => ?_) fun helse => ?_)
  · obtain ⟨b, ht⟩ : ∃ b, tailOf t = .oper ⟨45, .none⟩ b := by
      rcases hc.1 with hk | hk
      · exact ⟨true, tailOf_of_kind hk rfl⟩
      · exact ⟨true, tailOf_of_kind hk rfl⟩
    obtain rfl : b = true := by
      rcases tailKind_oper (tailOf_oper ht) with ⟨hb, _⟩ | ⟨_, hk, _⟩ | ⟨_, hk, _⟩
      · exact hb
      · rcases hc.1 with hk' | hk' <;> cases hk'.symm.trans hk
      · exact absurd hc.1 hk
    have hne : t.kind ≠ .EOF := fun he => by simp [he] at hc
    refine (next_reads hr.valid hat hne).bind fun _ s₂ hr₂ => ?_
    refine (rangeRest_reads h hr₂.2.valid).bind fun x s₃ hr₃ => .pure (hagain ?_ ?_)
    · exact fun hc => nomatch hc.1
    · exact hr.extend hat.tok ht hc.2 hr₂.2 hr₃ (derived_range ht)
  · have ht : tailOf t = .oper ⟨10, .right⟩ false := tailOf_of_kind hc.1 rfl
    have hne : t.kind ≠ .EOF := fun he => by simp [he] at hc
    refine (next_reads hr.valid hat hne).bind fun _ s₂ hr₂ => ?_
    refine (elseRest_reads h hr₂.2.valid).bind fun x s₃ hr₃ => .pure (hagain ?_ ?_)
    · exact fun hc => nomatch hc.1
    · exact hr.extend hat.tok ht hc.2 hr₂.2 hr₃.2 (derived_binary ht)
  · refine .ite (fun hc => .pure ⟨nofun, fun x hx => ?_⟩) fun hc => ?_
    · cases hx
      refine ⟨hmake, hr.mono fun us ⟨l, hl, ⟨x, hx, hxus⟩, _⟩ => ⟨⟨x, hx.mono hl, hxus⟩, ?_⟩⟩
      intro u hu r b hop
      obtain rfl : u = t := Option.some.inj (hu.symm.trans hat.tok)
      by_contra hle
      rw [Nat.not_lt] at hle
      rcases tailKind_oper (tailOf_oper hop) with ⟨_, hk, rfl⟩ | ⟨_, hk, rfl⟩ | ⟨_, _, _, hp, hp0, _⟩
      · exact hrange ⟨hk, hle⟩
      · exact helse ⟨hk, hle⟩
      · rcases hc with hc | hc
        · exact hp0 hc
        · rw [hp] at hc
          exact absurd hle (Nat.not_le_of_lt hc)
    · obtain ⟨r, b, hop⟩ : ∃ r b, tailKind t.kind = .oper r b := by
        by_contra hno
        exact hc (Or.inl (binPrec_eq_zero fun r b he => hno ⟨r, b, he⟩))
      have ht : tailOf t = .oper r b := tailOf_of_kind rfl hop
      have hprec : binPrec t.kind = r.level ∧
          r.rightLevel = if isRightAssoc t.kind then binPrec t.kind else binPrec t.kind + 1 := by
        rcases tailKind_oper hop with ⟨_, hk, _⟩ | ⟨_, hk, _⟩ | ⟨_, _, _, hp, _, hr⟩
        · rcases hk with hk | hk <;> exact absurd (Or.inl (by rw [hk]; rfl)) hc
        · exact absurd (Or.inl (by rw [hk]; rfl)) hc
        · exact ⟨hp, hr⟩
      have hm : m ≤ r.level := by
        rw [← hprec.1]
        exact Nat.not_lt.mp fun hlt => hc (Or.inr hlt)
      have hne : t.kind ≠ .EOF := fun he => by
        rw [he] at hop
        cases hop
      refine (next_reads hr.valid hat hne).bind fun _ s₂ hr₂ => ?_
      rw [← hprec.2]
      refine (h.binary (rows_right_le r (tailKind_mem hop)) hr₂.2.valid).bind fun y s₃ hr₃ =>
        .pure (hagain ?_ ?_)
      · exact fun hc => nomatch hc.1
      · exact hr.extend hat.tok ht hm hr₂.2 hr₃.2 (derived_binary ht)

include h in
theorem binary_reads (hm : m ≤ 100) (ho : Over s) : Gives (binary c m) s fun a s' =>
    NotMake a ∧ Reads (fun us => Derived m us ∧ AtYield m s') s s' := by
  refine (unary_reads h ho).bind fun x s₁ hr => ?_
  refine Gives.turns (LeftOperand m s) (fun x s' hl => binaryTurn_reads h hl) ⟨hr.1, ?_⟩
  refine hr.2.mono fun us hus => ⟨100, hm, hus, fun t _ r b ht => ?_⟩
  exact rows_left_le r (tailKind_mem (tailOf_oper ht))

end

/-- The entry points at every depth read what the table derives. -/
theorem calls_reader : ∀ n, Reader (calls n)
  | 0 => ⟨fun _ => .throw, fun _ => .throw, fun _ _ => .throw⟩
  | n + 1 => by
    have h := calls_reader n
    refine ⟨fun ho => ?_, unary_reads h, binary_reads h⟩
    exact (binary_reads h (m := 10) (by decide) ho).mono fun a s' hr =>
      ⟨hr.1, hr.2.mono fun us hus => hus.1⟩

/-- What `fragment` accepts is an expression, up to `EOF`. -/
theorem fragment_reads {n : Nat} {s : Parser} (ho : Over s) :
    Gives (fragment (calls n)) s fun _ s' =>
      Reads (fun us => Derived 10 us ∧ ∀ t, AtTok t s' → t.kind = .EOF) s s' := by
  refine ((calls_reader n).expr ho).bind fun a s₁ hr => ?_
  obtain ⟨t, us, hat⟩ := hr.2.valid.at
  refine .step (hat.test _) (.ite (fun hc => .pure ?_) fun _ => ?_)
  · have hk : t.kind = .EOF := by
      have hne := hat.kind_ne (k := .SEMI) (by decide)
      simpa [hne] using hc
    refine hr.2.mono fun us hus => ⟨hus, fun u hu => ?_⟩
    obtain rfl := Option.some.inj (hu.symm.trans hat.tok)
    exact hk
  · exact .step hat.cur ((error_reads hr.2.valid).bind fun _ s₂ hr₂ => .pure
      (@Reads.trans _ (fun _ => False) _ _ _ _ hr.2 hr₂ fun _ _ _ hf => hf.elim))

/-! ### The parser and the table -/

/-- The reading of a text that is one expression: `New`, an expression, and nothing after it. -/
def parseExpr (fileName : Str) (ts : List Token) (line col : Nat) : Except Crash (Node × Parser) :=
  fragment (calls (depth ts + 3)) (newParser fileName ts line col [])

/-- A token of operator expressions, the words `fn` and `make` apart. -/
def Symbol (t : Token) : Prop := t.kind ∈ alphabet ∧ t.kind ≠ .EOF ∧ ops.word t = false

theorem lead_alphabet {k : Kind} (h : leadKind k ≠ .other) : k ∈ alphabet ∧ k ≠ .EOF := by
  revert h
  cases k <;> decide

theorem tail_alphabet {t : Token} (h : tailOf t ≠ .other) : t.kind ∈ alphabet ∧ t.kind ≠ .EOF := by
  unfold tailOf at h
  split at h
  · next hby =>
      have hk : t.kind = .IDENT := by
        simp only [isBy, Bool.and_eq_true, decide_eq_true_eq] at hby
        exact hby.1
      rw [hk]
      decide
  · revert h
    cases t.kind <;> decide

/-- The tokens of an expression are of the alphabet. -/
theorem wf_alphabet {strict : Bool} {x : Cst Token} {l : Nat} (h : x.Wf ops strict l) (t : Token)
    (ht : t ∈ x.toks) : t.kind ∈ alphabet ∧ t.kind ≠ .EOF :=
  (h.known t ht).elim lead_alphabet tail_alphabet

section

variable (fileName : Str) (line col : Nat)

variable {ts : List Token} {x : Cst Token}

theorem newParser_at (hts : ∀ t ∈ ts, t.kind ∈ alphabet) :
    At (newParser fileName ts line col []) (ts ++ [eofToken line col]) := by
  refine ⟨newParser_good _ _ _ _ _, fun t ht => ?_, rfl, rfl⟩
  rcases mem_append.mp ht with ht | ht
  · exact hts t ht
  · rw [mem_singleton.mp ht]
    show Kind.EOF ∈ alphabet
    decide

theorem parseExpr_ends (ts : List Token) : Ends (fragment (calls (depth ts + 3)))
    (newParser fileName ts line col []) fun _ _ => True := by
  have hl := left_newParser fileName ts line col []
  exact (fragment_does (A := fun _ => True) (calls_ok (depth ts + 3)) (Nat.le_refl _) _
    (newParser_good _ _ _ _ _) trivial (by omega)).mono fun _ _ _ => trivial

/-- An expression that the table derives, if only loosely, is read as such. -/
theorem parseExpr_derived (hx : x.Wf ops false 10) :
    ∃ s', parseExpr fileName x.toks line col = .ok (x.node, s') ∧ s'.errs = [] := by
  have hat := newParser_at fileName line col fun t ht => (wf_alphabet hx t ht).1
  obtain ⟨a, s', hrun, -, rfl, rfl⟩ := (parseExpr_ends fileName line col x.toks).and_gives
    (fragment_gives hx hat rfl)
  exact ⟨_, hrun, rfl⟩

/-- What is read without a report the table derives, if only loosely. -/
theorem parseExpr_accepts (hts : ∀ t ∈ ts, Symbol t) {a : Node} {s' : Parser}
    (hrun : parseExpr fileName ts line col = .ok (a, s')) (he : s'.errs = []) :
    ∃ x : Cst Token, x.Wf ops false 10 ∧ x.toks = ts := by
  have hat := newParser_at fileName line col fun t ht => (hts t ht).1
  have hover : Over (newParser fileName ts line col []) := by
    refine ⟨hat.good, fun t ht => ⟨hat.sym t ht, ?_⟩, rfl⟩
    rcases mem_append.mp ht with ht | ht
    · exact (hts t ht).2.2
    · rw [mem_singleton.mp ht]
      rfl
  have hreads := fragment_reads hover a s' hrun
  obtain ⟨us, hus, ⟨x, hx, rfl⟩, heof⟩ := hreads.took he
  refine ⟨x, hx, ?_⟩
  obtain ⟨t, vs, hat'⟩ := hreads.valid.at
  have ht := heof t hat'.tok
  have hlist : ts ++ [eofToken line col] = x.toks ++ t :: vs := by
    rw [← hat.drop, ← hat'.drop]
    exact hus
  -- the token the parser has stopped at is the one that ends the list
  rcases append_eq_append_iff.mp hlist with ⟨ws, hws, hws'⟩ | ⟨ws, hws, hws'⟩
  · cases ws with
    | nil => simpa using hws
    | cons w ws => simp at hws'
  · cases ws with
    | nil => simpa using hws.symm
    | cons w ws =>
      cases hws'
      exact absurd ht (hts t (hws ▸ mem_append_right _ (mem_cons_self ..))).2.1

/-- The parentheses of a printed tree. -/
def lparen : Token := ⟨.LPAREN, [], 0, 0, []⟩
def rparen : Token := ⟨.RPAREN, [], 0, 0, []⟩

/-- The parser agrees with the table on the tokens `ts`: a tree of which they are the print is
given back without a report, and if the table does not derive them something is reported. -/
def AgreesWithTable (ts : List Token) : Prop :=
  (∀ e : OpTree Token, e.Ok ops → (e.print ops lparen rparen 10).toks = ts →
    ∃ s', parseExpr fileName ts line col = .ok (e.node, s') ∧ s'.errs = []) ∧
  ((¬∃ x : Cst Token, x.Wf ops true 10 ∧ x.toks = ts) →
    ∃ a s', parseExpr fileName ts line col = .ok (a, s') ∧ s'.errs ≠ [])

/-- A printed tree is given back. -/
theorem parseExpr_print {e : OpTree Token} (he : e.Ok ops) :
    ∃ s', parseExpr fileName (e.print ops lparen rparen 10).toks line col = .ok (e.node, s') ∧
      s'.errs = [] := by
  have hwf := OpTree.print_wf (o := lparen) (c := rparen) rfl rfl (by decide) he 10
  have hshow := OpTree.print_shows (T := ops) (o := lparen) (c := rparen) e 10
  rw [← hshow.node_eq]
  exact parseExpr_derived fileName line col hwf.loose

/-- Where operators chain the parser goes on, and the table does not. -/
theorem chained_disagrees (hx : x.Wf ops false 10)
    (hchain : chained ops x.toks = true) : ¬AgreesWithTable fileName line col x.toks := by
  intro h
  obtain ⟨s', hrun, herrs⟩ := parseExpr_derived fileName line col hx
  refine absurd (h.2 fun ⟨y, hy, htoks⟩ => ?_) fun ⟨a, s'', hrun', herrs'⟩ => ?_
  · have hnone := (Cst.strict_iff hy.loose).mp hy
    rw [← Cst.chained_toks hy.loose, htoks, hchain] at hnone
    cases hnone
  · cases hrun.symm.trans hrun'
    exact herrs' herrs

/-- The parser agrees with the table on every tree, printed with as few parentheses as the
table allows; and on every list of tokens but those that are an expression only if chains of
comparisons, or of ranges, associate to the left. -/
theorem parseExpr_exact :
    (∀ e : OpTree Token, e.Ok ops →
      (∃ s', parseExpr fileName (e.print ops lparen rparen 10).toks line col = .ok (e.node, s') ∧
        s'.errs = []) ∧
      ∀ x : Cst Token, Shows x e → x.Wf ops true 10 →
        (e.print ops lparen rparen 10).toks.length ≤ x.toks.length ∧
        ∃ s', parseExpr fileName x.toks line col = .ok (e.node, s') ∧ s'.errs = []) ∧
    ∀ ts : List Token, (∀ t ∈ ts, Symbol t) →
      (AgreesWithTable fileName line col ts ↔
        ¬((∃ x : Cst Token, x.Wf ops false 10 ∧ x.toks = ts) ∧ chained ops ts = true)) := by
  refine ⟨fun e he => ⟨parseExpr_print fileName line col he, fun x hshow hx => ⟨?_, ?_⟩⟩,
    fun ts hts => ⟨fun h hchain => ?_, fun h => ⟨fun e he hts => ?_, fun hno => ?_⟩⟩⟩
  · exact OpTree.print_shortest hshow hx
  · rw [← hshow.node_eq]
    exact parseExpr_derived fileName line col hx.loose
  · obtain ⟨⟨x, hx, rfl⟩, hchain⟩ := hchain
    exact chained_disagrees fileName line col hx hchain h
  · subst hts
    exact parseExpr_print fileName line col he
  · obtain ⟨a, s', hrun, -⟩ := parseExpr_ends fileName line col ts
    refine ⟨a, s', hrun, fun herrs => ?_⟩
    obtain ⟨x, hx, rfl⟩ := parseExpr_accepts fileName line col hts hrun herrs
    -- what is accepted but not derived chains
    by_cases hchain : x.chain ops = true
    · exact h ⟨⟨x, hx, rfl⟩, (Cst.chained_toks hx).trans hchain⟩
    · exact hno ⟨x, (Cst.strict_iff hx).mpr (by simpa using hchain), rfl⟩

end

/-- A name, and an operator, for the cases below. -/
def nameAt (name : String) (col : Nat) : Token := ⟨.IDENT, name.toList, 1, col, []⟩
def opAt (k : Kind) (col : Nat) : Token := ⟨k, [], 1, col, []⟩

/-- `(a + b) * c` is given back, and `a < b` is read as the table says. -/
theorem parseExpr_sum_product :
    let e : OpTree Token := .binary (opAt .STAR 9) (.binary (opAt .PLUS 4) (.atom (nameAt "a" 2))
      (.atom (nameAt "b" 6))) (.atom (nameAt "c" 11))
    (∃ s', parseExpr [] (e.print ops lparen rparen 10).toks 1 12 = .ok (e.node, s') ∧ s'.errs = []) ∧
    AgreesWithTable [] 1 6 [nameAt "a" 1, opAt .LT 3, nameAt "b" 5] := by
  refine ⟨((parseExpr_exact [] 1 12).1 _ ?_).1, ((parseExpr_exact [] 1 6).2 _ ?_).mpr ?_⟩
  · exact ⟨⟨⟨80, .left⟩, false, rfl⟩, ⟨⟨⟨70, .left⟩, false, rfl⟩, rfl, rfl⟩, rfl⟩
  · simp only [forall_mem_cons]
    exact ⟨⟨by decide, by decide, rfl⟩, ⟨by decide, by decide, rfl⟩, ⟨by decide, by decide, rfl⟩, by simp⟩
  · exact fun h => absurd h.2 (by decide)

/-- `a < b < c` is accepted, though the comparisons do not associate. -/
theorem parseExpr_less_chain : ¬AgreesWithTable [] 1 10
    [nameAt "a" 1, opAt .LT 3, nameAt "b" 5, opAt .LT 7, nameAt "c" 9] := by
  have h := chained_disagrees [] 1 10 (x := .binary (opAt .LT 7) (.binary (opAt .LT 3)
    (.atom (nameAt "a" 1)) (.atom (nameAt "b" 5))) (.atom (nameAt "c" 9)))
  exact h ⟨⟨40, .none⟩, false, rfl, by decide,
    ⟨⟨40, .none⟩, false, rfl, by decide, rfl, rfl⟩, rfl⟩ (by decide)

end Voila.Par
