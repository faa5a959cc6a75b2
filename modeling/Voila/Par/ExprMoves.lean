import Voila.Par.Moves

/-!
# Voila.Par.ExprMoves

Types, expressions, patterns and statements move the parser as `Step` says, one lemma
for each function, in the order of the definitions.
-/

namespace Voila.Par

open Tok Lib List

section

variable {n b : Nat} {c : Calls} {A : Parser → Prop} {t : Token}

section

variable (h : Ok n c)

include h

theorem Ok.typeExpr' (hb : b ≤ n - 1) : Does A b ifLive c.typeExpr :=
  (h.typeExpr.le hb).pre fun _ _ => trivial

theorem Ok.expr' (hb : b ≤ n - 1) : Does A b ifLive c.expr :=
  (h.expr.le hb).pre fun _ _ => trivial

theorem Ok.unary' (hb : b ≤ n - 1) : Does A b ifLive c.unary :=
  (h.unary.le hb).pre fun _ _ => trivial

variable {min : Nat} {ps : List Node} {E : Prop → Node → Prop} {x : Node} {s : Parser} {inc : Int}

theorem Ok.binary' (hb : b ≤ n - 1) : Does A b ifLive (c.binary min) :=
  ((h.binary min).le hb).pre fun _ _ => trivial

theorem Ok.pattern' (hb : b ≤ n - 1) : Does A b ifLive c.pattern :=
  (h.pattern.le hb).pre fun _ _ => trivial

theorem Ok.stmt' (hb : b ≤ n - 1) : Does A b ifLive c.stmt :=
  (h.stmt.le hb).pre fun _ _ => trivial

theorem Ok.block' (hb : b ≤ n - 2) : Does A b anyhow c.block :=
  (h.block.le hb).pre fun _ _ => trivial

/-! ### Types -/

theorem fnType_does (hb : b ≤ n - 1) : Does A b anyhow (fnType c t) :=
  .bind expect_does fun _ => .bind (commaList_does (h.typeExpr' hb)) fun _ =>
    .bind expect_does fun _ => .bind (.atAny (fun _ _ => .pure) fun _ _ => (h.typeExpr' hb).loose)
      fun _ => .pure

theorem typeArg_does (hb : b ≤ n - 1) : Does A b anyhow (typeArg c) :=
  .bind expect_does fun _ => .bind (h.typeExpr' hb) fun _ => .bind expect_does fun _ => .pure

theorem namedType_does (hb : b ≤ n - 1) : Does A b anyhow (namedType c t) :=
  .get fun _ => .look fun _ => .look fun _ =>
    .ite (fun _ => .bind (typeArg_does h hb) fun _ => .bind (h.typeExpr' hb) fun _ => .pure) fun _ =>
    .ite (fun _ => .bind (typeArg_does h hb) fun _ => .pure) fun _ =>
    .ite (fun _ => .bind (typeArg_does h hb) fun _ => .pure) fun _ =>
    .ite (fun _ => fnType_does h hb) fun _ => .ite (fun _ => .pure) fun _ => .ite (fun _ => .pure)
      fun _ => .bind (.accept (by decide) (.bind expect_does fun _ => .pure) .pure) fun _ =>
        .bind (.accept (by decide) (.bind (commaList_does (h.typeExpr' (by omega))) fun _ =>
          .bind expect_does fun _ => .pure) .pure) fun _ => .pure

theorem sliceType_does (hb : b ≤ n - 1) : Does A b anyhow (sliceType c t) :=
  .accept (by decide) (.bind (h.typeExpr' (by omega)) fun _ => .pure)
    (.bind (bracketed_does (h.expr' hb)) fun _ => .bind expect_does fun _ =>
      .bind (h.typeExpr' hb) fun _ => .pure)

theorem typeInner_does (hb : b ≤ n) : Does A b ifLive (typeInner c) :=
  .cur fun t =>
    .ite (fun hk => .next (by simp [hk]) fun _ => .bind (h.typeExpr' (by omega)) fun _ => .pure)
      fun _ =>
    .ite (fun hk => .next (by simp [hk]) fun _ => .bind (h.typeExpr' (by omega)) fun _ => .pure)
      fun _ =>
    .ite (fun hk => .next (by simp [hk]) fun _ => sliceType_does h (by omega)) fun _ =>
    .ite (fun hk => .next (by simp [hk]) fun _ => .bind (typeArg_does h (by omega)) fun _ => .pure)
      fun _ =>
    .ite (fun hk => .next (by rcases hk with hk | hk <;> simp [hk]) fun _ =>
      .bind (typeArg_does h (by omega)) fun _ => .pure) fun _ =>
    .ite (fun hk => .next (by simp [hk]) fun _ => .bind (commaList_does (h.typeExpr' (by omega)))
      fun _ => .bind expect_does fun _ => .pure) fun _ =>
    .ite (fun hk => .next (by simp [hk]) fun _ => fnType_does h (by omega)) fun _ =>
    .ite (fun hk => .next (by simp [hk]) fun _ => namedType_does h (by omega)) fun _ =>
    .bind errorFound_does fun _ => .live next_does fun _ => .pure

theorem typeExpr_does (hb : b ≤ n) : Does A b ifLive (typeExpr c) :=
  .live (typeInner_does h hb) fun _ => .loop fun _ =>
    .atKind (fun _ hk => .next (by simp [hk]) fun _ => .pure) fun _ _ => .stop

omit h in
theorem paramMode_does : Does A b anyhow paramMode :=
  .accept (by decide) .pure (.accept (by decide) .pure .pure)

theorem paramRest_does (hb : b ≤ n) : Does A b anyhow (paramRest c) :=
  .accept (by decide) (.bind (h.typeExpr' (by omega)) fun _ => .pure)
    (.atAny (fun _ _ => .pure) fun _ _ =>
      .accept (by decide) (.bind (h.expr' (by omega)) fun _ => .pure)
        (.bind (typeExpr_does h hb) fun _ =>
          .accept (by decide) (.bind (h.expr' (by omega)) fun _ => .pure) .pure))

theorem namedParam_does (hb : b ≤ n) {before : Option Nat} :
    Does A b ifAgain (namedParam c before ps) :=
  .bind expect_does fun _ => .bind paramMode_does fun _ => .bind (paramRest_does h hb)
    fun (_, _, _) => .accept (by decide) .pure .stop

theorem paramTurn_does (hb : b ≤ n) : Does A b ifAgain (paramTurn c ps) :=
  .atAny (fun _ _ => .stop) fun _ _ => .bind paramMode_does fun _ =>
    .accept (by decide)
      (.bind (.modify fun _ hi => ⟨rfl, Nat.le_refl _, hi, rfl, rfl, rfl, prefix_refl _⟩)
        fun _ => .accept (by decide) .pure .pure)
      (.atKind (fun _ hk => .next (by simp [hk]) fun _ => .pure) fun _ _ => namedParam_does h hb)

theorem params_does (hb : b ≤ n) : Does A b anyhow (params c) :=
  .bind expect_does fun _ => .bind (bracketed_does (.loop fun _ => paramTurn_does h hb)) fun _ =>
    .bind expect_does fun _ => .pure

/-! ### Tails -/

theorem compField_does (hb : b ≤ n - 1) : Does A b anyhow (compField c) :=
  .cur fun _ => .peekKind fun _ =>
    .bind (.ite (fun _ => .bind next_does fun _ => .bind next_does fun _ => .pure) fun _ => .pure)
      fun _ => .bind (h.expr' hb) fun _ => .pure

theorem compositeTail_does (ht : t.kind = .LBRACE) (hb : b ≤ n)
    {nt : Node} : Does (fun s => A s ∧ AtTok t s) b E (compositeTail c nt) :=
  .expect ht (by decide) fun _ => .bind (bracketed_does (fieldsUpTo_does test_does
    (.bind (compField_does h (by omega)) fun _ => .pure))) fun _ => .bind expect_does fun _ => .pure

theorem callArg_does (hb : b ≤ n - 1) : Does A b anyhow (callArg c) :=
  .cur fun _ => .peekKind fun _ => .ite
    (fun _ => .bind next_does fun _ => .bind next_does fun _ => .bind (h.expr' hb) fun _ => .pure)
    fun _ => .bind (h.expr' hb) fun _ => .bind accept_does fun _ => .pure

theorem callTail_does (ht : t.kind = .LPAREN) (hb : b ≤ n) {fn : Node} :
    Does (fun s => A s ∧ AtTok t s) b E (callTail c fn) :=
  .expect ht (by decide) fun _ => .bind
    (bracketed_does (.look fun _ => .bind
      (.ite (fun _ => .bind (typeExpr_does h (by omega)) fun _ => .atKind (fun _ _ => .pure)
        fun _ _ => .bind expect_does fun _ => .pure) fun _ => .pure)
      fun _ => .bind (commaList_does (callArg_does h (by omega))) fun _ => .pure))
    fun (_, _) => .bind expect_does fun _ => .pure

omit h in
/-- What a failed speculation puts back. -/
theorem step_restore {s s' : Parser} (hin : s.i < s.ts.length) (h : Step s s') :
    Step s { s' with i := s.i, errs := s'.errs.take s.errs.length } ∧
      s'.errs.take s.errs.length = s.errs := by
  have herrs : s'.errs.take s.errs.length = s.errs := prefix_iff_eq_take.mp h.errs ▸ rfl
  refine ⟨⟨h.ts, Nat.le_refl _, ?_, h.noLit, h.lev, h.armComma, ?_⟩, herrs⟩
  · show s.i < s'.ts.length
    rw [h.ts]
    exact hin
  · show s.errs <+: s'.errs.take s.errs.length
    exact ⟨[], by rw [herrs, append_nil]⟩

/-- A failed `try_type_args` leaves the cursor and the diagnostics where they were. -/
theorem tryTypeArgs_ends (hb : b ≤ n) (hg : Good s) (hl : 2 * left s ≤ b) :
    Ends (tryTypeArgs c x t) s fun r s' =>
      Step s s' ∧ (r = none → s'.i = s.i ∧ s'.errs = s.errs) := by
  refine Ends.bind (R := fun a s' => s = a ∧ s = s') ⟨s, s, rfl, rfl, rfl⟩ ?_
  rintro _ _ ⟨rfl, rfl⟩
  refine Ends.bind (commaList_does (A := fun _ => True) (typeExpr_does h hb) s hg trivial hl) ?_
  rintro tys s₁ ⟨hst, -⟩
  have hg₁ := hst.good hg
  obtain ⟨t₁, htok⟩ := hg₁.exists_tok
  refine (peekKind_ends hg₁).bind ?_
  rintro k _ rfl
  refine (test_ends htok).bind ?_
  rintro close _ ⟨-, rfl⟩
  refine Ends.bind (R := fun a s' => s₁ = a ∧ s₁ = s') ⟨s₁, s₁, rfl, rfl, rfl⟩ ?_
  rintro _ _ ⟨rfl, rfl⟩
  refine Ends.ite (fun _ => ?_) fun _ => ?_
  · refine Ends.bind (next_does (A := fun _ => True) (b := b) s₁ hg₁ trivial ?_) ?_
    · have := hst.left_le
      omega
    · rintro _ s₂ ⟨hst', -⟩
      exact .pure ⟨hst.trans hst', fun hr => nomatch hr⟩
  · obtain ⟨hst', herrs⟩ := step_restore hg.inRange hst
    exact ⟨none, _, rfl, hst', fun _ => ⟨rfl, herrs⟩⟩

theorem tryTypeArgs_does (hb : b ≤ n) : Does A b anyhow (tryTypeArgs c x t) :=
  fun _ hg _ hl => (tryTypeArgs_ends h hb hg hl).mono fun _ _ hr => ⟨hr.1, fun he => he.elim⟩

omit h in
theorem openBound_does : Does A b anyhow (openBound inc) :=
  .ite (fun _ => .bind error_does fun _ => .pure) fun _ => .pure

theorem subscript_does (hb : b ≤ n - 1) : Does A b anyhow (subscript c) :=
  .cur fun _ => .ite (fun _ => .bind next_does fun _ => .look fun _ =>
    .bind (.ite (fun _ => (h.binary' hb).loose) fun _ => openBound_does) fun _ => .pure)
    fun _ => (h.expr' hb).loose

theorem indexBody_does (hb : b ≤ n - 1) : Does A b anyhow (indexBody c t x) :=
  .bind (.ite (fun _ => tryTypeArgs_does h (by omega)) fun _ => .pure) fun _ => .ite
    (fun _ => .pure) fun _ => .bind (subscript_does h hb) fun _ =>
      .bind (commaUntil_does (h.expr' (by omega))) fun _ => .pure

theorem indexTail_does (ht : t.kind = .LBRACKET) (hb : b ≤ n) :
    Does (fun s => A s ∧ AtTok t s) b E (indexTail c x) :=
  .expect ht (by decide) fun _ => .bind (bracketed_does (indexBody_does h (by omega))) fun
    | (some _, _) => .pure
    | (none, _) => .bind expect_does fun _ => .pure

omit h in
theorem tupleField_does {dot : Token} : Does A b anyhow (tupleField x dot) :=
  .bind next_does fun n => go n x _
where
  go (n : Token) {A : Parser → Prop} {b : Nat} {dot : Token} :
      ∀ (out : Node) (ps : List Str), Does A b anyhow (tupleField.go dot n out ps)
    | _, [] => .pure
    | _, _ :: _ => .ite (fun _ => .bind error_does fun _ => .pure) fun _ => go n _ _

theorem postfixTurn_does (hb : b ≤ n) : Does A b ifAgain (postfixTurn c x) :=
  .cur fun t => .get fun _ =>
    .ite (fun hk => .moves (callTail_does h hk hb) fun _ => .pure) fun _ =>
    .ite (fun hk => .moves (indexTail_does h hk hb) fun _ => .pure) fun _ =>
    .ite (fun hk => .next (by simp [hk]) fun _ => .atAny
      (fun _ _ => .bind tupleField_does fun _ => .pure)
      fun _ _ => .bind expect_does fun _ => .pure) fun _ =>
    .ite (fun hk => .ite (fun _ => .stop) fun _ => .ite (fun _ => .stop) fun _ =>
      .moves (compositeTail_does h hk hb) fun _ => .pure) fun _ =>
    .ite (fun hk => .next (by simp [hk]) fun _ => .pure) fun _ =>
    .ite (fun hk => .error (.next (by simp [hk]) fun _ => .pure)) fun _ => .stop

theorem postfixExpr_does (hb : b ≤ n) : Does A b anyhow (postfixExpr c x) :=
  .loop fun _ => postfixTurn_does h hb

/-! ### Primaries -/

theorem element_does (hb : b ≤ n - 1) {isMap : Bool} : Does A b ifLive (element c isMap) :=
  .live (h.expr' hb) fun _ => .ite (fun _ => .bind expect_does fun _ => .bind (h.expr' hb) fun _ =>
    .pure) fun _ => .pure

theorem collectionLit_does (ht : t.kind ≠ .EOF) (hb : b ≤ n) :
    Does (fun s => A s ∧ AtTok t s) b E (collectionLit c) :=
  .curAt <| .goes ht (typeExpr_does h hb) fun _ => .bind (.check error_does) fun _ =>
    .bind expect_does fun _ => .bind
      (bracketed_does (.loop fun _ => .bind skipSemis_does fun _ => .atAny (fun _ _ => .stop)
        fun t ht => .goes (fun he => ht (by simp [he])) (element_does h (by omega)) fun _ =>
          .accept (by decide) .pure
            (.atKind (fun _ _ => .bind skipSemis_does fun _ => .pure) fun _ _ => .pure)))
      fun _ => .bind expect_does fun _ => .ite (fun _ => .pure) fun _ => .pure

/-- A failed `try_collection_lit` leaves the cursor and the diagnostics where they were. -/
theorem tryCollectionLit_ends (hb : b ≤ n) (hg : Good s) (htok : AtTok t s)
    (ht : t.kind ≠ .EOF) (hl : 2 * left s ≤ b) :
    Ends (tryCollectionLit c) s fun r s' =>
      Step s s' ∧ (r = none → s'.i = s.i ∧ s'.errs = s.errs) ∧ (r ≠ none → s.i < s'.i) := by
  refine Ends.bind (R := fun a s' => s = a ∧ s = s') ⟨s, s, rfl, rfl, rfl⟩ ?_
  rintro _ _ ⟨rfl, rfl⟩
  refine Ends.bind (R := fun a s' => t = a ∧ s = s') ⟨t, s, cur_eq htok, rfl, rfl⟩ ?_
  rintro _ _ ⟨rfl, rfl⟩
  refine Ends.ite (fun _ => .pure ⟨Step.refl hg.inRange, fun _ => ⟨rfl, rfl⟩, fun hr => absurd rfl hr⟩)
    fun _ => ?_
  refine Ends.bind (typeExpr_does (A := fun _ => True) h hb s hg trivial hl) ?_
  rintro _ s₁ ⟨hst, -⟩
  obtain ⟨t₁, htok₁⟩ := (hst.good hg).exists_tok
  refine (test_ends htok₁).bind ?_
  rintro brace _ ⟨-, rfl⟩
  refine Ends.bind (R := fun a s' => s₁ = a ∧ s₁ = s') ⟨s₁, s₁, rfl, rfl, rfl⟩ ?_
  rintro _ _ ⟨rfl, rfl⟩
  obtain ⟨hst₂, herrs⟩ := step_restore hg.inRange hst
  set s₂ : Parser := { s₁ with i := s.i, errs := s₁.errs.take s.errs.length } with hs₂
  refine Ends.bind (R := fun _ s' => s₂ = s') ⟨(), s₂, rfl, rfl⟩ ?_
  rintro _ _ rfl
  refine Ends.ite (fun _ => ?_) fun _ => .pure ⟨hst₂, fun _ => ⟨rfl, herrs⟩, fun hr => absurd rfl hr⟩
  have htok₂ : AtTok t s₂ := by
    show s₁.ts[s.i]? = some t
    rw [hst.ts]
    exact htok
  have hl₂ := hst₂.left_le
  refine Ends.bind (collectionLit_does (A := fun _ => True) (E := always) h ht hb s₂
    (hst₂.good hg) ⟨trivial, htok₂⟩ (by omega)) ?_
  rintro _ s₃ ⟨hst₃, hlt⟩
  exact .pure ⟨hst₂.trans hst₃, fun hr => (nomatch hr), fun _ => hlt trivial⟩

theorem tryCollectionLit_does (ht : t.kind ≠ .EOF) (hb : b ≤ n) :
    Does (fun s => A s ∧ AtTok t s) b (fun _ r => r ≠ none) (tryCollectionLit c) :=
  fun _ hg ha hl => (tryCollectionLit_ends h hb hg ha.2 ht hl).mono fun _ _ hr => ⟨hr.1, hr.2.2⟩

theorem headerExpr_does (hb : b ≤ n - 1) : Does A b anyhow (headerExpr c) :=
  .within (fun _ hg => ⟨⟨hg.inRange, hg.last⟩, rfl, rfl⟩)
    (fun _ _ hst => ⟨⟨hst.ts, hst.le, hst.inRange, rfl, rfl, hst.armComma, hst.errs⟩, rfl⟩)
    (h.expr' hb).loose

theorem ifHeader_does (hb : b ≤ n - 1) : Does A b anyhow (ifHeader c) :=
  .accept (by decide)
    (.bind (h.pattern' (by omega)) fun _ => .bind expect_does fun _ =>
      .bind (headerExpr_does h (by omega)) fun _ => .pure)
    (.bind (headerExpr_does h hb) fun _ => .pure)

theorem ifExpr_does (ht : t.kind = .IF) (hb : b ≤ n) :
    Does (fun s => A s ∧ AtTok t s) b E (ifExpr c) :=
  .expect ht (by decide) fun _ => .bind (ifHeader_does h (by omega)) fun (_, _) =>
    .bind (h.block' (by omega)) fun _ => .bind
      (.skipSemisBefore (by decide)
        (fun _ => .atKind (fun t ht => ((h.ifExpr t ht).le (by omega)).pre fun _ hA => ⟨trivial, hA.2⟩)
          fun _ _ => h.block' (by omega))
        (.bind error_does fun _ => .pure))
      fun _ => .pure

theorem armBody_does (hb : b ≤ n - 2) : Does A b anyhow (armBody c) :=
  .atKind (fun _ _ => .bind (h.block' hb) fun _ => .bind accept_does fun _ => .pure) fun _ _ =>
    .bind (.within (fun _ hg => ⟨⟨hg.inRange, hg.last⟩, rfl, rfl⟩)
      (fun _ _ hst => ⟨⟨hst.ts, hst.le, hst.inRange, hst.noLit, hst.lev, rfl, hst.errs⟩, rfl⟩)
      (h.stmt' (by omega))) fun _ => .bind accept_does fun _ => .pure

theorem armGuard_does (hb : b ≤ n - 1) : Does A b anyhow (armGuard c) :=
  .accept (by decide)
    (.within (fun _ hg => ⟨⟨hg.inRange, hg.last⟩, rfl, rfl⟩)
      (fun _ _ hst => ⟨⟨hst.ts, hst.le, hst.inRange, rfl, hst.lev, hst.armComma, hst.errs⟩, rfl⟩)
      (h.expr' (by omega)).loose)
    .pure

theorem arm_does (hb : b ≤ n - 2) : Does A b ifLive (arm c) :=
  .cur fun _ => .live (h.pattern' (by omega)) fun _ => .bind (armGuard_does h (by omega)) fun _ =>
    .bind expect_does fun _ => .bind (armBody_does h hb) fun _ => .pure

theorem matchStmt_does (ht : t.kind = .MATCH) (hb : b ≤ n) :
    Does (fun s => A s ∧ AtTok t s) b E (matchStmt c) :=
  .expect ht (by decide) fun _ => .bind (headerExpr_does h (by omega)) fun _ =>
    .bind expect_does fun _ => .bind
      (.within (fun _ hg => ⟨⟨hg.inRange, hg.last⟩, rfl, rfl⟩)
        (fun _ _ hst => ⟨⟨hst.ts, hst.le, hst.inRange, rfl, rfl, hst.armComma, hst.errs⟩, rfl⟩)
        (body_does (arm_does h (by omega))))
      fun _ => .bind expect_does fun _ => .pure

omit h in
theorem captures_does : Does A b anyhow captures :=
  .accept (by decide)
    (.accept (by decide)
      (.bind (commaList_does (.bind expect_does fun _ => .pure)) fun _ => .bind expect_does fun _ =>
        .pure)
      .pure)
    .pure

theorem closure_does (ht : t.kind = .IDENT) (hb : b ≤ n) :
    Does (fun s => A s ∧ AtTok t s) b E (closure c) :=
  .next (by simp [ht]) fun _ => .bind captures_does fun (_, _) => .get fun _ =>
    .bind (params_does h (by omega)) fun _ => .bind
      (.modify fun _ hi => ⟨rfl, Nat.le_refl _, hi, rfl, rfl, rfl, prefix_refl _⟩) fun _ =>
        .bind (.atKind (fun _ _ => .pure) fun _ _ => (h.typeExpr' (by omega)).loose) fun _ =>
          .bind (h.block' (by omega)) fun _ => .pure

omit h in
/-- The parser of an embedded expression starts in a sound state. -/
theorem subParser_good (s : Parser) (ts : List Token) (line col : Nat) (errs : List Str) :
    Good (subParser s ts line col errs) := by
  refine ⟨by simp [subParser], fun t ht => ?_⟩
  simp only [subParser, length_append, length_singleton, Nat.add_sub_cancel] at ht
  simp only [List.getElem?_append_right (Nat.le_refl _), Nat.sub_self, List.getElem?_cons_zero] at ht
  cases ht
  rfl

theorem fragment_does (hb : b ≤ n - 1) : Does A b anyhow (fragment c) :=
  .bind (h.expr' hb) fun _ => .atAny (fun _ _ => .pure) fun _ _ => .cur fun _ =>
    .bind error_does fun _ => .pure

theorem interpPart_does {p : Part Token} (hp : 2 * weightPart p ≤ n - 1) :
    Does A b anyhow (interpPart c t p) := by
  cases p with
  | text s => exact .pure
  | expr ts line col errs =>
    intro s hg _ _
    set sub := subParser s ts line col errs with hsub
    have hl : 2 * left sub ≤ n - 1 := by
      have hleft : left sub = weightPart (.expr ts line col errs) := by
        simp [hsub, subParser, left, weightPart, weightTokens_append, weightTokens, eofToken,
          Token.weight, weightParts]
      rw [hleft]
      exact hp
    obtain ⟨e, sub', hrun, hst, -⟩ := fragment_does (A := fun _ => True) h (Nat.le_refl _) sub
      (subParser_good s ts line col errs) trivial hl
    refine ⟨e, { s with errs := s.errs ++ sub'.errs }, ?_, ⟨rfl, Nat.le_refl _, hg.inRange, rfl,
      rfl, rfl, prefix_append _ _⟩, fun he => he.elim⟩
    show (fragment c sub).bind _ = _
    rw [hrun]
    rfl

theorem interpParts_does : ∀ {ps : List (Part Token)} {A : Parser → Prop},
    2 * weightParts ps ≤ n - 1 → Does A b anyhow (interpParts c t ps)
  | [], _, _ => .pure
  | p :: ps, _, hps => by
    simp only [weightParts] at hps
    exact .bind (interpPart_does h (by omega)) fun _ => .bind (interpParts_does (by omega))
      fun _ => .pure

omit h in
theorem nameExpr_does : Does A b anyhow (nameExpr t) :=
  .get fun _ => .ite (fun _ => .pure) fun _ => .pure

theorem identExpr_does (ht : t.kind = .IDENT) (hb : b ≤ n) :
    Does (fun s => A s ∧ AtTok t s) b ifLive (identExpr c t) := by
  refine .peekKind fun _ => .ite (fun _ => closure_does h ht hb) fun _ => ?_
  refine @Does.cases _ _ _ _ _ (fun r => r ≠ none) _ _ ?_ (fun r hr => ?_) fun r hr => ?_
  · exact .ite (fun _ => tryCollectionLit_does h (by simp [ht]) hb)
      fun _ => .ret fun _ he => he rfl
  · cases r with
    | none => exact absurd rfl hr
    | some e => exact .pure
  · obtain rfl : r = none := not_not.mp hr
    exact .live next_does fun _ => nameExpr_does

theorem parenBody_does (hb : b ≤ n - 1) : Does A b anyhow (parenBody c) :=
  .atKind (fun _ _ => .pure) fun _ _ => .bind (h.expr' hb) fun _ => .atKind
    (fun _ _ => .bind (commaUntil_does (h.expr' (by omega))) fun _ => .pure) fun _ _ => .pure

theorem parenExpr_does (hb : b ≤ n - 1) : Does A b anyhow (parenExpr c t) :=
  .bind (bracketed_does (parenBody_does h hb)) fun
    | (some _, _) => .bind expect_does fun _ => .pure
    | (none, _) => .bind expect_does fun _ => .pure

theorem chanExpr_does (hb : b ≤ n - 1) : Does A b anyhow (chanExpr c t) :=
  .bind (typeArg_does h hb) fun _ => .bind
    (.accept (by decide)
      (.bind (bracketed_does (commaList_does (.cur fun _ => .bind (h.expr' (by omega)) fun _ =>
        .pure))) fun _ => .bind expect_does fun _ => .pure)
      .pure)
    fun _ => .pure

omit h in
/-- A token weighs what its parts weigh, and an `EOF` comes after it. -/
theorem Does.weigh {α : Type} {E : Prop → α → Prop} {m : P α} (ht : t.kind ≠ .EOF)
    (hm : 2 * weightParts t.parts + 4 ≤ b → Does (fun s => A s ∧ AtTok t s) b E m) :
    Does (fun s => A s ∧ AtTok t s) b E m := by
  intro s hg ha hl
  refine hm ?_ s hg ha hl
  have hlive : s.i + 1 < s.ts.length := Live.lt ⟨t, ha.2, ht⟩ hg
  have hrest := weight_pos s.ts[s.i + 1]
  have hleft := left_eq ha.2
  rw [drop_eq_getElem_cons hlive, weightTokens_cons] at hleft
  have hw : t.weight = 1 + weightParts t.parts := by
    cases t
    rfl
  omega

omit h in
theorem literal_ne_eof (hx : literal t = some x) : t.kind ≠ .EOF := fun he => by
  simp [literal, he] at hx

theorem primary_does (hb : b ≤ n) : Does A b ifLive (primary c) := by
  refine .cur fun t => .peekKind fun _ => .peekKind fun _ => ?_
  cases hx : literal t with
  | some x => exact .next (literal_ne_eof hx) fun _ => .pure
  | none =>
    exact
      .ite (fun hk => .weigh (by simp [hk]) fun hw => .next (by simp [hk]) fun _ =>
        .bind (interpParts_does h (by omega)) fun _ => .pure) fun _ =>
      .ite (fun hk => ifExpr_does h hk hb) fun _ =>
      .ite (fun hk => matchStmt_does h hk hb) fun _ =>
      .ite (fun hk => .next (by simp [hk]) fun _ => .atKind
        (fun _ _ => .bind (h.block' (by omega)) fun _ => .pure)
        fun _ _ => .bind (h.unary' (by omega)) fun _ => .pure) fun _ =>
      .ite (fun hk => .next (by simp [hk]) fun _ => chanExpr_does h (by omega)) fun _ =>
      .ite (fun hk => identExpr_does h hk hb) fun _ =>
      .ite (fun hk => .next (by simp [hk]) fun _ => parenExpr_does h (by omega)) fun _ =>
      .ite (fun hk => collectionLit_does h (by simp [hk.1]) hb) fun _ =>
      .ite (fun hk => .next (by simp [hk]) fun _ => .bind
        (bracketed_does (commaList_does (h.expr' (by omega)))) fun _ =>
          .bind expect_does fun _ => .pure) fun _ =>
      .bind errorFound_does fun _ => .live next_does fun _ => .pure

/-! ### Operators -/

theorem unary_does (hb : b ≤ n) : Does A b ifLive (unary c) :=
  .cur fun t => .ite
    (fun hk => .next (fun he => by simp [he, prefixOps] at hk) fun _ =>
      .bind (h.unary' (by omega)) fun _ => .pure)
    fun _ => .live (primary_does h hb) fun _ => postfixExpr_does h hb

theorem divergingStmt_does (hb : b ≤ n) : Does A b anyhow (divergingStmt c) :=
  .cur fun t =>
    .ite (fun hk => .next (by simp [hk]) fun _ => .atAny (fun _ _ => .pure) fun _ _ =>
      .bind (h.expr' (by omega)) fun _ => .bind (commaMore_does (h.expr' (by omega))) fun _ => .pure)
      fun _ =>
    .ite (fun hk => .next (by simp [hk]) fun _ => .atAny (fun _ _ => .pure) fun _ _ =>
      .bind (h.expr' (by omega)) fun _ => .atWord
        (fun t ht => .next (by simp [ht]) fun _ => .bind (h.expr' (by omega)) fun _ => .pure)
        fun _ => .pure) fun _ =>
    .ite (fun hk => .next (by rcases hk with hk | hk <;> simp [hk]) fun _ =>
      .atKind (fun _ _ => .bind next_does fun _ => .pure) fun _ _ => .pure) fun _ =>
    .bind error_does fun _ => .pure

theorem rangeRest_does (hb : b ≤ n - 1) : Does A b anyhow (rangeRest c inc) :=
  .get fun _ => .look fun _ => .bind
    (.ite (fun _ => openBound_does) fun _ => (h.binary' hb).loose)
    fun _ => .atWord (fun _ _ => .bind next_does fun _ => .bind (h.binary' hb) fun _ => .pure)
      fun _ => .pure

theorem elseRest_does (hb : b ≤ n - 2) : Does A b anyhow (elseRest c) :=
  .cur fun _ => .get fun _ =>
    .ite (fun _ => .bind (divergingStmt_does h (by omega)) fun _ => .pure) fun _ =>
    .ite (fun _ => .bind (h.block' hb) fun _ => .pure) fun _ =>
    .bind (h.binary' (by omega)) fun _ => .pure

omit h in
theorem binPrec_ne_eof (hk : binPrec t.kind ≠ 0) : t.kind ≠ .EOF := fun he => by
  simp [binPrec, he] at hk

theorem binaryTurn_does (hb : b ≤ n) : Does A b ifAgain (binaryTurn c min x) :=
  .cur fun t =>
    .ite (fun hk => .next (by rcases hk.1 with hk | hk <;> simp [hk]) fun _ =>
      .bind (rangeRest_does h (by omega)) fun (_, _) => .pure) fun _ =>
    .ite (fun hk => .next (by simp [hk.1]) fun _ =>
      .bind (elseRest_does h (by omega)) fun (_, _) => .pure) fun _ =>
    .ite (fun _ => .stop) fun hk => .next (binPrec_ne_eof (by omega)) fun _ =>
      .bind (h.binary' (by omega)) fun _ => .pure

theorem binary_does (hb : b ≤ n) : Does A b ifLive (binary c min) :=
  .live (unary_does h hb) fun _ => .loop fun _ => binaryTurn_does h hb

theorem expr_does (hb : b ≤ n) : Does A b ifLive (expr c) := binary_does h hb

end

end

end Voila.Par
