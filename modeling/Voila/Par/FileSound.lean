import Voila.Par.StmtMoves

/-!
# Voila.Par.FileSound

Declarations move the parser as `Step` says, the open recursion is closed, and so the
parser ends on every list of tokens (`parseFile_ends`), with the cursor on `EOF`. A
speculation that fails has put back the cursor, the diagnostics and the nesting
counters (`speculation`).
-/

namespace Voila.Par

open Tok Lib List

section

variable {n b : Nat} {c : Calls} {A : Parser → Prop} {t : Token}

section

variable (h : Ok n c)

include h

/-! ### Generics -/

theorem boundList_does (hb : b ≤ n) : Does A b anyhow (boundList c) :=
  .loop fun _ => .bind (typeExpr_does h hb) fun _ => .bind (.check error_does) fun _ =>
    .accept (by decide) .pure .stop

theorem generics_does (hb : b ≤ n) : Does A b anyhow (generics c) :=
  .accept (by decide)
    (.bind (commaList_does (.bind expect_does fun _ => .bind
      (.accept (by decide) (boundList_does h (by omega)) .pure) fun _ => .pure)) fun _ =>
        .bind expect_does fun _ => .pure)
    .pure

omit h in
theorem Does.atWhere {α : Type} {E : Prop → α → Prop} {g : Bool → P α}
    (hg : ∀ r, Does A b E (g r)) : Does A b E (Par.atWhere >>= g) := by
  intro s hgood ha hl
  refine Ends.bind (R := fun _ s' => s = s') ⟨_, s, rfl, rfl⟩ ?_
  rintro r _ rfl
  exact hg r s hgood ha hl

theorem whereClause_does (hb : b ≤ n) {gens : List Node} : Does A b anyhow (whereClause c gens) :=
  .atWhere fun _ => .ite
    (fun _ => .bind skipSemis_does fun _ => .bind next_does fun _ => .loop fun _ =>
      .bind expect_does fun _ => .bind expect_does fun _ => .bind (boundList_does h hb) fun _ =>
        .bind (.check errorAt_does) fun _ => .accept (by decide) .pure .stop)
    fun _ => .pure

/-! ### Functions -/

theorem results_does (hb : b ≤ n) : Does A b anyhow (results c) :=
  .look fun _ => .atWhere fun _ => .ite (fun _ => .pure) fun _ => .accept (by decide)
    (.bind (commaList_does (typeExpr_does h (by omega))) fun _ => .bind expect_does fun _ => .pure)
    (.bind (typeExpr_does h hb) fun _ => .pure)

theorem throwsClause_does (hb : b ≤ n) : Does A b anyhow (throwsClause c) :=
  .accept (by decide)
    (.bind (typeExpr_does h (by omega)) fun _ =>
      .bind (commaMore_does (typeExpr_does h (by omega))) fun _ => .pure)
    (.accept (by decide) .pure .pure)

theorem funcBody_does (hb : b ≤ n) : Does A b anyhow (funcBody c) :=
  .atKind (fun _ ht => .bind (block_at h (E := anyhow) ht hb) fun _ => .pure) fun _ _ =>
    .accept (by decide) (.bind (h.expr' (by omega)) fun _ => .pure) .pure

theorem paramRest_at (ht : t.kind ∉ [.COMMA, .RPAREN, .EOF]) (hb : b ≤ n) :
    Does (fun s => A s ∧ AtTok t s) b always (paramRest c) :=
  .accept (by decide) (.bind (h.typeExpr' (by omega)) fun _ => .pure)
    (.atAny (fun u hu => .same fun he => by
        subst he
        exact absurd (by simpa using hu) fun hu' => ht (by simp [mem_cons]; tauto))
      fun _ _ => .same fun _ => .accept (by decide) (.bind (h.expr' (by omega)) fun _ => .pure)
        (.goes (fun he => ht (by simp [he])) (typeExpr_does h hb) fun _ =>
          .accept (by decide) (.bind (h.expr' (by omega)) fun _ => .pure) .pure))

variable {ps : List Node} {E : Prop → Node → Prop} {term : Kind}

theorem namedParam_at (ht : t.kind ∉ [.RPAREN, .EOF]) (hb : b ≤ n) {before : Option Nat}
    : Does (fun s => A s ∧ AtTok t s) b always (namedParam c before ps) := by
  refine .bindAt expect_does (fun _ => .bind paramMode_does fun _ =>
    .bind (paramRest_does h (by omega)) fun (_, _, _) => .accept (by decide) .pure .pure) fun _ => ?_
  refine .bindAt paramMode_does (fun _ => .bind (paramRest_does h (by omega)) fun (_, _, _) =>
    .accept (by decide) .pure .pure) fun _ => ?_
  by_cases hk : t.kind = .COMMA
  · exact .bindAt (paramRest_does h hb) (fun (_, _, _) => .accept (by decide) .pure .pure)
      fun (_, _, _) => .acceptAt hk (by decide) .pure
  · exact .moves (paramRest_at h (by simp at ht; simp [hk, ht]) hb) fun (_, _, _) =>
      .accept (by decide) .pure .pure

theorem paramTurn_at (ht : t.kind ∉ [.RPAREN, .EOF]) (hb : b ≤ n) :
    Does (fun s => A s ∧ AtTok t s) b always (paramTurn c ps) :=
  .atAny (fun u hu => .same fun he => absurd (he ▸ hu) ht) fun _ _ => .same fun _ =>
    .bindAt paramMode_does
      (fun _ => .accept (by decide)
        (.bind (.modify fun _ hi => ⟨rfl, Nat.le_refl _, hi, rfl, rfl, rfl, prefix_refl _⟩)
          fun _ => .accept (by decide) .pure .pure)
        (.atKind (fun _ _ => .bind next_does fun _ => .pure) fun _ _ =>
          (namedParam_does h (by omega)).loose))
      fun _ => .accept (by decide)
        (.bind (.modify fun _ hi => ⟨rfl, Nat.le_refl _, hi, rfl, rfl, rfl, prefix_refl _⟩)
          fun _ => .accept (by decide) .pure .pure)
        (.atKind (fun _ hk => .next (by simp [hk]) fun _ => .pure) fun _ _ => .same fun _ =>
          namedParam_at h ht hb)

/-- The parameters take a token, whatever the first one is. -/
theorem params_live (hb : b ≤ n) : Does A b ifLive (params c) := by
  refine .ofTok (params_does h hb) fun t ht => ?_
  refine .bindAt expect_does (fun _ =>
    .bind (bracketed_does (.loop fun _ => paramTurn_does h (by omega))) fun _ =>
      .bind expect_does fun _ => .pure) fun _ => ?_
  by_cases hk : t.kind = .RPAREN
  · exact .bindAt (bracketed_does (.loop fun _ => paramTurn_does h hb))
      (fun _ => .bind expect_does fun _ => .pure) fun _ => .expect hk (by decide) fun _ => .pure
  · exact .moves (bracketed_at (.loopMoves (paramTurn_at h (by simp [hk, ht]) hb) fun _ =>
      paramTurn_does h hb)) fun _ => .bind expect_does fun _ => .pure

theorem funcDecl_does (hb : b ≤ n) : Does A b ifLive (funcDecl c) :=
  .bind expect_does fun _ => .bind expect_does fun _ => .bind (generics_does h hb) fun _ =>
    .live (params_live h hb) fun _ => .get fun _ => .bind
      (.modify fun _ hi => ⟨rfl, Nat.le_refl _, hi, rfl, rfl, rfl, prefix_refl _⟩) fun _ =>
        .bind (results_does h hb) fun _ => .bind (throwsClause_does h hb) fun (_, _) =>
          .bind (whereClause_does h hb) fun _ => .bind (funcBody_does h hb) fun (_, _) => .pure

/-! ### The foreign interface -/

omit h in
theorem ffiCtype_does : Does A b anyhow ffiCtype :=
  .bind (.loop fun _ => .cur fun _ =>
      .ite (fun hk => .next (by simp [hk]) fun _ => .pure) fun _ =>
      .ite (fun hk => .next (by simp [hk]) fun _ => .pure) fun _ => .stop) fun _ =>
    .bind expect_does fun _ => .ite (fun _ => .bind errorAt_does fun _ => .pure) fun _ =>
      .ite (fun _ => .pure) fun _ => .ite (fun _ => .pure) fun _ => .pure

omit h in
theorem ffiParamTurn_does {x : List Node × List Str} : Does A b ifAgain (ffiParamTurn x) :=
  .atAny (fun _ _ => .stop) fun _ _ => .atKind (fun _ _ => .bind next_does fun _ => .stop)
    fun _ _ => .bind expect_does fun _ => .accept (by decide) .pure
      (.bind ffiCtype_does fun _ => .bind (.check error_does) fun _ =>
        .accept (by decide) .pure .stop)

omit h in
theorem ffiFunc_does (ht : t.kind = .FUNC) : Does (fun s => A s ∧ AtTok t s) b E ffiFunc :=
  .expect ht (by decide) fun _ => .bind expect_does fun _ => .bind expect_does fun _ =>
    .bind (.loop fun _ => ffiParamTurn_does) fun (_, _, _) => .bind expect_does fun _ =>
      .bind (.atAny (fun _ _ => .pure) fun _ _ => ffiCtype_does) fun _ => .pure

omit h in
theorem ffiEntry_does : Does A b ifLive ffiEntry :=
  .atWord
    (fun _ ht => .next (by simp [ht]) fun _ => .bind expect_does fun _ =>
      .bind (.check errorAt_does) fun _ => .pure)
    fun _ => .atKind (fun _ ht => .moves (ffiFunc_does ht) fun _ => .pure) fun _ _ =>
      .bind errorFound_does fun _ => .live next_does fun _ => .pure

omit h in
theorem ffiBlock_does {E : Prop → List Node → Prop} (ht : t.kind = .IDENT) :
    Does (fun s => A s ∧ AtTok t s) b E ffiBlock :=
  .next (by simp [ht]) fun _ => .bind expect_does fun _ => .bind (.check error_does) fun _ =>
    .bind expect_does fun _ => .bind skipSemis_does fun _ => .bind
      (.loop fun _ => .atAny (fun _ _ => .stop) fun _ ht =>
        .goes (fun he => ht (by simp [he])) ffiEntry_does fun _ =>
          .bind expectSemi_does fun _ => .bind skipSemis_does fun _ => .pure)
      fun _ => .bind expect_does fun _ => .pure

/-! ### Types of the program -/

theorem fieldDecl_does (hb : b ≤ n) : Does A b ifLive (fieldDecl c) :=
  .bind expect_does fun _ => .live (typeExpr_does h hb) fun _ =>
    .bind (.accept (by decide) (h.expr' (by omega)).loose .pure) fun _ => .pure

omit h in
theorem separator_does : Does A b anyhow (separator term) :=
  .accept (by decide) .pure (.atKind (fun _ _ => .pure) fun _ _ => expectSemi_does)

theorem fieldList_does (hb : b ≤ n) : Does A b anyhow (fieldList c term) :=
  .loop fun _ => .atAny (fun _ _ => .stop) fun t ht => .bindAt skipSemis_does
    (fun _ => .atKind (fun _ _ => .pure) fun _ _ => .bind (fieldDecl_does h (by omega)) fun _ =>
      .bind separator_does fun _ => .bind skipSemis_does fun _ => .pure)
    fun _ => .atKind (fun _ _ => .stop) fun _ _ => .same fun _ =>
      .goes (fun he => ht (by simp [he])) (fieldDecl_does h hb) fun _ =>
        .bind separator_does fun _ => .bind skipSemis_does fun _ => .pure

theorem structDecl_does (ht : t.kind = .STRUCT) (hb : b ≤ n) :
    Does (fun s => A s ∧ AtTok t s) b E (structDecl c) :=
  .expect ht (by decide) fun _ => .bind expect_does fun _ => .bind (generics_does h (by omega))
    fun _ => .bind expect_does fun _ => .bind (fieldList_does h (by omega)) fun _ =>
      .bind expect_does fun _ => .pure

theorem variantField_does (hb : b ≤ n) {idx : Nat} : Does A b anyhow (variantField c idx) :=
  .cur fun _ => .peekKind fun _ =>
    .ite (fun hk => .next (by simp [hk.1]) fun _ => .bind (h.typeExpr' (by omega)) fun _ => .pure)
      fun _ => .bind (typeExpr_does h hb) fun _ => .pure

theorem variantFields_does (hb : b ≤ n) : Does A b anyhow (variantFields c) :=
  .loop fun _ => .atAny (fun _ _ => .stop) fun _ _ => .bind (variantField_does h hb) fun _ =>
    .accept (by decide) .pure .stop

omit h in
theorem separator_at (ht : t.kind ∉ [.RBRACE, .EOF]) :
    Does (fun s => A s ∧ AtTok t s) b always (separator .RBRACE) :=
  .accept (by decide) .pure (.atKind
    (fun _ hk => .same fun he => absurd (by simp [← he, hk]) ht)
    fun _ _ => .same fun _ => expectSemi_at ht)

theorem variantPayload_does (hb : b ≤ n) : Does A b anyhow (choose (accept .LPAREN)
    (do
      let fs ← bracketed (variantFields c)
      let _ ← expect .RPAREN
      pure fs)
    (pure [])) :=
  .accept (by decide) (.bind (bracketed_does (variantFields_does h (by omega))) fun _ =>
    .bind expect_does fun _ => .pure) .pure

/-- A variant takes a token: its name, its parenthesis or its separator does, and
`expect_semi` skips any other. -/
theorem variant_at (ht : t.kind ∉ [.RBRACE, .EOF]) (hb : b ≤ n) :
    Does (fun s => A s ∧ AtTok t s) b always (variant c) :=
  .bindAt expect_does
    (fun _ => .bind (variantPayload_does h (by omega)) fun _ => .bind separator_does fun _ => .pure)
    fun _ => .bindAt (variantPayload_does h hb) (fun _ => .bind separator_does fun _ => .pure)
      fun _ => .moves (separator_at ht) fun _ => .pure

theorem enumDecl_does (ht : t.kind = .ENUM) (hb : b ≤ n) :
    Does (fun s => A s ∧ AtTok t s) b E (enumDecl c) :=
  .expect ht (by decide) fun _ => .bind expect_does fun _ => .bind (generics_does h (by omega))
    fun _ => .bind expect_does fun _ =>
      .bind (members_at atBodyEnd_stops fun _ ht => variant_at h ht (by omega)) fun _ =>
        .bind expect_does fun _ => .pure

theorem traitMember_does (hb : b ≤ n) : Does A b ifLive (traitMember c) :=
  .atKind (fun _ hk => .error (.moves (skipTo_at (by simp) (by simp [hk])) fun _ => .pure))
    fun _ _ => .live (funcDecl_does h hb) fun _ => .bind skipSemis_does fun _ => .pure

theorem traitDecl_does (ht : t.kind = .TRAIT) (hb : b ≤ n) :
    Does (fun s => A s ∧ AtTok t s) b E (traitDecl c) :=
  .expect ht (by decide) fun _ => .bind expect_does fun _ => .bind (generics_does h (by omega))
    fun _ => .bind (whereClause_does h (by omega)) fun _ => .bind expect_does fun _ =>
      .bind (body_does (traitMember_does h (by omega))) fun _ => .bind expect_does fun _ => .pure

theorem method_does (hb : b ≤ n) : Does A b ifLive (method c) :=
  .live (funcDecl_does h hb) fun _ => .bind skipSemis_does fun _ => .pure

theorem implHeader_does (hb : b ≤ n) : Does A b anyhow (implHeader c) :=
  .bind (typeExpr_does h hb) fun _ => .accept (by decide)
    (.bind (.check error_does) fun _ => .bind (typeExpr_does h (by omega)) fun _ => .pure) .pure

theorem implDecl_does (ht : t.kind = .IMPL) (hb : b ≤ n) :
    Does (fun s => A s ∧ AtTok t s) b E (implDecl c) :=
  .expect ht (by decide) fun _ => .bind (generics_does h (by omega)) fun _ =>
    .bind (implHeader_does h (by omega)) fun (_, _, _) =>
      .bind (whereClause_does h (by omega)) fun _ => .bind expect_does fun _ => .get fun _ =>
        .bind (.modify fun s hi => by
          split <;> exact ⟨rfl, Nat.le_refl _, hi, rfl, rfl, rfl, prefix_refl _⟩) fun _ =>
          .bind (body_does (method_does h (by omega))) fun _ => .bind
            (.modify fun _ hi => ⟨rfl, Nat.le_refl _, hi, rfl, rfl, rfl, prefix_refl _⟩)
            fun _ => .bind expect_does fun _ => .pure

theorem exceptionMember_does (hb : b ≤ n) : Does A b ifLive (exceptionMember c) :=
  .atKind (fun _ _ => .live (funcDecl_does h hb) fun _ => .bind skipSemis_does fun _ => .pure)
    fun _ _ => .live (fieldDecl_does h hb) fun _ => .bind accept_does fun _ =>
      .bind skipSemis_does fun _ => .pure

theorem exceptionDecl_does (ht : t.kind = .EXCEPTION) (hb : b ≤ n) :
    Does (fun s => A s ∧ AtTok t s) b E (exceptionDecl c) :=
  .expect ht (by decide) fun _ => .bind expect_does fun _ => .bind expect_does fun _ =>
    .bind (body_does (exceptionMember_does h (by omega))) fun _ =>
      .bind expect_does fun _ => .pure

theorem typeTarget_does (hb : b ≤ n) : Does A b anyhow (typeTarget c t) :=
  .accept (by decide) (.bind (typeExpr_does h (by omega)) fun _ => .pure)
    (.accept (by decide)
      (.bind expect_does fun _ => .bind (fieldList_does h (by omega)) fun _ =>
        .bind expect_does fun _ => .pure)
      (.bind (typeExpr_does h hb) fun _ => .pure))

theorem typeDecl_does (ht : t.kind = .TYPE) (hb : b ≤ n) :
    Does (fun s => A s ∧ AtTok t s) b E (typeDecl c) :=
  .expect ht (by decide) fun _ => .bind expect_does fun _ =>
    .bind (typeTarget_does h (by omega)) fun (_, _, _) => .bind expectSemi_does fun _ => .pure

/-! ### Files -/

theorem decl_does (hb : b ≤ n) : Does A b ifLive (decl c) :=
  .cur fun _ =>
    .ite (fun _ => funcDecl_does h hb) fun _ =>
    .ite (fun hk => structDecl_does h hk hb) fun _ =>
    .ite (fun hk => enumDecl_does h hk hb) fun _ =>
    .ite (fun hk => traitDecl_does h hk hb) fun _ =>
    .ite (fun hk => implDecl_does h hk hb) fun _ =>
    .ite (fun hk => exceptionDecl_does h hk hb) fun _ =>
    .ite (fun hk => typeDecl_does h hk hb) fun _ =>
    .bind errorFound_does fun _ => .live next_does fun _ => .pure

omit h in
theorem useNames_does : Does A b anyhow useNames :=
  .accept (by decide) (.bind expect_does fun _ => .pure)
    (.accept (by decide)
      (.bind (commaList_does (.bind expect_does fun _ => .pure)) fun _ => .bind expect_does fun _ =>
        .pure)
      (.accept (by decide) .pure .pure))

omit h in
theorem useDecl_does (ht : t.kind = .USE) : Does (fun s => A s ∧ AtTok t s) b E useDecl :=
  .expect ht (by decide) fun _ => .bind expect_does fun _ => .bind useNames_does fun (_, _, _) =>
    .bind expectSemi_does fun _ => .pure

theorem fileItem_does (hb : b ≤ n) {f : Contents} : Does A b ifLive (fileItem c f) := by
  refine .cur fun t => .lookWord fun word hword => .peekKind fun _ => ?_
  refine .ite (fun hk => .moves (useDecl_does hk) fun _ => .pure) fun _ =>
    .ite (fun hw => .moves (ffiBlock_does (hword hw.1)) fun _ => .pure) fun _ =>
    .ite (fun _ => .live (decl_does h hb) fun _ => .pure) fun _ =>
    .ite (fun _ => .live (stmt_does h hb) fun _ => .pure) fun _ =>
    .live (stmt_does h hb) fun _ => .pure

omit h in
theorem package_does : Does A b anyhow package :=
  .accept (by decide) (.bind expect_does fun _ => .bind expectSemi_does fun _ => .pure) .pure

end

/-! ### The knot -/

/-- The entry points at every depth are good. -/
theorem calls_ok : ∀ n, Ok n (calls n)
  | 0 => by
    have hvoid {α : Type} {A : Parser → Prop} {E : Prop → α → Prop} {m : P α} :
        Does A 0 E m := fun s hg _ hl => by
      have := hg.left_pos
      omega
    exact ⟨hvoid, hvoid, hvoid, fun _ => hvoid, hvoid, hvoid, hvoid, fun _ _ => hvoid,
      fun _ _ => hvoid⟩
  | n + 1 => by
    have h := calls_ok n
    exact ⟨typeExpr_does h (Nat.le_refl _), expr_does h (Nat.le_refl _),
      unary_does h (Nat.le_refl _), fun _ => binary_does h (Nat.le_refl _),
      pattern_does h (Nat.le_refl _), stmt_does h (Nat.le_refl _), block_does h (Nat.le_refl _),
      fun _ ht => ifExpr_does h ht (Nat.le_refl _), fun _ ht => ifStmt_does h ht (Nat.le_refl _)⟩

/-! ### The parser -/

variable {f : Contents} {s : Parser}

theorem ffiNeedsUse_ends (hg : Good s) :
    Ends (ffiNeedsUse f) s fun _ s' => Step s s' ∧ s'.i = s.i := by
  have hstay : Step s s ∧ s.i = s.i := ⟨Step.refl hg.inRange, rfl⟩
  unfold ffiNeedsUse
  split
  · exact .pure hstay
  · refine Ends.ite (fun _ => .pure hstay) fun _ => ?_
    exact ⟨(), _, rfl, step_report hg.inRange _, rfl⟩

/-- The items of a file end at `EOF`: a turn of the loop that goes round again has taken a
token, since `fileItem` takes every token but that one. -/
theorem fileItems_ends (hg : Good s) (hl : 2 * left s ≤ n) (h : Ok n c)
    :
    Ends (loop (fun f => do
      skipSemis
      if ← atKind .EOF then pure (.stop f)
      else
        let f ← fileItem c f
        skipSemis
        pure (.again f)) f) s fun _ s' => Step s s' ∧ ∃ t, AtTok t s' ∧ t.kind = .EOF := by
  refine Ends.turns (fun _ s' => Step s s') (fun s' => s'.ts.length - 1 - s'.i) ?_
    (Step.refl hg.inRange) (by have := hg.inRange; omega)
  intro f s' hst
  have hl' := hst.left_le
  refine Ends.bind (skipSemis_does (A := fun _ => True) (b := n) s' (hst.good hg) trivial
    (by omega)) ?_
  rintro _ s₁ ⟨hst₁, -⟩
  have hg₁ := (hst.trans hst₁).good hg
  have hl₁ := hst₁.left_le
  obtain ⟨t, htok⟩ := hg₁.exists_tok
  refine (test_ends htok).bind ?_
  rintro eof _ ⟨heof, rfl⟩
  refine Ends.ite (fun hk => ?_) fun hk => ?_
  · refine .pure ⟨fun y hy => (nomatch hy), fun z _ => ⟨hst.trans hst₁, t, htok, ?_⟩⟩
    simpa [hk] using heof
  · have hlive : Live s₁ := ⟨t, htok, fun he => hk (by simpa [he] using heof.symm)⟩
    refine Ends.bind (fileItem_does (A := fun _ => True) h (Nat.le_refl _) s₁ hg₁ trivial
      (by omega)) ?_
    rintro f' s₂ ⟨hst₂, hlt⟩
    have hl₂ := hst₂.left_le
    refine Ends.bind (skipSemis_does (A := fun _ => True) (b := n) s₂ (hst₂.good hg₁) trivial
      (by omega)) ?_
    rintro _ s₃ ⟨hst₃, -⟩
    refine .pure ⟨fun y _ => ⟨((hst.trans hst₁).trans hst₂).trans hst₃, ?_⟩, fun z hz => (nomatch hz)⟩
    have hts : s₃.ts = s'.ts := (hst₃.ts.trans hst₂.ts).trans hst₁.ts
    have h₁ := hst₁.le
    have h₂ := hlt hlive
    have h₃ := hst₃.le
    have h₄ := hst₃.inRange
    rw [hts] at h₄ ⊢
    omega

theorem file_ends (hg : Good s) (hl : 2 * left s ≤ n) (h : Ok n c) :
    Ends (file c) s fun _ s' => Step s s' ∧ ∃ t, AtTok t s' ∧ t.kind = .EOF := by
  obtain ⟨t, htok⟩ := hg.exists_tok
  refine Ends.bind (R := fun a s' => t = a ∧ s = s') ⟨t, s, cur_eq htok, rfl, rfl⟩ ?_
  rintro _ _ ⟨rfl, rfl⟩
  have hskip : Does (fun _ => True) n anyhow skipSemis := skipSemis_does
  have hpackage : Does (fun _ => True) n anyhow package := package_does
  refine Ends.bind (hskip s hg trivial hl) ?_
  rintro _ s₁ ⟨h₁, -⟩
  have hl₁ := h₁.left_le
  refine Ends.bind (hpackage s₁ (h₁.good hg) trivial (by omega)) ?_
  rintro _ s₂ ⟨h₂, -⟩
  have h₂ := h₁.trans h₂
  have hl₂ := h₂.left_le
  refine Ends.bind (hskip s₂ (h₂.good hg) trivial (by omega)) ?_
  rintro _ s₃ ⟨h₃, -⟩
  have h₃ := h₂.trans h₃
  have hl₃ := h₃.left_le
  refine Ends.bind (fileItems_ends (h₃.good hg) (by omega) h) ?_
  rintro f s₄ ⟨h₄, t', htok', heof⟩
  have h₄ := h₃.trans h₄
  refine Ends.bind (ffiNeedsUse_ends (h₄.good hg)) ?_
  rintro _ s₅ ⟨h₅, hi⟩
  refine .pure ⟨h₄.trans h₅, t', ?_, heof⟩
  show s₅.ts[s₅.i]? = some t'
  rw [h₅.ts, hi]
  exact htok'

end

theorem newParser_good (fileName : Str) (ts : List Token) (line col : Nat) (errs : List Str) :
    Good (newParser fileName ts line col errs) :=
  ⟨by simp [newParser], fun t ht => by
    simp only [newParser, length_append, length_singleton, Nat.add_sub_cancel,
      List.getElem?_append_right (Nat.le_refl _), Nat.sub_self, List.getElem?_cons_zero] at ht
    cases ht
    rfl⟩

theorem left_newParser (fileName : Str) (ts : List Token) (line col : Nat) (errs : List Str) :
    2 * left (newParser fileName ts line col errs) = depth ts + 2 := by
  simp [newParser, left, depth, weightTokens_append, weightTokens, eofToken, Token.weight,
    weightParts]
  omega

/-- On every list of tokens `File` ends, with the cursor on `EOF`; a run that ends has read
no token past the end of the list (`Crash.pastEnd`). And wherever a speculation starts, with
calls enough for the tokens left, it ends, and if it fails the cursor, the diagnostics and
the nesting counters are what they were. -/
theorem parseFile_ends (fileName : Str) (ts : List Token) (line col : Nat) (errs : List Str) :
    (∃ node s', parseFile fileName ts line col errs = .ok (node, s') ∧
      s'.ts = ts ++ [eofToken line col] ∧ (∃ t, s'.ts[s'.i]? = some t ∧ t.kind = .EOF) ∧
      ((∀ t ∈ ts, t.kind ≠ .EOF) → s'.i = ts.length)) ∧
    ∀ n s, Good s → 2 * left s ≤ n → ∀ t, AtTok t s → t.kind ≠ .EOF →
      (∀ x, Ends (tryTypeArgs (calls n) x t) s fun r s' => r = none → s'.i = s.i ∧
        s'.errs = s.errs ∧ s'.lev = s.lev ∧ s'.noLit = s.noLit ∧ s'.armComma = s.armComma) ∧
      Ends (tryCollectionLit (calls n)) s fun r s' => r = none → s'.i = s.i ∧
        s'.errs = s.errs ∧ s'.lev = s.lev ∧ s'.noLit = s.noLit ∧ s'.armComma = s.armComma := by
  constructor
  · have hl := left_newParser fileName ts line col errs
    obtain ⟨node, s', hrun, hst, t, htok, heof⟩ := file_ends
      (newParser_good fileName ts line col errs) (Nat.le_of_eq hl) (calls_ok _)
    refine ⟨node, s', hrun, hst.ts, ⟨t, htok, heof⟩, fun hne => ?_⟩
    rw [AtTok, hst.ts] at htok
    rcases Nat.lt_trichotomy s'.i ts.length with hlt | heq | hgt
    · have hmem : t ∈ ts := by
        rw [show (newParser fileName ts line col errs).ts = ts ++ [eofToken line col] from rfl,
          List.getElem?_append_left hlt] at htok
        exact mem_of_getElem? htok
      exact absurd heof (hne t hmem)
    · exact heq
    · have := hst.inRange
      rw [hst.ts] at this
      simp only [newParser, length_append, length_singleton] at this
      omega
  · intro n s hg hl t htok hne
    refine ⟨fun x => ?_, ?_⟩
    · refine (tryTypeArgs_ends (calls_ok n) (Nat.le_refl n) hg hl).mono fun r s' hr hnone => ?_
      exact ⟨(hr.2 hnone).1, (hr.2 hnone).2, hr.1.lev, hr.1.noLit, hr.1.armComma⟩
    · refine (tryCollectionLit_ends (calls_ok n) (Nat.le_refl n) hg htok hne hl).mono
        fun r s' hr hnone => ?_
      exact ⟨(hr.2.1 hnone).1, (hr.2.1 hnone).2, hr.1.lev, hr.1.noLit, hr.1.armComma⟩

/-- On the lone token of the text `?`, where no type can be read. -/
theorem parseFile_question_ends :
    let t : Token := ⟨.QUESTION, [], 1, 1, []⟩
    Ends (tryTypeArgs (calls 4) .none t) (newParser [] [t] 1 2 []) (fun r s' => r = none →
      s'.i = 0 ∧ s'.errs = [] ∧ s'.lev = 0 ∧ s'.noLit = 0 ∧ s'.armComma = 0) ∧
    Ends (tryCollectionLit (calls 4)) (newParser [] [t] 1 2 []) (fun r s' => r = none →
      s'.i = 0 ∧ s'.errs = [] ∧ s'.lev = 0 ∧ s'.noLit = 0 ∧ s'.armComma = 0) :=
  have h := (parseFile_ends [] [⟨.QUESTION, [], 1, 1, []⟩] 1 2 []).2 4
    (newParser [] [⟨.QUESTION, [], 1, 1, []⟩] 1 2 []) (newParser_good _ _ _ _ _)
    (by rw [left_newParser]; decide) ⟨.QUESTION, [], 1, 1, []⟩ rfl (by decide)
  ⟨h.1 .none, h.2⟩

end Voila.Par
