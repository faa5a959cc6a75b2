import Voila.Par.ExprMoves

/-!
# Voila.Par.StmtMoves

Patterns, statements and declarations move the parser as `Step` says, one lemma for
each function, in the order of the definitions.
-/

namespace Voila.Par

open Tok Lib

section

variable {n b : Nat} {c : Calls} {A : Parser → Prop} {t : Token}

section

variable (h : Ok n c)

include h

/-! ### Patterns -/

theorem patternLit_does (hb : b ≤ n) : Does A b ifLive (patternLit c) :=
  .atKind (fun _ _ => unary_does h hb) fun _ _ => primary_does h hb

theorem fieldPattern_does (hb : b ≤ n) : Does A b anyhow (fieldPattern c) :=
  .bind expect_does fun _ => .bind
    (.accept (by decide) (h.pattern' (by omega)).loose .pure) fun _ => .pure

theorem structPattern_does (hb : b ≤ n) {name : Str} :
    Does A b anyhow (structPattern c t name) :=
  .bind expect_does fun _ => .bind
    (fieldsUpTo_does
      (.atAny (fun _ _ => .pure) fun _ _ => .accept (by decide)
        (.bind skipSemis_does fun _ => .pure) .pure)
      (fieldPattern_does h hb))
    fun _ => .bind expect_does fun _ => .pure

omit h in
theorem dottedName_does {name : Str} : Does A b anyhow (dottedName name) :=
  .loop fun _ => .accept (by decide) (.bind expect_does fun _ => .pure) .stop

theorem namePattern_does (hb : b ≤ n - 1) : Does A b anyhow (namePattern c t) :=
  .ite (fun _ => .pure) fun _ => .bind dottedName_does fun (_, _) =>
    .accept (by decide)
      (.bind (commaList_does (h.pattern' (by omega))) fun _ => .bind expect_does fun _ => .pure)
      (.atKind (fun _ _ => .get fun _ => structPattern_does h (by omega)) fun _ _ =>
        .ite (fun _ => .pure) fun _ => .pure)

theorem parenPatterns_does (hb : b ≤ n - 1) : Does A b anyhow (parenPatterns c) :=
  .loop fun _ => .atAny (fun _ _ => .stop) fun _ _ => .bind (h.pattern' hb) fun _ =>
    .accept (by decide) .pure .stop

theorem patternOne_does (hb : b ≤ n) : Does A b ifLive (patternOne c) :=
  .cur fun t =>
    .ite (fun hk => .next (by simp [hk]) fun _ => .pure) fun _ =>
    .ite (fun _ => .live (patternLit_does h hb) fun _ => .atAny
      (fun _ _ => .bind next_does fun _ => .bind (patternLit_does h hb) fun _ => .pure)
      fun _ _ => .pure) fun _ =>
    .ite (fun hk => .next (by simp [hk]) fun _ => .bind (parenPatterns_does h (by omega)) fun
      | ([_], false) => .bind expect_does fun _ => .pure
      | ([_], true) => .bind expect_does fun _ => .pure
      | ([], _) => .bind expect_does fun _ => .pure
      | (_ :: _ :: _, _) => .bind expect_does fun _ => .pure) fun _ =>
    .ite (fun hk => .next (by simp [hk]) fun _ => namePattern_does h (by omega)) fun _ =>
    .bind errorFound_does fun _ => .live next_does fun _ => .pure

theorem pattern_does (hb : b ≤ n) : Does A b ifLive (pattern c) :=
  .cur fun _ => .live (patternOne_does h hb) fun _ => .atKind
    (fun _ _ => .bind (.loop fun _ => .accept (by decide)
      (.bind (patternOne_does h (by omega)) fun _ => .pure) .stop) fun _ => .pure)
    fun _ _ => .pure

/-! ### Statements -/

theorem blockRest_does (hb : b ≤ n - 1) :
    Does A b anyhow (within (fun s => { s with lev := 0, armComma := 0, noLit := 0 })
      (fun saved s =>
        { s with lev := saved.lev, armComma := saved.armComma, noLit := saved.noLit }) (do
      let ss ← members atBodyEnd c.stmt
      let _ ← expect .RBRACE
      pure ss)) :=
  .within (fun _ hg => ⟨⟨hg.inRange, hg.last⟩, rfl, rfl⟩)
    (fun _ _ hst => ⟨⟨hst.ts, hst.le, hst.inRange, rfl, rfl, rfl, hst.errs⟩, rfl⟩)
    (.bind (body_does (h.stmt' hb)) fun _ => .bind expect_does fun _ => .pure)

theorem block_does (hb : b ≤ n - 1) : Does A b anyhow (block c) :=
  .bind expect_does fun _ => .bind (blockRest_does h hb) fun _ => .pure

variable {E : Prop → Node → Prop} {label : Str} {isTry : Int}

theorem block_at (ht : t.kind = .LBRACE) (hb : b ≤ n) :
    Does (fun s => A s ∧ AtTok t s) b E (block c) :=
  .expect ht (by decide) fun _ => .bind (blockRest_does (b := b - 2) h (by omega)) fun _ => .pure

omit h in
omit h in
theorem listComma_does : Does A b (fun _ r => r = true) listComma :=
  .atKind
    (fun _ ht => .get fun _ => .get fun _ => .ite (fun _ => .ret fun _ he => nomatch he)
      fun _ => .next (by simp [ht]) fun _ => .pure)
    fun _ _ => .ret fun _ he => nomatch he

theorem valueList_does (hb : b ≤ n) {xs : List Node} : Does A b anyhow (valueList c xs) :=
  .loop fun _ => .cases listComma_does
    (fun r hr => by
      subst hr
      exact .bind (h.expr' (by omega)) fun _ => .pure)
    fun r hr => by
      rw [Bool.not_eq_true] at hr
      subst hr
      exact .stop

omit h in
theorem parenNames_does : Does A b anyhow parenNames :=
  .bind expect_does fun _ => .bind (commaList_does (.bind expect_does fun _ => .pure)) fun _ =>
    .bind expect_does fun _ => .ite (fun _ => .bind error_does fun _ => .pure) fun _ => .pure

theorem destructure_does (hb : b ≤ n - 1) {flag : Int} : Does A b anyhow (destructure c t flag) :=
  .bind parenNames_does fun _ => .bind expect_does fun _ => .bind (h.expr' hb) fun _ =>
    .bind expectSemi_does fun _ => .pure

theorem letStmt_does (ht : t.kind ≠ .EOF) (hb : b ≤ n) :
    Does (fun s => A s ∧ AtTok t s) b E (letStmt c) :=
  .curAt <| .next ht fun _ => .atKind (fun _ _ => destructure_does h (by omega)) fun _ _ =>
    .bind expect_does fun _ => .bind (commaMore_does (.bind expect_does fun _ => .pure)) fun _ =>
      .bind (.atKind (fun _ _ => .pure) fun _ _ => (h.typeExpr' (by omega)).loose) fun _ =>
        .bind expect_does fun _ => .bind (h.expr' (by omega)) fun _ =>
          .bind expectSemi_does fun _ => .pure

theorem varStmt_does (ht : t.kind = .VAR) (hb : b ≤ n) :
    Does (fun s => A s ∧ AtTok t s) b E (varStmt c) :=
  .expect ht (by decide) fun _ => .atKind (fun _ _ => destructure_does h (by omega)) fun _ _ =>
    .bind expect_does fun _ =>
      .bind (.atAny (fun _ _ => .pure) fun _ _ => (h.typeExpr' (by omega)).loose) fun _ =>
        .bind (.accept (by decide) (h.expr' (by omega)).loose .pure) fun _ =>
          .bind expectSemi_does fun _ => .pure

theorem parallelAssign_does (ht : t.kind = .COMMA) (hb : b ≤ n) {t' : Token} {x : Node} :
    Does (fun s => A s ∧ AtTok t s) b anyhow (parallelAssign c t' x) :=
  .moves (commaMore_moves ht (h.expr' (by omega))) fun _ => .cur fun _ => .bind expect_does fun _ =>
    .bind (h.expr' (by omega)) fun _ => .bind (valueList_does h (by omega)) fun _ =>
      .bind expectSemi_does fun _ => .pure

omit h in
theorem Does.armAhead {α : Type} {E : Prop → α → Prop} {g : Bool → P α}
    (hg : ∀ r, Does A b E (g r)) : Does A b E (Par.armAhead >>= g) := by
  intro s hgood ha hl
  refine Ends.bind (R := fun _ s' => s = s') ⟨_, s, rfl, rfl⟩ ?_
  rintro r _ rfl
  exact hg r s hgood ha hl

theorem simpleStmt_does (hb : b ≤ n) : Does A b ifLive (simpleStmt c) := by
  refine .cur fun t => .live (expr_does h hb) fun x => .lookAt fun u comma hcomma => .get fun _ =>
    .armAhead fun _ => .ite (fun hc => parallelAssign_does h (hcomma hc.1) hb) fun _ => ?_
  refine .cur fun op => .ite (fun hk => ?_) fun _ => .ite (fun hk => ?_) fun _ => ?_
  · refine .next (fun he => by simp [he, assignOps] at hk) fun _ => .bind (h.expr' (by omega))
      fun _ => .bind expectSemi_does fun _ => .pure
  · refine .next (by simp [hk]) fun _ => .bind (h.expr' (by omega))
      fun _ => .bind expectSemi_does fun _ => .pure
  · exact .bind expectSemi_does fun _ => .pure

theorem ifStmt_does (ht : t.kind = .IF) (hb : b ≤ n) :
    Does (fun s => A s ∧ AtTok t s) b E (ifStmt c) :=
  .expect ht (by decide) fun _ => .bind (ifHeader_does h (by omega)) fun (_, _) =>
    .bind (h.block' (by omega)) fun _ => .bind
      (.skipSemisBefore (by decide)
        (fun _ => .atKind (fun t ht => ((h.ifStmt t ht).le (by omega)).pre fun _ hA => ⟨trivial, hA.2⟩)
          fun _ _ => h.block' (by omega))
        .pure)
      fun _ => .pure

omit h in
theorem secondName_does : Does A b anyhow secondName :=
  .accept (by decide) (.bind expect_does fun _ => .pure) .pure

/-- A loop takes its keyword; without one, what is left is the report. -/
theorem loopStmt_at (hb : b ≤ n) (he : t.kind ≠ .FOR → t.kind ≠ .EACH → t.kind ≠ .WHILE →
      Does (fun s => A s ∧ AtTok t s) b E (do
        error "expected loop after label".toList
        pure (add .BLOCK t 0 0 [] []))) : Does (fun s => A s ∧ AtTok t s) b E (loopStmt c label) :=
  .curAt <|
    .ite (fun hk => .next (by simp [hk]) fun _ => .bind
      (.atKind (fun _ _ => .pure) fun _ _ => .bind expect_does fun _ => .bind expect_does fun _ =>
        .bind (headerExpr_does h (by omega)) fun _ => .pure)
      fun (_, _) => .bind (h.block' (by omega)) fun _ => .pure) fun h₁ =>
    .ite (fun hk => .next (by simp [hk]) fun _ => .bind expect_does fun _ =>
      .bind secondName_does fun _ => .bind expect_does fun _ =>
        .bind (headerExpr_does h (by omega)) fun _ => .bind (h.block' (by omega)) fun _ => .pure)
      fun h₂ =>
    .ite (fun hk => .next (by simp [hk]) fun _ => .bind (headerExpr_does h (by omega)) fun _ =>
      .bind (h.block' (by omega)) fun _ => .pure) fun h₃ => he h₁ h₂ h₃

theorem loopStmt_does (hb : b ≤ n) : Does A b anyhow (loopStmt c label) := by
  intro s hg ha hl
  obtain ⟨t, htok⟩ := hg.exists_tok
  exact loopStmt_at (A := A) h hb (fun _ _ _ => .bind error_does fun _ => .pure) s hg ⟨ha, htok⟩ hl

omit h in
theorem atCaseEnd_stops : Stops (fun t => t.kind ≠ .EOF) atCaseEnd := by
  intro s hg
  obtain ⟨t, htok⟩ := hg.exists_tok
  refine (test_ends htok).bind ?_
  rintro stop _ ⟨hstop, rfl⟩
  refine (test_ends htok).bind ?_
  rintro word _ ⟨-, rfl⟩
  refine (peekKind_ends hg).bind ?_
  rintro ahead _ rfl
  refine .pure ⟨rfl, fun hr => ⟨t, htok, fun he => ?_⟩⟩
  rw [Bool.or_eq_false_iff] at hr
  simp [he, hr.1] at hstop

theorem caseBody_does (hb : b ≤ n - 1) : Does A b anyhow (members atCaseEnd c.stmt) :=
  members_does atCaseEnd_stops (fun _ ht => ht) (h.stmt' hb)

theorem switchCase_does (hb : b ≤ n) : Does A b ifLive (switchCase c) := by
  refine .cur fun t => .lookWord fun word hword => .ite (fun hk => ?_) fun _ =>
    .ite (fun hw => ?_) fun _ => ?_
  · refine .next (by simp [hk]) fun _ => .bind (h.expr' (by omega)) fun _ =>
      .bind (commaMore_does (h.expr' (by omega))) fun _ => .bind expect_does fun _ =>
        .bind (caseBody_does h (by omega)) fun _ => .pure
  · refine .next (by simp [hword hw]) fun _ => .bind expect_does fun _ =>
      .bind (caseBody_does h (by omega)) fun _ => .pure
  · exact .bind error_does fun _ => .live next_does fun _ => .pure

theorem switchStmt_does (ht : t.kind = .SWITCH) (hb : b ≤ n) :
    Does (fun s => A s ∧ AtTok t s) b E (switchStmt c) :=
  .expect ht (by decide) fun _ => .bind (headerExpr_does h (by omega)) fun _ =>
    .bind expect_does fun _ =>
      .bind (body_does (switchCase_does h (by omega))) fun _ =>
        .bind expect_does fun _ => .pure

theorem receive_does (hb : b ≤ n - 1) {x y : Str} : Does A b anyhow (receive c x y) :=
  .bind expect_does fun _ => .bind (h.expr' hb) fun _ => .pure

theorem comm_does (hb : b ≤ n - 1) : Does A b anyhow (comm c) :=
  .look fun _ => .peekKind fun _ => .peekKind fun _ => .peekKind fun _ =>
    .accept (by decide)
      (.bind expect_does fun _ => .bind secondName_does fun _ => .bind expect_does fun _ =>
        receive_does h (by omega))
      (.ite (fun _ => .bind next_does fun _ => .bind next_does fun _ => receive_does h hb) fun _ =>
        .ite (fun _ => .bind next_does fun _ => .bind next_does fun _ => .bind next_does fun _ =>
          .bind next_does fun _ => receive_does h hb) fun _ =>
        .atKind (fun _ _ => receive_does h hb) fun _ _ => .bind (h.expr' hb) fun _ =>
          .bind expect_does fun _ => .bind (h.expr' hb) fun _ => .pure)

theorem selectBody_does (hb : b ≤ n - 1) {x : Comm} : Does A b anyhow (selectBody c t x) :=
  .bind (caseBody_does h hb) fun _ => .pure

theorem selectCase_does (hb : b ≤ n) : Does A b ifLive (selectCase c) := by
  refine .cur fun t => .lookWord fun word hword => .ite (fun hk => ?_) fun _ =>
    .ite (fun hw => ?_) fun _ => ?_
  · refine .next (by simp [hk]) fun _ => .bind (comm_does h (by omega)) fun _ =>
      .bind expect_does fun _ => selectBody_does h (by omega)
  · refine .next (by simp [hword hw]) fun _ => .bind expect_does fun _ =>
      selectBody_does h (by omega)
  · exact .bind error_does fun _ => .live next_does fun _ => .pure

theorem selectStmt_does (ht : t.kind = .SELECT) (hb : b ≤ n) :
    Does (fun s => A s ∧ AtTok t s) b E (selectStmt c) :=
  .expect ht (by decide) fun _ => .bind expect_does fun _ =>
    .bind (body_does (selectCase_does h (by omega))) fun _ =>
      .bind expect_does fun _ => .pure

theorem groupStmt_rest (hb : b ≤ n - 2) : Does A b anyhow (do
    let timeout ← choose (atWord "timeout") (do
        let _ ← next
        headerExpr c) (pure .none)
    let body ← c.block
    pure (add .GROUP t 0 isTry [] [timeout, body])) :=
  .bind (.atWord (fun _ _ => .bind next_does fun _ => headerExpr_does h (by omega))
    fun _ => .pure) fun _ => .bind (h.block' hb) fun _ => .pure

theorem groupStmt_at (ht : t.kind = .GROUP) (hb : b ≤ n) :
    Does (fun s => A s ∧ AtTok t s) b E (groupStmt c isTry) :=
  .expect ht (by decide) fun _ => groupStmt_rest h (by omega)

theorem groupStmt_does (hb : b ≤ n - 2) : Does A b anyhow (groupStmt c isTry) :=
  .bind expect_does fun _ => groupStmt_rest h hb

theorem parseSource_does (hb : b ≤ n) : Does A b anyhow (parseSource c) :=
  .bind (primary_does h hb) fun _ => .loop fun _ => .atKind
    (fun _ ht => .moves (callTail_does h ht hb) fun _ => .pure) fun _ _ => .atKind
      (fun _ ht => .moves (indexTail_does h (A := fun s => True ∧ AtTok _ s) ht hb) fun _ => .pure)
      fun _ _ => .stop

omit h in
theorem parseTerm_does : Does A b ifLive parseTerm :=
  .cur fun t =>
    .ite (fun hk => .next (by simp [hk]) fun _ => .pure) fun _ =>
    .ite (fun hk => .next (by simp [hk]) fun _ => .pure) fun _ =>
    .ite (fun hk => .next (by simp [hk]) fun _ => .pure) fun _ =>
    .ite (fun hk => .next (by simp [hk]) fun _ => .pure) fun _ =>
    .bind error_does fun _ => .live next_does fun _ => .pure

theorem parseStmt_does (ht : t.kind = .PARSE) (hb : b ≤ n) :
    Does (fun s => A s ∧ AtTok t s) b E (parseStmt c) :=
  .expect ht (by decide) fun _ => .look fun _ => .look fun _ => .bind
    (.ite (fun _ => .bind next_does fun _ => .pure) fun _ => .pure) fun _ =>
      .bind accept_does fun _ => .bind (parseSource_does h (by omega)) fun _ => .bind
        (.loop fun _ => .atAny (fun _ _ => .stop) fun _ ht =>
          .goes (fun he => ht (by simp [he])) parseTerm_does fun _ => .pure)
        fun _ => .bind expectSemi_does fun _ => .pure

theorem values_does (hb : b ≤ n - 1) : Does A b anyhow (values c) :=
  .bind (.atAny (fun _ _ => .pure) fun _ _ => .bind (h.expr' hb) fun _ =>
    valueList_does h (by omega)) fun _ => .bind expectSemi_does fun _ => .pure

theorem sayStmt_does (ht : t.kind = .SAY) (hb : b ≤ n) :
    Does (fun s => A s ∧ AtTok t s) b E (sayStmt c) :=
  .expect ht (by decide) fun _ => .bind (values_does h (by omega)) fun _ => .pure

theorem deferStmt_does (ht : t.kind = .DEFER) (hb : b ≤ n) :
    Does (fun s => A s ∧ AtTok t s) b E (deferStmt c) :=
  .expect ht (by decide) fun _ => .atKind
    (fun _ _ => .bind (h.block' (by omega)) fun _ => .pure) fun _ _ => .atKind
      (fun _ ht => .bind (sayStmt_does h (E := anyhow) ht (by omega)) fun _ => .pure)
      fun _ _ => .bind (h.expr' (by omega)) fun _ => .bind expectSemi_does fun _ => .pure

theorem catchHeader_does (hb : b ≤ n - 1) : Does A b anyhow (catchHeader c) :=
  .atKind (fun _ _ => .bind next_does fun _ => .accept (by decide)
    (.bind (h.typeExpr' (by omega)) fun _ => .bind (commaMore_does (h.typeExpr' (by omega)))
      fun _ => .pure) .pure) fun _ _ => .pure

theorem trycatchStmt_does (ht : t.kind = .TRY) (hb : b ≤ n) :
    Does (fun s => A s ∧ AtTok t s) b E (trycatchStmt c) :=
  .expect ht (by decide) fun _ => .bind (h.block' (by omega)) fun _ => .bind
    (.loop fun _ => .skipSemisBefore (by decide)
      (fun _ => .bind (catchHeader_does h (by omega)) fun (_, _) =>
        .bind (h.block' (by omega)) fun _ => .pure) .stop)
    fun _ => .bind (.skipSemisBefore (by decide) (fun _ => h.block' (by omega)) .pure) fun _ =>
      .bind expectSemi_does fun _ => .pure

theorem thrown_does (hb : b ≤ n - 1) : Does A b anyhow (thrown c) :=
  .atAny (fun _ _ => .pure) fun _ _ => .bind (h.expr' hb) fun _ => .atWord
    (fun _ _ => .bind next_does fun _ => .bind (h.expr' hb) fun _ => .pure) fun _ => .pure

theorem wordStmt_does (ht : t.kind ≠ .EOF) (hb : b ≤ n) :
    Does (fun s => A s ∧ AtTok t s) b E (wordStmt c t) :=
  .next ht fun _ =>
    .ite (fun _ => .bind expect_does fun _ => .bind expectSemi_does fun _ => .pure) fun _ =>
    .ite (fun _ => .bind (values_does h (by omega)) fun _ => .pure) fun _ =>
    .ite (fun _ => .bind (.atKind (fun _ _ => .bind next_does fun _ => .pure) fun _ _ => .pure)
      fun _ => .bind expectSemi_does fun _ => .pure) fun _ =>
    .ite (fun _ => .bind expect_does fun _ => .bind (.check error_does) fun _ =>
      .bind expect_does fun _ => .bind expectSemi_does fun _ => .pure) fun _ =>
    .bind (thrown_does h (by omega)) fun (_, _) => .bind expectSemi_does fun _ => .pure

theorem identStmt_does (ht : t.kind = .IDENT) (hb : b ≤ n) :
    Does (fun s => A s ∧ AtTok t s) b ifLive (identStmt c t) :=
  .peekKind fun _ => .peekKind fun _ =>
    .ite (fun _ => .next (by simp [ht]) fun _ => .bind next_does fun _ =>
      loopStmt_does h (by omega)) fun _ =>
    .ite (fun _ => .next (by simp [ht]) fun _ => .bind expectSemi_does fun _ => .pure) fun _ =>
    simpleStmt_does h hb

theorem tryStmt_does (ht : t.kind = .TRY) (hb : b ≤ n) :
    Does (fun s => A s ∧ AtTok t s) b ifLive (tryStmt c) :=
  .peekKind fun _ =>
    .ite (fun _ => trycatchStmt_does h ht hb) fun _ =>
    .ite (fun _ => .next (by simp [ht]) fun _ => groupStmt_does h (by omega)) fun _ =>
    simpleStmt_does h hb

theorem stmt_does (hb : b ≤ n) : Does A b ifLive (stmt c) :=
  .cur fun t =>
    .ite (fun hk => letStmt_does h (by rcases hk with hk | hk <;> simp [hk]) hb) fun _ =>
    .ite (fun hk => varStmt_does h hk hb) fun _ =>
    .ite (fun hk => ifStmt_does h hk hb) fun _ =>
    .ite (fun hk => loopStmt_at h hb fun h₁ h₂ h₃ => by simp [h₁, h₂, h₃] at hk) fun _ =>
    .ite (fun hk => identStmt_does h hk hb) fun _ =>
    .ite (fun hk => switchStmt_does h hk hb) fun _ =>
    .ite (fun hk => matchStmt_does h hk hb) fun _ =>
    .ite (fun hk => selectStmt_does h hk hb) fun _ =>
    .ite (fun hk => groupStmt_at h hk hb) fun _ =>
    .ite (fun hk => parseStmt_does h hk hb) fun _ =>
    .ite (fun hk => sayStmt_does h hk hb) fun _ =>
    .ite (fun hk => deferStmt_does h hk hb) fun _ =>
    .ite (fun hk => wordStmt_does h (fun he => by simp [he] at hk) hb) fun _ =>
    .ite (fun hk => tryStmt_does h hk hb) fun _ =>
    .ite (fun hk => block_at h hk hb) fun _ => simpleStmt_does h hb

end

end

end Voila.Par
