import Voila.Par.FileSound
import Voila.Par.Table

/-!
# Voila.Par.ExprRuns

On the tokens of an expression that the table derives, loosely, `Parser.expr` takes
exactly those tokens, reports nothing and builds the expression's node (`expr_gives`).

The left operands make this an induction with a continuation: reading an expression at
some level is going on with its node as the left operand (`Parses`).
-/

namespace Voila.Par

open Tok Lib List

/-! ### States -/

/-- The tokens of operator expressions. -/
def alphabet : List Kind :=
  atoms ++ prefixOps ++ rows.flatMap (·.2) ++ [.LPAREN, .RPAREN, .EOF]

/-- A parser over the tokens of operator expressions, outside any `impl`, with the tokens
`us` from the cursor on. -/
structure At (s : Parser) (us : List Token) : Prop where
  good : Good s
  sym : ∀ t ∈ s.ts, t.kind ∈ alphabet
  noSelf : s.selfName = []
  drop : s.ts.drop s.i = us

/-- The parser some tokens further on. -/
def fwd (s : Parser) (k : Nat) : Parser := { s with i := s.i + k }

@[simp] theorem fwd_fwd (s : Parser) (j k : Nat) : fwd (fwd s j) k = fwd s (j + k) := by
  simp [fwd, Nat.add_assoc]

section

variable {s : Parser} {t u : Token} {us vs : List Token} {k : Kind}

theorem At.fwd (h : At s (us ++ t :: vs)) : At (fwd s us.length) (t :: vs) := by
  have hdrop : s.ts.drop (s.i + us.length) = t :: vs := by
    rw [← drop_drop, h.drop, drop_left]
  have hin : s.i + us.length < s.ts.length := by
    by_contra hge
    rw [drop_eq_nil_of_le (by omega)] at hdrop
    cases hdrop
  exact ⟨⟨hin, h.good.last⟩, h.sym, h.noSelf, hdrop⟩

theorem At.fwd_one (h : At s (t :: u :: us)) : At (Par.fwd s 1) (u :: us) :=
  @At.fwd s u [t] us h

theorem At.tok (h : At s (t :: us)) : AtTok t s := by
  show s.ts[s.i]? = some t
  rw [← head?_drop, h.drop]
  rfl

theorem At.mem (h : At s us) (ht : t ∈ us) : t.kind ∈ alphabet :=
  h.sym t (mem_of_mem_drop (h.drop ▸ ht))

/-- A token of an operator expression is of none of the other kinds. -/
theorem At.kind_ne (h : At s (t :: us)) (hk : k ∉ alphabet) : t.kind ≠ k :=
  fun he => hk (he ▸ h.mem (mem_cons_self ..))

theorem At.cur (h : At s (t :: us)) : cur s = .ok (t, s) := cur_eq h.tok

theorem At.test (h : At s (t :: us)) (p : Token → Bool) :
    (do let t ← Par.cur; pure (p t) : P Bool) s = .ok (p t, s) := by
  show (Par.cur s).bind _ = _
  rw [h.cur]
  rfl

theorem At.atKind (h : At s (t :: us)) : atKind k s = .ok (t.kind == k, s) := h.test _

theorem At.next (h : At s (t :: u :: us)) : next s = .ok (t, Par.fwd s 1) := by
  have hin := h.fwd_one.good.inRange
  rw [next_eq h.tok, advance, if_pos (by simp [Par.fwd] at hin; omega)]
  rfl

theorem At.peekOne (h : At s (t :: u :: us)) : peekKind 1 s = .ok (u.kind, s) := by
  have hin := h.fwd_one.good.inRange
  have hu : s.ts[s.i + 1]? = some u := h.fwd_one.tok
  simp only [Par.fwd] at hin
  show ((tokenAt s _).bind _).bind _ = _
  rw [if_neg (by omega), tokenAt, hu]
  rfl

theorem At.expect (h : At s (t :: u :: us)) (hk : t.kind = k) :
    expect k s = .ok (t, Par.fwd s 1) := by
  show (Par.atKind k s).bind _ = _
  rw [h.atKind, hk, beq_self_eq_true]
  exact h.next

theorem At.accept (h : At s (t :: us)) (hk : t.kind ≠ k) : accept k s = .ok (false, s) := by
  show (Par.atKind k s).bind _ = _
  rw [h.atKind, beq_false_of_ne hk]
  rfl

end

section

variable {α β : Type} {s : Parser} {t u : Token} {us : List Token} {k : Kind} {g : Kind → P β}
  {Q : β → Parser → Prop}

theorem Gives.peekKind {n : Nat} (h : Good s) (hg : ∀ k, Gives (g k) s Q) :
    Gives (Par.peekKind n >>= g) s Q := by
  obtain ⟨k, _, hrun, rfl⟩ := peekKind_ends (n := n) h
  exact .step hrun (hg k)

/-- Inside brackets. -/
theorem Gives.bracketed {m : P β} (h : Gives m { s with lev := s.lev + 1 }
    fun a s' => Q a { s' with lev := s'.lev - 1 }) : Gives (Par.bracketed m) s Q := by
  refine .step (a := s) rfl (.step (a := ()) rfl (h.bind fun a s' hq => ?_))
  exact .step (a := ()) rfl (.pure hq)

theorem At.bracketed (h : At s us) : At { s with lev := s.lev + 1 } us :=
  ⟨⟨h.good.inRange, h.good.last⟩, h.sym, h.noSelf, h.drop⟩

end

/-! ### Ends of loops -/

section

variable {c : Calls} {s : Parser} {t : Token} {us : List Token} {X : Node} {min : Nat}

/-- Of the tokens of operator expressions only a parenthesis goes on with a primary. -/
theorem postfixTurn_stop (h : At s (t :: us)) (ht : t.kind ≠ .LPAREN) :
    Gives (postfixTurn c X) s fun r s' => r = .stop X ∧ s' = s := by
  refine .step h.cur (.step (a := s) rfl ?_)
  refine .ite (fun hk => absurd hk ht) fun _ => ?_
  iterate 4 refine .ite (fun hk => absurd hk (h.kind_ne (by decide))) fun _ => ?_
  exact .ite (fun hk => absurd hk (h.kind_ne (by decide))) fun _ => .pure ⟨rfl, rfl⟩

theorem tailOf_of_kind {k : Kind} {r : Row} {b : Bool} (hk : t.kind = k)
    (h : tailKind k = .oper r b) : tailOf t = .oper r b := by
  have hne : k ≠ .IDENT := fun he => by
    rw [he] at h
    cases h
  subst hk
  simp [tailOf, isBy, hne, h]

/-- An operator that binds more loosely than asked for ends an operand. -/
theorem binaryTurn_stop (h : At s (t :: us)) (ht : Yields min t) :
    Gives (binaryTurn c min X) s fun r s' => r = .stop X ∧ s' = s := by
  refine .step h.cur (.ite (fun hk => ?_) fun _ => .ite (fun hk => ?_) fun _ => ?_)
  · have hlt : 45 < min := by
      rcases hk.1 with hk' | hk'
      · exact ht _ _ (tailOf_of_kind hk' rfl)
      · exact ht _ _ (tailOf_of_kind hk' rfl)
    exact absurd hk.2 (Nat.not_le_of_lt hlt)
  · have hlt : 10 < min := ht _ _ (tailOf_of_kind hk.1 rfl)
    exact absurd hk.2 (Nat.not_le_of_lt hlt)
  · refine .ite (fun _ => .pure ⟨rfl, rfl⟩) fun hprec => absurd ?_ hprec
    by_cases hop : ∃ r b, tailKind t.kind = .oper r b
    · obtain ⟨r, b, hop⟩ := hop
      have hlt := ht r b (tailOf_of_kind rfl hop)
      rcases tailKind_oper hop with ⟨_, hk, _⟩ | ⟨_, hk, _⟩ | ⟨_, _, _, hp, _⟩
      · left
        rcases hk with hk | hk <;> rw [hk] <;> rfl
      · left
        rw [hk]
        rfl
      · right
        rw [hp]
        exact hlt
    · left
      exact binPrec_eq_zero fun r b he => hop ⟨r, b, he⟩

end

/-! ### Expressions -/

theorem lead_of_prefixOp {k : Kind} (h : prefixOps.contains k = true) :
    leadKind k ≠ .atom ∧ leadKind k ≠ .opn := by
  revert h
  cases k <;> decide

/-- The run has taken the expression and built its node. -/
def Done (x : Cst Token) (s : Parser) (a : Node) (s' : Parser) : Prop :=
  a = x.node ∧ s' = fwd s x.toks.length

/-- How the parser reads the expression at each level: as the left operand that its loops
go on with. -/
structure Parses (x : Cst Token) : Prop where
  post : x.Wf ops false 110 → ∀ {n : Nat} {s : Parser} {t : Token} {us : List Token}
    {Q : Node → Parser → Prop}, At s (x.toks ++ t :: us) →
    (∀ w, x.name = some w → ops.word w = true → t.kind ≠ .LPAREN) →
    (∀ k, Gives (turns .stuck (postfixTurn (calls n)) k x.node) (fwd s x.toks.length) Q) →
    Gives (primary (calls n) >>= postfixExpr (calls n)) s Q
  unary : x.Wf ops false 100 → ∀ {n : Nat} {s : Parser} {t : Token} {us : List Token},
    At s (x.toks ++ t :: us) → t.kind ≠ .LPAREN → Gives (unary (calls n)) s (Done x s)
  binary : ∀ {l : Nat}, x.Wf ops false l → ∀ {n min : Nat} {s : Parser} {t : Token}
    {us : List Token} {Q : Node → Parser → Prop}, min ≤ l → At s (x.toks ++ t :: us) →
    Follows l t →
    (∀ k, Gives (turns .stuck (binaryTurn (calls n) min) k x.node) (fwd s x.toks.length) Q) →
    Gives (binary (calls n) min) s Q

section

variable {n : Nat} {s : Parser} {t : Token} {us : List Token} {x : Cst Token}

/-- An operand is read up to a token that binds more loosely than it has to. -/
theorem Parses.operand {m : Nat} (h : Parses x) (hx : x.Wf ops false m)
    (hat : At s (x.toks ++ t :: us)) (hf : Follows m t) (hr : Yields m t) :
    Gives ((calls n).binary m) s (Done x s) := by
  cases n with
  | zero => exact .throw
  | succ n =>
    refine h.binary hx (Nat.le_refl m) hat hf (.turns_step ?_)
    refine (binaryTurn_stop hat.fwd hr).mono fun r s' hr => ?_
    rw [hr.1, hr.2]
    exact ⟨nofun, fun z hz => by cases hz; exact ⟨rfl, rfl⟩⟩

/-- A whole expression. -/
theorem Parses.expr (h : Parses x) (hx : x.Wf ops false 10) (hat : At s (x.toks ++ t :: us))
    (hk : t.kind ≠ .LPAREN) (hr : reach t = 0) : Gives (calls n).expr s (Done x s) := by
  have hop := h.operand (n := n) hx hat (follows_of_reach hk hr 10) (yields_of_reach (by omega))
  cases n with
  | zero => exact .throw
  | succ n => exact hop

/-- What is read as a primary with its tails is read as an operand of any operator. -/
theorem Parses.of_post (hlevel : ∀ {l}, x.Wf ops false l → x.Wf ops false 110)
    (post : x.Wf ops false 110 → ∀ {n : Nat} {s : Parser} {t : Token} {us : List Token}
      {Q : Node → Parser → Prop}, At s (x.toks ++ t :: us) →
      (∀ w, x.name = some w → ops.word w = true → t.kind ≠ .LPAREN) →
      (∀ k, Gives (turns .stuck (postfixTurn (calls n)) k x.node) (fwd s x.toks.length) Q) →
      Gives (primary (calls n) >>= postfixExpr (calls n)) s Q) : Parses x := by
  have hunary : ∀ {l}, x.Wf ops false l → ∀ {n : Nat} {s : Parser} {t : Token} {us : List Token},
      At s (x.toks ++ t :: us) → t.kind ≠ .LPAREN → Gives (Par.unary (calls n)) s (Done x s) := by
    intro l hx n s t us hat hk
    have hx := hlevel hx
    obtain ⟨u, ts, htoks, hu⟩ := hx.head
    have hat' : At s (u :: (ts ++ t :: us)) := by simpa [htoks] using hat
    have hne : ¬prefixOps.contains u.kind = true := fun hc => by
      rcases hu with hu | hu | ⟨_, hu⟩
      · exact absurd hu (lead_of_prefixOp hc).1
      · exact absurd hu (lead_of_prefixOp hc).2
      · exact absurd hu (by decide)
    refine .step hat'.cur (.ite (fun hc => absurd hc hne) fun _ => ?_)
    refine post hx hat (fun _ _ _ => hk) (.turns_step ?_)
    refine (postfixTurn_stop hat.fwd hk).mono fun r s' hr => ?_
    rw [hr.1, hr.2]
    exact ⟨nofun, fun z hz => by cases hz; exact ⟨rfl, rfl⟩⟩
  refine ⟨post, hunary, fun {l} hx {n min s t us Q} _ hat hf hk => ?_⟩
  refine (hunary hx hat hf.1).bind fun a s' hr => ?_
  rw [hr.1, hr.2]
  exact hk _

/-! ### Primaries -/

theorem atom_kinds {k : Kind} (h : leadKind k = .atom) : k ∈ atoms := by
  revert h
  cases k <;> decide

/-- An atom that is no literal is a name. -/
theorem literal_none (hk : t.kind ∈ atoms) (h : literal t = none) : t.kind = .IDENT := by
  unfold literal at h
  generalize t.kind = k at h hk
  revert h hk
  cases k <;> simp [atoms]

/-- Of the literals only `shared` and `weak` are names in the tree. -/
theorem literal_ne_name {a : Node} (h : literal t = some a) (hk : t.kind ∈ atoms) :
    a.kind ≠ some .IDENT := by
  unfold literal at h
  generalize t.kind = k at h hk
  intro he
  cases k <;> cases h <;> first | exact absurd hk (by decide) | cases he

variable {u : Token}

theorem identExpr_gives {c : Calls} (hat : At s (t :: u :: us)) (ht : t.kind = .IDENT)
    (hw : ops.word t = true → u.kind ≠ .LPAREN) :
    Gives (identExpr c t) s fun a s' => a = add .IDENT t 0 0 t.lit [] ∧ s' = fwd s 1 := by
  have hu : u.kind ∈ alphabet := hat.mem (mem_cons_of_mem _ (mem_cons_self ..))
  refine .step hat.peekOne (.ite (fun hc => ?_) fun _ => ?_)
  · rcases hc.2 with hk | hk
    · exact absurd hk (hw (by simp [ops, ht, hc.1]))
    · rw [hk] at hu
      exact absurd hu (by decide)
  · refine Gives.bind (R := fun r s' => r = none ∧ s' = s) (.ite (fun hc => ?_) fun _ => .pure ⟨rfl, rfl⟩) ?_
    · rw [hc.2] at hu
      exact absurd hu (by decide)
    · rintro _ s₁ ⟨rfl, rfl⟩
      refine .step hat.next (.step (a := fwd s₁ 1) rfl (.ite (fun hc => absurd ?_ hc.2) fun _ => ?_))
      · exact hat.fwd_one.noSelf
      · exact .pure ⟨rfl, rfl⟩

theorem primary_atom {c : Calls} (hat : At s (t :: u :: us)) (ht : leadKind t.kind = .atom)
    (hw : ops.word t = true → u.kind ≠ .LPAREN) :
    Gives (primary c) s fun a s' => a = atomNode t ∧ s' = fwd s 1 := by
  have hk := atom_kinds ht
  refine .step hat.cur (Gives.peekKind hat.good fun _ => Gives.peekKind hat.good fun _ => ?_)
  cases hlit : literal t with
  | some a =>
    refine .step hat.next (.pure ⟨?_, rfl⟩)
    simp [atomNode, hlit]
  | none =>
    have hid := literal_none hk hlit
    have hne {k : Kind} (h : k ≠ .IDENT) : t.kind ≠ k := fun he => h (he ▸ hid)
    iterate 5 refine .ite (fun hc => absurd hc (hne (by decide))) fun _ => ?_
    refine .ite (fun _ => ?_) fun hc => absurd hid hc
    simpa [atomNode, hlit] using identExpr_gives hat hid hw

theorem lead_opn {k : Kind} (h : leadKind k = .opn) : k = .LPAREN := by
  revert h
  cases k <;> decide

theorem lead_close {k : Kind} (h : leadKind k = .close) : k = .RPAREN := by
  revert h
  cases k <;> decide

theorem tail_opn (h : tailOf t = .opn) : t.kind = .LPAREN := by
  unfold tailOf at h
  split at h
  · cases h
  · revert h
    cases t.kind <;> intro h <;> first | rfl | cases h

theorem tail_close (h : tailOf t = .close) : t.kind = .RPAREN := by
  unfold tailOf at h
  split at h
  · cases h
  · revert h
    cases t.kind <;> intro h <;> first | rfl | cases h

theorem reach_rparen (h : t.kind = .RPAREN) : reach t = 0 := by
  simp [reach, tailOf, isBy, h, tailKind]

theorem primary_paren {c : Calls} {Q : Node → Parser → Prop} (hat : At s (t :: u :: us))
    (ht : t.kind = .LPAREN) (h : Gives (parenExpr c t) (fwd s 1) Q) : Gives (primary c) s Q := by
  refine .step hat.cur (Gives.peekKind hat.good fun _ => Gives.peekKind hat.good fun _ => ?_)
  have hlit : literal t = none := by simp [literal, ht]
  have hne {k : Kind} (h : k ≠ .LPAREN) : t.kind ≠ k := fun he => h (he ▸ ht)
  rw [hlit]
  iterate 6 refine .ite (fun hc => absurd hc (hne (by decide))) fun _ => ?_
  exact .ite (fun _ => .step hat.next h) fun hc => absurd ht hc

variable {v : Token}

theorem parenExpr_unit {c : Calls} (hat : At s (u :: v :: us)) (hu : u.kind = .RPAREN) :
    Gives (parenExpr c t) s fun a s' => a = add .TUPLE t 0 0 [] [] ∧ s' = fwd s 1 := by
  refine Gives.bind (R := fun r s' => r = (some [], Node.none) ∧ s' = s)
    (Gives.bracketed (.step hat.bracketed.atKind (.ite (fun _ => .pure ⟨rfl, rfl⟩) fun hc => ?_))) ?_
  · simp [hu] at hc
  · rintro _ s₁ ⟨rfl, rfl⟩
    exact .step (hat.expect hu) (.pure ⟨rfl, rfl⟩)

variable {l : Nat} {w : Token} {inc : Int}

/-- No expression starts where one may end. -/
theorem Wf_head_ne (h : x.Wf ops false l) :
    ∃ u ts, x.toks = u :: ts ∧ u.kind ∉ [.RPAREN, .EOF] := by
  obtain ⟨u, ts, htoks, hu⟩ := h.head
  refine ⟨u, ts, htoks, fun hk => ?_⟩
  have hlead : leadKind u.kind = .close ∨ leadKind u.kind = .other := by
    rcases mem_cons.mp hk with hk | hk
    · exact Or.inl (hk ▸ rfl)
    · exact Or.inr (mem_singleton.mp hk ▸ rfl)
  rcases hlead with hlead | hlead <;> rcases hu with hu | hu | ⟨hu, _⟩ <;>
    cases hlead.symm.trans hu

theorem parenExpr_gives (h : Parses x) (hx : x.Wf ops false 10)
    (hat : At s (x.toks ++ u :: v :: us)) (hu : u.kind = .RPAREN) :
    Gives (parenExpr (calls n) t) s fun a s' => a = x.node ∧ s' = fwd s (x.toks.length + 1) := by
  obtain ⟨w, ts, htoks, hw⟩ := Wf_head_ne hx
  have hat' := hat.bracketed
  have hfirst : At { s with lev := s.lev + 1 } (w :: (ts ++ u :: v :: us)) := by
    simpa [htoks] using hat'
  have hbody : Gives (bracketed (parenBody (calls n))) s fun r s' =>
      r = (none, x.node) ∧ s' = fwd s x.toks.length := by
    refine Gives.bracketed (.step hfirst.atKind (.ite (fun hc => ?_) fun _ => ?_))
    · exact absurd (mem_cons.mpr (Or.inl (by simpa using hc))) hw
    · refine (h.expr hx hat' (by simp [hu]) (reach_rparen hu)).bind ?_
      rintro _ _ ⟨rfl, rfl⟩
      refine .step hat'.fwd.atKind (.ite (fun hc => ?_) fun _ => .pure ⟨rfl, rfl⟩)
      simp [hu] at hc
  refine hbody.bind ?_
  rintro _ _ ⟨rfl, rfl⟩
  refine .step (hat.fwd.expect hu) (.pure ⟨rfl, ?_⟩)
  simp

/-! ### Applications -/

/-- What is not called `make` in the tokens is not called so in the tree. -/
theorem callee_ne_make (h : ∀ w, x.name = some w → ops.word w = false)
    (hx : x.Wf ops false l) : ¬(x.node.kind = some .IDENT ∧ x.node.sval = "make".toList) := by
  induction x generalizing l with
  | atom w =>
    rintro ⟨hk, hv⟩
    cases hlit : literal w with
    | some a =>
      simp only [Cst.node, atomNode, hlit, Option.getD_some] at hk
      exact literal_ne_name hlit (atom_kinds hx) hk
    | none =>
      have hid := literal_none (atom_kinds hx) hlit
      have := h w rfl
      simp only [Cst.node, atomNode, hlit, Option.getD_none, add, Node.sval] at hv
      simp [ops, hid, hv] at this
  | unit | call0 | call => exact fun hc => by cases hc.1
  | paren o x c ih => exact ih h hx.2.1
  | unary op x =>
    intro hc
    have := hc.1
    simp only [Cst.node, prefixNode] at this
    split at this <;> cases this
  | binary op x y =>
    intro hc
    have := hc.1
    simp only [Cst.node, binaryNode] at this
    split at this
    · cases this
    · split at this <;> cases this
  | ternary => exact fun hc => by cases hc.1

theorem postfixTurn_call {c : Calls} {X : Node} {Q : Turn Node Node → Parser → Prop}
    (hat : At s (t :: us)) (ht : t.kind = .LPAREN)
    (h : Gives (callTail c X) s fun a s' => Q (.again a) s') : Gives (postfixTurn c X) s Q :=
  .step hat.cur (.step (a := s) rfl (.ite (fun _ => h.bind fun _ _ hq => .pure hq)
    fun hc => absurd ht hc))

/-- The parser inside a bracket. -/
def inner (s : Parser) : Parser := { s with lev := s.lev + 1 }

theorem callTail_gives {c : Calls} {X : Node} {args : List Node} {k : Nat}
    {us' : List Token} (hat : At s (t :: u :: us)) (ht : t.kind = .LPAREN)
    (hX : ¬(X.kind = some .IDENT ∧ X.sval = "make".toList))
    (hargs : Gives (commaList .RPAREN (callArg c)) (inner (fwd s 1))
      fun r s' => r = args ∧ s' = inner (fwd s k))
    (hat' : At (fwd s k) (v :: w :: us')) (hv : v.kind = .RPAREN) :
    Gives (callTail c X) s fun a s' =>
      a = add .CALL t 0 0 [] [X, list args, list []] ∧ s' = fwd s (k + 1) := by
  refine .step (hat.expect ht) ?_
  refine Gives.bind (R := fun r s' => r = ([], args) ∧ s' = fwd s k) ?_ ?_
  · refine Gives.bracketed (.step hat.fwd_one.bracketed.atKind ?_)
    refine Gives.bind (R := fun r s' => r = [] ∧ s' = inner (fwd s 1))
      (.ite (fun hc => absurd ⟨hc.1, hc.2.1⟩ hX) fun _ => .pure ⟨rfl, rfl⟩) ?_
    rintro _ _ ⟨rfl, rfl⟩
    refine hargs.bind ?_
    rintro _ _ ⟨rfl, rfl⟩
    exact .pure ⟨rfl, rfl⟩
  · rintro _ _ ⟨rfl, rfl⟩
    exact .step (hat'.expect hv) (.pure ⟨rfl, by simp⟩)

theorem noArgs_gives {c : Calls} (hat : At s (u :: us)) (hu : u.kind = .RPAREN) :
    Gives (commaList .RPAREN (callArg c)) s fun r s' => r = [] ∧ s' = s := by
  refine .turns_step ?_ _
  refine .step (hat.test _) (.ite (fun _ => .pure ⟨nofun, fun z hz => ?_⟩) fun hc => ?_)
  · cases hz
    exact ⟨rfl, rfl⟩
  · simp [hu] at hc

/-- One argument: the alphabet has no colon, no comma and no spread. -/
theorem oneArg_gives (h : Parses x) (hx : x.Wf ops false 10)
    (hat : At s (x.toks ++ u :: us)) (hu : u.kind = .RPAREN) {ts : List Token}
    (hw : x.toks = w :: ts) :
    Gives (commaList .RPAREN (callArg (calls n))) s fun r s' =>
      r = [add .ARG w 0 0 [] [x.node]] ∧ s' = fwd s x.toks.length := by
  have hfirst : At s (w :: (ts ++ u :: us)) := by simpa [hw] using hat
  have hne : ¬[Kind.RPAREN, .EOF].contains w.kind = true := by
    obtain ⟨w', ts', htoks, hw'⟩ := Wf_head_ne hx
    cases hw.symm.trans htoks
    simpa using hw'
  refine .turns_step ?_ _
  refine .step (hfirst.test _) (.ite (fun hc => absurd hc hne) fun _ => ?_)
  have harg : Gives (callArg (calls n)) s fun a s' =>
      a = add .ARG w 0 0 [] [x.node] ∧ s' = fwd s x.toks.length := by
    refine .step hfirst.cur ?_
    obtain ⟨w', ts', hnext⟩ : ∃ w' ts', ts ++ u :: us = w' :: ts' := by
      cases ts with
      | nil => exact ⟨_, _, rfl⟩
      | cons => exact ⟨_, _, rfl⟩
    rw [hnext] at hfirst
    refine .step hfirst.peekOne (.ite (fun hc => ?_) fun _ => ?_)
    · have := hfirst.mem (mem_cons_of_mem _ (mem_cons_self ..))
      rw [hc.2] at this
      exact absurd this (by decide)
    · refine (h.expr hx hat (by simp [hu]) (reach_rparen hu)).bind ?_
      rintro _ _ ⟨rfl, rfl⟩
      exact .step (hat.fwd.accept (hat.fwd.kind_ne (by decide))) (.pure ⟨rfl, rfl⟩)
  refine harg.bind ?_
  rintro _ _ ⟨rfl, rfl⟩
  refine .step (hat.fwd.accept (hat.fwd.kind_ne (by decide))) (.pure ⟨nofun, fun z hz => ?_⟩)
  cases hz
  exact ⟨rfl, rfl⟩

/-! ### Every expression -/

theorem parses_atom (w : Token) : Parses (.atom w) :=
  .of_post (fun h => h) fun hx {_ _ _ _ _} hat hword hk =>
    (primary_atom hat hx fun h => hword w rfl h).bind fun a s' hr => by
      rw [hr.1, hr.2]
      exact hk _

theorem parses_unit (o c : Token) : Parses (.unit o c) :=
  .of_post (fun h => h) fun hx {_ s _ _ _} hat _ hk => by
    have hunit := parenExpr_unit (c := calls ‹_›) (t := o) hat.fwd_one (lead_close hx.2)
    refine (primary_paren hat (lead_opn hx.1) hunit).bind fun a s' hr => ?_
    rw [hr.1, hr.2, fwd_fwd]
    exact hk _

theorem parses_paren (o c : Token) (h : Parses x) : Parses (.paren o x c) :=
  .of_post (fun h => h) fun hx {n s t us _} hat _ hk => by
    have hat' : At s (o :: (x.toks ++ c :: t :: us)) := by simpa [Cst.toks] using hat
    obtain ⟨w, ts, htoks, _⟩ := hx.2.1.head
    have hat₁ : At (fwd s 1) (x.toks ++ c :: t :: us) := by
      rw [htoks] at hat' ⊢
      exact hat'.fwd_one
    have hparen := parenExpr_gives (n := n) (t := o) h hx.2.1 hat₁ (tail_close hx.2.2)
    rw [htoks] at hat'
    refine (primary_paren hat' (lead_opn hx.1) hparen).bind fun a s' hr => ?_
    rw [hr.1, hr.2, fwd_fwd]
    have hlen : 1 + (x.toks.length + 1) = (Cst.paren o x c).toks.length := by
      simp [Cst.toks, Nat.add_comm]
    rw [hlen]
    exact hk _

theorem parses_call0 (o c : Token) (h : Parses x) : Parses (.call0 x o c) :=
  .of_post (fun h => ⟨Nat.le_refl _, h.2⟩) fun hx {n s t us _} hat _ hk => by
    have hat' : At s (x.toks ++ o :: c :: t :: us) := by simpa [Cst.toks] using hat
    refine h.post hx.2.2.1 hat' (fun w hw hword => ?_) (.turns_step ?_)
    · rw [hx.2.1 w hw] at hword
      cases hword
    · have hcall := callTail_gives (X := x.node) hat'.fwd (tail_opn hx.2.2.2.1)
        (callee_ne_make hx.2.1 hx.2.2.1)
        (noArgs_gives (c := calls n) hat'.fwd.fwd_one.bracketed (lead_close hx.2.2.2.2))
        hat'.fwd.fwd_one (lead_close hx.2.2.2.2)
      refine (postfixTurn_call hat'.fwd (tail_opn hx.2.2.2.1) (hcall.mono fun a s' hr => ?_))
      rw [hr.1, hr.2, fwd_fwd]
      have hlen : x.toks.length + (1 + 1) = (Cst.call0 x o c).toks.length := by simp [Cst.toks]
      rw [hlen]
      refine ⟨fun y hy => ?_, (by simp)⟩
      cases hy
      exact hk

theorem parses_call (o c : Token) {f : Cst Token} (hf : Parses f) (h : Parses x) :
    Parses (.call f o x c) :=
  .of_post (fun h => ⟨Nat.le_refl _, h.2⟩) fun hx {n s t us _} hat _ hk => by
    obtain ⟨_, hword, hwf, ho, hwx, hc⟩ := hx
    have hat' : At s (f.toks ++ o :: (x.toks ++ c :: t :: us)) := by simpa [Cst.toks] using hat
    obtain ⟨w, ts, htoks, _⟩ := hwx.head
    have hat₁ : At (fwd s f.toks.length) (o :: w :: (ts ++ c :: t :: us)) := by
      have := hat'.fwd
      rwa [htoks] at this
    have hat₂ : At (fwd (fwd s f.toks.length) 1) (x.toks ++ c :: t :: us) := by
      have := hat₁.fwd_one
      rwa [htoks]
    refine hf.post hwf hat' (fun w hw hword' => ?_) (.turns_step ?_)
    · rw [hword w hw] at hword'
      cases hword'
    · have harg := oneArg_gives (n := n) h hwx hat₂.bracketed (tail_close hc) htoks
      have hcall := callTail_gives (X := f.node) (k := 1 + x.toks.length) hat₁ (tail_opn ho)
        (callee_ne_make hword hwf) (harg.mono fun a s' hr => ⟨hr.1, by rw [hr.2, ← fwd_fwd]; rfl⟩)
        (by rw [← fwd_fwd]; exact hat₂.fwd) (tail_close hc)
      refine (postfixTurn_call hat₁ (tail_opn ho) (hcall.mono fun a s' hr => ?_))
      rw [hr.1, hr.2, fwd_fwd]
      have hlen : f.toks.length + (1 + x.toks.length + 1) = (Cst.call f o x c).toks.length := by
        simp only [Cst.toks, length_append, length_cons, length_nil]
        omega
      have hnode : add .CALL o 0 0 [] [f.node, list [add .ARG w 0 0 [] [x.node]], list []] =
          (Cst.call f o x c).node := by simp [Cst.node, htoks]
      rw [hlen, hnode]
      refine ⟨fun y hy => ?_, (by simp)⟩
      cases hy
      exact hk

theorem unary_lead {k : Kind} (h : leadKind k = .unary) : prefixOps.contains k = true := by
  revert h
  cases k <;> decide

theorem parses_unary (op : Token) (h : Parses x) : Parses (.unary op x) := by
  have hunary : ∀ {l}, (Cst.unary op x).Wf ops false l → ∀ {n : Nat} {s : Parser} {t : Token}
      {us : List Token}, At s ((Cst.unary op x).toks ++ t :: us) → t.kind ≠ .LPAREN →
      Gives (Par.unary (calls n)) s (Done (.unary op x) s) := by
    intro l ⟨_, hop, hx⟩ n s t us hat hk
    obtain ⟨w, ts, htoks, _⟩ := hx.head
    have hat₁ : At s (op :: w :: (ts ++ t :: us)) := by simpa [Cst.toks, htoks] using hat
    have hat₂ : At (fwd s 1) (x.toks ++ t :: us) := by
      rw [htoks]
      exact hat₁.fwd_one
    refine .step hat₁.cur (.ite (fun _ => .step hat₁.next ?_) fun hc => absurd (unary_lead hop) hc)
    cases n with
    | zero => exact .throw
    | succ n =>
      refine (h.unary hx hat₂ hk).bind fun a s' hr => .pure ⟨by rw [hr.1]; rfl, ?_⟩
      rw [hr.2, fwd_fwd, Nat.add_comm]
      rfl
  refine ⟨fun hx => absurd hx.1 (by decide), hunary, fun {l} hx {n min s t us Q} _ hat hf hk => ?_⟩
  refine (hunary hx hat hf.1).bind fun a s' hr => ?_
  rw [hr.1, hr.2]
  exact hk _

/-! ### Infix operators -/

variable {op : Token} {y z : Cst Token} {X : Node} {min : Nat} {r : Row}

/-- The upper bound of a range, which has one: the alphabet has no bracket. -/
theorem upperBound_gives {close : Bool} (hy : Parses y) (hwf : y.Wf ops false 46)
    (hat : At s (y.toks ++ t :: us)) (hf : Follows 46 t) (hr : Yields 46 t)
    (hclose : close = false) {lev : Nat} :
    Gives (either (lev > 0 ∧ close = true) (openBound inc) ((calls n).binary (pRange + 1))) s
      (Done y s) :=
  .ite (fun hc => by simp [hclose] at hc) fun _ => hy.operand hwf hat hf hr

theorem at_not_rbracket (hwf : y.Wf ops false 46) (hat : At s (y.toks ++ t :: us)) :
    atKind .RBRACKET s = .ok (false, s) := by
  obtain ⟨w, ts, htoks, _⟩ := hwf.head
  have hat₁ : At s (w :: (ts ++ t :: us)) := by simpa [htoks] using hat
  rw [hat₁.atKind, beq_false_of_ne (hat₁.kind_ne (by decide))]

theorem rangeRest_gives (hy : Parses y) (hwf : y.Wf ops false 46)
    (hat : At s (y.toks ++ t :: us)) (hf : Follows 46 t) (hr : Yields 46 t) (hby : isBy t = false) :
    Gives (rangeRest (calls n) inc) s fun a s' =>
      a = (y.node, .none) ∧ s' = fwd s y.toks.length := by
  refine .step (a := s) rfl (.step (at_not_rbracket hwf hat) ?_)
  refine (upperBound_gives hy hwf hat hf hr rfl).bind fun a s' hd => ?_
  obtain ⟨rfl, rfl⟩ := hd
  refine .step (hat.fwd.test _) (.ite (fun hc => ?_) fun _ => .pure ⟨rfl, rfl⟩)
  exact absurd hc (by simpa [isBy] using hby)

variable {m : Token}

theorem rangeRest_step (hy : Parses y) (hz : Parses z)
    (hwf : y.Wf ops false 46) (hwf' : z.Wf ops false 46) (hm : tailOf m = .mark ⟨45, .none⟩)
    (hat : At s (y.toks ++ m :: (z.toks ++ t :: us))) (hf : Follows 46 t) (hr : Yields 46 t) :
    Gives (rangeRest (calls n) inc) s fun a s' =>
      a = (y.node, z.node) ∧ s' = fwd s (y.toks.length + (1 + z.toks.length)) := by
  have hby := (tailOf_mark hm).1
  have hyield : Yields 46 m := fun r b h => by
    rw [hm] at h
    cases h
  obtain ⟨w, ts, htoks, _⟩ := hwf'.head
  have hat₁ : At (fwd s y.toks.length) (m :: w :: (ts ++ t :: us)) := by
    have := hat.fwd
    rwa [htoks] at this
  have hat₂ : At (fwd (fwd s y.toks.length) 1) (z.toks ++ t :: us) := by
    have := hat₁.fwd_one
    rwa [htoks]
  refine .step (a := s) rfl (.step (at_not_rbracket hwf hat) ?_)
  refine (upperBound_gives hy hwf hat (follows_by hm) hyield rfl).bind fun a s' hd => ?_
  obtain ⟨rfl, rfl⟩ := hd
  refine .step (hat₁.test _) (.ite (fun _ => .step hat₁.next ?_) fun hc => ?_)
  · refine (hz.operand hwf' hat₂ hf hr).bind fun a s' hd => .pure ?_
    rw [hd.1, hd.2, fwd_fwd, fwd_fwd]
    exact ⟨rfl, rfl⟩
  · exact absurd (by simpa [isBy] using hby) hc

/-- What stands on the right of `else` is an operand: the alphabet has no statement and no
brace. -/
theorem elseRest_gives (hy : Parses y) (hwf : y.Wf ops false 10) (hat : At s (y.toks ++ t :: us))
    (hf : Follows 10 t) (hr : Yields 10 t) :
    Gives (elseRest (calls n)) s fun a s' => a = (y.node, 0) ∧ s' = fwd s y.toks.length := by
  obtain ⟨w, ts, htoks, _⟩ := hwf.head
  have hat₁ : At s (w :: (ts ++ t :: us)) := by simpa [htoks] using hat
  refine .step hat₁.cur (.step (a := s) rfl (.ite (fun hc => ?_) fun _ => .ite (fun hc => ?_)
    fun _ => ?_))
  · have hmem := hat₁.mem (mem_cons_self ..)
    have hnone : ∀ k ∈ alphabet, [Kind.RETURN, .THROW, .BREAK, .CONTINUE].contains k = false := by
      decide
    rw [hnone _ hmem] at hc
    cases hc
  · exact absurd hc.1 (hat₁.kind_ne (by decide))
  · refine (hy.operand hwf hat hf hr).bind fun a s' hd => .pure ?_
    rw [hd.1, hd.2]
    exact ⟨rfl, rfl⟩

/-- One turn of `binary` takes an infix operator and its right operand. -/
theorem binaryTurn_gives {b : Bool} (hop : tailOf op = .oper r b) (hmin : min ≤ r.level)
    (hy : Parses y) (hwf : y.Wf ops false r.rightLevel) (hat : At s (op :: (y.toks ++ t :: us)))
    (hf : Follows r.level t) :
    Gives (binaryTurn (calls n) min X) s fun a s' =>
      a = .again (binaryNode op X y.node) ∧ s' = fwd s (1 + y.toks.length) := by
  obtain ⟨w, ts, htoks, hw⟩ := hwf.head
  have hat₁ : At s (op :: w :: (ts ++ t :: us)) := by simpa [htoks] using hat
  have hat₂ : At (fwd s 1) (y.toks ++ t :: us) := by
    rw [htoks]
    exact hat₁.fwd_one
  have hmem := tailKind_mem (tailOf_oper hop)
  have hreach : reach t < r.rightLevel := hf.2 r hmem (Nat.le_refl _)
  have hf' : Follows r.rightLevel t := hf.mono (Cst.level_le_rightLevel r)
  have hyield : Yields r.rightLevel t := yields_of_reach hreach
  refine .step hat.cur ?_
  rcases tailKind_oper (tailOf_oper hop) with ⟨_, hk, rfl⟩ | ⟨_, hk, rfl⟩ | ⟨_, hk, hk', hp, hp0, hr⟩
  · have hby : isBy t = false := by
      by_contra hby
      rw [Bool.not_eq_false] at hby
      have : reach t = 46 := by simp [reach, tailOf, hby, Row.rightLevel]
      rw [this] at hreach
      exact absurd hreach (by decide)
    refine .ite (fun _ => .step hat₁.next ?_) fun hc => absurd ⟨hk, hmin⟩ hc
    refine (rangeRest_gives hy hwf hat₂ hf' hyield hby).bind fun a s' hd => .pure ?_
    rw [hd.1, hd.2, fwd_fwd]
    exact ⟨by simp [binaryNode, hk], rfl⟩
  · refine .ite (fun hc => ?_) fun _ => .ite (fun _ => .step hat₁.next ?_) fun hc => absurd ⟨hk, hmin⟩ hc
    · simp [hk] at hc
    · refine (elseRest_gives hy hwf hat₂ hf' hyield).bind fun a s' hd => .pure ?_
      rw [hd.1, hd.2, fwd_fwd]
      exact ⟨by simp [binaryNode, hk], rfl⟩
  · refine .ite (fun hc => absurd hc.1 hk) fun _ => .ite (fun hc => absurd hc.1 hk') fun _ => ?_
    refine .ite (fun hc => ?_) fun _ => .step hat₁.next ?_
    · rcases hc with hc | hc
      · exact absurd hc hp0
      · rw [hp] at hc
        exact absurd hmin (Nat.not_le_of_lt hc)
    · rw [← hr]
      refine (hy.operand hwf hat₂ hf' hyield).bind fun a s' hd => .pure ?_
      rw [hd.1, hd.2, fwd_fwd]
      exact ⟨by simp [binaryNode, hk, hk'], rfl⟩

/-- One turn of `binary` takes a range with its bound and step. -/
theorem binaryTurn_step (hop : tailOf op = .oper r true) (hm : tailOf m = .mark r)
    (hmin : min ≤ r.level) (hy : Parses y) (hz : Parses z) (hwf : y.Wf ops false r.rightLevel)
    (hwf' : z.Wf ops false r.rightLevel)
    (hat : At s (op :: (y.toks ++ m :: (z.toks ++ t :: us)))) (hf : Follows r.level t) :
    Gives (binaryTurn (calls n) min X) s fun a s' =>
      a = .again (steppedNode op X y.node z.node) ∧
        s' = fwd s (1 + (y.toks.length + (1 + z.toks.length))) := by
  obtain ⟨w, ts, htoks, hw⟩ := hwf.head
  have hat₁ : At s (op :: w :: (ts ++ m :: (z.toks ++ t :: us))) := by simpa [htoks] using hat
  have hat₂ : At (fwd s 1) (y.toks ++ m :: (z.toks ++ t :: us)) := by
    rw [htoks]
    exact hat₁.fwd_one
  have hyield : Yields r.rightLevel t :=
    yields_of_reach (hf.2 r (tailKind_mem (tailOf_oper hop)) (Nat.le_refl _))
  have hf' : Follows r.rightLevel t := hf.mono (Cst.level_le_rightLevel r)
  obtain ⟨_, rfl⟩ := tailOf_mark hm
  have hk : op.kind = .RANGE ∨ op.kind = .RANGEEQ := by
    rcases tailKind_oper (tailOf_oper hop) with ⟨_, hk, _⟩ | ⟨hb, _⟩ | ⟨hb, _⟩
    · exact hk
    · cases hb
    · cases hb
  refine .step hat.cur (.ite (fun _ => .step hat₁.next ?_) fun hc => absurd ⟨hk, hmin⟩ hc)
  refine (rangeRest_step hy hz hwf hwf' hm hat₂ hf' hyield).bind fun a s' hd => .pure ?_
  rw [hd.1, hd.2, fwd_fwd]
  exact ⟨rfl, rfl⟩

theorem parses_binary (op : Token) (h : Parses x) (hy : Parses y) : Parses (.binary op x y) := by
  have hlevel {l : Nat} (hx : (Cst.binary op x y).Wf ops false l) : l < 100 := by
    obtain ⟨r, b, hop, hl, _⟩ := hx
    exact lt_of_le_of_lt hl (ops.oper_level hop).2
  refine ⟨fun hx => absurd (hlevel hx) (by decide), fun hx => absurd (hlevel hx) (by decide),
    fun {l} hx {n min s t us Q} hmin hat hf hk => ?_⟩
  obtain ⟨r, b, hop, hl, hwx, hwy⟩ := hx
  have hat' : At s (x.toks ++ op :: (y.toks ++ t :: us)) := by simpa [Cst.toks] using hat
  have hle : min ≤ r.level := hmin.trans hl
  refine h.binary hwx (hle.trans (Cst.level_le_leftLevel r false)) hat' (follows_oper hop)
    (.turns_step ?_)
  refine (binaryTurn_gives hop hle hy hwy hat'.fwd (hf.mono hl)).mono fun a s' hd => ?_
  have hlen : x.toks.length + (1 + y.toks.length) = (Cst.binary op x y).toks.length := by
    simp only [Cst.toks, length_append, length_cons]
    omega
  rw [hd.1, hd.2, fwd_fwd, hlen]
  refine ⟨fun w hw => ?_, (by simp)⟩
  cases hw
  exact hk

theorem parses_ternary (op m : Token) (h : Parses x) (hy : Parses y) (hz : Parses z) :
    Parses (.ternary op m x y z) := by
  have hlevel {l : Nat} (hx : (Cst.ternary op m x y z).Wf ops false l) : l < 100 := by
    obtain ⟨r, hop, _, hl, _⟩ := hx
    exact lt_of_le_of_lt hl (ops.oper_level hop).2
  refine ⟨fun hx => absurd (hlevel hx) (by decide), fun hx => absurd (hlevel hx) (by decide),
    fun {l} hx {n min s t us Q} hmin hat hf hk => ?_⟩
  obtain ⟨r, hop, hm, hl, hwx, hwy, hwz⟩ := hx
  have hat' : At s (x.toks ++ op :: (y.toks ++ m :: (z.toks ++ t :: us))) := by
    simpa [Cst.toks] using hat
  have hle : min ≤ r.level := hmin.trans hl
  refine h.binary hwx (hle.trans (Cst.level_le_leftLevel r false)) hat' (follows_oper hop)
    (.turns_step ?_)
  refine (binaryTurn_step hop hm hle hy hz hwy hwz hat'.fwd (hf.mono hl)).mono fun a s' hd => ?_
  have hlen : x.toks.length + (1 + (y.toks.length + (1 + z.toks.length))) =
      (Cst.ternary op m x y z).toks.length := by
    simp only [Cst.toks, length_append, length_cons]
    omega
  rw [hd.1, hd.2, fwd_fwd, hlen]
  refine ⟨fun w hw => ?_, (by simp)⟩
  cases hw
  exact hk

/-- Every expression the table derives loosely is read as the table derives it. -/
theorem parses (x : Cst Token) : Parses x := by
  induction x with
  | atom t => exact parses_atom t
  | unit o c => exact parses_unit o c
  | paren o x c ih => exact parses_paren o c ih
  | call0 f o c ih => exact parses_call0 o c ih
  | call f o x c ihf ihx => exact parses_call o c ihf ihx
  | unary op x ih => exact parses_unary op ih
  | binary op x y ihx ihy => exact parses_binary op ihx ihy
  | ternary op m x y z ihx ihy ihz => exact parses_ternary op m ihx ihy ihz

/-- `fragment` on the tokens of an expression: they are taken, nothing is reported. -/
theorem fragment_gives (hx : x.Wf ops false 10) (hat : At s (x.toks ++ [t])) (ht : t.kind = .EOF) :
    Gives (fragment (calls n)) s (Done x s) := by
  have hreach : reach t = 0 := by simp [reach, tailOf, isBy, ht, tailKind, rowOf, rows]
  refine ((parses x).expr hx hat (by simp [ht]) hreach).bind fun a s' hd => ?_
  obtain ⟨rfl, rfl⟩ := hd
  refine .step (hat.fwd.test _) (.ite (fun _ => .pure ⟨rfl, rfl⟩) fun hc => ?_)
  simp [ht] at hc

end

end Voila.Par
