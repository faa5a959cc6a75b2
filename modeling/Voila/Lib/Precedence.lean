import Mathlib

/-!
# Voila.Lib.Precedence

Expressions over operators with levels of precedence.

A `Table` says what each token is where an operand is due and what it is after one, and
gives every infix operator its row: a level and an associativity. `Cst.Wf` says which
concrete expressions, with the parentheses they are written with, the table derives at a
level. A row without associativity takes operands from looser to tighter only; read
loosely (`Wf false`) it is left-associative. The tokens alone tell the two readings apart
(`chained`, `Cst.strict_iff`). A tree is printed with the fewest parentheses the table
asks for (`OpTree.print`, `OpTree.print_shortest`).
-/

open List

namespace Voila.Lib

inductive Assoc
  | left | right | none
  deriving Repr, DecidableEq

/-- A row of a precedence table: the higher the level, the tighter it binds. -/
structure Row where
  level : Nat
  assoc : Assoc
  deriving Repr, DecidableEq

/-- The level of a left operand. A row without associativity is `strict` about it, or is
read as left-associative. -/
def Row.leftLevel (strict : Bool) (r : Row) : Nat :=
  match r.assoc with
  | .left => r.level
  | .right => r.level + 1
  | .none => if strict then r.level + 1 else r.level

/-- The level of a right operand. -/
def Row.rightLevel (r : Row) : Nat :=
  match r.assoc with
  | .right => r.level
  | _ => r.level + 1

/-- The level of a row without associativity. -/
def Row.alone (r : Row) : List Nat := if r.assoc = .none then [r.level] else []

/-- What a token is where an operand is due. -/
inductive Lead
  | atom | unary | opn | close | other
  deriving Repr, DecidableEq

/-- What a token is after an operand. -/
inductive Tail
  /-- An infix operator, which may take a third operand after a mark. -/
  | oper (r : Row) (third : Bool)
  | mark (r : Row)
  | opn | close | other
  deriving Repr, DecidableEq

/-- The operators of a language. -/
structure Table (τ : Type) where
  lead : τ → Lead
  tail : τ → Tail
  /-- An atom that is no function where it stands before a parenthesis. -/
  word : τ → Bool
  /-- The level of a whole expression. -/
  low : Nat
  /-- The level of the unary operators. -/
  unary : Nat
  /-- The level of an application. -/
  app : Nat
  unary_le : unary ≤ app
  oper_level : ∀ {t r b}, tail t = .oper r b → low ≤ r.level ∧ r.level < unary
  level_inj : ∀ {t t' r r' b b'}, tail t = .oper r b → tail t' = .oper r' b' →
    r.level = r'.level → r = r'

/-- A concrete expression, with its parentheses. -/
inductive Cst (τ : Type)
  | atom (t : τ)
  | unit (o c : τ)
  | paren (o : τ) (x : Cst τ) (c : τ)
  | call0 (f : Cst τ) (o c : τ)
  | call (f : Cst τ) (o : τ) (x : Cst τ) (c : τ)
  | unary (op : τ) (x : Cst τ)
  | binary (op : τ) (x y : Cst τ)
  | ternary (op mark : τ) (x y z : Cst τ)

variable {τ : Type}

namespace Cst

/-- The tokens of an expression. -/
def toks : Cst τ → List τ
  | atom t => [t]
  | unit o c => [o, c]
  | paren o x c => o :: (x.toks ++ [c])
  | call0 f o c => f.toks ++ [o, c]
  | call f o x c => f.toks ++ o :: (x.toks ++ [c])
  | unary op x => op :: x.toks
  | binary op x y => x.toks ++ op :: y.toks
  | ternary op mark x y z => x.toks ++ op :: (y.toks ++ mark :: z.toks)

/-- The atom an expression is, parentheses apart. -/
def name : Cst τ → Option τ
  | atom t => some t
  | paren _ x _ => x.name
  | _ => none

/-- The table derives the expression at level `l`. -/
def Wf (T : Table τ) (strict : Bool) : Nat → Cst τ → Prop
  | _, atom t => T.lead t = .atom
  | _, unit o c => T.lead o = .opn ∧ T.lead c = .close
  | _, paren o x c => T.lead o = .opn ∧ Wf T strict T.low x ∧ T.tail c = .close
  | l, call0 f o c => l ≤ T.app ∧ (∀ t, f.name = some t → T.word t = false) ∧
      Wf T strict T.app f ∧ T.tail o = .opn ∧ T.lead c = .close
  | l, call f o x c => l ≤ T.app ∧ (∀ t, f.name = some t → T.word t = false) ∧
      Wf T strict T.app f ∧ T.tail o = .opn ∧ Wf T strict T.low x ∧ T.tail c = .close
  | l, unary op x => l ≤ T.unary ∧ T.lead op = .unary ∧ Wf T strict T.unary x
  | l, binary op x y => ∃ r b, T.tail op = .oper r b ∧ l ≤ r.level ∧
      Wf T strict (r.leftLevel strict) x ∧ Wf T strict r.rightLevel y
  | l, ternary op mark x y z => ∃ r, T.tail op = .oper r true ∧ T.tail mark = .mark r ∧
      l ≤ r.level ∧ Wf T strict (r.leftLevel strict) x ∧ Wf T strict r.rightLevel y ∧
      Wf T strict r.rightLevel z

variable {strict : Bool} {x : Cst τ} {t : τ}

theorem Wf.mono {T : Table τ} {l l' : Nat} (h : x.Wf T strict l')
    (hl : l ≤ l') : x.Wf T strict l := by
  cases x with
  | atom | unit | paren => exact h
  | call0 | call | unary => exact ⟨hl.trans h.1, h.2⟩
  | binary =>
    obtain ⟨r, b, ht, hr, h⟩ := h
    exact ⟨r, b, ht, hl.trans hr, h⟩
  | ternary =>
    obtain ⟨r, ht, hm, hr, h⟩ := h
    exact ⟨r, ht, hm, hl.trans hr, h⟩

theorem leftLevel_false_le (r : Row) : r.leftLevel false ≤ r.leftLevel true := by
  cases h : r.assoc <;> simp [Row.leftLevel, h]

theorem level_le_leftLevel (r : Row) (strict : Bool) : r.level ≤ r.leftLevel strict := by
  cases h : r.assoc <;> cases strict <;> simp [Row.leftLevel, h]

theorem level_le_rightLevel (r : Row) : r.level ≤ r.rightLevel := by
  cases h : r.assoc <;> simp [Row.rightLevel, h]

/-- What the table derives it derives loosely. -/
theorem Wf.loose {T : Table τ} : ∀ {l : Nat}, x.Wf T true l → x.Wf T false l := by
  induction x with
  | atom | unit => exact fun h => h
  | paren o x c ih => exact fun h => ⟨h.1, ih h.2.1, h.2.2⟩
  | call0 f o c ih => exact fun h => ⟨h.1, h.2.1, ih h.2.2.1, h.2.2.2⟩
  | call f o x c ihf ihx =>
    intro l h
    exact ⟨h.1, h.2.1, ihf h.2.2.1, h.2.2.2.1, ihx h.2.2.2.2.1, h.2.2.2.2.2⟩
  | unary op x ih => exact fun h => ⟨h.1, h.2.1, ih h.2.2⟩
  | binary op x y ihx ihy =>
    intro l ⟨r, b, ht, hl, hx, hy⟩
    exact ⟨r, b, ht, hl, (ihx hx).mono (leftLevel_false_le r), ihy hy⟩
  | ternary op mark x y z ihx ihy ihz =>
    intro l ⟨r, ht, hm, hl, hx, hy, hz⟩
    exact ⟨r, ht, hm, hl, (ihx hx).mono (leftLevel_false_le r), ihy hy, ihz hz⟩

/-- The table has a use for the token. -/
def known (T : Table τ) (t : τ) : Prop := T.lead t ≠ .other ∨ T.tail t ≠ .other

theorem known_lead {T : Table τ} {r : Lead} (h : T.lead t = r)
    (hr : r ≠ .other := by decide) : known T t :=
  Or.inl fun he => hr (h.symm.trans he)

theorem known_tail {T : Table τ} {r : Tail} (h : T.tail t = r) (hr : r ≠ .other) : known T t :=
  Or.inr fun he => hr (h.symm.trans he)

/-- The table has a use for every token of an expression. -/
theorem Wf.known {T : Table τ} {strict : Bool} {x : Cst τ} : ∀ {l : Nat}, x.Wf T strict l →
    ∀ t ∈ x.toks, known T t := by
  induction x with
  | atom t =>
    intro l h u hu
    rw [mem_singleton.mp hu]
    exact known_lead h
  | unit o c =>
    intro l ⟨ho, hc⟩
    simp only [toks, forall_mem_cons]
    exact ⟨known_lead ho, known_lead hc, by simp⟩
  | paren o x c ih =>
    intro l ⟨ho, hx, hc⟩
    simp only [toks, forall_mem_cons, forall_mem_append]
    exact ⟨known_lead ho, ih hx, known_tail hc (by decide), by simp⟩
  | call0 f o c ih =>
    intro l ⟨_, _, hf, ho, hc⟩
    simp only [toks, forall_mem_cons, forall_mem_append]
    exact ⟨ih hf, known_tail ho (by decide), known_lead hc, by simp⟩
  | call f o x c ihf ihx =>
    intro l ⟨_, _, hf, ho, hx, hc⟩
    simp only [toks, forall_mem_cons, forall_mem_append]
    exact ⟨ihf hf, known_tail ho (by decide), ihx hx, known_tail hc (by decide), by simp⟩
  | unary op x ih =>
    intro l ⟨_, hop, hx⟩
    simp only [toks, forall_mem_cons]
    exact ⟨known_lead hop, ih hx⟩
  | binary op x y ihx ihy =>
    intro l ⟨r, b, hop, _, hx, hy⟩
    simp only [toks, forall_mem_cons, forall_mem_append]
    exact ⟨ihx hx, known_tail hop nofun, ihy hy⟩
  | ternary op mark x y z ihx ihy ihz =>
    intro l ⟨r, hop, hm, _, hx, hy, hz⟩
    simp only [toks, forall_mem_cons, forall_mem_append]
    exact ⟨ihx hx, known_tail hop nofun, ihy hy, known_tail hm nofun, ihz hz⟩

/-- An expression starts with an atom, a parenthesis or, where one is allowed, a unary
operator. -/
theorem Wf.head {T : Table τ} : ∀ {l : Nat}, x.Wf T strict l →
    ∃ t ts, x.toks = t :: ts ∧
      (T.lead t = .atom ∨ T.lead t = .opn ∨ (T.lead t = .unary ∧ l ≤ T.unary)) := by
  induction x with
  | atom t => exact fun h => ⟨t, [], rfl, Or.inl h⟩
  | unit o c => exact fun h => ⟨o, [c], rfl, Or.inr (Or.inl h.1)⟩
  | paren o x c => exact fun h => ⟨o, _, rfl, Or.inr (Or.inl h.1)⟩
  | call0 f o c ih =>
    intro l ⟨hl, _, hf, _⟩
    obtain ⟨t, ts, htoks, ht⟩ := ih hf
    exact ⟨t, ts ++ [o, c], by simp [toks, htoks],
      ht.imp_right fun ht => ht.imp_right fun ht => ⟨ht.1, hl.trans ht.2⟩⟩
  | call f o x c ih =>
    intro l ⟨hl, _, hf, _⟩
    obtain ⟨t, ts, htoks, ht⟩ := ih hf
    exact ⟨t, ts ++ o :: (x.toks ++ [c]), by simp [toks, htoks],
      ht.imp_right fun ht => ht.imp_right fun ht => ⟨ht.1, hl.trans ht.2⟩⟩
  | unary op x => exact fun h => ⟨op, x.toks, rfl, Or.inr (Or.inr ⟨h.2.1, h.1⟩)⟩
  | binary op x y ih =>
    intro l ⟨r, b, hop, hl, hx, _⟩
    obtain ⟨t, ts, htoks, ht⟩ := ih hx
    exact ⟨t, ts ++ op :: y.toks, by simp [toks, htoks],
      ht.imp_right fun ht => ht.imp_right fun ht =>
        ⟨ht.1, hl.trans (Nat.le_of_lt (T.oper_level hop).2)⟩⟩
  | ternary op mark x y z ih =>
    intro l ⟨r, hop, _, hl, hx, _⟩
    obtain ⟨t, ts, htoks, ht⟩ := ih hx
    exact ⟨t, ts ++ op :: (y.toks ++ mark :: z.toks), by simp [toks, htoks],
      ht.imp_right fun ht => ht.imp_right fun ht =>
        ⟨ht.1, hl.trans (Nat.le_of_lt (T.oper_level hop).2)⟩⟩

/-! ### Chains -/

/-- The levels without associativity that an operator on the right of the expression
would meet. -/
def opens (T : Table τ) : Cst τ → List Nat
  | binary op _ y => row T op ++ y.opens T
  | ternary op _ _ _ z => row T op ++ z.opens T
  | _ => []
where
  row (T : Table τ) (op : τ) : List Nat :=
    match T.tail op with
    | .oper r _ => r.alone
    | _ => []

/-- An operator of the row meets one of its own level. -/
def clash (r : Row) (act : List Nat) : Bool := r.alone.any act.contains

/-- Somewhere in the expression an operator without associativity has one of its own row
for its left operand. -/
def chain (T : Table τ) : Cst τ → Bool
  | atom _ => false
  | unit _ _ => false
  | paren _ x _ => x.chain T
  | call0 f _ _ => f.chain T
  | call f _ x _ => f.chain T || x.chain T
  | unary _ x => x.chain T
  | binary op x y => x.chain T || meets T op x || y.chain T
  | ternary op _ x y z => x.chain T || meets T op x || y.chain T || z.chain T
where
  meets (T : Table τ) (op : τ) (x : Cst τ) : Bool :=
    match T.tail op with
    | .oper r _ => clash r (x.opens T)
    | _ => false

end Cst

/-- What is known after some of the tokens of an expression: whether operators have
chained, whether an operand is complete, the levels without associativity whose operators
are open here, and those open outside each parenthesis. -/
structure Scan where
  bad : Bool
  after : Bool
  act : List Nat
  outer : List (List Nat)

def Scan.step (T : Table τ) (s : Scan) (t : τ) : Scan :=
  if s.after then
    match T.tail t with
    | .oper r _ =>
      ⟨s.bad || Cst.clash r s.act, false, s.act.filter (· < r.level) ++ r.alone, s.outer⟩
    | .mark r => ⟨s.bad, false, s.act.filter (· < r.rightLevel), s.outer⟩
    | .opn => ⟨s.bad, false, [], s.act :: s.outer⟩
    | .close => ⟨s.bad, true, s.outer.headD [], s.outer.tail⟩
    | .other => s
  else
    match T.lead t with
    | .atom => ⟨s.bad, true, s.act, s.outer⟩
    | .opn => ⟨s.bad, false, [], s.act :: s.outer⟩
    | .close => ⟨s.bad, true, s.outer.headD [], s.outer.tail⟩
    | .unary | .other => s

/-- The reading of some tokens. -/
def Scan.run (T : Table τ) (s : Scan) (ts : List τ) : Scan := ts.foldl (Scan.step T) s

/-- Two operators of one row without associativity stand at one depth of parentheses with
no looser operator between them. -/
def chained (T : Table τ) (ts : List τ) : Bool := (Scan.run T ⟨false, false, [], []⟩ ts).bad

@[simp] theorem Scan.run_nil (T : Table τ) (s : Scan) : s.run T [] = s := rfl

@[simp] theorem Scan.run_cons (T : Table τ) (s : Scan) (t : τ) (ts : List τ) :
    s.run T (t :: ts) = (s.step T t).run T ts := rfl

@[simp] theorem Scan.run_append (T : Table τ) (s : Scan) (ts us : List τ) :
    s.run T (ts ++ us) = (s.run T ts).run T us := foldl_append ..

namespace Cst

section

variable {T : Table τ}

variable {r : Row} {act : List Nat} {x : Cst τ} {l : Nat} {op : τ} {b : Bool}

theorem mem_alone {a : Nat} : a ∈ r.alone ↔ r.assoc = .none ∧ a = r.level := by
  unfold Row.alone
  split <;> simp_all

theorem alone_lt_rightLevel : ∀ a ∈ r.alone, a < r.rightLevel := by
  intro a ha
  obtain ⟨hr, rfl⟩ := mem_alone.mp ha
  simp [Row.rightLevel, hr]

theorem clash_iff : clash r act = true ↔ r.assoc = .none ∧ r.level ∈ act := by
  simp only [clash, any_eq_true, mem_alone, contains_iff_mem]
  constructor
  · rintro ⟨a, ⟨hr, rfl⟩, ha⟩
    exact ⟨hr, ha⟩
  · exact fun ⟨hr, ha⟩ => ⟨_, ⟨hr, rfl⟩, ha⟩

/-- The operators an expression leaves open are at its level or tighter. -/
theorem opens_level : ∀ {l : Nat}, x.Wf T false l → ∀ a ∈ x.opens T,
    l ≤ a ∧ a < T.unary := by
  induction x with
  | atom | unit | paren | call0 | call | unary => simp [opens]
  | binary op x y _ ihy =>
    intro l ⟨r, b, ht, hl, _, hy⟩ a ha
    simp only [opens, opens.row, ht, mem_append, mem_alone] at ha
    rcases ha with ⟨-, rfl⟩ | ha
    · exact ⟨hl, (T.oper_level ht).2⟩
    · exact ⟨(hl.trans (level_le_rightLevel r)).trans (ihy hy a ha).1, (ihy hy a ha).2⟩
  | ternary op mark x y z _ _ ihz =>
    intro l ⟨r, ht, _, hl, _, _, hz⟩ a ha
    simp only [opens, opens.row, ht, mem_append, mem_alone] at ha
    rcases ha with ⟨-, rfl⟩ | ha
    · exact ⟨hl, (T.oper_level ht).2⟩
    · exact ⟨(hl.trans (level_le_rightLevel r)).trans (ihz hz a ha).1, (ihz hz a ha).2⟩

/-- Nothing is open after an operand that binds tighter than every infix operator. -/
theorem opens_eq_nil (h : x.Wf T false l) (hl : T.unary ≤ l) : x.opens T = [] := by
  refine eq_nil_iff_forall_not_mem.mpr fun a ha => ?_
  have := opens_level h a ha
  omega

theorem filter_lt_append {act rest : List Nat} (hact : ∀ a ∈ act, a < l)
    (hrest : ∀ a ∈ rest, l ≤ a) : (act ++ rest).filter (· < l) = act := by
  rw [filter_append, filter_eq_self.mpr (by simpa using hact),
    filter_eq_nil_iff.mpr (by simpa using hrest), List.append_nil]

/-- An operator clashes with what its left operand leaves open, never with what is open
outside. -/
theorem clash_append {act rest : List Nat} (hact : ∀ a ∈ act, a < r.level) :
    clash r (act ++ rest) = clash r rest := by
  rw [Bool.eq_iff_iff, clash_iff, clash_iff, mem_append]
  constructor
  · rintro ⟨hr, ha | ha⟩
    · exact absurd (hact _ ha) (Nat.lt_irrefl _)
    · exact ⟨hr, ha⟩
  · exact fun ⟨hr, ha⟩ => ⟨hr, Or.inr ha⟩

/-- The state after the left operand and its operator. -/
theorem step_oper {b bad : Bool}
    {outer : List (List Nat)} (ht : T.tail op = .oper r b) (hl : l ≤ r.level)
    (hx : x.Wf T false (r.leftLevel false)) (hact : ∀ a ∈ act, a < l) :
    Scan.step T ⟨bad, true, act ++ x.opens T, outer⟩ op =
      ⟨bad || clash r (x.opens T), false, act ++ r.alone, outer⟩ := by
  have hact' : ∀ a ∈ act, a < r.level := fun a ha => lt_of_lt_of_le (hact a ha) hl
  have hopen : ∀ a ∈ x.opens T, r.level ≤ a := fun a ha =>
    (level_le_leftLevel r false).trans (opens_level hx a ha).1
  simp only [Scan.step, ht, if_true, clash_append hact', filter_lt_append hact' hopen]

theorem act_lt_rightLevel (hl : l ≤ r.level)
    (hact : ∀ a ∈ act, a < l) : ∀ a ∈ act ++ r.alone, a < r.rightLevel := by
  intro a ha
  rcases mem_append.mp ha with ha | ha
  · exact lt_of_lt_of_le (hact a ha) (hl.trans (level_le_rightLevel r))
  · exact alone_lt_rightLevel a ha

/-- The reading of an expression's tokens finds exactly its chains. -/
theorem run_toks {x : Cst τ} : ∀ {l : Nat} {bad : Bool} {act : List Nat} {outer : List (List Nat)},
    x.Wf T false l → (∀ a ∈ act, a < l) →
    Scan.run T ⟨bad, false, act, outer⟩ x.toks = ⟨bad || x.chain T, true, act ++ x.opens T, outer⟩ := by
  induction x with
  | atom t =>
    intro l bad act outer h _
    simp [toks, chain, opens, Scan.step, show T.lead t = .atom from h]
  | unit o c =>
    intro l bad act outer h _
    simp [toks, chain, opens, Scan.step, h.1, h.2]
  | paren o x c ih =>
    intro l bad act outer ⟨ho, hx, hc⟩ _
    have hx' := @ih _ bad [] (act :: outer) hx (by simp)
    simp [toks, chain, opens, Scan.step, ho, hx', hc]
  | call0 f o c ih =>
    intro l bad act outer ⟨hl, _, hf, ho, hc⟩ hact
    have hf' := opens_eq_nil hf T.unary_le
    simp [toks, chain, opens, Scan.step, ho, hc, hf',
      ih hf fun a ha => lt_of_lt_of_le (hact a ha) hl]
  | call f o x c ihf ihx =>
    intro l bad act outer ⟨hl, _, hf, ho, hx, hc⟩ hact
    have hf' := opens_eq_nil hf T.unary_le
    have hx' := @ihx _ (bad || f.chain T) [] (act :: outer) hx (by simp)
    simp [toks, chain, opens, Scan.step, ho, hc, hf', hx', Bool.or_assoc,
      ihf hf fun a ha => lt_of_lt_of_le (hact a ha) hl]
  | unary op x ih =>
    intro l bad act outer ⟨hl, hop, hx⟩ hact
    have hx' := opens_eq_nil hx (Nat.le_refl _)
    simp [toks, chain, opens, Scan.step, hop, hx',
      ih hx fun a ha => lt_of_lt_of_le (hact a ha) hl]
  | binary op x y ihx ihy =>
    intro l bad act outer ⟨r, b, ht, hl, hx, hy⟩ hact
    have hact' : ∀ a ∈ act, a < r.leftLevel false := fun a ha =>
      lt_of_lt_of_le (hact a ha) (hl.trans (level_le_leftLevel r false))
    simp only [toks, Scan.run_append, Scan.run_cons, ihx hx hact', step_oper ht hl hx hact,
      ihy hy (act_lt_rightLevel hl hact), chain, chain.meets, opens, opens.row, ht, Bool.or_assoc,
      append_assoc]
  | ternary op mark x y z ihx ihy ihz =>
    intro l bad act outer ⟨r, ht, hm, hl, hx, hy, hz⟩ hact
    have hact' : ∀ a ∈ act, a < r.leftLevel false := fun a ha =>
      lt_of_lt_of_le (hact a ha) (hl.trans (level_le_leftLevel r false))
    have hact'' := act_lt_rightLevel hl hact
    have hmark (bad' : Bool) :
        Scan.step T ⟨bad', true, act ++ r.alone ++ y.opens T, outer⟩ mark =
          ⟨bad', false, act ++ r.alone, outer⟩ := by
      simp only [Scan.step, hm, if_true,
        filter_lt_append hact'' fun a ha => (opens_level hy a ha).1]
    simp only [toks, Scan.run_append, Scan.run_cons, ihx hx hact', step_oper ht hl hx hact,
      ihy hy hact'', hmark, ihz hz hact'']
    simp only [chain, chain.meets, opens, opens.row, ht, Bool.or_assoc, append_assoc]

/-- An expression of a row's level is of the next one unless it leaves the level open. -/
theorem wf_succ_iff {t : τ} (ht : T.tail t = .oper r b)
    (hr : r.assoc = .none) (h : x.Wf T false r.level) :
    x.Wf T false (r.level + 1) ↔ r.level ∉ x.opens T := by
  refine ⟨fun h' hmem => ?_, fun hmem => ?_⟩
  · have := (opens_level h' _ hmem).1
    omega
  · have hlt := (T.oper_level ht).2
    have hle := T.unary_le
    -- an operator at the level itself is one of the row, and would be open
    have hne {op : τ} {r' : Row} {b' : Bool} (ht' : T.tail op = .oper r' b') (hle : r.level ≤ r'.level)
        (hop : r.level ∉ r'.alone) : r.level + 1 ≤ r'.level := by
      rcases Nat.lt_or_eq_of_le hle with hlt | heq
      · exact hlt
      · obtain rfl := T.level_inj ht ht' heq
        exact absurd (mem_alone.mpr ⟨hr, rfl⟩) hop
    cases x with
    | atom | unit | paren => exact h
    | call0 | call => exact ⟨by omega, h.2⟩
    | unary => exact ⟨by omega, h.2⟩
    | binary op x y =>
      obtain ⟨r', b', ht', hl, h⟩ := h
      simp only [opens, opens.row, ht', mem_append, not_or] at hmem
      exact ⟨r', b', ht', hne ht' hl hmem.1, h⟩
    | ternary op mark x y z =>
      obtain ⟨r', ht', hm, hl, h⟩ := h
      simp only [opens, opens.row, ht', mem_append, not_or] at hmem
      exact ⟨r', ht', hm, hne ht' hl hmem.1, h⟩

/-- A left operand is strict unless it chains, or is open at the operator's own level. -/
theorem strict_left_iff (ht : T.tail op = .oper r b) (hx : x.Wf T false (r.leftLevel false))
    (ih : ∀ {l : Nat}, x.Wf T false l → (x.Wf T true l ↔ x.chain T = false)) :
    x.Wf T true (r.leftLevel true) ↔ x.chain T = false ∧ clash r (x.opens T) = false := by
  cases hr : r.assoc with
  | none =>
    have hx' : x.Wf T false r.level := by simpa [Row.leftLevel, hr] using hx
    have hclash : clash r (x.opens T) = false ↔ r.level ∉ x.opens T := by
      rw [← Bool.not_eq_true, clash_iff]
      simp [hr]
    have hlevel : r.leftLevel true = r.level + 1 := by simp [Row.leftLevel, hr]
    rw [hclash, ← wf_succ_iff ht hr hx', hlevel]
    exact ⟨fun h => ⟨(ih h.loose).mp h, h.loose⟩, fun ⟨h, h'⟩ => (ih h').mpr h⟩
  | left | right =>
    have hclash : clash r (x.opens T) = false := by
      rw [← Bool.not_eq_true, clash_iff]
      simp [hr]
    have hlevel : r.leftLevel true = r.leftLevel false := by simp [Row.leftLevel, hr]
    rw [hlevel, ih hx]
    exact ⟨fun h => ⟨h, hclash⟩, fun h => h.1⟩

/-- What the table derives loosely it derives if there is no chain. -/
theorem strict_iff : ∀ {l : Nat}, x.Wf T false l →
    (x.Wf T true l ↔ x.chain T = false) := by
  induction x with
  | atom | unit => exact fun h => iff_of_true h rfl
  | paren o x c ih =>
    intro l h
    simp only [Wf, chain, ← ih h.2.1]
    exact ⟨fun h' => h'.2.1, fun h' => ⟨h.1, h', h.2.2⟩⟩
  | call0 f o c ih =>
    intro l h
    simp only [Wf, chain, ← ih h.2.2.1]
    exact ⟨fun h' => h'.2.2.1, fun h' => ⟨h.1, h.2.1, h', h.2.2.2⟩⟩
  | call f o x c ihf ihx =>
    intro l h
    simp only [Wf, chain, Bool.or_eq_false_iff, ← ihf h.2.2.1, ← ihx h.2.2.2.2.1]
    exact ⟨fun h' => ⟨h'.2.2.1, h'.2.2.2.2.1⟩,
      fun h' => ⟨h.1, h.2.1, h'.1, h.2.2.2.1, h'.2, h.2.2.2.2.2⟩⟩
  | unary op x ih =>
    intro l h
    simp only [Wf, chain, ← ih h.2.2]
    exact ⟨fun h' => h'.2.2, fun h' => ⟨h.1, h.2.1, h'⟩⟩
  | binary op x y ihx ihy =>
    intro l ⟨r, b, ht, hl, hx, hy⟩
    simp only [chain, chain.meets, ht, Bool.or_eq_false_iff]
    rw [← strict_left_iff ht hx ihx, ← ihy hy]
    refine ⟨fun ⟨r', b', ht', _, hx', hy'⟩ => ?_, fun h => ⟨r, b, ht, hl, h⟩⟩
    cases ht.symm.trans ht'
    exact ⟨hx', hy'⟩
  | ternary op mark x y z ihx ihy ihz =>
    intro l ⟨r, ht, hm, hl, hx, hy, hz⟩
    simp only [chain, chain.meets, ht, Bool.or_eq_false_iff]
    rw [← strict_left_iff ht hx ihx, ← ihy hy, ← ihz hz, and_assoc]
    refine ⟨fun ⟨r', ht', _, _, hx', hy', hz'⟩ => ?_, fun h => ⟨r, ht, hm, hl, h⟩⟩
    cases ht.symm.trans ht'
    exact ⟨hx', hy', hz'⟩

/-- A chain is seen in the tokens alone. -/
theorem chained_toks (h : x.Wf T false l) : chained T x.toks = x.chain T := by
  have hrun := @run_toks τ T x l false [] [] h (by simp)
  simp [chained, hrun]

end

end Cst

/-! ### Printing -/

/-- An expression without its parentheses. -/
inductive OpTree (τ : Type)
  | atom (t : τ)
  | unary (op : τ) (x : OpTree τ)
  | binary (op : τ) (x y : OpTree τ)
  | ternary (op mark : τ) (x y z : OpTree τ)

/-- The expression is a way to write the tree. -/
inductive Shows : Cst τ → OpTree τ → Prop
  | atom (t : τ) : Shows (.atom t) (.atom t)
  | paren (o c : τ) {x : Cst τ} {e : OpTree τ} (h : Shows x e) : Shows (.paren o x c) e
  | unary (op : τ) {x : Cst τ} {e : OpTree τ} (h : Shows x e) : Shows (.unary op x) (.unary op e)
  | binary (op : τ) {x y : Cst τ} {d e : OpTree τ} (hx : Shows x d) (hy : Shows y e) :
      Shows (.binary op x y) (.binary op d e)
  | ternary (op mark : τ) {x y z : Cst τ} {d e f : OpTree τ} (hx : Shows x d) (hy : Shows y e)
      (hz : Shows z f) : Shows (.ternary op mark x y z) (.ternary op mark d e f)

namespace OpTree

/-- The atoms and operators of the tree are the table's. -/
def Ok (T : Table τ) : OpTree τ → Prop
  | atom t => T.lead t = .atom
  | unary op x => T.lead op = .unary ∧ x.Ok T
  | binary op x y => (∃ r b, T.tail op = .oper r b) ∧ x.Ok T ∧ y.Ok T
  | ternary op mark x y z => (∃ r, T.tail op = .oper r true ∧ T.tail mark = .mark r) ∧
      x.Ok T ∧ y.Ok T ∧ z.Ok T

/-- The row of an infix operator. -/
def row (T : Table τ) (op : τ) : Row :=
  match T.tail op with
  | .oper r _ => r
  | _ => ⟨T.low, .left⟩

/-- Parentheses about an expression of level `m`, where one of level `l` is due. -/
def wrap (o c : τ) (l m : Nat) (x : Cst τ) : Cst τ := if l ≤ m then x else .paren o x c

/-- The tree written at level `l` with the parentheses the table asks for. -/
def print (T : Table τ) (o c : τ) : Nat → OpTree τ → Cst τ
  | _, atom t => .atom t
  | l, unary op x => wrap o c l T.unary (.unary op (x.print T o c T.unary))
  | l, binary op x y =>
    let r := row T op
    wrap o c l r.level
      (.binary op (x.print T o c (r.leftLevel true)) (y.print T o c r.rightLevel))
  | l, ternary op mark x y z =>
    let r := row T op
    wrap o c l r.level (.ternary op mark (x.print T o c (r.leftLevel true))
      (y.print T o c r.rightLevel) (z.print T o c r.rightLevel))

variable {T : Table τ} {o c : τ}

variable {e : OpTree τ} {x : Cst τ}

theorem shows_wrap {l m : Nat} (h : Shows x e) : Shows (wrap o c l m x) e := by
  unfold wrap
  split
  · exact h
  · exact .paren o c h

theorem print_shows (e : OpTree τ) : ∀ l, Shows (e.print T o c l) e := by
  induction e with
  | atom t => exact fun _ => .atom t
  | unary op x ih => exact fun _ => shows_wrap (.unary op (ih _))
  | binary op x y ihx ihy => exact fun _ => shows_wrap (.binary op (ihx _) (ihy _))
  | ternary op mark x y z ihx ihy ihz =>
    exact fun _ => shows_wrap (.ternary op mark (ihx _) (ihy _) (ihz _))

theorem wf_wrap {l m : Nat} (ho : T.lead o = .opn) (hc : T.tail c = .close)
    (hlow : T.low ≤ m) (h : x.Wf T true m) : (wrap o c l m x).Wf T true l := by
  unfold wrap
  split
  · next hl => exact h.mono hl
  · exact ⟨ho, h.mono hlow, hc⟩

theorem row_eq {op : τ} {r : Row} {b : Bool} (h : T.tail op = .oper r b) : row T op = r := by
  simp [row, h]

/-- The table derives what is printed. -/
theorem print_wf (ho : T.lead o = .opn) (hc : T.tail c = .close) (hlow : T.low ≤ T.unary)
    : e.Ok T → ∀ l, (e.print T o c l).Wf T true l := by
  induction e with
  | atom t => exact fun h _ => h
  | unary op x ih => exact fun h _ => wf_wrap ho hc hlow ⟨Nat.le_refl _, h.1, ih h.2 _⟩
  | binary op x y ihx ihy =>
    intro ⟨⟨r, b, ht⟩, hx, hy⟩ l
    obtain rfl := row_eq ht
    exact wf_wrap ho hc (T.oper_level ht).1 ⟨_, b, ht, Nat.le_refl _, ihx hx _, ihy hy _⟩
  | ternary op mark x y z ihx ihy ihz =>
    intro ⟨⟨r, ht, hm⟩, hx, hy, hz⟩ l
    obtain rfl := row_eq ht
    exact wf_wrap ho hc (T.oper_level ht).1
      ⟨_, ht, hm, Nat.le_refl _, ihx hx _, ihy hy _, ihz hz _⟩

theorem length_wrap_le (l l' m : Nat) (x : Cst τ) :
    (wrap o c l m x).toks.length ≤ (wrap o c l' m x).toks.length + 2 := by
  unfold wrap
  split <;> split <;> simp [Cst.toks, Nat.add_assoc]

/-- One pair of parentheses is enough to put a tree anywhere. -/
theorem length_print_le (e : OpTree τ) (l l' : Nat) :
    (e.print T o c l).toks.length ≤ (e.print T o c l').toks.length + 2 := by
  cases e with
  | atom t => exact Nat.le_add_right _ _
  | unary | binary | ternary => exact length_wrap_le _ _ _ _

/-- No way to write the tree that the table derives has fewer tokens, and so fewer
parentheses, than the printed one. -/
theorem print_shortest (h : Shows x e) : ∀ {l : Nat}, x.Wf T true l →
    (e.print T o c l).toks.length ≤ x.toks.length := by
  induction h with
  | atom t => exact fun _ => Nat.le_refl _
  | @paren o' c' x e _ ih =>
    intro l ⟨_, hx, _⟩
    calc (e.print T o c l).toks.length
        ≤ (e.print T o c T.low).toks.length + 2 := length_print_le e l T.low
      _ ≤ x.toks.length + 2 := Nat.add_le_add_right (ih hx) 2
      _ = (Cst.paren o' x c').toks.length := by simp [Cst.toks]
  | unary op _ ih =>
    intro l ⟨hl, _, hx⟩
    simpa [print, wrap, hl, Cst.toks] using ih hx
  | binary op _ _ ihx ihy =>
    intro l ⟨r, b, ht, hl, hx, hy⟩
    have hx' := ihx hx
    have hy' := ihy hy
    simp only [print, wrap, row_eq ht, if_pos hl, Cst.toks, length_append, length_cons]
    omega
  | ternary op mark _ _ _ ihx ihy ihz =>
    intro l ⟨r, ht, hm, hl, hx, hy, hz⟩
    have hx' := ihx hx
    have hy' := ihy hy
    have hz' := ihz hz
    simp only [print, wrap, row_eq ht, if_pos hl, Cst.toks, length_append, length_cons]
    omega

end OpTree

end Voila.Lib
