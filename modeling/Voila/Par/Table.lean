import Voila.Lib.Precedence
import Voila.Par.Decl

/-!
# Voila.Par.Table

The specification's table of operators (§5.1), its levels times ten, as a
`Lib.Table` over the parser's tokens, and the tree the parser builds for an expression.

Ranges and `else` have no row in that table. They stand where the parser's constants
wedge them in: ranges between the comparisons and `||`, without associativity, and
`else` below `or`, associating to the right.
-/

namespace Voila.Par

open Tok Lib

/-- The rows, from the tightest to the loosest. -/
def rows : List (Row × List Kind) :=
  [(⟨90, .right⟩, [.POWER]),
   (⟨80, .left⟩, [.STAR, .SLASH, .FLOORDIV, .PERCENT]),
   (⟨70, .left⟩, [.PLUS, .MINUS]),
   (⟨60, .left⟩, [.SHL, .SHR, .AMP, .PIPE, .CARET]),
   (⟨50, .left⟩, [.CONCAT]),
   (⟨45, .none⟩, [.RANGE, .RANGEEQ]),
   (⟨40, .none⟩, [.LT, .LE, .GT, .GE, .EQ, .NE, .IN]),
   (⟨30, .left⟩, [.AND]),
   (⟨20, .left⟩, [.OR]),
   (⟨10, .right⟩, [.ELSE])]

def rowOf (k : Kind) : Option Row := (rows.find? (·.2.contains k)).map (·.1)

/-- The tokens that are an operand by themselves. -/
def atoms : List Kind := [.IDENT, .INT, .FLOAT, .DEC, .STR, .RUNE, .TRUE, .FALSE, .NIL, .SELF]

def leadKind (k : Kind) : Lead :=
  if atoms.contains k then .atom
  else if prefixOps.contains k then .unary
  else if k = .LPAREN then .opn
  else if k = .RPAREN then .close
  else .other

def tailKind (k : Kind) : Tail :=
  if k = .LPAREN then .opn
  else if k = .RPAREN then .close
  else
    match rowOf k with
    | some r => .oper r (k = .RANGE ∨ k = .RANGEEQ)
    | none => .other

/-- The word before the step of a range. -/
def isBy (t : Token) : Bool := t.kind = .IDENT && t.lit = "by".toList

/-- What a token is after an operand. -/
def tailOf (t : Token) : Tail := if isBy t then .mark ⟨45, .none⟩ else tailKind t.kind

variable {b : Bool} {k : Kind} {r : Row} {t : Token}

theorem tailKind_oper (h : tailKind k = .oper r b) :
    (b = true ∧ (k = .RANGE ∨ k = .RANGEEQ) ∧ r = ⟨45, .none⟩) ∨
    (b = false ∧ k = .ELSE ∧ r = ⟨10, .right⟩) ∨
    (b = false ∧ ¬(k = .RANGE ∨ k = .RANGEEQ) ∧ k ≠ .ELSE ∧ binPrec k = r.level ∧ binPrec k ≠ 0 ∧
      r.rightLevel = if isRightAssoc k then binPrec k else binPrec k + 1) := by
  cases k <;> cases h <;> decide

/-- A token that is no operator has no level. -/
theorem binPrec_eq_zero (h : ∀ r b, tailKind k ≠ .oper r b) : binPrec k = 0 := by
  cases k <;> first | rfl | exact absurd rfl (h _ _)

theorem tailOf_oper (h : tailOf t = .oper r b) : tailKind t.kind = .oper r b := by
  unfold tailOf at h
  split at h
  · cases h
  · exact h

theorem tailOf_mark (h : tailOf t = .mark r) : isBy t = true ∧ r = ⟨45, .none⟩ := by
  unfold tailOf at h
  split at h
  · next hby =>
      cases h
      exact ⟨hby, rfl⟩
  · revert h
    cases t.kind <;> exact nofun

theorem tailKind_mem (h : tailKind k = .oper r b) : r ∈ rows.map (·.1) := by
  cases k <;> cases h <;> decide

theorem rows_level : ∀ r ∈ rows.map (·.1), 10 ≤ r.level ∧ r.level < 100 := by decide

theorem rows_level_inj : ∀ r ∈ rows.map (·.1), ∀ r' ∈ rows.map (·.1), r.level = r'.level → r = r' := by
  decide

/-- The operators of expressions. `fn` and `make` open forms of their own before a
parenthesis. -/
def ops : Table Token where
  lead t := leadKind t.kind
  tail := tailOf
  word t := t.kind = .IDENT && (t.lit = "fn".toList || t.lit = "make".toList)
  low := 10
  unary := 100
  app := 110
  unary_le := by decide
  oper_level h := rows_level _ (tailKind_mem (tailOf_oper h))
  level_inj h h' := rows_level_inj _ (tailKind_mem (tailOf_oper h)) _ (tailKind_mem (tailOf_oper h'))

/-- How tightly a token would go on with the operand before it. -/
def reach (t : Token) : Nat :=
  match tailOf t with
  | .oper r _ => r.level
  | .mark r => r.rightLevel
  | _ => 0

/-- An operand of level `l` ends at the token. -/
def Yields (l : Nat) (t : Token) : Prop := ∀ r b, tailOf t = .oper r b → r.level < l

theorem yields_of_reach {l : Nat} (h : reach t < l) : Yields l t := by
  intro r b ht
  simpa [reach, ht] using h

/-- What may stand after an expression of level `l`: no parenthesis, and nothing that would
go on with an operand inside it. -/
def Follows (l : Nat) (t : Token) : Prop :=
  t.kind ≠ .LPAREN ∧ ∀ r ∈ rows.map (·.1), l ≤ r.level → reach t < r.rightLevel

theorem Follows.mono {l l' : Nat} (h : Follows l t) (hl : l ≤ l') : Follows l' t :=
  ⟨h.1, fun r hr hle => h.2 r hr (hl.trans hle)⟩

theorem reach_oper (h : tailOf t = .oper r b) : reach t = r.level := by
  simp [reach, h]

theorem oper_ne_lparen (h : tailOf t = .oper r b) : t.kind ≠ .LPAREN := by
  intro hk
  have := tailOf_oper h
  rw [hk] at this
  cases this

theorem rows_left : ∀ r ∈ rows.map (·.1), ∀ r' ∈ rows.map (·.1),
    r.leftLevel false ≤ r'.level → r.level < r'.rightLevel := by decide

/-- An operator may follow its left operand. -/
theorem follows_oper (h : tailOf t = .oper r b) : Follows (r.leftLevel false) t :=
  ⟨oper_ne_lparen h, fun r' hr' hle => by
    rw [reach_oper h]
    exact rows_left r (tailKind_mem (tailOf_oper h)) r' hr' hle⟩

theorem rows_step : ∀ r ∈ rows.map (·.1), 46 ≤ r.level → 46 < r.rightLevel := by decide

theorem rows_right_pos : ∀ r ∈ rows.map (·.1), 0 < r.rightLevel := by decide

/-- The word `by` may follow the upper bound of a range. -/
theorem follows_by (h : tailOf t = .mark r) : Follows r.rightLevel t := by
  obtain ⟨hby, rfl⟩ := tailOf_mark h
  have hreach : reach t = 46 := by simp [reach, h, Row.rightLevel]
  refine ⟨fun hk => ?_, fun r hr hle => ?_⟩
  · simp [isBy, hk] at hby
  · rw [hreach]
    exact rows_step r hr hle

/-- A token that goes on with no operand may follow any expression. -/
theorem follows_of_reach (hk : t.kind ≠ .LPAREN) (h : reach t = 0) (l : Nat) : Follows l t :=
  ⟨hk, fun r hr _ => h ▸ rows_right_pos r hr⟩

/-! ### Trees -/

/-- The node of a name outside an `impl`, or of a literal. -/
def atomNode (t : Token) : Node := (literal t).getD (add .IDENT t 0 0 t.lit [])

/-- The node of an infix operator. -/
def binaryNode (op : Token) (x y : Node) : Node :=
  if op.kind = .RANGE ∨ op.kind = .RANGEEQ then
    add .RANGE op 0 (if op.kind = .RANGEEQ then 1 else 0) [] [x, y, .none]
  else if op.kind = .ELSE then add .ELSEEXPR op 0 0 [] [x, y]
  else addOp .BINARY op op.kind [x, y]

/-- The node of a range with a step. -/
def steppedNode (op : Token) (x y z : Node) : Node :=
  add .RANGE op 0 (if op.kind = .RANGEEQ then 1 else 0) [] [x, y, z]

end Voila.Par

namespace Voila.Lib

open Par

/-- The node of a concrete expression: its parentheses leave no trace. -/
def Cst.node : Cst Token → Node
  | .atom t => atomNode t
  | .unit o _ => add .TUPLE o 0 0 [] []
  | .paren _ x _ => x.node
  | .call0 f o _ => add .CALL o 0 0 [] [f.node, list [], list []]
  | .call f o x _ =>
    let arg := match x.toks with
      | t :: _ => add .ARG t 0 0 [] [x.node]
      | [] => .none
    add .CALL o 0 0 [] [f.node, list [arg], list []]
  | .unary op x => prefixNode op x.node
  | .binary op x y => binaryNode op x.node y.node
  | .ternary op _ x y z => steppedNode op x.node y.node z.node

/-- The node of an expression tree. -/
def OpTree.node : OpTree Token → Node
  | .atom t => atomNode t
  | .unary op x => prefixNode op x.node
  | .binary op x y => binaryNode op x.node y.node
  | .ternary op _ x y z => steppedNode op x.node y.node z.node

theorem Shows.node_eq {x : Cst Token} {e : OpTree Token} (h : Shows x e) : x.node = e.node := by
  induction h with
  | atom t => rfl
  | paren _ _ _ ih => exact ih
  | unary op _ ih => simp only [Cst.node, OpTree.node, ih]
  | binary op _ _ ihx ihy => simp only [Cst.node, OpTree.node, ihx, ihy]
  | ternary op mark _ _ _ ihx ihy ihz => simp only [Cst.node, OpTree.node, ihx, ihy, ihz]

end Voila.Lib
