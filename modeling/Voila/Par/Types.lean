import Voila.Par.Parser

/-!
# Voila.Par.Types

Types, parameters and generics (`par.voi`): the parts of the grammar that expressions
and declarations share.
-/

namespace Voila.Par

open Tok Lib

/-- `Parser.fn_type`. -/
def fnType (c : Calls) (t : Token) : P Node := do
  let _ ← expect .LPAREN
  let ps ← commaList .RPAREN c.typeExpr
  let _ ← expect .RPAREN
  let res ← choose (atAny [.LBRACE, .RPAREN, .RBRACKET, .COMMA, .SEMI, .RBRACE, .EOF, .ASSIGN])
    (pure .none) c.typeExpr
  pure (addRef .TFN t res 0 [] [list ps])

/-- The bracketed type after `chan`, `shared`, `set` and the like. -/
def typeArg (c : Calls) : P Node := do
  let _ ← expect .LBRACKET
  let e ← c.typeExpr
  let _ ← expect .RBRACKET
  pure e

/-- The type a name opens: the branch `k == tok.IDENT` of `type_inner`, after the name. -/
def namedType (c : Calls) (t : Token) : P Node := do
  let s ← get
  let dot ← atKind .DOT
  let bracket ← atKind .LBRACKET
  if t.lit = "map".toList then
    let key ← typeArg c
    let value ← c.typeExpr
    pure (add .TMAP t 0 0 [] [key, value])
  else if t.lit = "set".toList then
    let e ← typeArg c
    pure (add .TSET t 0 0 [] [e])
  else if t.lit = "cell".toList ∧ bracket then
    let e ← typeArg c
    pure (add .TBOX t 0 1 [] [e])
  else if t.lit = "fn".toList then
    fnType c t
  else if t.lit = "Self".toList ∧ s.selfTy.isNone = false ∧ dot = false then
    -- `copy_tree`: a copy of its own for each `Self`
    pure s.selfTy
  else if t.lit = "Self".toList ∧ s.selfName ≠ [] ∧ dot = false then
    pure (add .TNAMED t 0 0 s.selfName [])
  else
    let full ← choose (accept .DOT)
      (do
        let n ← expect .IDENT
        pure (t.lit ++ ['.'] ++ n.lit))
      (pure t.lit)
    let args ← choose (accept .LBRACKET)
      (do
        let args ← commaList .RBRACKET c.typeExpr
        let _ ← expect .RBRACKET
        pure args)
      (pure [])
    pure (add .TNAMED t 0 0 full args)

/-- The type a bracket opens: a slice or a fixed array. -/
def sliceType (c : Calls) (t : Token) : P Node := do
  if ← accept .RBRACKET then
    let e ← c.typeExpr
    pure (add .TSLICE t 0 0 [] [e, .none])
  else
    let n ← bracketed c.expr
    let _ ← expect .RBRACKET
    let e ← c.typeExpr
    pure (add .TSLICE t 0 0 [] [e, n])

/-- `Parser.type_inner`. -/
def typeInner (c : Calls) : P Node := do
  let t ← cur
  if t.kind = .QUESTION then
    let _ ← next
    let e ← c.typeExpr
    pure (add .TOPTION t 0 0 [] [e])
  else if t.kind = .AMP then
    let _ ← next
    let e ← c.typeExpr
    pure (add .TBORROW t 0 0 [] [e])
  else if t.kind = .LBRACKET then
    let _ ← next
    sliceType c t
  else if t.kind = .CHAN then
    let _ ← next
    let e ← typeArg c
    pure (add .TCHAN t 0 0 [] [e])
  else if t.kind = .SHARED ∨ t.kind = .WEAK then
    let _ ← next
    let e ← typeArg c
    pure (add .TBOX t 0 (if t.kind = .WEAK then 2 else 0) [] [e])
  else if t.kind = .LPAREN then
    let _ ← next
    let es ← commaList .RPAREN c.typeExpr
    let _ ← expect .RPAREN
    pure (add .TTUPLE t 0 0 [] es)
  else if t.kind = .FUNC then
    let _ ← next
    fnType c t
  else if t.kind = .IDENT then
    let _ ← next
    namedType c t
  else
    errorFound "expected type"
    let _ ← next
    pure (add .TNAMED t 0 0 "unit".toList [])

/-- `Parser.type_expr`: each `!` after a type wraps it. -/
def typeExpr (c : Calls) : P Node := do
  let t ← typeInner c
  loop (fun t => do
    if ← atKind .BANG then
      let b ← next
      pure (.again (add .TRESULT b 0 0 [] [t]))
    else pure (.stop t)) t

/-- `type_start`. -/
def typeStart (k : Kind) : Bool :=
  [Kind.LBRACKET, .QUESTION, .CHAN, .SHARED, .WEAK, .LPAREN, .AMP].contains k

/-! ### Parameters -/

/-- The modes of a parameter. -/
def modeBorrow : Nat := 0
def modeMut : Nat := 1
def modeOwn : Nat := 2

/-- A parameter as `params` builds it: its node, whose type is still missing when a
later member of the group gives it. -/
def param (nt : Token) (ty : Node) (flags : Nat) (dflt : Node) : Node :=
  addRef .PARAM nt ty flags nt.lit [dflt]

/-- The flags of `self`. -/
def selfFlag (mode : Nat) : Nat :=
  if mode = modeMut then 3 else if mode = modeOwn then 5 else 1

/-- The mode in front of a parameter, or in `params` also after its name. -/
def paramMode : P (Option Nat) := do
  if ← accept .OWN then pure (some modeOwn)
  else if ← accept .MUT then pure (some modeMut)
  else pure none

/-- What stands after a parameter's name: its type, its default and whether it is variadic. -/
def paramRest (c : Calls) : P (Node × Node × Nat) := do
  if ← accept .ELLIPSIS then
    let ty ← c.typeExpr
    pure (ty, .none, 16)
  else if ← atAny [.COMMA, .RPAREN] then
    pure (.none, .none, 0)
  else if ← accept .ASSIGN then
    let dflt ← c.expr
    pure (.none, dflt, 0)
  else
    let ty ← typeExpr c
    if ← accept .ASSIGN then
      let dflt ← c.expr
      pure (ty, dflt, 0)
    else pure (ty, .none, 0)

/-- A parameter with a name, and the comma after it. -/
def namedParam (c : Calls) (before : Option Nat) (ps : List Node) :
    P (Turn (List Node) (List Node)) := do
  let nt ← expect .IDENT
  -- the mode may also stand after the name: `buf mut []byte`
  let after ← paramMode
  let mode := (after.orElse fun _ => before).getD modeBorrow
  let (ty, dflt, variadic) ← paramRest c
  let ps := ps ++ [param nt ty (mode ||| variadic) dflt]
  if ← accept .COMMA then pure (.again ps) else pure (.stop ps)

/-- One turn of the loop of `params`. -/
def paramTurn (c : Calls) (ps : List Node) : P (Turn (List Node) (List Node)) := do
  if ← atAny [.RPAREN, .EOF] then pure (.stop ps)
  else
    let before ← paramMode
    if ← accept .SELF then
      modify fun s => { s with selfFlags := s.selfFlags ||| selfFlag (before.getD modeBorrow) }
      if ← accept .COMMA then pure (.again ps) else pure (.stop ps)
    else if ← atKind .ELLIPSIS then
      let e ← next
      pure (.stop (ps ++ [addRef .PARAM e .none 16 "args".toList [.none]]))
    else namedParam c before ps

/-- `a, b int` gives both the type of the last member of the group: the parameters
from the last one on back, the type of the one after them, if any, going in. -/
def shareTypes : List Node → List Node × Node
  | [] => ([], .none)
  | p :: ps =>
    let (ps, lastType) := shareTypes ps
    match p with
    | .mk k l col iv .none i2 s ks => (.mk k l col iv lastType i2 s ks :: ps, lastType)
    | .mk k l col iv ty i2 s ks => (.mk k l col iv ty i2 s ks :: ps, ty)
    | .none => (.none :: ps, lastType)

/-- `Parser.params`. -/
def params (c : Calls) : P Node := do
  let _ ← expect .LPAREN
  let ps ← bracketed (loop (paramTurn c) [])
  let _ ← expect .RPAREN
  pure (list (shareTypes ps).1)

end Voila.Par
