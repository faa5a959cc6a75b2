import Voila.Par.Types

/-!
# Voila.Par.Expr

Expressions, by precedence climbing (`par/expr.voi`).

Two forms are read speculatively: type arguments (`try_type_args`) and typed
collection literals (`try_collection_lit`). The type is read first, and the place and
the diagnostics are put back when the form turns out to be another.
-/

namespace Voila.Par

open Tok Lib

/-! ### Precedence -/

/-- The precedence levels. -/
def pElse : Nat := 10
def pOr : Nat := 20
def pAnd : Nat := 30
def pCmp : Nat := 40
def pRange : Nat := 45
def pConcat : Nat := 50
def pBits : Nat := 60
def pAdd : Nat := 70
def pMul : Nat := 80
def pPow : Nat := 90

/-- `bin_prec`: the binding power of a binary operator, 0 for any other token. -/
def binPrec (k : Kind) : Nat :=
  match k with
  | .OR => pOr
  | .AND => pAnd
  | .LT | .LE | .GT | .GE | .EQ | .NE | .IN => pCmp
  | .CONCAT => pConcat
  | .SHL | .SHR | .AMP | .PIPE | .CARET => pBits
  | .PLUS | .MINUS => pAdd
  | .STAR | .SLASH | .FLOORDIV | .PERCENT => pMul
  | .POWER => pPow
  | _ => 0

/-- `is_right_assoc`. -/
def isRightAssoc (k : Kind) : Bool := k == .POWER

/-! ### Expressions as types -/

/-- `Parser.expr_to_type`, also called `expr_to_named`: the type a parsed expression
names, or no node. -/
def exprToType : Node → Node
  | .mk .IDENT l c _ _ _ name _ => .mk .TNAMED l c (.num 0) .none 0 name []
  | .mk .FIELD l c _ _ _ name ks =>
    match ks with
    | .mk .IDENT _ _ _ _ _ pkg _ :: _ => .mk .TNAMED l c (.num 0) .none 0 (pkg ++ '.' :: name) []
    | _ => .none
  | .mk .INDEX l c _ _ i2 _ ks =>
    match ks with
    | base :: args =>
      match baseName base, typeArgs i2 args with
      | some name, some args => .mk .TNAMED l c (.num 0) .none 0 name args
      | _, _ => .none
    | [] => .none
  | _ => .none
where
  /-- The name of the base of an instantiation: `Name` or `pkg.Name`. -/
  baseName : Node → Option Str
    | .mk .IDENT _ _ _ _ _ name _ => some name
    | .mk .FIELD _ _ _ _ _ name ks =>
      match ks with
      | .mk .IDENT _ _ _ _ _ pkg _ :: _ => some (pkg ++ '.' :: name)
      | _ => none
    | _ => none
  /-- The arguments; with `Ival2` 2 they were read as types already. -/
  typeArgs (i2 : Int) : List Node → Option (List Node)
    | [] => some []
    | k :: ks =>
      let arg := if i2 ≠ 2 then exprToType k else k
      if arg.isNone then none
      else (typeArgs i2 ks).map (arg :: ·)

mutual

/-- `Parser.simple_type`: whether a type could also have been read as an expression. -/
def simpleType : Node → Bool
  | .none => false
  | .mk k _ _ _ _ _ _ ks => (k == .TNAMED || k == .TTUPLE) && simpleTypes ks

def simpleTypes : List Node → Bool
  | [] => true
  | t :: ts => simpleType t && simpleTypes ts

end

/-! ### Tails -/

/-- One turn of `composite_tail`'s loop, without its end. -/
def compField (c : Calls) : P Node := do
  let ft ← cur
  let ahead ← peekKind 1
  let name ← either (ft.kind = .IDENT ∧ ahead = .COLON)
    (do
      let n ← next
      let _ ← next
      pure n.lit)
    (pure [])
  let v ← c.expr
  pure (add .COMPFIELD ft 0 0 name [v])

/-- `while true { skip_semis; if … { break }; …; if not accept(COMMA) { skip_semis; break } }` -/
def fieldsUpTo {α : Type} (done : P Bool) (item : P (Turn α α)) : P (List α) :=
  loop (fun xs => do
    skipSemis
    if ← done then pure (.stop xs)
    else
      match ← item with
      | .again x =>
        if ← accept .COMMA then pure (.again (xs ++ [x]))
        else
          skipSemis
          pure (.stop (xs ++ [x]))
      | .stop x =>
        skipSemis
        pure (.stop (xs ++ [x]))) []

/-- `Parser.composite_tail`. -/
def compositeTail (c : Calls) (nt : Node) : P Node := do
  let _ ← expect .LBRACE
  let fs ← bracketed (fieldsUpTo atBodyEnd (do
    let f ← compField c
    pure (.again f)))
  let _ ← expect .RBRACE
  pure (addAt .COMPOSITE nt nt nt.sval fs)

/-- One argument of a call. -/
def callArg (c : Calls) : P Node := do
  let at2 ← cur
  let ahead ← peekKind 1
  if at2.kind = .IDENT ∧ ahead = .COLON then
    let n ← next
    let _ ← next
    let v ← c.expr
    pure (add .ARG at2 0 0 n.lit [v])
  else
    let v ← c.expr
    let spread ← accept .ELLIPSIS
    pure (add .ARG at2 (if spread then 1 else 0) 0 [] [v])

/-- `Parser.call_tail`. -/
def callTail (c : Calls) (fn : Node) : P Node := do
  let t ← expect .LPAREN
  let (targs, args) ← bracketed (do
    let close ← atKind .RPAREN
    -- `make([]str, n)`: the first argument is a type
    let targs ← either (fn.kind = some .IDENT ∧ fn.sval = "make".toList ∧ close = false)
      (do
        let ty ← typeExpr c
        if ← atKind .RPAREN then pure [ty]
        else
          let _ ← expect .COMMA
          pure [ty])
      (pure [])
    let args ← commaList .RPAREN (callArg c)
    pure (targs, args))
  let _ ← expect .RPAREN
  pure (add .CALL t 0 0 [] [fn, list args, list targs])

/-- `Parser.try_type_args`, whose `self.lev -= 1` `indexTail` makes. -/
def tryTypeArgs (c : Calls) (x : Node) (t : Token) : P (Option Node) := do
  let saved ← get
  let tys ← commaList .RBRACKET (typeExpr c)
  let k1 ← peekKind 1
  let close ← atKind .RBRACKET
  let s ← get
  if s.errs.length = saved.errs.length ∧ close ∧ tys.any (!simpleType ·) ∧ tys ≠ [] ∧
      (k1 = .LPAREN ∨ k1 = .LBRACE) then
    let _ ← next
    pure (some (add .INDEX t 0 2 [] (x :: tys)))
  else
    modify fun s => { s with i := saved.i, errs := s.errs.take saved.errs.length }
    pure none

/-- A missing upper bound, which `..=` does not allow. -/
def openBound (inc : Int) : P Node := do
  if inc = 1 then
    error "`..=` needs an upper bound; write `..` to run to the end".toList
    pure .none
  else pure .none

/-- The subscript inside the brackets: a range with an open lower bound, or an expression. -/
def subscript (c : Calls) : P Node := do
  let rt ← cur
  if rt.kind = .RANGE ∨ rt.kind = .RANGEEQ then
    let _ ← next
    let inc := if rt.kind = .RANGEEQ then 1 else 0
    let close ← atKind .RBRACKET
    let hi ← either (close = false) (c.binary (pRange + 1)) (openBound inc)
    pure (add .RANGE rt 0 inc [] [.none, hi, .none])
  else c.expr

/-- `while self.accept(tok.COMMA) { if self.at(close) { break }; … }` -/
def commaUntil (close : Kind) (item : P Node) (xs : List Node) : P (List Node) :=
  loop (fun xs => do
    if ← accept .COMMA then
      if ← atKind close then pure (.stop xs)
      else
        let x ← item
        pure (.again (xs ++ [x]))
    else pure (.stop xs)) xs

/-- What `index_tail` reads inside the brackets: type arguments, whose closing bracket is
taken too, or the subscripts. -/
def indexBody (c : Calls) (t : Token) (x : Node) : P (Option Node × List Node) := do
  let ta ← either (x.kind = some .IDENT ∨ x.kind = some .FIELD) (tryTypeArgs c x t) (pure none)
  if ta.isSome then pure (ta, [])
  else
    let idx ← subscript c
    let kids ← commaUntil .RBRACKET c.expr [x, idx]
    pure (none, kids)

/-- `Parser.index_tail`. -/
def indexTail (c : Calls) (x : Node) : P Node := do
  let t ← expect .LBRACKET
  let (ta, kids) ← bracketed (indexBody c t x)
  match ta with
  | some ta => pure ta
  | none =>
    let _ ← expect .RBRACKET
    pure (add .INDEX t 0 0 [] kids)

/-- `all_digits`. -/
def allDigits (s : Str) : Bool := s ≠ [] && s.all Char.isDigit

/-- `Parser.tuple_field`: the positions after a `.`, each an index by a constant. -/
def tupleField (x : Node) (dot : Token) : P Node := do
  let n ← next
  let parts := if n.kind = .FLOAT then n.lit.splitOn '.' else [n.lit]
  go n x parts
where
  go (n : Token) (out : Node) : List Str → P Node
    | [] => pure out
    | p :: ps => do
      if p = [] ∨ allDigits p = false then
        error ("expected a tuple position after `.`, found ".toList ++ n.lit)
        pure out
      else go n (add .INDEX dot 0 1 [] [out, add .INT n 0 0 p []]) ps

/-- One turn of `postfix`. -/
def postfixTurn (c : Calls) (x : Node) : P (Turn Node Node) := do
  let t ← cur
  let s ← get
  if t.kind = .LPAREN then
    let x ← callTail c x
    pure (.again x)
  else if t.kind = .LBRACKET then
    let x ← indexTail c x
    pure (.again x)
  else if t.kind = .DOT then
    let _ ← next
    if ← atAny [.INT, .FLOAT] then
      let x ← tupleField x t
      pure (.again x)
    else
      let n ← expect .IDENT
      pure (.again (add .FIELD t 0 0 n.lit [x]))
  else if t.kind = .LBRACE then
    -- in a statement header the brace opens the body
    if s.noLit > 0 ∧ s.lev = 0 then pure (.stop x)
    else if (exprToType x).isNone then pure (.stop x)
    else
      let x ← compositeTail c (exprToType x)
      pure (.again x)
  else if t.kind = .QUESTION then
    let q ← next
    pure (.again (add .TRYEXPR q 0 0 [] [x]))
  else if t.kind = .BANG then
    error "postfix `!` is a type form (`int!`); it has no expression meaning".toList
    let _ ← next
    pure (.again x)
  else pure (.stop x)

/-- `Parser.postfix`. -/
def postfixExpr (c : Calls) (x : Node) : P Node := loop (postfixTurn c) x

/-! ### Primaries -/

/-- One turn of `collection_lit`'s loop, without its end. -/
def element (c : Calls) (isMap : Bool) : P (List Node) := do
  let e ← c.expr
  if isMap then
    let _ ← expect .COLON
    let v ← c.expr
    pure [e, v]
  else pure [e]

/-- `Parser.collection_lit`. -/
def collectionLit (c : Calls) : P Node := do
  let t ← cur
  let ty ← typeExpr c
  check (ty.kind = some .TSLICE ∨ ty.kind = some .TMAP ∨ ty.kind = some .TSET)
    (error "expected a collection type before `\x7b`".toList)
  let _ ← expect .LBRACE
  let isMap := ty.kind == some .TMAP
  let es ← bracketed (loop (fun es => do
    skipSemis
    if ← atBodyEnd then pure (.stop es)
    else
      let e ← element c isMap
      if ← accept .COMMA then pure (.again (es ++ e))
      else if ← atKind .SEMI then
        skipSemis
        pure (.again (es ++ e))
      else pure (.stop (es ++ e))) [])
  let _ ← expect .RBRACE
  if isMap then pure (addRef .MAPLIT t ty 0 [] es) else pure (addRef .SLICELIT t ty 0 [] es)

/-- `Parser.try_collection_lit`. -/
def tryCollectionLit (c : Calls) : P (Option Node) := do
  let saved ← get
  let t ← cur
  if saved.noLit > 0 ∧ saved.lev = 0 ∧ t.lit = "set".toList then pure none
  else
    let _ ← typeExpr c
    let brace ← atKind .LBRACE
    let s ← get
    let ok := s.errs.length = saved.errs.length ∧ brace
    modify fun s => { s with i := saved.i, errs := s.errs.take saved.errs.length }
    if ok then
      let n ← collectionLit c
      pure (some n)
    else pure none

/-- `typed_slice_start`. -/
def typedSliceStart (k : Kind) : Bool :=
  [Kind.IDENT, .LBRACKET, .QUESTION, .CHAN, .SHARED, .WEAK].contains k

/-- `Parser.header_expr`: an expression in a statement header. -/
def headerExpr (c : Calls) : P Node :=
  within (fun s => { s with noLit := 1, lev := 0 })
    (fun saved s => { s with noLit := saved.noLit, lev := saved.lev }) c.expr

/-- The condition of an `if`, after the keyword: a pattern and its value, or a value. -/
def ifHeader (c : Calls) : P (Node × Node) := do
  if ← accept .LET then
    let pat ← c.pattern
    let _ ← expect .ASSIGN
    let cond ← headerExpr c
    pure (pat, cond)
  else
    let cond ← headerExpr c
    pure (.none, cond)

/-- `Parser.if_expr`. -/
def ifExpr (c : Calls) : P Node := do
  let t ← expect .IF
  let (pat, cond) ← ifHeader c
  let thn ← c.block
  let els ← choose (skipSemisBefore .ELSE)
    (do
      let _ ← next
      if ← atKind .IF then c.ifExpr else c.block)
    (do
      error "an `if` used as a value needs an `else` branch".toList
      pure .none)
  pure (addRef .IF t pat 0 [] [cond, thn, els])

/-- The body of a match arm: a block's statements, or one statement, which a comma may end. -/
def armBody (c : Calls) : P (List Node) := do
  if ← atKind .LBRACE then
    let b ← c.block
    let _ ← accept .COMMA
    pure b.kids
  else
    let b ← within (fun s => { s with armComma := 1 })
      (fun saved s => { s with armComma := saved.armComma }) c.stmt
    let _ ← accept .COMMA
    pure [b]

/-- The guard of a match arm. -/
def armGuard (c : Calls) : P Node := do
  if ← accept .IF then
    within (fun s => { s with noLit := 1 }) (fun saved s => { s with noLit := saved.noLit }) c.expr
  else pure .none

/-- One arm of a `match`. -/
def arm (c : Calls) : P Node := do
  let at2 ← cur
  let pat ← c.pattern
  let guard ← armGuard c
  let _ ← expect .FATARROW
  let body ← armBody c
  pure (addRef .ARM at2 pat 0 [] [guard, list body])

/-- `Parser.match_stmt`. -/
def matchStmt (c : Calls) : P Node := do
  let t ← expect .MATCH
  let subj ← headerExpr c
  let _ ← expect .LBRACE
  let arms ← within (fun s => { s with lev := 0, noLit := 0 })
    (fun saved s => { s with lev := saved.lev, noLit := saved.noLit }) (members atBodyEnd (arm c))
  let _ ← expect .RBRACE
  pure (add .MATCH t 0 0 [] [subj, list arms])

/-- The captures of a `fn own`. -/
def captures : P (Int × List Node) := do
  if ← accept .OWN then
    if ← accept .LBRACKET then
      let caps ← commaList .RBRACKET (do
        let n ← expect .IDENT
        pure (add .IDENT n 0 0 n.lit []))
      let _ ← expect .RBRACKET
      pure (1, caps)
    else pure (1, [])
  else pure (0, [])

/-- `Parser.closure`. -/
def closure (c : Calls) : P Node := do
  let t ← next
  let (ownc, caps) ← captures
  let saved ← get
  let ps ← params c
  modify fun s => { s with selfFlags := saved.selfFlags }     -- a closure has no receiver
  let res ← choose (atKind .LBRACE) (pure .none) c.typeExpr
  let body ← c.block
  pure (addRef .CLOSURE t res ownc [] [body, ps, list caps])

/-- The parser of an embedded expression: `NewAt`, with the name of `Self`. -/
def subParser (s : Parser) (ts : List Token) (line col : Nat) (errs : List Str) : Parser :=
  { ts := ts ++ [eofToken line col], i := 0, file := s.file, errs := errs, noLit := 0, lev := 0,
    selfFlags := 0, armComma := 0, selfTy := .none, selfName := s.selfName }

/-- What `interp_str` asks of the parser of an embedded expression: an expression, and
nothing after it. -/
def fragment (c : Calls) : P Node := do
  let e ← c.expr
  if ← atAny [.EOF, .SEMI] then pure e
  else
    let t ← cur
    error ("unexpected ".toList ++ shown t ++ " after interpolated expression".toList)
    pure e

/-- One part of an interpolated string. -/
def interpPart (c : Calls) (t : Token) : Part Token → P Node
  | .text s => pure (add .STR t 0 0 s [])
  | .expr ts line col errs => fun s => do
    let (e, sub) ← fragment c (subParser s ts line col errs)
    pure (e, { s with errs := s.errs ++ sub.errs })

/-- The parts of an interpolated string, in order. -/
def interpParts (c : Calls) (t : Token) : List (Part Token) → P (List Node)
  | [] => pure []
  | p :: ps => do
    let x ← interpPart c t p
    let xs ← interpParts c t ps
    pure (x :: xs)

/-- `Parser.self_expr`: the target of the impl block, as its name would be written. -/
def selfExpr (selfName : Str) (t : Token) : Node :=
  if List.contains selfName '.' then
    let q := add .IDENT t 0 0 (selfName.takeWhile (· != '.')) []
    add .FIELD t 0 0 ((selfName.dropWhile (· != '.')).drop 1) [q]
  else add .IDENT t 0 0 selfName []

/-- The name `primary` reads, after it. -/
def nameExpr (t : Token) : P Node := do
  let s ← get
  if t.lit = "Self".toList ∧ s.selfName ≠ [] then pure (selfExpr s.selfName t)
  else pure (add .IDENT t 0 0 t.lit [])

/-- What an identifier opens: a closure, a collection literal or a name. -/
def identExpr (c : Calls) (t : Token) : P Node := do
  let k1 ← peekKind 1
  if t.lit = "fn".toList ∧ (k1 = .LPAREN ∨ k1 = .OWN) then closure c
  else
    let lit ← either ((t.lit = "map".toList ∨ t.lit = "set".toList) ∧ k1 = .LBRACKET)
      (tryCollectionLit c) (pure none)
    match lit with
    | some n => pure n
    | none =>
      let _ ← next
      nameExpr t

/-- What stands between two parentheses: nothing, one expression, or the members of a tuple. -/
def parenBody (c : Calls) : P (Option (List Node) × Node) := do
  if ← atKind .RPAREN then pure (some [], .none)
  else
    let x ← c.expr
    if ← atKind .COMMA then
      let es ← commaUntil .RPAREN c.expr [x]
      pure (some es, .none)
    else pure (none, x)

/-- What a parenthesis opens, after it: the unit value, a tuple or a grouping. -/
def parenExpr (c : Calls) (t : Token) : P Node := do
  let (es, x) ← bracketed (parenBody c)
  let _ ← expect .RPAREN
  match es with
  | some es => pure (add .TUPLE t 0 0 [] es)
  | none => pure x

/-- The `chan[T](cap)` constructor, after the keyword. -/
def chanExpr (c : Calls) (t : Token) : P Node := do
  let ty ← typeArg c
  let fn := add .IDENT t 0 0 "chan".toList []
  let args ← choose (accept .LPAREN)
    (do
      let args ← bracketed (commaList .RPAREN (do
        let at2 ← cur
        let v ← c.expr
        pure (add .ARG at2 0 0 [] [v])))
      let _ ← expect .RPAREN
      pure args)
    (pure [])
  pure (add .CALL t 0 0 [] [fn, list args, list [ty]])

/-- The node of a literal that is one token. -/
def literal (t : Token) : Option Node :=
  match t.kind with
  | .INT => some (add .INT t 0 0 t.lit [])
  | .FLOAT => some (add .FLOAT t 0 0 t.lit [])
  | .DEC => some (add .DEC t 0 0 t.lit [])
  | .STR => some (add .STR t 0 0 t.lit [])
  | .RUNE => some (add .RUNE t 0 0 t.lit [])
  | .TRUE => some (add .BOOL t 1 0 "true".toList [])
  | .FALSE => some (add .BOOL t 0 0 "false".toList [])
  | .NIL => some (add .NILLIT t 0 0 "nil".toList [])
  | .SELF => some (add .SELF t 0 0 "self".toList [])
  | .SHARED => some (add .IDENT t 0 0 "shared".toList [])
  | .WEAK => some (add .IDENT t 0 0 "weak".toList [])
  | _ => none

/-- `Parser.primary`. -/
def primary (c : Calls) : P Node := do
  let t ← cur
  let k1 ← peekKind 1
  let k2 ← peekKind 2
  match literal t with
  | some n =>
    let _ ← next
    pure n
  | none =>
    if t.kind = .ISTR then
      let _ ← next
      let parts ← interpParts c t t.parts
      pure (add .INTERP t 0 0 [] parts)
    else if t.kind = .IF then ifExpr c
    else if t.kind = .MATCH then matchStmt c
    else if t.kind = .SPAWN then
      let _ ← next
      if ← atKind .LBRACE then
        let b ← c.block
        pure (add .SPAWNEXPR t 0 1 [] [b])
      else
        let u ← c.unary
        pure (add .SPAWNEXPR t 0 0 [] [u])
    else if t.kind = .CHAN then
      let _ ← next
      chanExpr c t
    else if t.kind = .IDENT then identExpr c t
    else if t.kind = .LPAREN then
      let _ ← next
      parenExpr c t
    else if t.kind = .LBRACKET ∧ k1 = .RBRACKET ∧ typedSliceStart k2 then collectionLit c
    else if t.kind = .LBRACKET then
      let _ ← next
      let es ← bracketed (commaList .RBRACKET c.expr)
      let _ ← expect .RBRACKET
      pure (add .SLICELIT t 0 0 [] es)
    else
      errorFound "expected expression"
      let _ ← next
      pure (add .NILLIT t 0 0 "nil".toList [])

/-! ### Operators -/

/-- The node a prefix operator makes of its operand. -/
def prefixNode (t : Token) (x : Node) : Node :=
  match t.kind with
  | .TRY => add .TRYEXPR t 0 0 [] [x]
  | .MUST => add .MUSTEXPR t 0 0 [] [x]
  | .ATTEMPT => add .ATTEMPT t 0 0 [] [x]
  | op => addOp .UNARY t op [x]

/-- The prefix operators. -/
def prefixOps : List Kind := [.MINUS, .NOT, .TILDE, .ARROW, .TRY, .MUST, .ATTEMPT]

/-- `Parser.unary`. -/
def unary (c : Calls) : P Node := do
  let t ← cur
  if prefixOps.contains t.kind then
    let _ ← next
    let x ← c.unary
    pure (prefixNode t x)
  else
    let x ← primary c
    postfixExpr c x

/-- `Parser.diverging_stmt`. -/
def divergingStmt (c : Calls) : P Node := do
  let t ← cur
  if t.kind = .RETURN then
    let _ ← next
    if ← atAny [.SEMI, .RBRACE, .EOF, .COMMA, .RPAREN] then
      pure (add .RETURN t 0 0 [] [])
    else
      let v ← c.expr
      let vs ← commaMore c.expr [v]
      pure (add .RETURN t 0 0 [] vs)
  else if t.kind = .THROW then
    let _ ← next
    if ← atAny [.SEMI, .RBRACE, .EOF] then
      pure (add .THROW t 0 0 [] [.none, .none])
    else
      let v ← c.expr
      if ← atWord "from" then
        let _ ← next
        let cause ← c.expr
        pure (add .THROW t 0 0 [] [v, cause])
      else pure (add .THROW t 0 0 [] [v, .none])
  else if t.kind = .BREAK ∨ t.kind = .CONTINUE then
    let _ ← next
    let kind := if t.kind = .CONTINUE then Ast.CONTINUE else .BREAK
    if ← atKind .IDENT then
      let n ← next
      pure (add kind t 0 0 n.lit [])
    else pure (add kind t 0 0 [] [])
  else
    error "expected diverging statement after `else`".toList
    pure (add .RETURN t 0 0 [] [])

/-- The bounds of a range, after its token: the upper bound, which may be missing
before a closing bracket, and the step. -/
def rangeRest (c : Calls) (inc : Int) : P (Node × Node) := do
  let s ← get
  let close ← atKind .RBRACKET
  let hi ← either (s.lev > 0 ∧ close) (openBound inc) (c.binary (pRange + 1))
  if ← atWord "by" then
    let _ ← next
    let step ← c.binary (pRange + 1)
    pure (hi, step)
  else pure (hi, .none)

/-- What stands on the right of `else`: a diverging statement, a block or an expression. -/
def elseRest (c : Calls) : P (Node × Int) := do
  let t ← cur
  let s ← get
  if [Kind.RETURN, .THROW, .BREAK, .CONTINUE].contains t.kind then
    let alt ← divergingStmt c
    pure (alt, 1)
  else if t.kind = .LBRACE ∧ ¬(s.noLit > 0 ∧ s.lev = 0) then
    let alt ← c.block
    pure (alt, 2)
  else
    let alt ← c.binary pElse
    pure (alt, 0)

/-- One turn of `binary`. -/
def binaryTurn (c : Calls) (min : Nat) (x : Node) : P (Turn Node Node) := do
  let t ← cur
  if (t.kind = .RANGE ∨ t.kind = .RANGEEQ) ∧ pRange ≥ min then
    let _ ← next
    let inc := if t.kind = .RANGEEQ then 1 else 0
    let (hi, step) ← rangeRest c inc
    pure (.again (add .RANGE t 0 inc [] [x, hi, step]))
  else if t.kind = .ELSE ∧ pElse ≥ min then
    let _ ← next
    let (alt, isStmt) ← elseRest c
    pure (.again (add .ELSEEXPR t 0 isStmt [] [x, alt]))
  else
    let prec := binPrec t.kind
    if prec = 0 ∨ prec < min then pure (.stop x)
    else
      let _ ← next
      let y ← c.binary (if isRightAssoc t.kind then prec else prec + 1)
      pure (.again (addOp .BINARY t t.kind [x, y]))

/-- `Parser.binary`. -/
def binary (c : Calls) (min : Nat) : P Node := do
  let x ← unary c
  loop (binaryTurn c min) x

/-- `Parser.expr`. -/
def expr (c : Calls) : P Node := binary c pElse

end Voila.Par
