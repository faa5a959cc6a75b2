import Voila.Par.Expr

/-!
# Voila.Par.Stmt

Patterns and statements (`par/stmt.voi`).
-/

namespace Voila.Par

open Tok Lib

/-! ### Patterns -/

/-- `is_upper_first`. -/
def isUpperFirst : Str → Bool
  | c :: _ => 'A' ≤ c && c ≤ 'Z'
  | [] => false

/-- `Parser.pattern_lit`. -/
def patternLit (c : Calls) : P Node := do
  if ← atKind .MINUS then unary c else primary c

/-- One field of `struct_pattern`; a `..` ends the list. -/
def fieldPattern (c : Calls) : P (Turn Node Node) := do
  let ft ← expect .IDENT
  let sub ← choose (accept .COLON) c.pattern (pure (add .PBIND ft 0 0 ft.lit []))
  pure (.again (add .PFIELD ft 0 0 ft.lit [sub]))

/-- `Parser.struct_pattern`. -/
def structPattern (c : Calls) (t : Token) (name : Str) : P Node := do
  let _ ← expect .LBRACE
  let fs ← fieldsUpTo (do
    if ← atBodyEnd then pure true
    else if ← accept .RANGE then
      skipSemis
      pure true
    else pure false) (fieldPattern c)
  let _ ← expect .RBRACE
  pure (add .PSTRUCT t 0 0 name fs)

/-- A name in a pattern, with its qualifiers. -/
def dottedName (name : Str) : P (Str × Bool) :=
  loop (fun x => do
    if ← accept .DOT then
      let n ← expect .IDENT
      pure (.again (x.1 ++ '.' :: n.lit, true))
    else pure (.stop x)) (name, false)

/-- The pattern a name opens, after its first word. -/
def namePattern (c : Calls) (t : Token) : P Node := do
  if t.lit = "_".toList then pure (add .PWILD t 0 0 [] [])
  else
    let (name, dotted) ← dottedName t.lit
    if ← accept .LPAREN then
      let subs ← commaList .RPAREN c.pattern
      let _ ← expect .RPAREN
      pure (add .PVARIANT t 0 0 name subs)
    else if ← atKind .LBRACE then
      let s ← get
      structPattern c t (if name = "Self".toList ∧ s.selfName ≠ [] then s.selfName else name)
    else if dotted ∨ isUpperFirst name then pure (add .PVARIANT t 0 0 name [])
    else pure (add .PBIND t 0 0 name [])

/-- The members of a parenthesised pattern, and whether a comma was seen. -/
def parenPatterns (c : Calls) : P (List Node × Bool) :=
  loop (fun x => do
    if ← atAny [.RPAREN, .EOF] then pure (.stop x)
    else
      let p ← c.pattern
      if ← accept .COMMA then pure (.again (x.1 ++ [p], true))
      else pure (.stop (x.1 ++ [p], x.2))) ([], false)

/-- The tokens that open a literal pattern. -/
def literalStart : List Kind := [.TRUE, .FALSE, .INT, .FLOAT, .DEC, .STR, .RUNE, .MINUS]

/-- `Parser.pattern_one`. -/
def patternOne (c : Calls) : P Node := do
  let t ← cur
  if t.kind = .NIL then
    let _ ← next
    pure (add .PNIL t 0 0 [] [])
  else if literalStart.contains t.kind then
    let lo ← patternLit c
    if ← atAny [.RANGE, .RANGEEQ] then
      let r ← next
      let hi ← patternLit c
      pure (add .PRANGE t 0 (if r.kind = .RANGEEQ then 1 else 0) [] [lo, hi])
    else pure (add .PLIT t 0 0 [] [lo])
  else if t.kind = .LPAREN then
    let _ ← next
    let (subs, comma) ← parenPatterns c
    let _ ← expect .RPAREN
    match subs, comma with
    | [p], false => pure p
    | _, _ => pure (add .PTUPLE t 0 0 [] subs)
  else if t.kind = .IDENT then
    let _ ← next
    namePattern c t
  else
    errorFound "expected pattern"
    let _ ← next
    pure (add .PWILD t 0 0 [] [])

/-- `Parser.pattern`. -/
def pattern (c : Calls) : P Node := do
  let t ← cur
  let first ← patternOne c
  if ← atKind .PIPE then
    let alts ← loop (fun alts => do
      if ← accept .PIPE then
        let p ← patternOne c
        pure (.again (alts ++ [p]))
      else pure (.stop alts)) [first]
    pure (add .POR t 0 0 [] alts)
  else pure first

/-! ### Statements -/

/-- `Parser.block`: a fresh context, put back after the closing brace. -/
def block (c : Calls) : P Node := do
  let t ← expect .LBRACE
  let ss ← within (fun s => { s with lev := 0, armComma := 0, noLit := 0 })
    (fun saved s =>
      { s with lev := saved.lev, armComma := saved.armComma, noLit := saved.noLit }) (do
    let ss ← members atBodyEnd c.stmt
    let _ ← expect .RBRACE
    pure ss)
  pure (add .BLOCK t 0 0 [] ss)

/-- The scan of `arm_ahead`, from the token after the comma on. -/
def armScan : List Token → Nat → Bool
  | [], _ => false
  | t :: ts, depth =>
    if [Kind.LPAREN, .LBRACKET, .LBRACE].contains t.kind then armScan ts (depth + 1)
    else if [Kind.RPAREN, .RBRACKET, .RBRACE].contains t.kind then
      if depth = 0 then false else armScan ts (depth - 1)
    else if depth = 0 ∧ t.kind = .FATARROW then true
    else if depth = 0 ∧ [Kind.COMMA, .SEMI, .EOF].contains t.kind then false
    else armScan ts depth

/-- `Parser.arm_ahead`. -/
def armAhead : P Bool := do
  let s ← get
  pure (armScan (s.ts.drop (s.i + 1)) 0)

/-- `Parser.list_comma`. -/
def listComma : P Bool := do
  if ← atKind .COMMA then
    let s ← get
    let ahead ← armAhead
    if s.armComma > 0 ∧ ahead then pure false
    else
      let _ ← next
      pure true
  else pure false

/-- `while self.list_comma() { … }`. -/
def valueList (c : Calls) (xs : List Node) : P (List Node) :=
  loop (fun xs => do
    if ← listComma then
      let x ← c.expr
      pure (.again (xs ++ [x]))
    else pure (.stop xs)) xs

/-- `Parser.paren_names`. -/
def parenNames : P (List Str) := do
  let _ ← expect .LPAREN
  let names ← commaList .RPAREN (do
    let n ← expect .IDENT
    pure n.lit)
  let _ ← expect .RPAREN
  if names.length < 2 then
    error "a destructuring binding needs at least two names".toList
    pure names
  else pure names

/-- `str.join`. -/
def join (sep : Char) : List Str → Str
  | [] => []
  | [s] => s
  | s :: ss => s ++ sep :: join sep ss

/-- A destructuring binding, after its keyword. -/
def destructure (c : Calls) (t : Token) (flag : Int) : P Node := do
  let names ← parenNames
  let _ ← expect .ASSIGN
  let v ← c.expr
  expectSemi
  pure (addRef .LET t .none flag (join ',' names) [v])

/-- `Parser.let_stmt`. -/
def letStmt (c : Calls) : P Node := do
  let t ← cur
  let isConst := if t.kind = .CONST then 1 else 0
  let _ ← next
  if ← atKind .LPAREN then destructure c t isConst
  else
    let n ← expect .IDENT
    let names ← commaMore (do
      let n ← expect .IDENT
      pure n.lit) [n.lit]
    let ty ← choose (atKind .ASSIGN) (pure .none) c.typeExpr
    let _ ← expect .ASSIGN
    let v ← c.expr
    expectSemi
    pure (addRef .LET t ty isConst (join ',' names) [v])

/-- `Parser.var_stmt`. -/
def varStmt (c : Calls) : P Node := do
  let t ← expect .VAR
  if ← atKind .LPAREN then destructure c t 2
  else
    let n ← expect .IDENT
    let ty ← choose (atAny [.ASSIGN, .SEMI, .RBRACE, .EOF]) (pure .none) c.typeExpr
    let v ← choose (accept .ASSIGN) c.expr (pure .none)
    expectSemi
    pure (addRef .VAR t ty 0 n.lit [v])

/-- The assignment operators of `simple_stmt`. -/
def assignOps : List Kind :=
  [.ASSIGN, .PLUSEQ, .MINUSEQ, .STAREQ, .SLASHEQ, .PERCENTEQ, .CONCATEQ]

/-- A parallel assignment, from the first comma on. -/
def parallelAssign (c : Calls) (t : Token) (x : Node) : P Node := do
  let targets ← commaMore c.expr [x]
  let at' ← cur
  let _ ← expect .ASSIGN
  let v ← c.expr
  let vals ← valueList c [v]
  let rhs := if vals.length > 1 then add .TUPLE at' 0 0 [] vals else v
  expectSemi
  pure (addOp .ASSIGN t .ASSIGN [add .TUPLE t 0 0 [] targets, rhs])

/-- `Parser.simple_stmt`. -/
def simpleStmt (c : Calls) : P Node := do
  let t ← cur
  let x ← expr c
  let comma ← atKind .COMMA
  let s ← get
  let ahead ← armAhead
  if comma ∧ (s.armComma = 0 ∨ ahead = false) then parallelAssign c t x
  else
    let op ← cur
    if assignOps.contains op.kind then
      let _ ← next
      let rhs ← c.expr
      expectSemi
      pure (addOp .ASSIGN t op.kind [x, rhs])
    else if op.kind = .ARROW then
      let _ ← next
      let v ← c.expr
      expectSemi
      pure (add .EXPRSTMT t 0 0 [] [addOp .BINARY t .ARROW [x, v]])
    else
      expectSemi
      pure (add .EXPRSTMT t 0 0 [] [x])

/-- `Parser.if_stmt`. -/
def ifStmt (c : Calls) : P Node := do
  let t ← expect .IF
  let (pat, cond) ← ifHeader c
  let thn ← c.block
  let els ← choose (skipSemisBefore .ELSE)
    (do
      let _ ← next
      if ← atKind .IF then c.ifStmt else c.block)
    (pure .none)
  pure (addRef .IF t pat 0 [] [cond, thn, els])

/-- `v || "|" || label`. -/
def labelled (v label : Str) : Str := v ++ '|' :: label

/-- A second name after a comma. -/
def secondName : P Str := do
  if ← accept .COMMA then
    let n ← expect .IDENT
    pure n.lit
  else pure []

/-- `Parser.loop_stmt`. -/
def loopStmt (c : Calls) (label : Str) : P Node := do
  let t ← cur
  if t.kind = .FOR then
    let _ ← next
    let (v, iter) ← choose (atKind .LBRACE)
      (pure ([], .none))
      (do
        let n ← expect .IDENT
        let _ ← expect .IN
        let iter ← headerExpr c
        pure (n.lit, iter))
    let body ← c.block
    pure (add .FOR t 0 0 (labelled v label) [iter, body])
  else if t.kind = .EACH then
    let _ ← next
    let a ← expect .IDENT
    let b ← secondName
    let _ ← expect .IN
    let iter ← headerExpr c
    let body ← c.block
    pure (add .EACH t 0 0 (labelled (a.lit ++ ',' :: b) label) [iter, body])
  else if t.kind = .WHILE then
    let _ ← next
    let cond ← headerExpr c
    let body ← c.block
    pure (add .WHILE t 0 0 label [cond, body])
  else
    error "expected loop after label".toList
    pure (add .BLOCK t 0 0 [] [])

/-- The end of a case's statements: another case, or the end of the body. -/
def atCaseEnd : P Bool := do
  let stop ← atAny [.CASE, .RBRACE, .EOF]
  let word ← atWord "default"
  let ahead ← peekKind 1
  pure (stop || (word && ahead == .COLON))

/-- One case of a `switch`, or nothing when none starts here. -/
def switchCase (c : Calls) : P (Option Node) := do
  let ct ← cur
  let word ← atWord "default"
  if ct.kind = .CASE then
    let _ ← next
    let v ← c.expr
    let vals ← commaMore c.expr [v]
    let _ ← expect .COLON
    let body ← members atCaseEnd c.stmt
    pure (some (add .CASE ct 0 0 [] [list vals, list body]))
  else if word then
    let _ ← next
    let _ ← expect .COLON
    let body ← members atCaseEnd c.stmt
    pure (some (add .CASE ct 0 0 [] [list [], list body]))
  else
    error "expected `case` or `default` in switch".toList
    let _ ← next
    pure none

/-- `Parser.switch_stmt`. -/
def switchStmt (c : Calls) : P Node := do
  let t ← expect .SWITCH
  let subj ← headerExpr c
  let _ ← expect .LBRACE
  let cases ← members atBodyEnd (switchCase c)
  let _ ← expect .RBRACE
  pure (add .SWITCH t 0 0 [] [subj, list (cases.filterMap id)])

/-- The communication of a `select` case: its kind, channel, value and bindings. -/
structure Comm where
  kind : Nat
  ch : Node
  send : Node
  bind : Str
  bindok : Str

/-- A receive: the arrow and the channel. -/
def receive (c : Calls) (bind bindok : Str) : P Comm := do
  let _ ← expect .ARROW
  let ch ← c.expr
  pure ⟨0, ch, .none, bind, bindok⟩

/-- The part of a `select` case between `case` and the colon. -/
def comm (c : Calls) : P Comm := do
  let ident ← atKind .IDENT
  let k1 ← peekKind 1
  let k2 ← peekKind 2
  let k3 ← peekKind 3
  if ← accept .LET then
    let b ← expect .IDENT
    let bindok ← secondName
    let _ ← expect .ASSIGN
    receive c b.lit bindok
  else if ident ∧ k1 = .DEFINE then
    let b ← next
    let _ ← next
    receive c b.lit []
  else if ident ∧ k1 = .COMMA ∧ k2 = .IDENT ∧ k3 = .DEFINE then
    let b ← next
    let _ ← next
    let bok ← next
    let _ ← next
    receive c b.lit bok.lit
  else if ← atKind .ARROW then
    receive c [] []
  else
    let ch ← c.expr
    let _ ← expect .ARROW
    let send ← c.expr
    pure ⟨1, ch, send, [], []⟩

/-- A `select` case with its statements. -/
def selectBody (c : Calls) (ct : Token) (x : Comm) : P (Option Node) := do
  let body ← members atCaseEnd c.stmt
  pure (some (add .SELCASE ct x.kind 0 (x.bind ++ ',' :: x.bindok) [x.ch, x.send, list body]))

/-- One case of a `select`, or nothing when none starts here. -/
def selectCase (c : Calls) : P (Option Node) := do
  let ct ← cur
  let word ← atWord "default"
  if ct.kind = .CASE then
    let _ ← next
    let x ← comm c
    let _ ← expect .COLON
    selectBody c ct x
  else if word then
    let _ ← next
    let _ ← expect .COLON
    selectBody c ct ⟨2, .none, .none, [], []⟩
  else
    error "expected `case` or `default` in select".toList
    let _ ← next
    pure none

/-- `Parser.select_stmt`. -/
def selectStmt (c : Calls) : P Node := do
  let t ← expect .SELECT
  let _ ← expect .LBRACE
  let cases ← members atBodyEnd (selectCase c)
  let _ ← expect .RBRACE
  pure (add .SELECTSTMT t 0 0 [] [list (cases.filterMap id)])

/-- `Parser.group_stmt`. -/
def groupStmt (c : Calls) (isTry : Int) : P Node := do
  let t ← expect .GROUP
  let timeout ← choose (atWord "timeout")
    (do
      let _ ← next
      headerExpr c)
    (pure .none)
  let body ← c.block
  pure (add .GROUP t 0 isTry [] [timeout, body])

/-- The digits `parse_int_str` reads at radix 10, as a 64-bit integer. -/
def decimal (s : Str) : Option Int :=
  if s ≠ [] ∧ s.all Char.isDigit then some (Int.bmod (Nat.ofDigitChars 10 s 0) (2 ^ 64)) else none

/-- `to_int` of a text (`parse_int_str`): blanks, a sign and decimal digits, up to a NUL. -/
def toInt (s : Str) : Option Int :=
  match (s.takeWhile (· != '\x00')).dropWhile (fun ch => ch == ' ' || ch == '\t') with
  | '-' :: ds => (decimal ds).map fun n => Int.bmod (-n) (2 ^ 64)
  | '+' :: ds => decimal ds
  | ds => decimal ds

/-- `atoi`. -/
def atoi (s : Str) : Int := (toInt s).getD 0

/-- `Parser.parse_source`. -/
def parseSource (c : Calls) : P Node := do
  let x ← primary c
  loop (fun x => do
    if ← atKind .LPAREN then
      let x ← callTail c x
      pure (.again x)
    else if ← atKind .LBRACKET then
      let x ← indexTail c x
      pure (.again x)
    else pure (.stop x)) x

/-- One term of a parse template. -/
def parseTerm : P (List Node) := do
  let tt ← cur
  if tt.kind = .IDENT then
    let _ ← next
    pure [add .PARSETERM tt 0 0 tt.lit []]
  else if tt.kind = .DOT then
    let _ ← next
    pure [add .PARSETERM tt 1 0 [] []]
  else if tt.kind = .STR then
    let _ ← next
    pure [add .PARSETERM tt 2 0 tt.lit []]
  else if tt.kind = .INT then
    let _ ← next
    pure [add .PARSETERM tt 3 (atoi tt.lit) [] []]
  else
    error "unexpected token in parse template".toList
    let _ ← next
    pure []

/-- `Parser.parse_stmt`. -/
def parseStmt (c : Calls) : P Node := do
  let t ← expect .PARSE
  let upper ← atWord "upper"
  let lower ← atWord "lower"
  let fold ← either (upper ∨ lower)
    (do
      let n ← next
      pure n.lit)
    (pure [])
  let _ ← accept .VAR
  let src ← parseSource c
  let terms ← loop (fun terms => do
    if ← atAny [.SEMI, .RBRACE, .EOF] then pure (.stop terms)
    else
      let term ← parseTerm
      pure (.again (terms ++ term))) []
  expectSemi
  pure (add .PARSESTMT t 0 0 fold [src, list terms])

/-- The values of a `say` or `return` statement, up to its end. -/
def values (c : Calls) : P (List Node) := do
  let vs ← choose (atAny [.SEMI, .RBRACE, .EOF])
    (pure [])
    (do
      let v ← c.expr
      valueList c [v])
  expectSemi
  pure vs

/-- `Parser.say_stmt`. -/
def sayStmt (c : Calls) : P Node := do
  let t ← expect .SAY
  let args ← values c
  pure (add .SAY t 0 0 [] args)

/-- `Parser.defer_stmt`. -/
def deferStmt (c : Calls) : P Node := do
  let t ← expect .DEFER
  if ← atKind .LBRACE then
    let b ← c.block
    pure (add .DEFERSTMT t 0 1 [] [b])
  else if ← atKind .SAY then
    let s ← sayStmt c
    pure (add .DEFERSTMT t 0 1 [] [add .BLOCK t 0 0 [] [s]])
  else
    let x ← c.expr
    expectSemi
    pure (add .DEFERSTMT t 0 0 [] [x])

/-- The name and the types of a `catch`. -/
def catchHeader (c : Calls) : P (Str × List Node) := do
  if ← atKind .IDENT then
    let n ← next
    if ← accept .COLON then
      let ty ← c.typeExpr
      let types ← commaMore c.typeExpr [ty]
      pure (n.lit, types)
    else pure (n.lit, [])
  else pure ([], [])

/-- `Parser.trycatch_stmt`. -/
def trycatchStmt (c : Calls) : P Node := do
  let t ← expect .TRY
  let body ← c.block
  let catches ← loop (fun cs => do
    if ← skipSemisBefore .CATCH then
      let ct ← next
      let (name, types) ← catchHeader c
      let cb ← c.block
      pure (.again (cs ++ [add .CATCH ct 0 0 name [cb, list types]]))
    else pure (.stop cs)) []
  let fin ← choose (skipSemisBefore .FINALLY)
    (do
      let _ ← next
      c.block)
    (pure .none)
  expectSemi
  pure (add .TRYCATCH t 0 0 [] [body, list catches, fin])

/-- What a `throw` statement throws, and its cause. -/
def thrown (c : Calls) : P (Node × Node) := do
  if ← atAny [.SEMI, .RBRACE, .EOF] then pure (.none, .none)
  else
    let v ← c.expr
    if ← atWord "from" then
      let _ ← next
      let cause ← c.expr
      pure (v, cause)
    else pure (v, .none)

/-- `return`, `break`, `continue`, `drop`, `numeric` and `throw`, which `stmt` parses in place. -/
def wordStmt (c : Calls) (t : Token) : P Node := do
  let _ ← next
  if t.kind = .DROP then
    let n ← expect .IDENT
    expectSemi
    pure (add .DROP t 0 0 n.lit [])
  else if t.kind = .RETURN then
    let vs ← values c
    pure (add .RETURN t 0 0 [] vs)
  else if t.kind = .BREAK ∨ t.kind = .CONTINUE then
    let label ← choose (atKind .IDENT)
      (do
        let n ← next
        pure n.lit)
      (pure [])
    expectSemi
    pure (add (if t.kind = .CONTINUE then .CONTINUE else .BREAK) t 0 0 label [])
  else if t.kind = .NUMERIC then
    let w ← expect .IDENT
    check (w.lit = "digits".toList) (error "expected `digits` after `numeric`".toList)
    let n ← expect .INT
    expectSemi
    pure (add .NUMERIC t (atoi n.lit) 0 [] [])
  else
    let (v, cause) ← thrown c
    expectSemi
    pure (add .THROW t 0 0 [] [v, cause])

/-- A statement that starts with a name: a labelled loop, `fallthrough` or a simple one. -/
def identStmt (c : Calls) (t : Token) : P Node := do
  let k1 ← peekKind 1
  let k2 ← peekKind 2
  if k1 = .COLON ∧ (k2 = .FOR ∨ k2 = .EACH ∨ k2 = .WHILE) then
    let _ ← next
    let _ ← next
    loopStmt c t.lit
  else if t.lit = "fallthrough".toList ∧ (k1 = .SEMI ∨ k1 = .RBRACE) then
    let _ ← next
    expectSemi
    pure (add .FALLTHROUGH t 0 0 [] [])
  else simpleStmt c

/-- A statement that starts with `try`. -/
def tryStmt (c : Calls) : P Node := do
  let k1 ← peekKind 1
  if k1 = .LBRACE then trycatchStmt c
  else if k1 = .GROUP then
    let _ ← next
    groupStmt c 1
  else simpleStmt c

/-- `Parser.stmt`. -/
def stmt (c : Calls) : P Node := do
  let t ← cur
  if t.kind = .LET ∨ t.kind = .CONST then letStmt c
  else if t.kind = .VAR then varStmt c
  else if t.kind = .IF then ifStmt c
  else if t.kind = .FOR ∨ t.kind = .EACH ∨ t.kind = .WHILE then loopStmt c []
  else if t.kind = .IDENT then identStmt c t
  else if t.kind = .SWITCH then switchStmt c
  else if t.kind = .MATCH then matchStmt c
  else if t.kind = .SELECT then selectStmt c
  else if t.kind = .GROUP then groupStmt c 0
  else if t.kind = .PARSE then parseStmt c
  else if t.kind = .SAY then sayStmt c
  else if t.kind = .DEFER then deferStmt c
  else if [Kind.DROP, .RETURN, .BREAK, .CONTINUE, .NUMERIC, .THROW].contains t.kind then
    wordStmt c t
  else if t.kind = .TRY then tryStmt c
  else if t.kind = .LBRACE then block c
  else simpleStmt c

end Voila.Par
