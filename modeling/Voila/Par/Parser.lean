import Voila.Tok.Tok
import Voila.Lib.Ends

/-!
# Voila.Par.Parser

The parser's state and its plumbing (`par.voi`).

The arena of package `ast` is a flat vector with integer child indices because the
language forbids a type that reaches itself; here a `Node` holds its children, and
`Node.none` is the id 0 of an absent one. A node's `Ival` is a node id for some kinds
(`IsRefKind`), an operator kind for others and a number for the rest: `ref` holds the
node, `ival` the other two.

An embedded expression of an interpolated string is lexed when it is parsed (`NewAt`
inside `interp_str`); a token holds the tokens this gives, with the place of their
final `EOF`, which is how every list the lexer hands over ends.

The recursive descent is written with open recursion: the parsing functions take a
record `Calls` of the entry points that the grammar uses before it defines them, and
`Parse.lean` ties the knot. A loop of the source is a `loop`. It cannot go round more
often than there are tokens left without having stood still, and would fail then;
that this never happens is proved, not assumed.
-/

namespace Voila.Par

open Tok Lib

/-- A piece of an interpolated string: text, or the tokens of an expression, their
`EOF` at `line` and `col`, and what the lexer had to say about them. -/
inductive Part (T : Type)
  | text (s : Str)
  | expr (ts : List T) (line col : Nat) (errs : List Str)

/-- `tok.Token`, with the parts of an interpolated string in place of their index. -/
structure Token where
  kind : Kind
  lit : Str
  line : Nat
  col : Nat
  parts : List (Part Token)

mutual

/-- How much parsing a token can cost: one, and one for each token inside it. -/
def Token.weight : Token → Nat
  | ⟨_, _, _, _, ps⟩ => 1 + weightParts ps

def weightParts : List (Part Token) → Nat
  | [] => 0
  | p :: ps => weightPart p + weightParts ps

def weightPart : Part Token → Nat
  | .text _ => 0
  | .expr ts _ _ _ => weightTokens ts + 1

def weightTokens : List Token → Nat
  | [] => 0
  | t :: ts => t.weight + weightTokens ts

end

/-- The token `EOF` that ends a list. -/
def eofToken (line col : Nat) : Token := ⟨.EOF, [], line, col, []⟩

/-- The kinds of tree nodes (`ast.voi`). -/
inductive Ast
  | LIST
  -- expressions
  | IDENT | SELF | INT | FLOAT | DEC | STR | RUNE | BOOL | NILLIT | INTERP | UNARY | BINARY
  | RANGE | CALL | INDEX | FIELD | COMPOSITE | SLICELIT | TUPLE | CLOSURE | TRYEXPR | MUSTEXPR
  | ATTEMPT | ELSEEXPR | SPAWNEXPR | MAPLIT
  -- statements
  | BLOCK | LET | VAR | ASSIGN | EXPRSTMT | IF | FOR | EACH | WHILE | SWITCH | MATCH | SELECTSTMT
  | GROUP | PARSESTMT | SAY | DEFERSTMT | DROP | RETURN | BREAK | CONTINUE | FALLTHROUGH | NUMERIC
  | THROW | TRYCATCH
  -- declarations
  | FILE | USE | FUNC | STRUCTDEC | ENUMDEC | TRAITDEC | IMPLDEC | EXCDEC | TYPEDEC | GLOBAL | FFIDEC
  -- auxiliary
  | PARAM | FIELDDECL | VARIANTDEC | ARG | CASE | ARM | SELCASE | CATCH | COMPFIELD | PARSETERM
  | GENERIC
  -- types
  | TNAMED | TOPTION | TRESULT | TSLICE | TMAP | TSET | TCHAN | TBOX | TFN | TTUPLE | TBORROW
  -- patterns
  | PWILD | PNIL | PLIT | PBIND | PVARIANT | POR | PRANGE | PSTRUCT | PFIELD | PTUPLE
  deriving Repr, DecidableEq

/-- `Ival` of a node that keeps no node there. -/
inductive Ival
  | num (n : Int)
  | op (k : Kind)
  deriving Repr, DecidableEq

/-- `ast.Node` with its subtrees. -/
inductive Node
  | none
  | mk (kind : Ast) (line col : Nat) (ival : Ival) (ref : Node) (ival2 : Int) (sval : Str)
      (kids : List Node)

namespace Node

/-- `Tree.Kind`; the nil node has none. -/
def kind : Node → Option Ast
  | none => .none
  | mk k .. => some k

/-- `Tree.Get(x).Kids`. -/
def kids : Node → List Node
  | none => []
  | mk _ _ _ _ _ _ _ ks => ks

/-- `Tree.Get(x).Sval`. -/
def sval : Node → Str
  | none => []
  | mk _ _ _ _ _ _ s _ => s

/-- `Tree.Get(x).Ival2`. -/
def ival2 : Node → Int
  | none => 0
  | mk _ _ _ _ _ n _ _ => n

/-- `Tree.Get(x).Line` and `Col`. -/
def pos : Node → Nat × Nat
  | none => (0, 0)
  | mk _ l c .. => (l, c)

def isNone : Node → Bool
  | none => true
  | mk .. => false

end Node

/-- `Tree.Add` at the place of another node. -/
def addAt (kind : Ast) (at' : Node) (ref : Node) (sval : Str) (kids : List Node) : Node :=
  .mk kind at'.pos.1 at'.pos.2 (.num 0) ref 0 sval kids

/-- `Parser.add`, for a node whose `Ival` is a number. -/
def add (kind : Ast) (t : Token) (ival : Int) (ival2 : Int) (sval : Str) (kids : List Node) :
    Node :=
  .mk kind t.line t.col (.num ival) .none ival2 sval kids

/-- `Parser.add`, for a node whose `Ival` is an operator. -/
def addOp (kind : Ast) (t : Token) (op : Kind) (kids : List Node) : Node :=
  .mk kind t.line t.col (.op op) .none 0 [] kids

/-- `Parser.add`, for a node whose `Ival` is a node. -/
def addRef (kind : Ast) (t : Token) (ref : Node) (ival2 : Int) (sval : Str) (kids : List Node) :
    Node :=
  .mk kind t.line t.col (.num 0) ref ival2 sval kids

/-- `Tree.List`. -/
def list (kids : List Node) : Node := .mk .LIST 0 0 (.num 0) .none 0 [] kids

/-- `Parser`, less the arena. -/
structure Parser where
  ts : List Token
  i : Nat
  file : Str
  errs : List Str
  /-- Above 0 inside a statement header. -/
  noLit : Nat
  /-- Above 0 inside brackets. -/
  lev : Nat
  selfFlags : Nat
  /-- Above 0 while a one-statement match arm is parsed. -/
  armComma : Nat
  selfTy : Node
  selfName : Str

/-- Why a run of the parser has no result. -/
inductive Crash
  /-- A read of `ts` at an index it does not have. -/
  | pastEnd
  /-- A loop that stands still, or a descent that does not end. -/
  | stuck
  deriving Repr, DecidableEq

/-- What a method of the parser does. -/
abbrev P := StateT Parser (Except Crash)

/-- The entry points of the grammar that are used before they are defined. -/
structure Calls where
  typeExpr : P Node
  expr : P Node
  unary : P Node
  binary : Nat → P Node
  block : P Node
  pattern : P Node
  stmt : P Node
  ifExpr : P Node
  ifStmt : P Node

/-- A `while` loop. -/
def loop {α β : Type} (body : β → P (Turn β α)) (x : β) : P α := fun s =>
  turns .stuck body (s.ts.length - s.i) x s

/-! ### Plumbing -/

/-- A read of `ts`. -/
def tokenAt (s : Parser) (j : Nat) : Except Crash Token :=
  match s.ts[j]? with
  | some t => .ok t
  | none => .error .pastEnd

/-- `Parser.cur`. -/
def cur : P Token := fun s => do
  let t ← tokenAt s s.i
  pure (t, s)

/-- `Parser.peek`. -/
def peek (n : Nat) : P Token := fun s => do
  let t ← tokenAt s (if s.i + n ≥ s.ts.length then s.ts.length - 1 else s.i + n)
  pure (t, s)

/-- The kind of the token `n` ahead. -/
def peekKind (n : Nat) : P Kind := do
  let t ← peek n
  pure t.kind

/-- `Parser.at`. -/
def atKind (k : Kind) : P Bool := do
  let t ← cur
  pure (t.kind == k)

/-- `self.at(k) or self.at(k') or …`. -/
def atAny (ks : List Kind) : P Bool := do
  let t ← cur
  pure (ks.contains t.kind)

/-- `self.at(tok.IDENT) and self.cur().Lit == w`: a word that is no keyword. -/
def atWord (w : String) : P Bool := do
  let t ← cur
  pure (t.kind == .IDENT && t.lit == w.toList)

/-- `Parser.next`. -/
def next : P Token := fun s => do
  let t ← tokenAt s s.i
  pure (t, if s.i < s.ts.length - 1 then { s with i := s.i + 1 } else s)

/-- `Parser.accept`. -/
def accept (k : Kind) : P Bool := do
  if ← atKind k then
    let _ ← next
    pure true
  else
    pure false

/-- `Errs.append`. -/
def report (msg : Str) : P Unit := modify fun s => { s with errs := s.errs ++ [msg] }

/-- `"{file}:{line}:{col}: {msg}"`. -/
def diagnostic (file : Str) (line col : Nat) (msg : Str) : Str :=
  file ++ [':'] ++ Nat.toDigits 10 line ++ [':'] ++ Nat.toDigits 10 col ++ ": ".toList ++ msg

/-- The report of an error at a given token. -/
def errorAt (t : Token) (msg : Str) : P Unit := do
  let s ← get
  report (diagnostic s.file t.line t.col msg)

/-- `Parser.error`. -/
def error (msg : Str) : P Unit := do
  let t ← cur
  errorAt t msg

/-- `Parser.show`. -/
def shown (t : Token) : Str :=
  let n := name t.kind
  if n = "IDENT" ∨ n = "KW" ∨ n = "INT" then n.toList ++ ['('] ++ t.lit ++ [')']
  else if n = "OP" then (spelling t.kind).toList
  else n.toList

/-- `self.error("… found {self.show()}")`. -/
def errorFound (what : String) : P Unit := do
  let t ← cur
  error (what.toList ++ ", found ".toList ++ shown t)

/-- `Parser.expect`. -/
def expect (k : Kind) : P Token := do
  if ← atKind k then
    next
  else
    errorFound ("expected " ++ spelling k)
    let t ← cur
    pure ⟨k, [], t.line, t.col, []⟩

/-- `Parser.skip_semis`. -/
def skipSemis : P Unit :=
  loop (fun _ => do
    if ← atKind .SEMI then
      let _ ← next
      pure (.again ())
    else pure (.stop ())) ()

/-- The scan of `skip_semis_before`: the index of the first token from `j` on that is
no semicolon, in the tokens from `j` on. -/
def pastSemis : List Token → Nat → Except Crash (Token × Nat)
  | [], _ => .error .pastEnd
  | t :: ts, j => if t.kind = .SEMI then pastSemis ts (j + 1) else .ok (t, j)

/-- `Parser.skip_semis_before`. -/
def skipSemisBefore (k : Kind) : P Bool := fun s => do
  let (t, j) ← pastSemis (s.ts.drop s.i) s.i
  if t.kind = k then pure (true, { s with i := j }) else pure (false, s)

/-- The recovery of `expect_semi`: up to a token of one of the kinds. -/
def skipTo (ks : List Kind) : P Unit :=
  loop (fun _ => do
    if ← atAny ks then pure (.stop ())
    else
      let _ ← next
      pure (.again ())) ()

/-- `Parser.expect_semi`. -/
def expectSemi : P Unit := do
  if ← atKind .SEMI then
    skipSemis
  else
    let s ← get
    let comma ← atKind .COMMA
    if s.armComma > 0 && comma then
      let _ ← next
      skipSemis
    else if ← atAny [.RBRACE, .EOF] then
      pure ()
    else
      errorFound "expected end of statement"
      skipTo [.SEMI, .RBRACE, .EOF]
      skipSemis

/-- A body run after a change of the state, and a second change that undoes the first;
it may look at the state before: `let saved = self.noLit`, …, `self.noLit = saved`. -/
def within {α : Type} (enter : Parser → Parser) (leave : Parser → Parser → Parser) (body : P α) :
    P α := do
  let saved ← get
  modify enter
  let a ← body
  modify (leave saved)
  pure a

/-- `self.lev += 1`, the body, `self.lev -= 1`. -/
def bracketed {α : Type} (body : P α) : P α :=
  within (fun s => { s with lev := s.lev + 1 }) (fun _ s => { s with lev := s.lev - 1 }) body

/-- A value read one way or the other, as a test of the tokens says. -/
def choose {α : Type} (test : P Bool) (thn els : P α) : P α := do
  if ← test then thn else els

/-- A value read one way or the other, as a condition on what was read says. -/
def either {α : Type} (c : Prop) [Decidable c] (thn els : P α) : P α := if c then thn else els

/-- A report unless a condition holds. -/
def check (c : Prop) [Decidable c] (m : P Unit) : P Unit := if c then pure () else m

/-! ### Lists -/

/-- `while not self.at(close) and not self.at(tok.EOF) { …; if not self.accept(tok.COMMA) { break } }` -/
def commaList {α : Type} (close : Kind) (item : P α) : P (List α) :=
  loop (fun xs => do
    if ← atAny [close, .EOF] then pure (.stop xs)
    else
      let x ← item
      if ← accept .COMMA then pure (.again (xs ++ [x])) else pure (.stop (xs ++ [x]))) []

/-- An item, and one more after each comma: `while self.accept(tok.COMMA) { … }`. -/
def commaMore {α : Type} (item : P α) (xs : List α) : P (List α) :=
  loop (fun xs => do
    if ← accept .COMMA then
      let x ← item
      pure (.again (xs ++ [x]))
    else pure (.stop xs)) xs

/-- `while true { self.skip_semis(); if … { break }; … }` -/
def members {α : Type} (done : P Bool) (item : P α) : P (List α) :=
  loop (fun xs => do
    skipSemis
    if ← done then pure (.stop xs)
    else
      let x ← item
      pure (.again (xs ++ [x]))) []

/-- The end of most bodies: `self.at(tok.RBRACE) or self.at(tok.EOF)`. -/
def atBodyEnd : P Bool := atAny [.RBRACE, .EOF]

end Voila.Par
