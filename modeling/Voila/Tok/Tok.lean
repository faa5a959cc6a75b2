import Voila.Ir.Text

/-!
# Voila.Tok.Tok

The token vocabulary (`tok.voi`): the kinds the source numbers by integer constants,
and the tables that give each keyword and operator its spelling. The lexer reads the
tables from text to kind, the parser's diagnostics read them back.
-/

namespace Voila.Tok

/-- The kind of a token, under the name its constant has. -/
inductive Kind
  | EOF | ILLEGAL | SEMI | IDENT | INT | FLOAT | DEC | STR | ISTR | RUNE
  -- keywords
  | AND | AS | ATTEMPT | BREAK | CASE | CATCH | CHAN | CONST | CONTINUE | DEFER | DROP | EACH
  | ELSE | ENUM | EXCEPTION | FALSE | FINALLY | FOR | FUNC | GROUP | IF | IMPL | IMPORT | IN
  | LET | MATCH | MUST | MUT | NIL | NOT | NOTHROW | NUMERIC | OR | OWN | PACKAGE | PARSE
  | RETURN | SAY | SELECT | SELF | SHARED | SPAWN | STRUCT | SWITCH | THROW | THROWS | TRAIT
  | TRUE | TRY | TYPE | USE | VAR | WEAK | WHILE | YIELD
  -- operators and punctuation
  | PLUS | MINUS | STAR | SLASH | FLOORDIV | PERCENT | POWER | CONCAT | SHL | SHR | AMP | PIPE
  | CARET | TILDE | LT | LE | GT | GE | EQ | NE | ASSIGN | PLUSEQ | MINUSEQ | STAREQ | SLASHEQ
  | PERCENTEQ | CONCATEQ | DEFINE | LPAREN | RPAREN | LBRACKET | RBRACKET | LBRACE | RBRACE
  | COMMA | DOT | COLON | ARROW | FATARROW | RANGE | RANGEEQ | ELLIPSIS | BANG | QUESTION
  deriving Repr, DecidableEq

/-- `Keywords`, each with the kind its place in the list gives it. -/
def keywords : List (String × Kind) :=
  [("and", .AND), ("as", .AS), ("attempt", .ATTEMPT), ("break", .BREAK), ("case", .CASE),
   ("catch", .CATCH), ("chan", .CHAN), ("const", .CONST), ("continue", .CONTINUE),
   ("defer", .DEFER), ("drop", .DROP), ("each", .EACH), ("else", .ELSE), ("enum", .ENUM),
   ("exception", .EXCEPTION), ("false", .FALSE), ("finally", .FINALLY), ("for", .FOR),
   ("func", .FUNC), ("group", .GROUP), ("if", .IF), ("impl", .IMPL), ("import", .IMPORT),
   ("in", .IN), ("let", .LET), ("match", .MATCH), ("must", .MUST), ("mut", .MUT), ("nil", .NIL),
   ("not", .NOT), ("nothrow", .NOTHROW), ("numeric", .NUMERIC), ("or", .OR), ("own", .OWN),
   ("package", .PACKAGE), ("parse", .PARSE), ("return", .RETURN), ("say", .SAY),
   ("select", .SELECT), ("self", .SELF), ("shared", .SHARED), ("spawn", .SPAWN),
   ("struct", .STRUCT), ("switch", .SWITCH), ("throw", .THROW), ("throws", .THROWS),
   ("trait", .TRAIT), ("true", .TRUE), ("try", .TRY), ("type", .TYPE), ("use", .USE),
   ("var", .VAR), ("weak", .WEAK), ("while", .WHILE), ("yield", .YIELD)]

/-- `Ops3` with `Ops3Code`. -/
def ops3 : List (String × Kind) := [("...", .ELLIPSIS), ("..=", .RANGEEQ), ("||=", .CONCATEQ)]

/-- `Ops2` with `Ops2Code`. -/
def ops2 : List (String × Kind) :=
  [("..", .RANGE), ("**", .POWER), ("||", .CONCAT), ("~/", .FLOORDIV), ("<<", .SHL), (">>", .SHR),
   ("<=", .LE), (">=", .GE), ("==", .EQ), ("!=", .NE), ("+=", .PLUSEQ), ("-=", .MINUSEQ),
   ("*=", .STAREQ), ("/=", .SLASHEQ), ("%=", .PERCENTEQ), ("<-", .ARROW), ("=>", .FATARROW),
   (":=", .DEFINE)]

/-- `Ops1` with `Ops1Code`. -/
def ops1 : List (String × Kind) :=
  [("+", .PLUS), ("-", .MINUS), ("*", .STAR), ("/", .SLASH), ("%", .PERCENT), ("&", .AMP),
   ("|", .PIPE), ("^", .CARET), ("~", .TILDE), ("<", .LT), (">", .GT), ("=", .ASSIGN),
   ("(", .LPAREN), (")", .RPAREN), ("[", .LBRACKET), ("]", .RBRACKET), ("\x7b", .LBRACE),
   ("\x7d", .RBRACE), (",", .COMMA), (".", .DOT), (":", .COLON), ("!", .BANG), ("?", .QUESTION)]

/-- `tok.IsKeyword`. -/
def isKeyword (k : Kind) : Bool := keywords.any (·.2 == k)

/-- `tok.Name`. -/
def name (k : Kind) : String :=
  match k with
  | .EOF => "EOF"
  | .ILLEGAL => "ILLEGAL"
  | .SEMI => "SEMI"
  | .IDENT => "IDENT"
  | .INT => "INT"
  | .FLOAT => "FLOAT"
  | .DEC => "DEC"
  | .STR => "STR"
  | .ISTR => "ISTR"
  | .RUNE => "RUNE"
  | _ => if isKeyword k then "KW" else "OP"

/-- `tok.Spelling`: the source text of a keyword or an operator. -/
def spelling (k : Kind) : String :=
  match (keywords ++ ops3 ++ ops2 ++ ops1).find? (·.2 == k) with
  | some (s, _) => s
  | none => if k == .SEMI then ";" else name k

end Voila.Tok
