import Voila.Par.Stmt

/-!
# Voila.Par.Decl

Declarations and whole files (`par.voi`).
-/

namespace Voila.Par

open Tok Lib

/-! ### Generics -/

/-- `Parser.bound_list`. -/
def boundList (c : Calls) : P (List Node) :=
  loop (fun bs => do
    let b ← typeExpr c
    check (b.kind = some .TNAMED)
      (error "a bound names a trait, such as `Show` or `Into[str]` (§3.7)".toList)
    if ← accept .PLUS then pure (.again (bs ++ [b])) else pure (.stop (bs ++ [b]))) []

/-- `Parser.bound_names`. -/
def boundNames (bounds : List Node) : Str := join '+' (bounds.map Node.sval)

/-- A `GENERIC` node. -/
def generic (n : Token) (bounds : List Node) : Node :=
  add .GENERIC n 0 0 (labelled n.lit (boundNames bounds)) bounds

/-- `Parser.generics`. -/
def generics (c : Calls) : P (List Node) := do
  if ← accept .LBRACKET then
    let gs ← commaList .RBRACKET (do
      let n ← expect .IDENT
      let bounds ← choose (accept .COLON) (boundList c) (pure [])
      pure (generic n bounds))
    let _ ← expect .RBRACKET
    pure gs
  else pure []

/-- `Parser.at_where`, on the tokens from the current one on: semicolons, which may not
be the last token, then `where NAME :`. -/
def whereScan : List Token → Bool
  | t :: n :: k :: ts =>
    if t.kind = .SEMI then whereScan (n :: k :: ts)
    else t.kind == .IDENT && t.lit == "where".toList && n.kind == .IDENT && k.kind == .COLON
  | _ => false

/-- `Parser.at_where`. -/
def atWhere : P Bool := do
  let s ← get
  pure (whereScan (s.ts.drop s.i))

/-- The name of a generic: the text before the `|`. -/
def genericName (g : Node) : Str := g.sval.takeWhile (· != '|')

/-- A generic with further bounds. -/
def withBounds (bounds : List Node) : Node → Node
  | .none => .none
  | .mk k l col iv ref i2 s ks =>
    .mk k l col iv ref i2 (labelled (s.takeWhile (· != '|')) (boundNames (ks ++ bounds)))
      (ks ++ bounds)

/-- The bounds go to the last generic of the name; `none` when there is none. -/
def addBounds (name : Str) (bounds : List Node) : List Node → Option (List Node)
  | [] => none
  | g :: gs =>
    match addBounds name bounds gs with
    | some gs => some (g :: gs)
    | none => if genericName g = name then some (withBounds bounds g :: gs) else none

/-- `Parser.where_clause`: the generics with the bounds of the clause. -/
def whereClause (c : Calls) (gens : List Node) : P (List Node) := do
  if ← atWhere then
    skipSemis
    let _ ← next
    loop (fun gens => do
      let n ← expect .IDENT
      let _ ← expect .COLON
      let bounds ← boundList c
      let bounded := addBounds n.lit bounds gens
      check (bounded.isSome) (errorAt n ("`where` names `".toList ++ n.lit ++
        "`, which is not a type parameter of this declaration (§3.7)".toList))
      if ← accept .COMMA then pure (.again (bounded.getD gens))
      else pure (.stop (bounded.getD gens))) gens
  else pure gens

/-! ### Functions -/

/-- The results of a function. -/
def results (c : Calls) : P (List Node) := do
  let none' ← atAny [.LBRACE, .SEMI, .THROWS, .NOTHROW, .ASSIGN, .EOF]
  let wher ← atWhere
  if none' ∨ wher then pure []
  else if ← accept .LPAREN then
    let rs ← commaList .RPAREN (typeExpr c)
    let _ ← expect .RPAREN
    pure rs
  else
    let r ← typeExpr c
    pure [r]

/-- `throws` or `nothrow`: the exceptions and the flag. -/
def throwsClause (c : Calls) : P (List Node × Nat) := do
  if ← accept .THROWS then
    let t ← typeExpr c
    let thr ← commaMore (typeExpr c) [t]
    pure (thr, 0)
  else if ← accept .NOTHROW then pure ([], 8)
  else pure ([], 0)

/-- The body of a function, or the default of a trait's method. -/
def funcBody (c : Calls) : P (Node × Node) := do
  if ← atKind .LBRACE then
    let b ← block c
    pure (b, .none)
  else if ← accept .ASSIGN then
    let e ← c.expr
    pure (.none, e)
  else pure (.none, .none)

/-- `Parser.func_decl`. -/
def funcDecl (c : Calls) : P Node := do
  let t ← expect .FUNC
  let name ← expect .IDENT
  let gens ← generics c
  let ps ← params c
  let s ← get
  modify fun s => { s with selfFlags := 0 }
  let rs ← results c
  let (thr, nothrow) ← throwsClause c
  let gens ← whereClause c gens
  let (body, dflt) ← funcBody c
  pure (add .FUNC t 0 (s.selfFlags ||| nothrow : Nat) name.lit
    [body, ps, list rs, list gens, list thr, dflt])

/-! ### The foreign interface -/

/-- `ffi_base`: the code of a C type name, empty for an unknown one. -/
def ffiBase (n : Str) : Str :=
  if ["char", "i8", "schar", "int8_t"].any (·.toList = n) then "i8".toList
  else if ["uchar", "u8", "byte", "uint8_t"].any (·.toList = n) then "u8".toList
  else if ["short", "i16", "int16_t"].any (·.toList = n) then "i16".toList
  else if ["ushort", "u16", "uint16_t"].any (·.toList = n) then "u16".toList
  else if ["int", "i32", "int32_t"].any (·.toList = n) then "i32".toList
  else if ["uint", "u32", "unsigned", "uint32_t"].any (·.toList = n) then "u32".toList
  else if ["long", "i64", "int64_t", "isize", "ssize_t", "longlong", "off_t", "intptr_t",
      "ptrdiff_t"].any (·.toList = n) then "i64".toList
  else if ["ulong", "u64", "uint64_t", "usize", "size_t", "ulonglong", "uintptr_t"].any
      (·.toList = n) then "u64".toList
  else if ["float", "f32"].any (·.toList = n) then "f32".toList
  else if ["double", "f64"].any (·.toList = n) then "f64".toList
  else if ["bool", "_Bool"].any (·.toList = n) then "bool".toList
  else if n = "void".toList then "void".toList
  else []

/-- `link_name_ok`. -/
def linkNameOk (s : Str) : Bool :=
  s ≠ [] && s.all (fun ch => ch.isAlphanum || ch == '_' || ch == '.' || ch == '+' || ch == '-') &&
    s.head? != some '-'

/-- `Parser.ffi_ctype`. -/
def ffiCtype : P Str := do
  let stars ← loop (fun stars => do
    let t ← cur
    if t.kind = .STAR then
      let _ ← next
      pure (.again (stars + 1))
    else if t.kind = .POWER then
      let _ ← next
      pure (.again (stars + 2))
    else pure (.stop stars)) 0
  let n ← expect .IDENT
  let base := ffiBase n.lit
  if base = [] then
    errorAt n ("`".toList ++ n.lit ++ ("` is not a C type an ffi block knows (§12): use int, " ++
      "long, usize, i32, u8, double, bool, *char, *void and the like").toList)
    pure "i64".toList
  else if stars = 0 then pure base
  else if stars = 1 ∧ n.lit = "char".toList then pure "cstr".toList
  else pure "ptr".toList

/-- `Parser.ffi_vtype`. -/
def ffiVtype (at' : Token) (ct : Str) (result : Bool) : Node :=
  if ct = "cstr".toList then
    let s := add .TNAMED at' 0 0 "str".toList []
    if result then add .TOPTION at' 0 0 [] [s] else s
  else
    let name :=
      if ct = "ptr".toList then "ffi.Ptr".toList
      else if ct = "bool".toList then "bool".toList
      else if ct = "f32".toList ∨ ct = "f64".toList then "float".toList
      else if result = false ∧ ["i8", "u8", "i16", "u16", "i32", "u32", "u64"].any (·.toList = ct)
      then ct
      else "int".toList
    add .TNAMED at' 0 0 name []

/-- A variadic parameter of a C prototype. -/
def restParam (e : Token) (name : Str) : Node := addRef .PARAM e .none 16 name [.none]

/-- One turn of the parameters of a C prototype: the nodes, the C types, and whether the
prototype is variadic. -/
def ffiParamTurn (x : List Node × List Str) :
    P (Turn (List Node × List Str) (List Node × List Str × Bool)) := do
  if ← atAny [.RPAREN, .EOF] then pure (.stop (x.1, x.2, false))
  else if ← atKind .ELLIPSIS then
    let e ← next
    pure (.stop (x.1 ++ [restParam e "args".toList], x.2, true))
  else
    let pn ← expect .IDENT
    if ← accept .ELLIPSIS then pure (.stop (x.1 ++ [restParam pn pn.lit], x.2, true))
    else
      let ct ← ffiCtype
      check (ct ≠ "void".toList)
        (error ("`void` is not a parameter type; a C function with no parameters is " ++
          "written `()`").toList)
      let y := (x.1 ++ [addRef .PARAM pn (ffiVtype pn ct false) 0 pn.lit [.none]], x.2 ++ [ct])
      if ← accept .COMMA then pure (.again y) else pure (.stop (y.1, y.2, false))

/-- `Parser.ffi_func`. -/
def ffiFunc : P Node := do
  let t ← expect .FUNC
  let name ← expect .IDENT
  let _ ← expect .LPAREN
  let (ps, ctys, variadic) ← loop ffiParamTurn ([], [])
  let _ ← expect .RPAREN
  let ret ← choose (atAny [.SEMI, .RBRACE, .EOF]) (pure "void".toList) ffiCtype
  let rs := if ret = "void".toList then [] else [ffiVtype t ret true]
  let sig := add .STR name 0 0
    ('@' :: labelled name.lit (labelled ret (labelled (join ',' ctys)
      (if variadic then ['1'] else ['0'])))) []
  pure (add .FUNC t 0 32 name.lit [.none, list ps, list rs, list [], list [], .none, sig])

/-- One entry of an `ffi` block: a library to link, or a function. -/
def ffiEntry : P (Option Node × Option Node) := do
  if ← atWord "link" then
    let _ ← next
    let lib ← expect .STR
    check (linkNameOk lib.lit)
      (errorAt lib ("`link \"".toList ++ lib.lit ++ ("\"` must name a library — letters, " ++
        "digits, `_`, `.`, `+` and `-` — as cc's -l takes it").toList))
    pure (some (add .STR lib 0 0 lib.lit []), none)
  else if ← atKind .FUNC then
    let f ← ffiFunc
    pure (none, some f)
  else
    errorFound "expected `func` or `link` in an ffi block"
    let _ ← next
    pure (none, none)

/-- `Parser.ffi_block`. -/
def ffiBlock : P (List Node) := do
  let t ← next
  let abi ← expect .STR
  check (abi.lit = "C".toList) (error "the only foreign ABI is \"C\" (§12)".toList)
  let _ ← expect .LBRACE
  skipSemis
  let entries ← loop (fun xs => do
    if ← atBodyEnd then pure (.stop xs)
    else
      let x ← ffiEntry
      expectSemi
      skipSemis
      pure (.again (xs ++ [x]))) []
  let _ ← expect .RBRACE
  pure (add .FFIDEC t 0 0 abi.lit [list (entries.filterMap Prod.fst)] ::
    entries.filterMap Prod.snd)

/-! ### Types of the program -/

/-- A field with its type and its default. -/
def fieldDecl (c : Calls) : P Node := do
  let n ← expect .IDENT
  let ty ← typeExpr c
  let dflt ← choose (accept .ASSIGN) c.expr (pure .none)
  pure (addRef .FIELDDECL n ty 0 n.lit [dflt])

/-- The separator after a member: a comma, or the end of a line or of the body. -/
def separator (term : Kind) : P Unit := do
  if ← accept .COMMA then pure ()
  else if ← atKind term then pure ()
  else expectSemi

/-- `Parser.field_list`. -/
def fieldList (c : Calls) (term : Kind) : P (List Node) :=
  loop (fun fs => do
    if ← atAny [term, .EOF] then pure (.stop fs)
    else
      skipSemis
      if ← atKind term then pure (.stop fs)
      else
        let f ← fieldDecl c
        separator term
        skipSemis
        pure (.again (fs ++ [f]))) []

/-- `Parser.struct_decl`. -/
def structDecl (c : Calls) : P Node := do
  let t ← expect .STRUCT
  let n ← expect .IDENT
  let gens ← generics c
  let _ ← expect .LBRACE
  let fs ← fieldList c .RBRACE
  let _ ← expect .RBRACE
  pure (add .STRUCTDEC t 0 0 n.lit [list fs, list gens])

/-- A field of a variant: named, or a bare type, which its index names. -/
def variantField (c : Calls) (idx : Nat) : P Node := do
  let here ← cur
  let k1 ← peekKind 1
  if here.kind = .IDENT ∧ (k1 = .IDENT ∨ typeStart k1) then
    let _ ← next
    let ty ← c.typeExpr
    pure (addRef .FIELDDECL here ty 0 here.lit [.none])
  else
    let ty ← typeExpr c
    pure (addRef .FIELDDECL here ty 0 ('_' :: Nat.toDigits 10 idx) [.none])

/-- The fields of a variant, which `idx` numbers. -/
def variantFields (c : Calls) : P (List Node) :=
  loop (fun fs => do
    if ← atAny [.RPAREN, .EOF] then pure (.stop fs)
    else
      let f ← variantField c fs.length
      if ← accept .COMMA then pure (.again (fs ++ [f])) else pure (.stop (fs ++ [f]))) []

/-- A variant of an enum, with the separator after it. -/
def variant (c : Calls) : P Node := do
  let vn ← expect .IDENT
  let fs ← choose (accept .LPAREN)
    (do
      let fs ← bracketed (variantFields c)
      let _ ← expect .RPAREN
      pure fs)
    (pure [])
  separator .RBRACE
  pure (add .VARIANTDEC vn 0 0 vn.lit [list fs])

/-- `Parser.enum_decl`. -/
def enumDecl (c : Calls) : P Node := do
  let t ← expect .ENUM
  let n ← expect .IDENT
  let gens ← generics c
  let _ ← expect .LBRACE
  let vs ← members atBodyEnd (variant c)
  let _ ← expect .RBRACE
  pure (add .ENUMDEC t 0 0 n.lit [list vs, list gens])

/-- A member of a trait: a method, or an associated type, which the language has not. -/
def traitMember (c : Calls) : P (Option Node) := do
  if ← atKind .TYPE then
    error ("a trait has no associated types; make the trait generic instead, as in `trait " ++
      "Iterator[T] \x7b func next(mut self) ?T \x7d` (§3.6)").toList
    skipTo [.SEMI, .RBRACE, .EOF]
    pure none
  else
    let f ← funcDecl c
    skipSemis
    pure (some f)

/-- `Parser.trait_decl`. -/
def traitDecl (c : Calls) : P Node := do
  let t ← expect .TRAIT
  let n ← expect .IDENT
  let gens ← generics c
  let gens ← whereClause c gens
  let _ ← expect .LBRACE
  let ms ← members atBodyEnd (traitMember c)
  let _ ← expect .RBRACE
  pure (add .TRAITDEC t 0 0 n.lit [list (ms.filterMap id), list gens])

/-- A method of an impl block. -/
def method (c : Calls) : P Node := do
  let f ← funcDecl c
  skipSemis
  pure f

/-- The trait and the target of an impl block. -/
def implHeader (c : Calls) : P (Str × Node × Node) := do
  let first ← typeExpr c
  if ← accept .FOR then
    check (first.kind = some .TNAMED) (error "trait name expected before `for`".toList)
    let ty ← typeExpr c
    pure (first.sval, first, ty)
  else pure ([], .none, first)

/-- `Parser.impl_decl`: inside the braces `Self` is the target, if that has a name. -/
def implDecl (c : Calls) : P Node := do
  let t ← expect .IMPL
  let gens ← generics c
  let (traitName, traitTy, ty) ← implHeader c
  let gens ← whereClause c gens
  let _ ← expect .LBRACE
  let saved ← get
  modify fun s =>
    if ty.kind = some .TNAMED then { s with selfTy := ty, selfName := ty.sval } else s
  let ms ← members atBodyEnd (method c)
  modify fun s => { s with selfTy := saved.selfTy, selfName := saved.selfName }
  let _ ← expect .RBRACE
  pure (addRef .IMPLDEC t ty 0 traitName [list ms, list gens, traitTy])

/-- A member of an exception: a method or a field. -/
def exceptionMember (c : Calls) : P (Option Node × Option Node) := do
  if ← atKind .FUNC then
    let f ← funcDecl c
    skipSemis
    pure (none, some f)
  else
    let f ← fieldDecl c
    let _ ← accept .COMMA
    skipSemis
    pure (some f, none)

/-- `Parser.exception_decl`. -/
def exceptionDecl (c : Calls) : P Node := do
  let t ← expect .EXCEPTION
  let n ← expect .IDENT
  let _ ← expect .LBRACE
  let ms ← members atBodyEnd (exceptionMember c)
  let _ ← expect .RBRACE
  pure (add .EXCDEC t 0 0 n.lit
    [list (ms.filterMap Prod.fst), list (ms.filterMap Prod.snd)])

/-- What a `type` declaration names: an alias, a struct or the type under a newtype. -/
def typeTarget (c : Calls) (n : Token) : P (Node × Node × Int) := do
  if ← accept .ASSIGN then
    let ty ← typeExpr c
    pure (ty, .none, 1)
  else if ← accept .STRUCT then
    let _ ← expect .LBRACE
    let fs ← fieldList c .RBRACE
    let _ ← expect .RBRACE
    pure (.none, add .STRUCTDEC n 0 0 n.lit [list fs, list []], 0)
  else
    let ty ← typeExpr c
    pure (ty, .none, 0)

/-- `Parser.type_decl`. -/
def typeDecl (c : Calls) : P Node := do
  let t ← expect .TYPE
  let n ← expect .IDENT
  let (target, strct, isAlias) ← typeTarget c n
  expectSemi
  pure (addRef .TYPEDEC t target isAlias n.lit [strct])

/-! ### Files -/

/-- The tokens that start a declaration (`decl_start`). -/
def declStart : List Kind := [.FUNC, .STRUCT, .ENUM, .TRAIT, .IMPL, .EXCEPTION, .TYPE]

/-- `Parser.decl`. -/
def decl (c : Calls) : P Node := do
  let t ← cur
  if t.kind = .FUNC then funcDecl c
  else if t.kind = .STRUCT then structDecl c
  else if t.kind = .ENUM then enumDecl c
  else if t.kind = .TRAIT then traitDecl c
  else if t.kind = .IMPL then implDecl c
  else if t.kind = .EXCEPTION then exceptionDecl c
  else if t.kind = .TYPE then typeDecl c
  else
    errorFound "expected declaration"
    let _ ← next
    pure .none

/-- What follows the path of a `use`: an alias, names, or a wildcard. -/
def useNames : P (Str × Int × List Node) := do
  if ← accept .AS then
    let n ← expect .IDENT
    pure (n.lit, 0, [])
  else if ← accept .LBRACE then
    let names ← commaList .RBRACE (do
      let n ← expect .IDENT
      pure (add .IDENT n 0 0 n.lit []))
    let _ ← expect .RBRACE
    pure ([], if names.length > 0 then 1 else 0, names)
  else if ← accept .STAR then pure ([], 2, [])
  else pure ([], 0, [])

/-- `Parser.use_decl`. -/
def useDecl : P Node := do
  let t ← expect .USE
  let path ← expect .STR
  let (aka, flags, names) ← useNames
  expectSemi
  pure (add .USE t 0 flags (labelled path.lit aka) names)

/-- The contents of a file. -/
structure Contents where
  uses : List Node
  decls : List Node
  script : List Node

/-- One item of a file. -/
def fileItem (c : Calls) (f : Contents) : P Contents := do
  let here ← cur
  let word ← atWord "ffi"
  let k1 ← peekKind 1
  if here.kind = .USE then
    let u ← useDecl
    pure { f with uses := f.uses ++ [u] }
  else if word ∧ k1 = .STR then
    let ds ← ffiBlock
    pure { f with decls := f.decls ++ ds }
  else if declStart.contains here.kind then
    let d ← decl c
    pure { f with decls := f.decls ++ [d] }
  else if here.kind = .CONST ∨ here.kind = .LET ∨ here.kind = .VAR then
    let s ← stmt c
    pure { f with decls := f.decls ++ [add .GLOBAL here 0 0 [] [s]] }
  else
    let s ← stmt c
    pure { f with script := f.script ++ [s] }

/-- The package clause. -/
def package : P Str := do
  if ← accept .PACKAGE then
    let n ← expect .IDENT
    expectSemi
    pure n.lit
  else pure []

/-- An `ffi` block needs `std/ffi`: the report at the first block without it. -/
def ffiNeedsUse (f : Contents) : P Unit := do
  match f.decls.find? (·.kind = some .FFIDEC) with
  | none => pure ()
  | some d =>
    if f.uses.any (fun u => u.sval.takeWhile (· != '|') = "std/ffi".toList) then pure ()
    else
      let s ← get
      report (diagnostic s.file d.pos.1 d.pos.2 "an `ffi` block needs `use \"std/ffi\"` (§12)".toList)

/-- `Parser.File`. -/
def file (c : Calls) : P Node := do
  let start ← cur
  skipSemis
  let pkg ← package
  skipSemis
  let f ← loop (fun f => do
    skipSemis
    if ← atKind .EOF then pure (.stop f)
    else
      let f ← fileItem c f
      skipSemis
      pure (.again f)) ⟨[], [], []⟩
  ffiNeedsUse f
  pure (add .FILE start 0 0 pkg [list f.uses, list f.decls, list f.script])

/-! ### The knot -/

/-- The entry points, with at most `n` of them inside one another. -/
def calls : Nat → Calls
  | 0 =>
    { typeExpr := throw .stuck, expr := throw .stuck, unary := throw .stuck,
      binary := fun _ => throw .stuck, block := throw .stuck, pattern := throw .stuck,
      stmt := throw .stuck, ifExpr := throw .stuck, ifStmt := throw .stuck }
  | n + 1 =>
    { typeExpr := typeExpr (calls n), expr := expr (calls n), unary := unary (calls n),
      binary := binary (calls n), block := block (calls n), pattern := pattern (calls n),
      stmt := stmt (calls n), ifExpr := ifExpr (calls n), ifStmt := ifStmt (calls n) }

/-- How deep the entry points can be inside one another on a list of tokens. -/
def depth (ts : List Token) : Nat := 2 * weightTokens ts

/-- `New`, on the tokens of a text and the lexer's errors: a parser at the first of them. -/
def newParser (fileName : Str) (ts : List Token) (line col : Nat) (errs : List Str) : Parser :=
  { ts := ts ++ [eofToken line col], i := 0, file := fileName, errs := errs, noLit := 0, lev := 0,
    selfFlags := 0, armComma := 0, selfTy := .none, selfName := [] }

/-- `New` and then `File`. -/
def parseFile (fileName : Str) (ts : List Token) (line col : Nat) (errs : List Str) :
    Except Crash (Node × Parser) :=
  file (calls (depth ts + 2)) (newParser fileName ts line col errs)

end Voila.Par
