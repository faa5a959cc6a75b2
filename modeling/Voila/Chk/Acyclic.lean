import Voila.Ir.Text

/-!
# Voila.Chk.Acyclic

The check of the Acyclicity Rule (`chk/acyclic.voi`).

Every field of a declared type is looked at once (`ownEdge`): an edge is recorded for a
type that is a name, and for a `shared` or `cell` of a name. One sweep of the recorded
edges from each declared type then reports the edges that lead back to it.
-/

namespace Voila.Chk.Acyclic

/-- The kinds of `ast.TBOX` (`Ival2`). -/
inductive BoxKind
  | shared | cell | weak
  deriving DecidableEq, Repr

/-- Types as written (`ast.TNAMED` and the others). -/
inductive TypeExpr
  | named (name : Str) (args : List TypeExpr)
  | option (t : TypeExpr)
  | result (t : TypeExpr)
  | slice (t : TypeExpr)
  | map (k v : TypeExpr)
  | set (t : TypeExpr)
  | chan (t : TypeExpr)
  | box (kind : BoxKind) (t : TypeExpr)
  | fn (params : List TypeExpr) (res : Option TypeExpr)
  | tuple (ts : List TypeExpr)
  | borrow (t : TypeExpr)

/-- `ast.FIELDDECL`; `node` is its type's node. -/
structure FieldDecl where
  name : Str
  type : Option TypeExpr
  node : Nat

/-- A declared type: its parameters and the fields of all its variants, or its own. -/
structure TypeDecl where
  name : Str
  params : List Str
  fields : List FieldDecl

/-- The top-level declarations that `collect` files. -/
inductive Decl
  | struct (d : TypeDecl)
  | enum (d : TypeDecl)
  /-- `type X = T` and `type X T`. -/
  | type (name : Str) (target : TypeExpr)

/-- The `struct`s, a `type X { … }` among them. -/
def structDecls (ds : List Decl) : List TypeDecl :=
  ds.filterMap fun d => match d with
    | .struct d => some d
    | _ => none

def enumDecls (ds : List Decl) : List TypeDecl :=
  ds.filterMap fun d => match d with
    | .enum d => some d
    | _ => none

/-- `sNames` of the `structs`, or `eNames` of the `enums`: in the order of declaration. -/
def declNames (ds : List TypeDecl) : List Str := (ds.map (·.name)).eraseDups

/-- `self.structs[name]`, or `self.enums[name]`: the last declaration of a name. -/
def declOf (ds : List TypeDecl) (name : Str) : Option TypeDecl := ds.reverse.find? (·.name = name)

/-- `name in self.structs or name in self.enums`. -/
def declared (ds : List Decl) (name : Str) : Bool :=
  (declOf (structDecls ds) name).isSome || (declOf (enumDecls ds) name).isSome

/-- One scalar owning edge in the type graph, `from` a type `to` another. -/
structure Edge where
  src : Str
  dst : Str
  field : Str
  node : Nat
  deriving DecidableEq

/-- The name that `own_edge` finds in a field's type. -/
def ownName (ds : List Decl) : TypeExpr → Option Str
  | .named name _ => if name = "Box".toList ∧ declared ds name = false then none else some name
  | .box .weak _ => none
  | .box _ (.named name _) => some name
  | _ => none

/-- `own_edge`. -/
def ownEdge (ds : List Decl) (src : Str) (f : FieldDecl) : Option Edge :=
  match f.type.bind (ownName ds) with
  | none => none
  | some dst => if declared ds dst then some ⟨src, dst, f.name, f.node⟩ else none

/-- The edges of one kind of declarations. -/
def edgesOf (ds : List Decl) (types : List TypeDecl) : List Edge :=
  (declNames types).flatMap fun name => match declOf types name with
    | none => []
    | some d => d.fields.filterMap (ownEdge ds name)

/-- `self.edges`. -/
def edges (ds : List Decl) : List Edge := edgesOf ds (structDecls ds) ++ edgesOf ds (enumDecls ds)

/-! ### The sweeps -/

/-- `self.reported`, and the diagnostics: the node and the text of each. -/
structure Reports where
  keys : List Str
  errors : List (Nat × Str)
  deriving DecidableEq

def cycleText (start field : Str) : Str :=
  "type `".toList ++ start ++ "` forms an ownership cycle through field `".toList ++ field ++
    "`; use `weak[".toList ++ start ++ "]` for a back-edge, or `Box[…]`/`?Box[…]` for a tree-shaped recursive field".toList

/-- The key a closing edge is reported under. -/
def Edge.key (e : Edge) : Str := e.src ++ '.' :: e.field

/-- A closing edge: reported once. -/
def closing (start : Str) (e : Edge) (rep : Reports) : Reports :=
  if e.key ∈ rep.keys then rep
  else { keys := e.key :: rep.keys, errors := rep.errors ++ [(e.node, cycleText start e.field)] }

/-- The state of `acyc_check`; the last of `stack` comes first. -/
structure Sweep where
  seen : List Str
  stack : List Str
  rep : Reports

/-- The body of the loop over `adj[cur]`. -/
def sweepEdge (start : Str) (s : Sweep) (e : Edge) : Sweep :=
  if e.dst = start then { s with rep := closing start e s.rep }
  else if e.dst ∈ s.seen then s
  else { s with seen := e.dst :: s.seen, stack := e.dst :: s.stack }

/-- The loop of `acyc_check`. -/
def sweep (es : List Edge) (start : Str) : Nat → Sweep → Option Reports
  | n, ⟨seen, stack, rep⟩ => match stack, n with
    | [], _ => some rep
    | _ :: _, 0 => none
    | cur :: stack, n + 1 =>
      sweep es start n ((es.filter (·.src = cur)).foldl (sweepEdge start) ⟨seen, stack, rep⟩)

/-- `acyc_check`. -/
def acycCheck (es : List Edge) (rep : Reports) (start : Str) : Option Reports :=
  sweep es start (es.length + 1) ⟨[], [start], rep⟩

def acycCheckAll (es : List Edge) : Reports → List Str → Option Reports
  | rep, [] => some rep
  | rep, name :: names => match acycCheck es rep name with
    | none => none
    | some rep => acycCheckAll es rep names

/-- `check_acyclicity`. -/
def checkAcyclicity (ds : List Decl) : Option Reports :=
  acycCheckAll (edges ds) ⟨[], []⟩ (declNames (structDecls ds) ++ declNames (enumDecls ds))

end Voila.Chk.Acyclic
