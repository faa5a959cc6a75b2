import Voila.Ir.Text

/-!
# Voila.Chk.Pattern

Patterns, the declarations the checker consults (`chk.collect`) and the runtime's
`vl_match`.

A pattern is a node of the syntax tree: a kind with its `Sval`, and its kids. Names
are flat (`geom.Circle`), held as the list of the parts between the dots. A
value is the runtime's: `?T` and `T!` have no wrapper, so `Some(v)` and `Ok(v)` are `v`
itself, and an error is a value of its own kind.

Boxes and newtypes, which `vl_match` sees through, range patterns, and the registers
that bindings write are left out: none of them is part of what a pattern covers.
-/

namespace Voila.Chk

/-- A flat name, by the parts between its dots. -/
abbrev Name := List Str

/-- What stands behind the last dot. -/
def Name.short (n : Name) : Str := n.getLastD []

/-- What stands before the last dot; empty where there is none. -/
def Name.qual (n : Name) : Name := n.dropLast

inductive Ty where
  | bool
  /-- A type whose literals are compared by value: `int`, `str`, `rune`, … -/
  | base
  /-- What an `Err` carries. -/
  | error
  | enum (name : Name)
  | struct (name : Name)
  | tuple (members : List Ty)
  | opt (payload : Ty)
  | res (payload : Ty)

structure VariantDec where
  /-- The flat name: `Circle`, `geom.Circle` or, where two enums share it, `Shape.Circle`. -/
  name : Name
  fields : List Ty

structure EnumDec where
  name : Name
  variants : List VariantDec

structure StructDec where
  name : Name
  fields : List (Str × Ty)
  /-- No field is declared twice. -/
  nodup : (fields.map Prod.fst).Nodup

/-- The declarations the checker has collected: `enums` in the order of `eNames`. -/
structure Decls where
  enums : List EnumDec
  structs : List StructDec

/-- A pattern node's kind, with the `Sval` and the literal it carries. -/
inductive Head (L : Type) where
  | wild
  | bind (name : Str)
  | nil
  | bool (b : Bool)
  | lit (l : L)
  | tuple
  | struct (name : Name)
  | field (name : Str)
  | variant (name : Name)
  | or
deriving DecidableEq

inductive Pat (L : Type) where
  | node (head : Head L) (kids : List (Pat L))

inductive Val (L : Type) where
  | nil
  | bool (b : Bool)
  | lit (l : L)
  | tuple (members : List (Val L))
  | struct (name : Name) (fields : List (Val L))
  | enum (type : Name) (variant : Str) (fields : List (Val L))
  | err (type : Name)

variable {L : Type}

namespace Pat

/-- Node id 0: the wildcard the checker introduces itself. -/
def none : Pat L := .node .wild []

def head : Pat L → Head L
  | .node h _ => h

def kids : Pat L → List (Pat L)
  | .node _ ks => ks

/-- `T.Kid(p, 0)`. -/
def kid (p : Pat L) : Pat L := p.kids.headD none

@[simp] theorem head_node (h : Head L) (ks : List (Pat L)) : (Pat.node h ks).head = h := rfl
@[simp] theorem kids_node (h : Head L) (ks : List (Pat L)) : (Pat.node h ks).kids = ks := rfl
@[simp] theorem kid_node (h : Head L) (ks : List (Pat L)) :
    (Pat.node h ks).kid = ks.headD none := rfl

end Pat

namespace Decls

variable (D : Decls)

/-- `name in self.enums`, with the declaration. -/
def enumDec (name : Name) : Option EnumDec := D.enums.find? fun e => e.name = name

/-- `name in self.structs`, with the declaration. -/
def structDec (name : Name) : Option StructDec := D.structs.find? fun s => s.name = name

/-- `enum_of`: the enum a variant name belongs to. -/
def enumOf (variant : Name) : Option EnumDec :=
  D.enums.find? fun e => e.variants.any fun v => v.name = variant

/-- `variant_decl`. -/
def variantDecl (variant : Name) : Option VariantDec :=
  (D.enumOf variant).bind fun e => e.variants.find? fun v => v.name = variant

/-- `struct_fields`. -/
def structFields (name : Name) : List Str :=
  ((D.structDec name).map fun s => s.fields.map Prod.fst).getD []

/-- `variant_name`: the flat name behind an enum-qualified spelling. -/
def variantName (name : Name) : Name :=
  if (D.enumOf name).isSome then name
  else if name.qual = [] then name
  else match D.enumDec name.qual with
    | none => name
    | some e => ((e.variants.find? fun v => v.name.short = name.short).map (·.name)).getD name

end Decls

/-! ### `vl_match` -/

/-- A variant of enum `type`, recorded under its short name, answers to a pattern's name:
    the qualifier is the type itself or a package the type lies in. -/
def answers (type : Name) (variant : Str) (name : Name) : Bool :=
  name.qual.isPrefixOf type && decide (variant = name.short)

def someName : Name := ["Some".toList]
def okName : Name := ["Ok".toList]
def errName : Name := ["Err".toList]

def Val.isErr : Val L → Bool
  | .err _ => true
  | _ => false

def Val.isNil : Val L → Bool
  | .nil => true
  | _ => false

mutual

/-- `vl_match`. -/
def vlMatch [DecidableEq L] (D : Decls) : Pat L → Val L → Bool
  | .node .wild _, _ => true
  | .node (.bind _) _, _ => true
  | .node .nil _, v => v.isNil
  | .node (.bool b) _, v => match v with
    | .bool c => b == c
    | _ => false
  | .node (.lit l) _, v => match v with
    | .lit m => decide (l = m)
    | _ => false
  | .node .or ks, v => anyMatch D ks v
  | .node .tuple ks, v => match v with
    | .tuple vs => decide (vs.length = ks.length) && allMatch D ks vs
    | _ => false
  | .node (.struct name) ks, v => match v with
    | .struct type vs => decide (type = name) && fieldsMatch D (D.structFields type) ks vs
    | _ => false
  | .node (.field _) _, _ => false
  | .node (.variant name) ks, v =>
    if name = someName then !v.isNil && onlyMatch D ks v
    else if name = okName then !v.isErr && onlyMatch D ks v
    else if name = errName then v.isErr && onlyMatch D ks v
    else match v with
      | .err type => decide (type = name)
      | .enum type variant vs => answers type variant name &&
          (ks.isEmpty || (decide (ks.length = vs.length) && allMatch D ks vs))
      | _ => false

def anyMatch [DecidableEq L] (D : Decls) : List (Pat L) → Val L → Bool
  | [], _ => false
  | p :: ps, v => vlMatch D p v || anyMatch D ps v

def allMatch [DecidableEq L] (D : Decls) : List (Pat L) → List (Val L) → Bool
  | [], [] => true
  | p :: ps, v :: vs => vlMatch D p v && allMatch D ps vs
  | _, _ => false

/-- A built-in variant looks at its payload where it has exactly one sub-pattern. -/
def onlyMatch [DecidableEq L] (D : Decls) : List (Pat L) → Val L → Bool
  | [p], v => vlMatch D p v
  | _, _ => true

/-- Every listed field is one the type has, and its sub-pattern matches it. -/
def fieldsMatch [DecidableEq L] (D : Decls) (fields : List Str) :
    List (Pat L) → List (Val L) → Bool
  | [], _ => true
  | .node (.field f) ks :: rest, vs =>
    (match vs[fields.idxOf f]? with
      | some v => onlyMatch D ks v
      | none => false) && fieldsMatch D fields rest vs
  | _ :: _, _ => false

end

end Voila.Chk
