import Voila.Chk.Acyclic

/-!
# Voila.Typ.Table

The checker's table of types (`typ/typ.voi`): an arena of nodes, interned under a text.

A type is built bottom up: its parts are ids of the table, `render` puts their texts
together, `key_of` marks a type parameter and an unresolvable name, and `mk` answers the id
filed under that key or appends a node. Every type of the checker comes out of `mk`.
-/

-- the decision by the list, and not over all characters
attribute [local instance (high)] List.decidableBAll

namespace Voila.Typ

open Chk.Acyclic (BoxKind)

/-- The `TK_…` constants. -/
inductive Kind
  | error | named | option | result | slice | map | set | chan | box | fn | tuple | borrow | param
  deriving DecidableEq, Repr

/-- `Type`: one node of the arena. Its parts are ids, `0` where there is none. -/
structure Node where
  kind : Kind
  name : Str
  elem : Nat
  key : Nat
  res : Nat
  args : List Nat
  flag : Nat
  deriving DecidableEq, Repr

/-- `Table`, as far as types are built from it. `texts` is parallel to `types`. -/
structure Table where
  store ::
  types : List Node
  texts : List Str
  intern : List (Str × Nat)
  deriving DecidableEq, Repr

namespace Table

/-- `New`: index `0` is the nil type, which no key leads to. -/
def new : Table where
  types := [⟨.error, [], 0, 0, 0, [], 0⟩]
  texts := ["?".toList]
  intern := []

/-- `self.texts[id]`. -/
def text (t : Table) (id : Nat) : Str := t.texts.getD id []

/-- `self.Types[id]`. -/
def get (t : Table) (id : Nat) : Node := t.types.getD id ⟨.error, [], 0, 0, 0, [], 0⟩

/-- `str.join` of the texts of some types with `", "`. -/
def commas (texts : List Str) : Str := ", ".toList.intercalate texts

/-- The word a box is spelled with. -/
def boxWord (flag : Nat) : Str :=
  if flag = 1 then "cell".toList else if flag = 2 then "weak".toList else "shared".toList

/-- `Table.render`. -/
def render (t : Table) (n : Node) : Str :=
  match n.kind with
  | .named | .param | .error =>
    if n.args = [] then n.name else n.name ++ '[' :: commas (n.args.map t.text) ++ [']']
  | .option => '?' :: t.text n.elem
  | .result => t.text n.elem ++ ['!']
  | .slice => '[' :: n.name ++ ']' :: t.text n.elem
  | .map => "map[".toList ++ t.text n.key ++ ']' :: t.text n.elem
  | .set => "set[".toList ++ t.text n.elem ++ [']']
  | .chan => "chan[".toList ++ t.text n.elem ++ [']']
  | .box => boxWord n.flag ++ '[' :: t.text n.elem ++ [']']
  | .fn =>
    "fn(".toList ++ commas (n.args.map t.text) ++ [')'] ++
      if n.res = 0 then [] else ' ' :: t.text n.res
  | .tuple => '(' :: commas (n.args.map t.text) ++ [')']
  | .borrow => '&' :: t.text n.elem

end Table

/-- `key_of`. -/
def keyOf (kind : Kind) (text : Str) : Str :=
  match kind with
  | .param => '$' :: text
  | .error => '!' :: text
  | _ => text

namespace Table

/-- `Table.mk`, with the parts of the type as the node they make. -/
def mk (t : Table) (n : Node) : Nat × Table :=
  let text := t.render n
  let k := keyOf n.kind text
  match t.intern.lookup k with
  | some id => (id, t)
  | none =>
    let id := t.types.length
    (id, ⟨t.types ++ [n], t.texts ++ [text], (k, id) :: t.intern⟩)

end Table

/-! ## Constructions -/

/-- What a name of a type was found to be: `TK_NAMED`, `TK_PARAM` or `TK_ERROR`. -/
inductive Found
  | nominal | param | unknown
  deriving DecidableEq, Repr

def Found.kind : Found → Kind
  | .nominal => .named
  | .param => .param
  | .unknown => .error

@[simp] theorem Found.kind_inj {f g : Found} : f.kind = g.kind ↔ f = g := by
  cases f <;> cases g <;> simp [kind]

@[simp] theorem Found.kind_ne (f : Found) :
    f.kind ≠ .option ∧ f.kind ≠ .result ∧ f.kind ≠ .slice ∧ f.kind ≠ .map ∧ f.kind ≠ .set ∧
      f.kind ≠ .chan ∧ f.kind ≠ .box ∧ f.kind ≠ .fn ∧ f.kind ≠ .tuple ∧ f.kind ≠ .borrow := by
  cases f <;> simp [kind]

@[simp] theorem Found.ne_kind (f : Found) :
    .option ≠ f.kind ∧ .result ≠ f.kind ∧ .slice ≠ f.kind ∧ .map ≠ f.kind ∧ .set ≠ f.kind ∧
      .chan ≠ f.kind ∧ .box ≠ f.kind ∧ .fn ≠ f.kind ∧ .tuple ≠ f.kind ∧ .borrow ≠ f.kind := by
  cases f <;> simp [kind]

/-- The value of `ast.TBOX`'s `Ival2`. -/
def flagOf : BoxKind → Nat
  | .shared => 0
  | .cell => 1
  | .weak => 2

@[simp] theorem flagOf_inj {b c : BoxKind} : flagOf b = flagOf c ↔ b = c := by
  cases b <;> cases c <;> simp [flagOf]

/-- The characters that a type is put together with, and the marks of `key_of`. -/
def marks : List Char := ['?', '!', '&', '[', ']', '(', ')', ',', ' ', '$']

/-- A name of a type: one identifier, or two with a dot between. -/
@[ext] structure Name where
  text : Str
  nonempty : text ≠ []
  plain : ∀ c ∈ text, c ∉ marks
  deriving DecidableEq

/-- What stands in the brackets of `[N]T`: a literal, `_`, or nothing. -/
@[ext] structure Extent where
  text : Str
  plain : ']' ∉ text
  deriving DecidableEq

/-- One construction of a type from parts `α`, with the payload its kind carries. -/
inductive Con (α : Type)
  | name (f : Found) (n : Name) (args : List α)
  | option (e : α)
  | result (e : α)
  | slice (n : Extent) (e : α)
  | map (k v : α)
  | set (e : α)
  | chan (e : α)
  | box (b : BoxKind) (e : α)
  | fn (ps : List α) (r : α)
  | tuple (es : List α)
  | borrow (e : α)

namespace Con

/-- The parts of a construction. -/
def parts {α : Type} : Con α → List α
  | .name _ _ as | .tuple as => as
  | .option e | .result e | .slice _ e | .set e | .chan e | .box _ e | .borrow e => [e]
  | .map k v => [k, v]
  | .fn ps r => ps ++ [r]

/-- The arguments of `mk` for a construction: `FromAST`, `Nominal` and the `Mk…` agree. -/
def node : Con Nat → Node
  | .name f n as => ⟨f.kind, n.text, 0, 0, 0, as, 0⟩
  | .option e => ⟨.option, [], e, 0, 0, [], 0⟩
  | .result e => ⟨.result, [], e, 0, 0, [], 0⟩
  | .slice n e => ⟨.slice, n.text, e, 0, 0, [], 0⟩
  | .map k v => ⟨.map, [], v, k, 0, [], 0⟩
  | .set e => ⟨.set, [], e, 0, 0, [], 0⟩
  | .chan e => ⟨.chan, [], e, 0, 0, [], 0⟩
  | .box b e => ⟨.box, [], e, 0, 0, [], flagOf b⟩
  | .fn ps r => ⟨.fn, [], 0, 0, r, ps, 0⟩
  | .tuple es => ⟨.tuple, [], 0, 0, 0, es, 0⟩
  | .borrow e => ⟨.borrow, [], e, 0, 0, [], 0⟩

theorem node_injective {c d : Con Nat} (h : c.node = d.node) : c = d := by
  cases c <;> cases d <;>
    simp_all [node, Name.ext_iff, Extent.ext_iff]

end Con

end Voila.Typ
