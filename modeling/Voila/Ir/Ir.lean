import Voila.Ir.Text

/-!
# Voila.Ir.Ir

The register IR (`ir/ir.voi`): a function is a list of instructions, an
instruction an opcode with text arguments, plus the two operands that are
structured, the match pattern and the parse template.

The arena of patterns (`Module.Pats`, children by index) is modelled by the trees
it stores. Fields only the listing or the debugger reads (`Sig`, `Src`, `File`,
`Text`, `CName`) are left out.
-/

namespace Voila.Ir

/-! ### Constants, patterns, templates -/

inductive ConstKind
  | int | float | dec | str | rune | bool | nil | unit
  deriving DecidableEq, Repr

structure Const where
  kind : ConstKind
  text : Str
  deriving DecidableEq, Repr

inductive PatKind
  | wild | nil | lit | bind | variant | or | range | struct | field | tuple
  deriving DecidableEq, Repr

/-- A pattern; `reg` is the register a `bind` binds, `""` elsewhere. -/
inductive Pat
  | node (kind : PatKind) (name reg : Str) (lit : Const) (elems : List Pat)
  deriving Repr

/-- The register fields `opt.mark_pat` walks. -/
def Pat.regs : Pat → List Str
  | .node _ _ reg _ elems => (if reg = [] then [] else [reg]) ++ regsList elems
where
  regsList : List Pat → List Str
    | [] => []
    | p :: ps => p.regs ++ regsList ps

inductive TermKind
  | var | discard | lit | col
  deriving DecidableEq, Repr

/-- One term of a `parse` template. -/
structure Term where
  kind : TermKind
  name : Str
  reg : Str
  lit : Str
  col : Nat
  deriving DecidableEq, Repr

/-! ### Instructions -/

/-- The opcodes the C backend lowers (`emit_instr`). -/
inductive Op
  | comment
  | loadk | move | kill | cksz | zero
  | getglb | setglb | upset | loadfn
  | jump | jmpf | jmpt | ret | abort | ckcanc
  | add | sub | mul | div | idiv | mod | pow | cat
  | shl | shr | band | bor | bxor | bnot | neg | not
  | cmpeq | cmpne | cmplt | cmple | cmpgt | cmpge | cmpin
  | call | callr | callm | callt | selfty
  | uniq | escape | varread | sharedthr | varlock | varunlock | rcount
  | typeof | conv | newchan | newslice | newmap | newset | newrange
  | newstruct | newexc | newenum | tuple | untuple
  | index | setidx | slice | field | setfld
  | interp | say | tostr | isfail | tryp | must
  | throw | rethrow | ehpush | ehpop | catchf | catch | istype
  | numdig | ndsave | ndrest | drop | defer | mkclos
  | grpbeg | grpend | grpendt | spawn | spawnr
  | send | recv | recvok | iter | itnext
  | pmatch | parse | argdef | vararg
  | selbeg | selrecv | selsend | seldef | selend
  | ffi
  deriving DecidableEq, Repr

/-- What an instruction does: everything but its labels. -/
structure Body where
  op : Op
  args : List Str
  pat : Option Pat := none
  terms : List Term := []
  deriving Repr

structure Instr extends Body where
  labels : List Str := []
  deriving Repr

/-- `ins.Args[k]`. -/
def Body.arg (b : Body) (k : Nat) : Str := b.args.getD k []

/-- The registers of the pattern and the template terms, as text. -/
def Body.patRegs (b : Body) : List Str :=
  (b.pat.map Pat.regs).getD [] ++ (b.terms.map Term.reg).filter (· ≠ [])

/-! ### Functions and modules -/

/-- An upvalue: `depth` frames up the lexical chain, slot `slot` there. -/
structure UpRef where
  name : Str
  depth : Nat
  slot : Option Nat
  deriving DecidableEq, Repr

/-- The types of registers (`RT_*`). -/
inductive RegType
  | unseen | int | float | bool | box
  deriving DecidableEq, Repr

structure Func where
  name : Str
  nregs : Nat
  instrs : List Instr
  ups : List UpRef := []
  nparams : Nat
  named : List Nat := []
  plain : List Nat := []
  regT : List RegType := []
  deriving Repr

structure Module where
  consts : List Const
  funcs : List Func
  deriving Repr

/-- The functions whose name starts with `f.Name || "$fn"`: the closures written
inside `f`, at any depth. -/
def Module.descendants (m : Module) (f : Func) : List Func :=
  m.funcs.filter fun g => g.name.startsWith (f.name ++ ['$', 'f', 'n'])

/-- The frame slots descendant closures address through their upvalues. A deeper
closure's upvalue may mean another frame's slot; every pass takes all of them. -/
def Module.upSlots (m : Module) (f : Func) : List Nat :=
  (m.descendants f).flatMap fun g => g.ups.filterMap UpRef.slot

/-- The instructions without their labels. -/
def Func.bodies (f : Func) : List Body := f.instrs.map Instr.toBody

/-- The instruction a label stands before. -/
def Func.labelIdx (f : Func) (l : Str) : Option Nat :=
  f.instrs.findIdx? fun i => decide (l ∈ i.labels)

/-- `len(a) >= 2 and a[0] == 'L' and a[1] >= '0' and a[1] <= '9'`. -/
def isLabel : Str → Bool
  | 'L' :: d :: _ => isDigit d
  | _ => false

end Voila.Ir
