import Mathlib

/-!
# Voila.Load.Loader

Loading packages (`load.voi`): `imports_of`, `load_pkg` and `load_std_pkg`.

A package is loaded after the packages it uses: it is registered, its files are read, their imports
are loaded, and then it is put at the end of `order`. What it is read from is an `Env`: the file
system, the sources that are embedded in the compiler, and how import paths and file names are taken
apart. Of a file only its `use` lines and its errors matter here.
-/

namespace Voila.Load

/-- A `use` line: its path, its alias, and whether it selects names. -/
structure Use where
  ipath : String
  asName : String
  selective : Bool
  line : Nat
  col : Nat
  deriving DecidableEq

/-- A parsed file. -/
structure File where
  uses : List Use
  errs : List String
  deriving DecidableEq

/-- What `resolve` says of an import path. -/
inductive Kind
  | std
  | user (dir : String)
  | bad
  | stdsrc (name : String)
  | nostd
  deriving DecidableEq

inductive Diag
  | error (file : String) (line col : Nat) (msg : String)
  | raw (file : String) (msg : String)
  | warn (file : String) (line col : Nat) (code msg : String)
  deriving DecidableEq

def Diag.isError : Diag → Bool
  | .warn .. => false
  | _ => true

structure Env where
  root : String
  resolve : String → Kind
  /-- `path.Base`, `path.Join` and `path.Rel`. -/
  base : String → String
  join : String → String → String
  rel : String → String → String
  listdir : String → Option (List String)
  isdir : String → Bool
  read : String → Option File
  /-- The files of a std package that is written in the language, with their names. -/
  stdFiles : String → List (String × File)
  stdDiagnostic : String → String
  missingPkg : String → String
  /-- What `report_module_errors` finds. -/
  moduleErrors : List Diag

structure Pkg where
  name : String
  dir : String
  files : List File
  sources : List String
  paths : List String
  imports : List (String × Nat)
  embedded : Bool
  deriving DecidableEq

structure Loader where
  pkgs : List Pkg
  byDir : String → Option Nat
  qualifier : String → Option String
  order : List Nat
  stack : List String
  diags : List Diag
  current : String

namespace Loader

variable (l : Loader)

/-- `D.NErrors()`. -/
def nErrors : Nat := l.diags.countP Diag.isError

/-- `err`. -/
def err (env : Env) (line col : Nat) (msg : String) : Loader :=
  { l with diags := l.diags ++ [.error (if l.current = "" then env.root else l.current) line col msg] }

/-- `warn`. -/
def warn (env : Env) (line col : Nat) (code msg : String) : Loader :=
  { l with
    diags := l.diags ++ [.warn (if l.current = "" then env.root else l.current) line col code msg] }

/-- A package's imports are one entry for each qualifier. -/
def setImport (pi : Nat) (q : String) (dep : Nat) : Loader :=
  { l with pkgs := l.pkgs.modify pi fun pk =>
      { pk with imports := pk.imports.filter (·.1 ≠ q) ++ [(q, dep)] } }

def setImports (pi : Nat) (deps : List (String × Nat)) : Loader :=
  deps.foldl (fun l d => l.setImport pi d.1 d.2) l

end Loader

/-- What is loaded: a directory under a base name, or a std package. -/
inductive Target
  | dir (name dir : String)
  | std (name : String)
  deriving DecidableEq

/-- The identity of a package. -/
def Target.key : Target → String
  | .dir _ d => d
  | .std name => "std/" ++ name

/-- What a loader of packages does: it gives the index of the package, or reports an error. -/
abbrev LoadFn := Target → Nat → Nat → Loader → Option (Loader × Option Nat)

/-- `imports_of`: the imports of a file, with their qualifiers. -/
def importsOf (env : Env) (load : LoadFn) : List Use → List (String × Nat) → Loader →
    Option (Loader × List (String × Nat))
  | [], imports, l => some (l, imports)
  | u :: uses, imports, l =>
    match env.resolve u.ipath with
    | .std => importsOf env load uses imports l
    | .stdsrc name => do
      let l := if name = "ffi" then
        l.warn env u.line u.col "ffi" ("`std/ffi` steps outside the safety guarantees: " ++
          "a foreign call or raw memory is not checked (§12)") else l
      let (l', _) ← load (.std name) u.line u.col l
      importsOf env load uses imports { l' with current := l.current }
    | .nostd => importsOf env load uses imports (l.err env u.line u.col (env.stdDiagnostic u.ipath))
    | .bad => importsOf env load uses imports (l.err env u.line u.col (env.missingPkg u.ipath))
    | .user dir =>
      if u.selective then
        importsOf env load uses imports (l.err env u.line u.col
          ("selective and wildcard imports are not supported for user packages; write `" ++
            env.base u.ipath ++ ".Name`"))
      else do
        let (l', r) ← load (.dir (env.base u.ipath) dir) u.line u.col l
        let l' := { l' with current := l.current }
        match r with
        | none => importsOf env load uses imports l'
        | some pi =>
          let q := if u.asName = "" then ((l'.pkgs[pi]?).map Pkg.name).getD "" else u.asName
          importsOf env load uses (imports.filter (·.1 ≠ q) ++ [(q, pi)]) l'

/-- The loop over the files of a package that loads their imports. -/
def loadImports (env : Env) (load : LoadFn) (pi : Nat) : List File → Loader → Option Loader
  | [], l => some l
  | f :: files, l => do
    let (l, deps) ← importsOf env load f.uses [] l
    loadImports env load pi files (l.setImports pi deps)

/-- The chain of packages that leads back to one that is being loaded. -/
def chainText (env : Env) (stack : List String) (last : String) : String :=
  " -> ".intercalate (stack.map env.base ++ [last])

/-- The loop that parses the files of a directory. -/
def readFiles (env : Env) (line col : Nat) (dir : String) : List String → Pkg × Loader → Pkg × Loader
  | [], s => s
  | name :: names, (pk, l) =>
    let full := env.join dir name
    match env.read full with
    | none => readFiles env line col dir names (pk, l.err env line col ("cannot read " ++ full))
    | some f =>
      let disp := env.rel env.root full
      readFiles env line col dir names
        ({ pk with
            files := pk.files ++ [f]
            sources := pk.sources ++ [disp]
            paths := pk.paths ++ [full] },
          { l with current := disp, diags := l.diags ++ f.errs.map (Diag.raw disp) })

/-- The loop over the embedded files. -/
def readStdFiles (ident : String) : List (String × File) → Pkg × Loader → Pkg × Loader
  | [], s => s
  | (name, f) :: files, (pk, l) =>
    let disp := ident ++ "/" ++ name
    readStdFiles ident files
      ({ pk with
          files := pk.files ++ [f]
          sources := pk.sources ++ [disp]
          paths := pk.paths ++ [disp] },
        { l with current := disp, diags := l.diags ++ f.errs.map (Diag.raw disp) })

/-- A package is registered before its imports are loaded, and ordered after them. -/
def finish (env : Env) (load : LoadFn) (key : String) (pk : Pkg) (l : Loader) :
    Option (Loader × Option Nat) := do
  let pi := l.pkgs.length
  let l := { l with
    pkgs := l.pkgs ++ [pk]
    byDir := fun d => if d = key then some pi else l.byDir d }
  let l ← loadImports env load pi pk.files l
  return ({ l with order := l.order ++ [pi], stack := l.stack.dropLast }, some pi)

/-- The source files among the entries of a directory. -/
def sourceNames (env : Env) (dir : String) (entries : List String) : List String :=
  entries.filter fun e =>
    e.endsWith ".voi" && !e.endsWith "_test.voi" && !env.isdir (env.join dir e)

/-- `load_pkg`. -/
def loadPkg (env : Env) (load : LoadFn) (name dir : String) (line col : Nat) (l : Loader) :
    Option (Loader × Option Nat) :=
  if dir ∈ l.stack then
    some (l.err env line col ("package `" ++ name ++ "` imports itself (through " ++
      chainText env l.stack (env.base dir) ++ ")"), none)
  else
    match l.byDir dir with
    | some pi => some (l, some pi)
    | none =>
      match l.qualifier name with
      | some other =>
        if other ≠ dir then
          some (l.err env line col ("two packages are both named `" ++ name ++ "` (" ++ other ++
            " and " ++ dir ++ "); a package's flat name must be unique in a program"), none)
        else go l
      | none => go l
where
  /-- The name is the package's now. -/
  go (l : Loader) : Option (Loader × Option Nat) :=
    let l := { l with
      qualifier := fun n => if n = name then some dir else l.qualifier n
      stack := l.stack ++ [dir] }
    match env.listdir dir with
    | none =>
      some ({ l.err env line col ("cannot read package `" ++ name ++ "`") with
        stack := l.stack.dropLast }, none)
    | some entries =>
      let names := sourceNames env dir entries
      if names = [] then
        some ({ l.err env line col ("package `" ++ name ++ "` has no .voi files") with
          stack := l.stack.dropLast }, none)
      else
        let (pk, l) := readFiles env line col dir names (⟨name, dir, [], [], [], [], false⟩, l)
        finish env load dir pk l

/-- `load_std_pkg`. -/
def loadStdPkg (env : Env) (load : LoadFn) (name : String) (line col : Nat) (l : Loader) :
    Option (Loader × Option Nat) :=
  let ident := "std/" ++ name
  if ident ∈ l.stack then
    some (l.err env line col ("std package `" ++ name ++ "` imports itself (through " ++
      chainText env l.stack name ++ ")"), none)
  else
    match l.byDir ident with
    | some pi => some (l, some pi)
    | none =>
      match l.qualifier name with
      | some other =>
        if other ≠ ident then
          some (l.err env line col ("package `" ++ name ++ "` collides with std/" ++ name ++
            "; a package's flat name must be unique in a program"), none)
        else go l
      | none => go l
where
  go (l : Loader) : Option (Loader × Option Nat) :=
    let ident := "std/" ++ name
    let l := { l with qualifier := fun n => if n = name then some ident else l.qualifier n }
    let files := env.stdFiles name
    if files = [] then
      some (l.err env line col ("std package `" ++ name ++ "` has no embedded source"), none)
    else
      let l := { l with stack := l.stack ++ [ident] }
      let (pk, l) := readStdFiles ident files (⟨name, ident, [], [], [], [], true⟩, l)
      finish env load ident pk l

/-- The calls of `load_pkg` and `load_std_pkg`, nested to a depth. -/
def load (env : Env) : Nat → LoadFn
  | 0, _, _, _, _ => none
  | fuel + 1, .dir name dir, line, col, l => loadPkg env (load env fuel) name dir line col l
  | fuel + 1, .std name, line, col, l => loadStdPkg env (load env fuel) name line col l

/-- The loader as `Load` makes it. -/
def Loader.new (entry : String) : Loader :=
  { pkgs := [], byDir := fun _ => none, qualifier := fun _ => none, order := [], stack := [],
    diags := [], current := entry }

/-- `Load`, as far as the imports of the entry file: nothing is loaded when it or the module file is
found wrong. -/
def loadMain (env : Env) (fuel : Nat) (entry : String) (main : File) :
    Option (Loader × List (String × Nat)) :=
  let l := { Loader.new entry with diags := main.errs.map (Diag.raw entry) }
  if l.nErrors > 0 then some (l, [])
  else
    let l := { l with diags := l.diags ++ env.moduleErrors }
    if l.nErrors > 0 then some (l, [])
    else importsOf env (load env fuel) main.uses [] l

end Voila.Load
