import Voila.Compress.Archive

/-!
# Voila.Compress.Place

The writing half of an extraction (`place` of `compress.voi`), over an abstract file system: a path names
the place that its elements lead to, there are no links, and each call changes only what it is about. Any
`mkdir` and any write may fail, as a `Disk` says; removes and renames do what they are told.

`place` makes each of its directories and writes each of its temporary files at most once, so what a `Disk`
says of a path in a state is all that a call can meet.
-/

namespace Voila.Compress

open Voila.Rt (Bytes)
open Voila.Rt.Json (ch)
open Voila.Http (Fail errf lit intText)
open Voila.Path (sep isAbs kept split join)

/-! ### The file system -/

inductive Node where
  | file (data : Bytes)
  | dir
  deriving DecidableEq

/-- A place: whether it is found from the root, and the way to it. -/
abbrev Loc := Bool × List Bytes

/-- The place that a path names. -/
def loc (p : Bytes) : Loc := (isAbs p, kept p)

abbrev Fs := List (Loc × Node)

def Fs.get (fs : Fs) (l : Loc) : Option Node := fs.lookup l

def Fs.erase (fs : Fs) (l : Loc) : Fs := fs.filter fun e => e.1 ≠ l

def Fs.put (fs : Fs) (l : Loc) (n : Node) : Fs := (l, n) :: Fs.erase fs l

/-- Nothing is below a place. -/
def Fs.vacant (fs : Fs) (l : Loc) : Bool := fs.all fun e => e.1 = l ∨ e.1.1 ≠ l.1 ∨ ¬ l.2 <+: e.1.2

/-- `stat`: the empty path names nothing. -/
def stat (fs : Fs) (p : Bytes) : Option Node := if p = [] then none else fs.get (loc p)

/-- `os.exists`. -/
def osExists (fs : Fs) (p : Bytes) : Bool := (stat fs p).isSome

/-- `os.isdir`. -/
def osIsdir (fs : Fs) (p : Bytes) : Bool := stat fs p = some .dir

/-- Which calls fail, and how. -/
structure Disk where
  /-- `mkdir`, with the reason. -/
  mkdirFails : Fs → Bytes → Option Bytes
  /-- A write, with what it leaves of the file. -/
  writeFails : Fs → Bytes → Option (Option Bytes)

/-- The error of a call, if it made one, and what it left. -/
abbrev Outcome := Option Bytes × Fs

variable (disk : Disk)

/-- `mkdir_one`. -/
def mkdirOne (fs : Fs) (p : Bytes) : Outcome :=
  if p = [] then (some (lit "No such file or directory"), fs)
  else
    match fs.get (loc p) with
    | some .dir => (none, fs)
    | some (.file _) => (some (lit "Not a directory"), fs)
    | none =>
      match disk.mkdirFails fs p with
      | some reason => (some reason, fs)
      | none => (none, fs.put (loc p) .dir)

/-- The paths that `mkdir_p` stops at, with `before` read. -/
def stopsLoop (before : Bytes) : Bytes → List Bytes
  | [] => [before]
  | c :: p =>
    if c = sep ∧ before ≠ [] then before :: stopsLoop (before ++ [c]) p else stopsLoop (before ++ [c]) p

def stops (p : Bytes) : List Bytes := stopsLoop [] p

/-- The loop of `mkdir_p`. -/
def mkdirLoop (fs : Fs) : List Bytes → Outcome
  | [] => (none, fs)
  | p :: ps =>
    match mkdirOne disk fs p with
    | (none, fs') => mkdirLoop fs' ps
    | (some reason, fs') => (some reason, fs')

/-- `os.mkdir_all`. -/
def mkdirAll (fs : Fs) (p : Bytes) : Outcome :=
  match mkdirLoop disk fs (stops p) with
  | (none, fs') => (none, fs')
  | (some reason, fs') => (some (lit "mkdir_all: " ++ reason), fs')

/-- `os.write`. -/
def osWrite (fs : Fs) (p data : Bytes) : Outcome :=
  if p = [] ∨ fs.get (loc p) = some .dir then (some (lit "cannot write file"), fs)
  else
    match disk.writeFails fs p with
    | none => (none, fs.put (loc p) (.file data))
    | some none => (some (lit "cannot write file"), fs)
    | some (some part) => (some (lit "cannot write file"), fs.put (loc p) (.file part))

/-- `os.remove`. -/
def remove (fs : Fs) (p : Bytes) : Fs :=
  match stat fs p with
  | none => fs
  | some (.file _) => fs.erase (loc p)
  | some .dir => if fs.vacant (loc p) then fs.erase (loc p) else fs

/-- `os.rename`. -/
def rename (fs : Fs) (old new : Bytes) : Outcome :=
  match stat fs old with
  | none => (some (lit "rename: No such file or directory"), fs)
  | some n => (none, (fs.erase (loc old)).put (loc new) n)

/-! ### Placing -/

/-- The loop of `place` over the elements of a member's path. -/
def roomLoop (fs : Fs) (kind above : Bytes) : List Bytes → Except Fail Unit
  | [] => .ok ()
  | p :: parts =>
    let here := join [above, p]
    if parts ≠ [] ∨ kind = lit "dir" then
      if osExists fs here ∧ ¬ osIsdir fs here then
        errf (lit "compress: a file is in the way at " ++ here)
      else roomLoop fs kind here parts
    else if osIsdir fs here then errf (lit "compress: a directory is in the way at " ++ here)
    else roomLoop fs kind here parts

/-- The loop of `place` that looks for room. -/
def checkLoop (fs : Fs) (dir : Bytes) : List (Member × Bytes) → Except Fail Unit
  | [] => .ok ()
  | (m, rel) :: ms => do
    roomLoop fs m.kind dir (split rel)
    checkLoop fs dir ms

/-- The callback that writes a member to a path; it is given the member for its index. -/
abbrev Writer := Member → Bytes → Fs → Outcome

/-- What the writing loop has done. -/
structure Writing where
  fs : Fs
  temps : List Bytes
  finals : List Bytes
  failure : Bytes

/-- A call is made: its error, if it made one, is the failure. -/
def Writing.after (st : Writing) (r : Outcome) : Writing :=
  { st with fs := r.2, failure := r.1.getD st.failure }

/-- One turn of the writing loop. -/
def placeTurn (write : Writer) (dir suffix : Bytes) (st : Writing) (m : Member) (rel : Bytes) : Writing :=
  let dest := join [dir, rel]
  if m.kind = lit "dir" then st.after (mkdirAll disk st.fs dest)
  else
    let st := st.after (mkdirAll disk st.fs (Path.dir dest))
    if st.failure = [] then
      let tmp := dest ++ suffix
      { st with temps := st.temps ++ [tmp], finals := st.finals ++ [dest] }.after (write m tmp st.fs)
    else st

/-- The loop of `place` that writes the members. -/
def placeLoop (write : Writer) (dir suffix : Bytes) (st : Writing) : List (Member × Bytes) → Writing
  | [] => st
  | (m, rel) :: ms =>
    let st := placeTurn disk write dir suffix st m rel
    if st.failure ≠ [] then st else placeLoop write dir suffix st ms

/-- The loop of `place` that renames the temporary files. -/
def renameLoop (fs : Fs) : List (Bytes × Bytes) → Outcome
  | [] => (none, fs)
  | (tmp, final) :: ts =>
    match rename fs tmp final with
    | (none, fs') => renameLoop fs' ts
    | (some msg, fs') => (some msg, fs')

/-- The ending of a temporary name. -/
def partSuffix (pid : Int) : Bytes := lit ".voila-part-" ++ intText pid

/-- The end of `place`: the temporary files are removed, or renamed. -/
def placeEnd (st : Writing) : Except Fail Nat × Fs :=
  if st.failure ≠ [] then (.error (.err st.failure), st.temps.foldl remove st.fs)
  else
    match renameLoop st.fs (st.temps.zip st.finals) with
    | (none, fs) => (.ok st.temps.length, fs)
    | (some msg, fs) => (.error (.err msg), fs)

/-- `place`, in a process `pid`. -/
def place (write : Writer) (pid : Int) (fs : Fs) (members : List Member) (rels : List Bytes) (dir : Bytes) :
    Except Fail Nat × Fs :=
  if osExists fs dir ∧ ¬ osIsdir fs dir then (errf (lit "compress: " ++ dir ++ lit " is not a directory"), fs)
  else
    match checkLoop fs dir (members.zip rels) with
    | .error e => (.error e, fs)
    | .ok () =>
      match mkdirAll disk fs dir with
      | (some msg, fs') => (.error (.err msg), fs')
      | (none, fs') =>
        placeEnd (placeLoop disk write dir (partSuffix pid) ⟨fs', [], [], []⟩ (members.zip rels))

/-- The callback of `extract`. -/
def writer : Writer := fun m tmp fs => osWrite disk fs tmp m.data

/-- `extract`. -/
def extract (pid : Int) (fs : Fs) (members : List Member) (dir : Bytes) : Except Fail Nat × Fs :=
  match plan members with
  | .error e => (.error e, fs)
  | .ok rels => place disk (writer disk) pid fs members rels dir

end Voila.Compress
