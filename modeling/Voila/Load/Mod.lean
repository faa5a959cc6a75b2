import Mathlib

/-!
# Voila.Load.Mod

Which version of each module is used (`mod.voi`): `VerCmp`, `mod_bump`, `mod_serve_dir` and
`ModulesOf`.

`ModulesOf` goes in rounds. A round reads the `voila.mod` of every module whose selected version has
changed since it was last read, in the order of the module paths, and raises the selected versions
to those required there.
-/

namespace Voila.Load

/-! ### Versions -/

/-- `trim_v`. -/
def trimV : List Char → List Char
  | 'v' :: v => v
  | v => v

/-- `ver_num`, of a segment whose number fits an `int`. -/
def verNum (s : List Char) : Int :=
  if s = [] then -1
  else if s.all Char.isDigit then s.foldl (fun n c => n * 10 + (c.toNat - 48 : Nat)) 0
  else -1

/-- One turn of the loop of `VerCmp`: numbers where both segments are, else text. -/
def segCmp (x y : List Char) : Int :=
  if verNum x ≥ 0 ∧ verNum y ≥ 0 then
    if verNum x < verNum y then -1 else if verNum x > verNum y then 1 else 0
  else if x < y then -1
  else if x > y then 1
  else 0

/-- The loop of `VerCmp` once the first version has no segments left: each of them is `0`. -/
def restCmp : List (List Char) → Int
  | [] => 0
  | y :: ys => if segCmp ['0'] y ≠ 0 then segCmp ['0'] y else restCmp ys

/-- The loop of `VerCmp`: a segment that one of the two lacks is `0`. -/
def segsCmp : List (List Char) → List (List Char) → Int
  | [], ys => restCmp ys
  | x :: xs, [] => if segCmp x ['0'] ≠ 0 then segCmp x ['0'] else segsCmp xs []
  | x :: xs, y :: ys => if segCmp x y ≠ 0 then segCmp x y else segsCmp xs ys

/-- The segments of a version. -/
def segs (v : String) : List (List Char) := (trimV v.toList).splitOn '.'

/-- `VerCmp`. -/
def verCmp (a b : String) : Int := segsCmp (segs a) (segs b)

/-! ### Module files -/

structure Require where
  path : String
  ver : String
  line : Nat
  deriving DecidableEq

/-- The version is empty for every version, and the other one for a local directory. -/
structure Replace where
  path : String
  ver : String
  target : String
  toVer : String
  line : Nat
  deriving DecidableEq

structure ModErr where
  line : Nat
  msg : String
  deriving DecidableEq

structure ModFile where
  file : String
  found : Bool
  module : String
  reqs : List Require
  reps : List Replace
  errs : List ModErr
  deriving DecidableEq

/-- Where module files come from: the file system and what takes paths apart. -/
structure ModEnv where
  root : String
  cacheRoot : String
  /-- `path.IsAbs`, `path.Clean` and `path.Join`. -/
  isAbs : String → Bool
  clean : String → String
  join : String → String → String
  isdir : String → Bool
  /-- `ReadMod`. -/
  readMod : String → ModFile

variable (env : ModEnv) (mf : ModFile)

/-- `ModCacheDir`. -/
def modCacheDir (modpath ver : String) : String := env.join env.cacheRoot (modpath ++ "@" ++ ver)

/-- The directory and locality that a `replace` gives. -/
def replaced (rp : Replace) : String × Bool :=
  if rp.toVer = "" then
    (if env.isAbs rp.target then rp.target else env.clean (env.join env.root rp.target), true)
  else (modCacheDir env rp.target rp.toVer, false)

/-- `mod_serve_dir`: a `replace` of this version first, then one of every version, then the cache. -/
def modServeDir (p ver : String) : String × Bool :=
  match mf.reps.find? fun rp => rp.path = p ∧ rp.ver ≠ "" ∧ ver ≠ "" ∧ verCmp rp.ver ver = 0 with
  | some rp => replaced env rp
  | none =>
    match mf.reps.find? fun rp => rp.path = p ∧ rp.ver = "" with
    | some rp => replaced env rp
    | none => if ver = "" then ("", false) else (modCacheDir env p ver, false)

/-! ### Selection -/

structure ModInfo where
  paths : List String
  ver : String → Option String
  dir : String → Option String
  isLocal : String → Option Bool
  deep : List String

/-- `mod_ver`. -/
def ModInfo.modVer (mi : ModInfo) (p : String) : String := (mi.ver p).getD ""

/-- `mod_bump`. -/
def modBump (mi : ModInfo) (p v : String) : ModInfo × Bool :=
  if p = "" ∨ v = "" then (mi, false)
  else
    let raised := { mi with ver := fun q => if q = p then some v else mi.ver q }
    match mi.ver p with
    | none => ({ raised with paths := (mi.paths ++ [p]).insertionSort (· ≤ ·) }, true)
    | some cur => if verCmp v cur > 0 then (raised, true) else (mi, false)

/-- The loop over the requirements of a module. -/
def bumpAll : List Require → ModInfo × Bool → ModInfo × Bool
  | [], s => s
  | r :: rs, (mi, again) =>
    let (mi, changed) := modBump mi r.path r.ver
    bumpAll rs (mi, again || changed)

/-- The state of the walk. `reads` is what it has read so far, which the code does not keep. -/
structure Walk where
  mi : ModInfo
  expanded : String → Option String
  again : Bool
  reads : List (String × String)

/-- What `ModulesOf` says about a module's own file. -/
def deepErrs (sub : ModFile) (p : String) : List String :=
  sub.errs.map (fun e => sub.file ++ ":" ++ toString e.line ++ ": " ++ e.msg) ++
    if sub.found ∧ sub.module ≠ "" ∧ sub.module ≠ p then
      [sub.file ++ ":1: module `" ++ sub.module ++ "` is being served as `" ++ p ++
        "`; the `module` line must match the require path"]
    else []

/-- A turn of the inner loop: one module is served, read, and what it requires is raised. -/
def Walk.expand (w : Walk) (p : String) : Walk :=
  let ver := w.mi.modVer p
  let (d, loc) := modServeDir env mf p ver
  let mi := { w.mi with
    dir := fun q => if q = p then some d else w.mi.dir q
    isLocal := fun q => if q = p then some loc else w.mi.isLocal q }
  let expanded := fun q => if q = p then w.mi.ver p else w.expanded q
  if d = "" ∨ ¬ env.isdir d then { w with mi := mi, expanded := expanded, reads := w.reads ++ [(p, ver)] }
  else
    let sub := env.readMod d
    let (mi, again) := bumpAll sub.reqs ({ mi with deep := mi.deep ++ deepErrs sub p }, w.again)
    { mi := mi, expanded := expanded, again := again, reads := w.reads ++ [(p, ver)] }

/-- The modules whose selected version was not read. -/
def Walk.todo (w : Walk) : List String :=
  w.mi.paths.filter fun p => !((w.expanded p).isSome && w.expanded p == w.mi.ver p)

/-- The rounds: `none` when they do not settle. -/
def Walk.rounds : Nat → Walk → Option Walk
  | 0, _ => none
  | n + 1, w =>
    let w := w.todo.foldl (Walk.expand env mf) { w with again := false }
    if w.again then Walk.rounds n w else some w

/-- The loop over the main module's `replace` lines. -/
def bumpReps : List Replace → ModInfo → ModInfo
  | [], mi => mi
  | rp :: rps, mi =>
    bumpReps rps (if mi.ver rp.path = none ∧ rp.ver ≠ "" then (modBump mi rp.path rp.ver).1 else mi)

/-- The `ModInfo` that `ModulesOf` starts with. -/
def noModules : ModInfo :=
  { paths := []
    ver := fun _ => none
    dir := fun _ => none
    isLocal := fun _ => none
    deep := [] }

/-- The selection before any other module is read. -/
def startWalk : Walk :=
  { mi := bumpReps mf.reps (bumpAll mf.reqs (noModules, false)).1
    expanded := fun _ => none
    again := true
    reads := [] }

/-- Directories for what the last round added. -/
def serveRest (mi : ModInfo) : ModInfo :=
  mi.paths.foldl (fun mi p =>
    if (mi.dir p).isSome then mi
    else
      let (d, loc) := modServeDir env mf p (mi.modVer p)
      { mi with
        dir := fun q => if q = p then some d else mi.dir q
        isLocal := fun q => if q = p then some loc else mi.isLocal q }) mi

/-- `ModulesOf`, where it settles within its 256 rounds, with what it has read. -/
def modulesOf : Option (ModInfo × List (String × String)) :=
  (Walk.rounds env mf 256 (startWalk mf)).map fun w => (serveRest env mf w.mi, w.reads)

end Voila.Load
