import Voila.Http.Text
import Voila.Path.Path
import Voila.Rt.CaseMap

/-!
# Voila.Compress.Archive

What `compress.voi` checks before an archive is extracted: the names of its members (`safe_path`), and
their kinds and how their names go together (`plan`). The sets of `plan` are lists of their keys, in the
order they were added.
-/

namespace Voila.Compress

open Voila.Rt (Bytes lower)
open Voila.Rt.Json (ch)
open Voila.Http (Fail errf lit)
open Voila.Path (sep dot dotdot split glue join)

/-- `Member`. -/
structure Member where
  name : Bytes
  kind : Bytes
  data : Bytes
  deriving DecidableEq

def refuse {α : Type} (name : Bytes) : Except Fail α :=
  errf (lit "compress: refusing unsafe member name " ++ name)

/-- The loop of `safe_path` over the elements of a name. -/
def partsLoop (name : Bytes) (parts : List Bytes) : List Bytes → Except Fail (List Bytes)
  | [] => .ok parts
  | p :: ps =>
    if p = dotdot then refuse name
    else if p ≠ [] ∧ p ≠ dot then partsLoop name (parts ++ [p]) ps
    else partsLoop name parts ps

/-- `safe_path`. -/
def safePath (name : Bytes) : Except Fail Bytes :=
  if name = [] then errf (lit "compress: an archive member has no name")
  else if name.head? = some sep ∨ ch '\\' ∈ name ∨ 0 ∈ name then refuse name
  else do
    let parts ← partsLoop name [] (split name)
    if parts = [] then refuse name else .ok (glue parts)

/-- `safe_join`. -/
def safeJoin (dir name : Bytes) : Except Fail Bytes := do
  let rel ← safePath name
  .ok (join [dir, rel])

/-- What a kind that is refused is called. -/
def what (kind : Bytes) : Bytes :=
  if kind = lit "other" then lit "special file (a device or a FIFO)" else kind

/-- `add` of a set. -/
def add (set : List Bytes) (key : Bytes) : List Bytes := if key ∈ set then set else set ++ [key]

/-- The loop of `plan` over the directories above a member. -/
def aboveLoop (dirs : List Bytes) (above : Bytes) : List Bytes → List Bytes
  | [] => dirs
  | [_] => dirs
  | p :: q :: parts =>
    let above := if above = [] then p else above ++ sep :: p
    aboveLoop (add dirs above) above (q :: parts)

/-- What `plan` has found so far. -/
structure Plan where
  rels : List Bytes
  files : List Bytes
  dirs : List Bytes

/-- The loop of `plan` over the members. -/
def planLoop (st : Plan) : List Member → Except Fail Plan
  | [] => .ok st
  | m :: members => do
    let rel ← safePath m.name
    if m.kind ≠ lit "file" ∧ m.kind ≠ lit "dir" then
      errf (lit "compress: refusing to extract " ++ m.name ++ lit ": a " ++ what m.kind ++
        lit ", not a file or a directory")
    else
      let key := lower rel
      if m.kind = lit "file" then
        if key ∈ st.files then errf (lit "compress: " ++ m.name ++ lit " appears twice")
        else
          planLoop ⟨st.rels ++ [rel], add st.files key, aboveLoop st.dirs [] (split key)⟩ members
      else
        planLoop ⟨st.rels ++ [rel], st.files, aboveLoop (add st.dirs key) [] (split key)⟩ members

/-- The loop of `plan` over the files it has found. -/
def clashLoop (dirs : List Bytes) : List Bytes → Except Fail Unit
  | [] => .ok ()
  | f :: files =>
    if f ∈ dirs then errf (lit "compress: " ++ f ++ lit " is both a file and a directory")
    else clashLoop dirs files

/-- `plan`. -/
def plan (members : List Member) : Except Fail (List Bytes) := do
  let st ← planLoop ⟨[], [], []⟩ members
  clashLoop st.dirs st.files
  .ok st.rels

end Voila.Compress
