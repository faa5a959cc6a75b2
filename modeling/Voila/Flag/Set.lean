import Voila.Flag.Dur
import Voila.Http.TextSound
import Voila.Str.Conv
import Voila.Str.Str

/-!
# Voila.Flag.Set

Declared flags and the parse of a command line (`flag.voi`): `Set.declare`, `Set.find`, `Set.parse`.

A Set is the list of its flags. What a command line says is told without the code by `Takes`, one item of it, and
`Reads`, any number of them. Where no alias is another flag's name, `Set.find` finds the one flag that a spelling
is of, and `Set.parse` follows the reading (`parseLoop_takes`, `parseLoop_cases`).
-/

open List

namespace Voila.CommandLine

open Voila.Rt (Bytes)
open Voila.Rt.Json (ch)
open Voila.Http (lit Fail cutAt)

/-! ### Flags -/

inductive Kind
  | str
  | int
  | bool
  | float
  | dur
  deriving DecidableEq

def Kind.text : Kind → Bytes
  | .str => lit "str"
  | .int => lit "int"
  | .bool => lit "bool"
  | .float => lit "float"
  | .dur => lit "dur"

structure Flag where
  name : Bytes
  short : Bytes
  kind : Kind
  dflt : Bytes
  help : Bytes
  deriving DecidableEq

/-- `s.cut(sep)`. -/
def cut (sep : UInt8) (s : Bytes) : Bytes × Bytes × Bool :=
  match cutAt sep s with
  | some (before, after) => (before, after, true)
  | none => (s, [], false)

/-- `Set.declare`. -/
def declare (flags : List Flag) (spec : Bytes) (kind : Kind) (dflt help : Bytes) : Except Fail (List Flag) :=
  let (long, short, has) := cut (ch '|') spec
  if long = [] then .error (.throws "ValueError")
  else if has ∧ Str.runeLen short ≠ 1 then .error (.throws "ValueError")
  else if flags.any fun f => f.name = long ∨ (short ≠ [] ∧ f.short = short) then .error (.throws "ValueError")
  else .ok (flags ++ [⟨long, short, kind, dflt, help⟩])

/-- A flag has the spelling. -/
def Spelled (nm : Bytes) (f : Flag) : Prop := f.name = nm ∨ (f.short ≠ [] ∧ f.short = nm)

instance (nm : Bytes) : DecidablePred (Spelled nm) := fun f =>
  inferInstanceAs (Decidable (f.name = nm ∨ (f.short ≠ [] ∧ f.short = nm)))

/-- `Set.find`; the empty Flag is `none`. -/
def find (flags : List Flag) (nm : Bytes) : Option Flag := flags.find? (Spelled nm)

/-! ### Parsing -/

structure Flags where
  vals : Bytes → Option Bytes
  given : List Bytes
  kinds : Bytes → Option Kind
  rest : List Bytes

section

-- Whether `to_float` converts a text.
variable (toFloat : Bytes → Bool)

/-- `check_value`. -/
def checkValue (f : Flag) (val : Bytes) : Except Fail Unit :=
  match f.kind with
  | .int =>
    match Str.safeConv "int" val none with
    | some (some _) => .ok ()
    | _ => err (lit "flag --" ++ f.name ++ lit ": " ++ quoted val ++ lit " is not an int")
  | .float =>
    if toFloat val then .ok ()
    else err (lit "flag --" ++ f.name ++ lit ": " ++ quoted val ++ lit " is not a number")
  | .bool =>
    if val ≠ lit "true" ∧ val ≠ lit "false" then
      err (lit "flag --" ++ f.name ++ lit ": " ++ quoted val ++ lit " is not true or false")
    else .ok ()
  | .dur =>
    match parseDur val with
    | .ok _ => .ok ()
    | .error (.err msg) => err (lit "flag --" ++ f.name ++ lit ": " ++ msg)
    | .error e => .error e
  | .str => .ok ()

/-- A flag has its default. -/
def Flags.preset (out : Flags) (f : Flag) : Flags :=
  { out with
    vals := fun nm => if nm = f.name then some f.dflt else out.vals nm
    kinds := fun nm => if nm = f.name then some f.kind else out.kinds nm }

/-- The values before the command line is read. -/
def start (flags : List Flag) : Flags := flags.foldl Flags.preset ⟨fun _ => none, [], fun _ => none, []⟩

/-- A value is given. -/
def Flags.give (out : Flags) (f : Flag) (val : Bytes) : Flags :=
  { out with
    vals := fun nm => if nm = f.name then some val else out.vals nm
    given := if f.name ∈ out.given then out.given else out.given ++ [f.name] }

/-- What follows the dashes of an argument, and these. -/
def bodyOf (a : Bytes) : Bytes × Bytes :=
  let body := a.drop 1
  if body.head? = some (ch '-') then (body.drop 1, lit "--") else (body, lit "-")

/-- The flag that is meant, and whether it is negated. -/
def meant (flags : List Flag) (nm : Bytes) (hasInline : Bool) : Option (Flag × Bool) :=
  match find flags nm with
  | some f => some (f, false)
  | none =>
    if (lit "no-").isPrefixOf nm then
      match find flags (nm.drop 3) with
      | some g => if g.kind = .bool ∧ hasInline = false then some (g, true) else none
      | none => none
    else none

/-- The loop of `Set.parse`. -/
def parseLoop (flags : List Flag) (out : Flags) (onlyArgs : Bool) : List Bytes → Except Fail Flags
  | [] => .ok out
  | a :: args =>
    if onlyArgs ∨ a = lit "-" ∨ a.head? ≠ some (ch '-') then
      parseLoop flags { out with rest := out.rest ++ [a] } onlyArgs args
    else if a = lit "--" then parseLoop flags out true args
    else
      let (body, dashes) := bodyOf a
      let (nm, inline, hasInline) := cut (ch '=') body
      match meant flags nm hasInline with
      | none =>
        if nm = lit "help" ∨ nm = lit "h" then err (lit "help requested")
        else err (lit "unknown flag " ++ dashes ++ nm)
      | some (f, negated) =>
        if f.kind = .bool then do
          let val := if negated then lit "false" else if hasInline then inline else lit "true"
          checkValue toFloat f val
          parseLoop flags (out.give f val) onlyArgs args
        else if hasInline then do
          checkValue toFloat f inline
          parseLoop flags (out.give f inline) onlyArgs args
        else
          match args with
          | [] =>
            err (lit "flag --" ++ f.name ++ lit " needs " ++ (if f.kind = .int then lit "an " else lit "a ") ++
              f.kind.text ++ lit " value")
          | val :: args => do
            checkValue toFloat f val
            parseLoop flags (out.give f val) onlyArgs args

/-- `Set.parse`. -/
def parse (flags : List Flag) (args : List Bytes) : Except Fail Flags :=
  parseLoop toFloat flags (start flags) false args

end

/-- `Flags.raw`. -/
def Flags.raw (fl : Flags) (name : Bytes) : Except Fail Bytes :=
  match fl.vals name with
  | some v => .ok v
  | none => .error (.throws "ValueError")

/-- `Flags.dur`. -/
def Flags.dur (fl : Flags) (name : Bytes) : Except Fail Int64 := do
  match parseDur (← fl.raw name) with
  | .ok d => .ok d
  | .error (.err _) => .ok 0
  | .error e => .error e

/-! ### Durations -/

/-- What is asked of durations: of one, of the flags where it is the value of one, and of a text. -/
structure Durations (d : Int64) (s : Bytes) : Prop where
  back : parseDur (durText d) = .ok d
  read : ∀ (fl : Flags) (name : Bytes), fl.vals name = some (durText d) → fl.dur name = .ok d
  safe : Returns (parseDur s)

/-- A duration is read back exactly if it is not negative, and a text is thrown exactly if an int overflows. -/
theorem durations_iff (d : Int64) (s : Bytes) : Durations d s ↔ 0 ≤ d.toInt ∧ ¬ Overflows 0 s := by
  rw [← parseDur_durText, ← parseDur_returns_iff]
  refine ⟨fun h => ⟨h.back, h.safe⟩, fun h => ⟨h.1, fun fl name value => ?_, h.2⟩⟩
  rw [Flags.dur, Flags.raw, value]
  change (match parseDur (durText d) with | .ok d => _ | .error (.err _) => _ | .error e => _) = _
  rw [h.1]

/-- What -5 s prints as is not a duration, and ten billion hours are thrown. -/
theorem negative_refused : ¬ Durations (-5000000000) (lit "10000000000h") ∧
    parseDur (durText (-5000000000)) ≠ .ok (-5000000000) ∧ ¬ Returns (parseDur (lit "10000000000h")) := by
  have minus := (parseDur_durText (-5000000000)).not.mpr (by decide)
  have long := (parseDur_returns_iff (lit "10000000000h")).not.mpr (not_not_intro (.sum (by decide) (by decide)))
  exact ⟨fun h => minus h.back, minus, long⟩

/-! ### What a command line says -/

inductive Item
  | arg (a : Bytes)
  | gives (f : Flag) (v : Bytes)

/-- A declared flag has the spelling. -/
def Answers (flags : List Flag) (f : Flag) (nm : Bytes) : Prop := f ∈ flags ∧ Spelled nm f

/-- What follows the dashes of an argument. -/
inductive Dashed : Bytes → Bytes → Prop
  | one {body : Bytes} (single : body.head? ≠ some (ch '-')) : Dashed (ch '-' :: body) body
  | two {body : Bytes} : Dashed (ch '-' :: ch '-' :: body) body

/-- The first arguments say the items. -/
inductive Takes (flags : List Flag) : List Bytes → List Item → List Bytes → Prop
  | arg {a : Bytes} {args : List Bytes} (plain : a = lit "-" ∨ a.head? ≠ some (ch '-')) :
      Takes flags (a :: args) [.arg a] args
  | rest {args : List Bytes} : Takes flags (lit "--" :: args) (args.map .arg) []
  | inline {a nm v : Bytes} {f : Flag} {args : List Bytes} (dashed : Dashed a (nm ++ ch '=' :: v)) (clean : ch '=' ∉ nm)
      (answers : Answers flags f nm) : Takes flags (a :: args) [.gives f v] args
  | switch {a nm : Bytes} {f : Flag} {args : List Bytes} (dashed : Dashed a nm) (clean : ch '=' ∉ nm)
      (answers : Answers flags f nm) (bool : f.kind = .bool) : Takes flags (a :: args) [.gives f (lit "true")] args
  | negated {a nm : Bytes} {f : Flag} {args : List Bytes} (dashed : Dashed a (lit "no-" ++ nm)) (clean : ch '=' ∉ nm)
      (free : ∀ g, ¬ Answers flags g (lit "no-" ++ nm)) (answers : Answers flags f nm) (bool : f.kind = .bool) :
      Takes flags (a :: args) [.gives f (lit "false")] args
  | value {a nm v : Bytes} {f : Flag} {args : List Bytes} (dashed : Dashed a nm) (clean : ch '=' ∉ nm)
      (answers : Answers flags f nm) (other : f.kind ≠ .bool) : Takes flags (a :: v :: args) [.gives f v] args

inductive Reads (flags : List Flag) : List Bytes → List Item → List Bytes → Prop
  | nil {args : List Bytes} : Reads flags args [] args
  | cons {args args' args'' : List Bytes} {items items' : List Item} (first : Takes flags args items args')
      (more : Reads flags args' items' args'') : Reads flags args (items ++ items') args''

def Item.rest : Item → Option Bytes
  | .arg a => some a
  | .gives .. => none

/-- The value that is given to a flag, by its name. -/
def Item.valueOf (name : Bytes) : Item → Option Bytes
  | .arg _ => none
  | .gives f v => if f.name = name then some v else none

/-- The flags have the last values that are given, or their defaults, and the rest is what is no flag. -/
structure Says (flags : List Flag) (items : List Item) (out : Flags) : Prop where
  vals : ∀ f ∈ flags, out.vals f.name = some ((items.filterMap (Item.valueOf f.name)).getLastD f.dflt)
  rest : out.rest = items.filterMap Item.rest

section

variable (toFloat : Bytes → Bool)

/-- The given values are of their flags' types. -/
def checkAll : List Item → Except Fail Unit
  | [] => .ok ()
  | .arg _ :: items => checkAll items
  | .gives f v :: items => do
    checkValue toFloat f v
    checkAll items

/-- In front of the first value that is refused, a dur flag gets one whose ints leave the range. -/
def Thrown (flags : List Flag) (args : List Bytes) : Prop :=
  ∃ items args' f v args'', Reads flags args items args' ∧ checkAll toFloat items = .ok () ∧
    Takes flags args' [.gives f v] args'' ∧ f.kind = .dur ∧ Overflows 0 v

/-- What is asked of declared flags and a command line. -/
structure Right (flags : List Flag) (args : List Bytes) : Prop where
  one : ∀ f ∈ flags, ∀ nm, Spelled nm f → ∃! g, Answers flags g nm
  safe : Returns (parse toFloat flags args)
  told : ∀ out, parse toFloat flags args = .ok out → ∃ items, Reads flags args items [] ∧ Says flags items out
  takes : ∀ items, Reads flags args items [] → checkAll toFloat items = .ok () →
    ∃ out, parse toFloat flags args = .ok out ∧ Says flags items out

end

/-! ### Declared flags -/

/-- Flags that `declare` accepts one after another. -/
inductive Declared : List Flag → Prop
  | none : Declared []
  | declare {flags flags' : List Flag} {spec dflt help : Bytes} {kind : Kind} (before : Declared flags)
      (accepted : declare flags spec kind dflt help = .ok flags') : Declared flags'

/-- What `declare` checks. -/
structure Checked (flags : List Flag) : Prop where
  named : ∀ f ∈ flags, f.name ≠ []
  names : ∀ f ∈ flags, ∀ g ∈ flags, f.name = g.name → f = g
  shorts : ∀ f ∈ flags, ∀ g ∈ flags, f.short ≠ [] → f.short = g.short → f = g

variable {flags : List Flag} {f g : Flag} {nm : Bytes}

theorem Declared.checked (h : Declared flags) : Checked flags := by
  induction h with
  | none => exact ⟨nofun, nofun, nofun⟩
  | @declare flags flags' spec dflt help kind before accepted ih =>
    rw [CommandLine.declare] at accepted
    generalize cut (ch '|') spec = parts at accepted
    obtain ⟨long, short, has⟩ := parts
    dsimp only at accepted
    split_ifs at accepted with nameless letter twice
    cases accepted
    have apart : ∀ f ∈ flags, f.name ≠ long ∧ (short ≠ [] → f.short ≠ short) := by
      intro f member
      have free := twice
      rw [any_eq_true, not_exists] at free
      have here := free f
      simp only [member, true_and, decide_eq_true_eq, not_or, not_and] at here
      exact here
    refine ⟨?_, ?_, ?_⟩
    · intro f member
      rcases mem_append.mp member with member | member
      · exact ih.named f member
      · rw [mem_singleton.mp member]
        exact nameless
    · intro f hf g hg same
      rcases mem_append.mp hf with hf | hf <;> rcases mem_append.mp hg with hg | hg
      · exact ih.names f hf g hg same
      · rw [mem_singleton.mp hg] at same
        exact absurd same (apart f hf).1
      · rw [mem_singleton.mp hf] at same
        exact absurd same.symm (apart g hg).1
      · rw [mem_singleton.mp hf, mem_singleton.mp hg]
    · intro f hf g hg some_ same
      rcases mem_append.mp hf with hf | hf <;> rcases mem_append.mp hg with hg | hg
      · exact ih.shorts f hf g hg some_ same
      · rw [mem_singleton.mp hg] at same
        exact absurd same ((apart f hf).2 fun empty => some_ (same.trans empty))
      · rw [mem_singleton.mp hf] at same some_
        exact absurd same.symm ((apart g hg).2 some_)
      · rw [mem_singleton.mp hf, mem_singleton.mp hg]

/-- No spelling is of two flags. -/
def OneEach (flags : List Flag) : Prop := ∀ f g nm, Answers flags f nm → Answers flags g nm → f = g

/-- No alias is another flag's name. -/
def Apart (flags : List Flag) : Prop := ∀ f ∈ flags, ∀ g ∈ flags, f.short = g.name → f = g

theorem Checked.oneEach (checked : Checked flags) (apart : Apart flags) : OneEach flags := by
  rintro f g nm ⟨hf, nameF | ⟨someF, shortF⟩⟩ ⟨hg, nameG | ⟨someG, shortG⟩⟩
  · exact checked.names f hf g hg (nameF.trans nameG.symm)
  · exact (apart g hg f hf (shortG.trans nameF.symm)).symm
  · exact apart f hf g hg (shortF.trans nameG.symm)
  · exact checked.shorts f hf g hg someF (shortF.trans shortG.symm)

theorem Answers.ne_nil (named : ∀ f ∈ flags, f.name ≠ []) (h : Answers flags f nm) : nm ≠ [] := by
  obtain ⟨member, name | ⟨some_, short⟩⟩ := h
  · exact name ▸ named f member
  · exact short ▸ some_

theorem find_some (h : find flags nm = some f) : Answers flags f nm :=
  ⟨List.mem_of_find?_eq_some h, of_decide_eq_true (List.find?_some (p := fun f => decide (Spelled nm f)) h)⟩

theorem find_none_iff : find flags nm = none ↔ ∀ g, ¬ Answers flags g nm := by
  rw [find, List.find?_eq_none]
  constructor
  · rintro h g ⟨member, spelled⟩
    exact h g member (decide_eq_true spelled)
  · intro h g member spelled
    exact h g ⟨member, of_decide_eq_true spelled⟩

theorem find_of (one : OneEach flags) (h : Answers flags f nm) : find flags nm = some f := by
  cases hg : find flags nm with
  | none => exact absurd h (find_none_iff.mp hg f)
  | some g => rw [one f g nm h (find_some hg)]

/-! ### One item -/

variable {toFloat : Bytes → Bool} {args args' args'' : List Bytes} {items items' : List Item} {a body : Bytes}

/-- An item is put to the result. -/
def Flags.take (out : Flags) : Item → Flags
  | .arg a => { out with rest := out.rest ++ [a] }
  | .gives f v => out.give f v

theorem checkAll_append (items items' : List Item) :
    checkAll toFloat (items ++ items') = checkAll toFloat items >>= fun _ => checkAll toFloat items' := by
  induction items with
  | nil => rfl
  | cons item items ih =>
    cases item with
    | arg a => exact ih
    | gives f v =>
      rw [cons_append, checkAll, checkAll, ih]
      cases checkValue toFloat f v <;> rfl

theorem parseLoop_rest (flags : List Flag) (args : List Bytes) (out : Flags) :
    parseLoop toFloat flags out true args = .ok ((args.map Item.arg).foldl Flags.take out) := by
  induction args generalizing out with
  | nil => rfl
  | cons a args ih =>
    rw [parseLoop, if_pos (.inl rfl)]
    exact ih _

theorem checkAll_args (args : List Bytes) : checkAll toFloat (args.map .arg) = .ok () := by
  induction args with
  | nil => rfl
  | cons a args ih => exact ih

/-- An argument that is a flag, and not the lone dash or the pair of them. -/
theorem Dashed.flag (h : Dashed a body) (some_ : body ≠ []) :
    ¬ (false = true ∨ a = lit "-" ∨ a.head? ≠ some (ch '-')) ∧ a ≠ lit "--" ∧ ∃ dashes, bodyOf a = (body, dashes) := by
  have dash : lit "-" = [ch '-'] := rfl
  have dashes : lit "--" = [ch '-', ch '-'] := rfl
  rw [dash, dashes]
  cases h with
  | one single =>
    refine ⟨by simp [some_], ?_, lit "-", if_neg single⟩
    rintro same
    obtain rfl := (List.cons.inj same).2
    exact single rfl
  | two => exact ⟨by simp, by simpa using some_, lit "--", rfl⟩

variable {hasInline negated : Bool}

/-- A flag that is not known is refused. -/
theorem parseLoop_unknown {nm inline : Bytes} (dashed : Dashed a body) (some_ : body ≠ [])
    (cuts : cut (ch '=') body = (nm, inline, hasInline)) (is : meant flags nm hasInline = none) (out : Flags)
    (args : List Bytes) : ∃ msg, parseLoop toFloat flags out false (a :: args) = .error (.err msg) := by
  obtain ⟨flag, more, d, hb⟩ := dashed.flag some_
  rw [parseLoop.eq_def]
  dsimp only
  rw [if_neg flag, if_neg more, hb]
  rw [cuts]
  rw [is]
  dsimp only
  split <;> exact ⟨_, rfl⟩

/-- The flag that is meant is put to the result, with its value. -/
theorem parseLoop_meant {nm inline : Bytes} (dashed : Dashed a body) (some_ : body ≠ [])
    (cuts : cut (ch '=') body = (nm, inline, hasInline)) (is : meant flags nm hasInline = some (f, negated))
    (out : Flags) (args : List Bytes) : parseLoop toFloat flags out false (a :: args) =
      (if f.kind = .bool then
        checkValue toFloat f (if negated then lit "false" else if hasInline then inline else lit "true") >>= fun _ =>
          parseLoop toFloat flags
            (out.give f (if negated then lit "false" else if hasInline then inline else lit "true")) false args
      else if hasInline then
        checkValue toFloat f inline >>= fun _ => parseLoop toFloat flags (out.give f inline) false args
      else
        match args with
        | [] => err (lit "flag --" ++ f.name ++ lit " needs " ++ (if f.kind = .int then lit "an " else lit "a ") ++
            f.kind.text ++ lit " value")
        | val :: args =>
            checkValue toFloat f val >>= fun _ => parseLoop toFloat flags (out.give f val) false args) := by
  obtain ⟨flag, more, d, hb⟩ := dashed.flag some_
  rw [parseLoop.eq_def]
  dsimp only
  rw [if_neg flag, if_neg more, hb]
  rw [cuts]
  rw [is]

theorem cut_bare {nm : Bytes} (clean : ch '=' ∉ nm) : cut (ch '=') nm = (nm, [], false) := by
  rw [cut, Http.cutAt_eq_none clean]

theorem meant_of {nm : Bytes} (one : OneEach flags) (answers : Answers flags f nm) :
    meant flags nm hasInline = some (f, false) := by
  rw [meant, find_of one answers]

/-- A value that is given is checked and put to the result. -/
theorem gives_take (f : Flag) (v : Bytes) (out : Flags) (args : List Bytes) :
    (checkValue toFloat f v >>= fun _ => parseLoop toFloat flags (out.give f v) false args) =
      checkAll toFloat [.gives f v] >>= fun _ =>
        parseLoop toFloat flags ([Item.gives f v].foldl Flags.take out) false args := by
  rw [checkAll]
  cases checkValue toFloat f v <;> rfl

/-- What the first arguments say is done, and the loop goes on with the others. -/
theorem parseLoop_takes (named : ∀ f ∈ flags, f.name ≠ []) (one : OneEach flags) (h : Takes flags args items args')
    (out : Flags) : parseLoop toFloat flags out false args =
      checkAll toFloat items >>= fun _ => parseLoop toFloat flags (items.foldl Flags.take out) false args' := by
  cases h with
  | arg plain =>
    rw [parseLoop.eq_def]
    dsimp only
    rw [if_pos (.inr plain)]
    rfl
  | rest =>
    have flag : ¬ (false = true ∨ lit "--" = lit "-" ∨ (lit "--").head? ≠ some (ch '-')) := by decide
    rw [parseLoop.eq_def]
    dsimp only
    rw [if_neg flag, if_pos rfl, parseLoop_rest, checkAll_args]
    rfl
  | @inline _ nm v f _ dashed clean answers =>
    have cuts : cut (ch '=') (nm ++ ch '=' :: v) = (nm, v, true) := by rw [cut, Http.cutAt_append clean]
    rw [parseLoop_meant dashed (by simp) cuts (meant_of one answers), ← gives_take]
    exact ite_self _
  | switch dashed clean answers bool =>
    rw [parseLoop_meant dashed (answers.ne_nil named) (cut_bare clean) (meant_of one answers), if_pos bool]
    exact gives_take _ _ out args'
  | @negated _ nm f _ dashed clean free answers bool =>
    have clean' : ch '=' ∉ lit "no-" ++ nm := by
      rw [mem_append, not_or]
      exact ⟨by decide, clean⟩
    have is : meant flags (lit "no-" ++ nm) false = some (f, true) := by
      have no : (lit "no-").isPrefixOf (lit "no-" ++ nm) = true := by simp
      have name : (lit "no-" ++ nm).drop 3 = nm := rfl
      rw [meant, find_none_iff.mpr free]
      rw [if_pos no, name, find_of one answers]
      exact if_pos ⟨bool, rfl⟩
    rw [parseLoop_meant dashed (by simp [lit]) (cut_bare clean') is, if_pos bool]
    exact gives_take _ _ out args'
  | value dashed clean answers other =>
    rw [parseLoop_meant dashed (answers.ne_nil named) (cut_bare clean) (meant_of one answers), if_neg other,
      if_neg Bool.false_ne_true]
    exact gives_take _ _ out args'

theorem meant_cases {nm : Bytes} (h : meant flags nm hasInline = some (f, negated)) :
    Answers flags f nm ∧ negated = false ∨ ∃ name, nm = lit "no-" ++ name ∧ (∀ g, ¬ Answers flags g nm) ∧
      Answers flags f name ∧ f.kind = .bool ∧ hasInline = false ∧ negated = true := by
  rw [meant] at h
  cases found : find flags nm with
  | some g =>
    rw [found] at h
    cases h
    exact .inl ⟨find_some found, rfl⟩
  | none =>
    rw [found] at h
    split_ifs at h with no
    obtain ⟨name, rfl⟩ := isPrefixOf_iff_prefix.mp no
    have drop : (lit "no-" ++ name).drop 3 = name := rfl
    rw [drop] at h
    cases other : find flags name with
    | none => rw [other] at h; cases h
    | some g =>
      rw [other] at h
      dsimp only at h
      split_ifs at h with bare
      cases h
      exact .inr ⟨name, rfl, find_none_iff.mp found, find_some other, bare.1, bare.2, rfl⟩

/-- An argument is no flag, or a flag's body follows its dashes, or all that follows it is no flag. -/
theorem dashed_cases (a : Bytes) : (a = lit "-" ∨ a.head? ≠ some (ch '-')) ∨ a = lit "--" ∨
    ∃ body, Dashed a body ∧ body ≠ [] := by
  cases a with
  | nil => exact .inl (.inr nofun)
  | cons c a =>
    by_cases dash : c = ch '-'
    · subst dash
      cases a with
      | nil => exact .inl (.inl rfl)
      | cons c a =>
        by_cases dash : c = ch '-'
        · subst dash
          cases a with
          | nil => exact .inr (.inl rfl)
          | cons c a => exact .inr (.inr ⟨c :: a, .two, nofun⟩)
        · exact .inr (.inr ⟨c :: a, .one fun same => dash (Option.some.inj same), nofun⟩)
    · exact .inl (.inr fun same => dash (Option.some.inj same))

/-- The first arguments say something, or they are refused. -/
theorem takes_or_refused (flags : List Flag) (a : Bytes) (args : List Bytes) :
    (∃ items args', Takes flags (a :: args) items args' ∧ args'.length ≤ args.length) ∨
      ∀ out, ∃ msg, parseLoop toFloat flags out false (a :: args) = .error (.err msg) := by
  rcases dashed_cases a with plain | rfl | ⟨body, dashed, some_⟩
  · exact .inl ⟨_, _, .arg plain, le_rfl⟩
  · exact .inl ⟨_, _, .rest, Nat.zero_le _⟩
  cases cuts : Http.cutAt (ch '=') body with
  | some parts =>
    obtain ⟨nm, v⟩ := parts
    obtain ⟨rfl, clean⟩ := Http.cutAt_some cuts
    have cuts : cut (ch '=') (nm ++ ch '=' :: v) = (nm, v, true) := by rw [cut, cuts]
    cases is : meant flags nm true with
    | none => exact .inr fun out => parseLoop_unknown dashed some_ cuts is out args
    | some g =>
      rcases meant_cases is with ⟨answers, -⟩ | ⟨_, _, _, _, _, inline, _⟩
      · exact .inl ⟨_, _, .inline dashed clean answers, le_rfl⟩
      · cases inline
  | none =>
    have clean := Http.cutAt_none cuts
    cases is : meant flags body false with
    | none => exact .inr fun out => parseLoop_unknown dashed some_ (cut_bare clean) is out args
    | some g =>
      obtain ⟨g, negated⟩ := g
      rcases meant_cases is with ⟨answers, rfl⟩ | ⟨name, rfl, free, answers, bool, -, -⟩
      · by_cases bool : g.kind = .bool
        · exact .inl ⟨_, _, .switch dashed clean answers bool, le_rfl⟩
        · cases args with
          | nil =>
            refine .inr fun out => ?_
            rw [parseLoop_meant dashed some_ (cut_bare clean) is, if_neg bool, if_neg Bool.false_ne_true]
            exact ⟨_, rfl⟩
          | cons v args => exact .inl ⟨_, _, .value dashed clean answers bool, Nat.le_succ _⟩
      · have clean : ch '=' ∉ name := fun h => clean (mem_append_right _ h)
        exact .inl ⟨_, _, .negated dashed clean free answers bool, le_rfl⟩

/-! ### A command line -/

/-- A value is accepted or refused, or it is a duration's whose ints leave the range. -/
theorem checkValue_cases (f : Flag) (v : Bytes) :
    (∃ e, checkValue toFloat f v = .error (.throws e)) ∧ f.kind = .dur ∧ Overflows 0 v ∨
      Returns (checkValue toFloat f v) ∧ ¬ (f.kind = .dur ∧ Overflows 0 v) := by
  rw [checkValue]
  cases kind : f.kind with
  | dur =>
    dsimp only
    rcases parseDur_cases v with ⟨⟨e, thrown⟩, large⟩ | ⟨⟨d, done⟩ | ⟨msg, done⟩, fine⟩
    · exact .inl ⟨⟨e, by rw [thrown]⟩, rfl, large⟩
    · exact .inr ⟨.inl ⟨(), by rw [done]⟩, fun h => fine h.2⟩
    · exact .inr ⟨.inr ⟨_, by rw [done]; rfl⟩, fun h => fine h.2⟩
  | int =>
    refine .inr ⟨?_, nofun⟩
    dsimp only
    split
    · exact .inl ⟨(), rfl⟩
    · exact .inr ⟨_, rfl⟩
  | float =>
    refine .inr ⟨?_, nofun⟩
    dsimp only
    split
    · exact .inl ⟨(), rfl⟩
    · exact .inr ⟨_, rfl⟩
  | bool =>
    refine .inr ⟨?_, nofun⟩
    dsimp only
    split
    · exact .inr ⟨_, rfl⟩
    · exact .inl ⟨(), rfl⟩
  | str => exact .inr ⟨.inl ⟨(), rfl⟩, nofun⟩

theorem Thrown.later (first : Takes flags args items args') (ok : checkAll toFloat items = .ok ())
    (h : Thrown toFloat flags args') : Thrown toFloat flags args := by
  obtain ⟨items', args'', f, v, rest, reads, fine, takes, kind, large⟩ := h
  exact ⟨_, args'', f, v, rest, .cons first reads, by rw [checkAll_append, ok]; exact fine, takes, kind, large⟩

theorem Takes.items_eq (h : Takes flags args items args') :
    (∃ f v, items = [.gives f v]) ∨ ∃ as : List Bytes, items = as.map .arg := by
  cases h with
  | @arg a => exact .inr ⟨[a], rfl⟩
  | rest => exact .inr ⟨_, rfl⟩
  | inline | switch | negated | value => exact .inl ⟨_, _, rfl⟩

theorem checkAll_gives (f : Flag) (v : Bytes) : checkAll toFloat [.gives f v] = checkValue toFloat f v := by
  rw [checkAll]
  cases checkValue toFloat f v <;> rfl

/-- A reading is followed as long as its values are accepted. -/
theorem parseLoop_reads (named : ∀ f ∈ flags, f.name ≠ []) (one : OneEach flags) (h : Reads flags args items args')
    (ok : checkAll toFloat items = .ok ()) (out : Flags) :
    parseLoop toFloat flags out false args = parseLoop toFloat flags (items.foldl Flags.take out) false args' := by
  induction h generalizing out with
  | nil => rfl
  | @cons args args' args'' items items' first more ih =>
    rw [checkAll_append] at ok
    cases head : checkAll toFloat items with
    | error e => rw [head] at ok; cases ok
    | ok u =>
      rw [head] at ok
      rw [parseLoop_takes named one first, head, foldl_append]
      exact ih ok _

/-- The command line is read, or it is refused, or what is thrown is a duration's overflow. -/
theorem parseLoop_cases (named : ∀ f ∈ flags, f.name ≠ []) (one : OneEach flags) (args : List Bytes) (out : Flags) :
    (∃ items, Reads flags args items [] ∧ parseLoop toFloat flags out false args = .ok (items.foldl Flags.take out)) ∨
      (∃ msg, parseLoop toFloat flags out false args = .error (.err msg)) ∨ Thrown toFloat flags args := by
  induction h : args.length using Nat.strong_induction_on generalizing args out with
  | _ n ih =>
    subst h
    cases args with
    | nil => exact .inl ⟨[], .nil, rfl⟩
    | cons a args =>
      rcases @takes_or_refused toFloat flags a args with ⟨items, args', takes, fewer⟩ | refused
      swap
      · exact .inr (.inl (refused out))
      rw [parseLoop_takes named one takes]
      cases head : checkAll toFloat items with
      | ok u =>
        rcases ih args'.length (by simpa using Nat.lt_succ_of_le fewer) args' (items.foldl Flags.take out) rfl with
          ⟨items', reads, loop⟩ | ⟨msg, loop⟩ | thrown
        · exact .inl ⟨items ++ items', .cons takes reads, by rw [foldl_append, ← loop]; rfl⟩
        · exact .inr (.inl ⟨msg, loop⟩)
        · exact .inr (.inr (thrown.later takes head))
      | error e =>
        rcases takes.items_eq with ⟨f, v, rfl⟩ | ⟨as, rfl⟩
        · rw [checkAll_gives] at head
          rcases @checkValue_cases toFloat f v with ⟨-, kind, large⟩ | ⟨⟨u, done⟩ | ⟨msg, done⟩, -⟩
          · exact .inr (.inr ⟨[], _, f, v, _, .nil, rfl, takes, kind, large⟩)
          · rw [done] at head
            cases head
          · rw [done] at head
            cases head
            exact .inr (.inl ⟨msg, rfl⟩)
        · rw [checkAll_args] at head
          cases head

/-- What is thrown for a duration is not an error value. -/
theorem Thrown.parseLoop (named : ∀ f ∈ flags, f.name ≠ []) (one : OneEach flags) (h : Thrown toFloat flags args)
    (out : Flags) : ¬ Returns (parseLoop toFloat flags out false args) := by
  obtain ⟨items, args', f, v, args'', reads, ok, takes, kind, large⟩ := h
  rcases @checkValue_cases toFloat f v with ⟨⟨e, thrown⟩, -⟩ | ⟨-, fine⟩
  · rw [parseLoop_reads named one reads ok, parseLoop_takes named one takes, checkAll_gives, thrown]
    rintro (⟨_, h⟩ | ⟨_, h⟩) <;> cases h
  · exact absurd ⟨kind, large⟩ fine

/-! ### What is told -/

theorem vals_foldl (nm : Bytes) (items : List Item) {out : Flags} {d : Bytes} (h : out.vals nm = some d) :
    (items.foldl Flags.take out).vals nm = some ((items.filterMap (Item.valueOf nm)).getLastD d) := by
  induction items generalizing out d with
  | nil => exact h
  | cons item items ih =>
    cases item with
    | arg a => exact ih h
    | gives f v =>
      by_cases same : f.name = nm
      · have given : (out.give f v).vals nm = some v := if_pos same.symm
        have value : Item.valueOf nm (.gives f v) = some v := if_pos same
        rw [filterMap_cons_some value, getLastD_cons]
        exact ih given
      · have given : (out.give f v).vals nm = some d := (if_neg (Ne.symm same)).trans h
        have value : Item.valueOf nm (.gives f v) = none := if_neg same
        rw [filterMap_cons_none value]
        exact ih given

theorem rest_foldl (items : List Item) (out : Flags) :
    (items.foldl Flags.take out).rest = out.rest ++ items.filterMap Item.rest := by
  induction items generalizing out with
  | nil => exact (List.append_nil _).symm
  | cons item items ih =>
    cases item with
    | arg a => exact (ih _).trans (append_assoc _ [a] _)
    | gives f v => exact ih _

theorem preset_vals (gs : List Flag) (only : ∀ g ∈ gs, g.name = f.name → g = f) (out : Flags)
    (h : f ∈ gs ∨ out.vals f.name = some f.dflt) : (gs.foldl Flags.preset out).vals f.name = some f.dflt := by
  induction gs generalizing out with
  | nil => exact h.resolve_left nofun
  | cons g gs ih =>
    refine ih (fun g hg => only g (mem_cons_of_mem _ hg)) _ ?_
    by_cases same : g.name = f.name
    · obtain rfl := only g mem_cons_self same
      exact .inr (if_pos rfl)
    · refine h.imp (fun member => ?_) ((if_neg (Ne.symm same)).trans ·)
      rcases mem_cons.mp member with rfl | member
      · exact absurd rfl same
      · exact member

theorem preset_rest (gs : List Flag) (out : Flags) : (gs.foldl Flags.preset out).rest = out.rest := by
  induction gs generalizing out with
  | nil => rfl
  | cons g gs ih => exact ih _

/-- The flags have the last values that are given to them. -/
theorem says_foldl (checked : Checked flags) (items : List Item) :
    Says flags items (items.foldl Flags.take (start flags)) where
  vals f member :=
    vals_foldl f.name items (preset_vals flags (fun g hg same => checked.names g hg f member same) _ (.inl member))
  rest := by
    rw [rest_foldl, start, preset_rest]
    exact nil_append _

theorem apart_of_one (checked : Checked flags) (one : ∀ f ∈ flags, ∀ nm, Spelled nm f → ∃! g, Answers flags g nm) :
    Apart flags := by
  intro f hf g hg same
  have short : f.short ≠ [] := fun empty => checked.named g hg (same.symm.trans empty)
  exact (one f hf g.name (.inr ⟨short, same⟩)).unique ⟨hf, .inr ⟨short, same⟩⟩ ⟨hg, .inl rfl⟩

/-- Declared flags and a command line are as is asked exactly if no alias is another flag's name and no duration that
is given overflows. -/
theorem parse_right_iff (toFloat : Bytes → Bool) (declared : Declared flags) (args : List Bytes) :
    Right toFloat flags args ↔ Apart flags ∧ ¬ Thrown toFloat flags args := by
  have checked := declared.checked
  constructor
  · intro right
    have apart := apart_of_one checked right.one
    exact ⟨apart, fun thrown => thrown.parseLoop checked.named (checked.oneEach apart) (start flags) right.safe⟩
  · rintro ⟨apart, fine⟩
    have one := checked.oneEach apart
    have cases_ := @parseLoop_cases flags toFloat checked.named one args (start flags)
    refine ⟨fun f member nm spelled => ⟨f, ⟨member, spelled⟩, fun g h => one g f nm h ⟨member, spelled⟩⟩, ?_, ?_, ?_⟩
    · rcases cases_ with ⟨items, -, done⟩ | refused | thrown
      · exact .inl ⟨_, done⟩
      · exact .inr refused
      · exact absurd thrown fine
    · intro out done
      rcases cases_ with ⟨items, reads, read⟩ | ⟨msg, refused⟩ | thrown
      · rw [parse, read] at done
        cases done
        exact ⟨items, reads, says_foldl checked items⟩
      · rw [parse, refused] at done
        cases done
      · exact absurd thrown fine
    · intro items reads ok
      exact ⟨_, parseLoop_reads checked.named one reads ok _, says_foldl checked items⟩

theorem Takes.declared {v : Bytes} (h : Takes flags args items args') (gives : items = [.gives f v]) : f ∈ flags := by
  cases h with
  | arg => cases gives
  | rest =>
    obtain ⟨_, -, same⟩ := mem_map.mp (gives ▸ mem_singleton.mpr rfl : Item.gives f v ∈ _)
    cases same
  | inline _ _ answers | switch _ _ answers | negated _ _ _ answers | value _ _ answers =>
    cases gives
    exact answers.1

/-- `-v` is right for a bool flag with that alias. -/
theorem parse_right_bool :
    Right (fun _ => false) [⟨lit "verbose", lit "v", .bool, lit "false", []⟩] [lit "-v"] := by
  have declared : Declared [⟨lit "verbose", lit "v", .bool, lit "false", []⟩] :=
    @Declared.declare [] _ (lit "verbose|v") (lit "false") [] .bool .none (by decide)
  refine (parse_right_iff _ declared _).mpr ⟨?_, ?_⟩
  · intro f hf g hg _
    rw [mem_singleton.mp hf, mem_singleton.mp hg]
  · rintro ⟨_, _, f, _, _, -, -, takes, kind, -⟩
    rw [mem_singleton.mp (takes.declared rfl)] at kind
    cases kind

/-- An alias can be the name of a flag that is declared before, and is not answered by the flag that has it. -/
theorem alias_shadowed :
    Declared [⟨lit "n", [], .str, [], []⟩, ⟨lit "name", lit "n", .str, [], []⟩] ∧
      ¬ Right (fun _ => false) [⟨lit "n", [], .str, [], []⟩, ⟨lit "name", lit "n", .str, [], []⟩] [] := by
  have first : Declared [⟨lit "n", [], .str, [], []⟩] := @Declared.declare [] _ (lit "n") [] [] .str .none (by decide)
  refine ⟨@Declared.declare _ _ (lit "name|n") [] [] .str first (by decide), fun right => ?_⟩
  have both := right.one ⟨lit "n", [], .str, [], []⟩ (.head _) (lit "n") (.inl rfl)
  have same := both.unique ⟨.head _, .inl rfl⟩ ⟨.tail _ (.head _), .inr ⟨by decide, rfl⟩⟩
  exact absurd same (by decide)

end Voila.CommandLine
