import Voila.Str.Codec

/-!
# Voila.Rt.Fmt

The printf verb engine (`fmt.c`): how `vl_sprintf_v` reads a format and takes its arguments.

What a verb makes of a value it accepts, padded to its width, is a parameter (`Host`), and so are decimals and
strings, which are objects.
-/

namespace Voila.Rt.Fmt

open Str (isdigit)

variable {F O : Type}

/-- A conversion as it is read: `-1` for a width or a precision that is not there. -/
structure Spec where
  flags : Bytes
  width : Int32
  prec : Int32
  verb : UInt8

/-- Why a run stops: the format and its arguments do not go together, a verb is applied to a value of a kind it
does not take, a `show` method throws, or a value that is no decimal is read as one. -/
inductive Raised
  | format (text : String)
  | kind (text : String)
  | thrown (text : String)
  | fault

/-- The objects, and the texts of the values that the verbs accept. -/
structure Host (F O : Type) where
  isStr : O → Bool
  isDec : O → Bool
  /-- `vl_dec_to_int`. -/
  decToInt : O → Option Int64
  /-- `vl_kind_name`. -/
  kindName : Value F O → String
  plainText : Spec → Value F O → Bytes
  /-- A `show` method may throw. -/
  objText : Spec → O → Except String Bytes

/-- `want_int`. -/
def wantInt (host : Host F O) (v : Value F O) : Except Raised Int64 :=
  let wrong := Except.error (Raised.kind ("integer verb applied to " ++ host.kindName v))
  match v with
  | .int i => .ok i
  | .rune c => .ok (Int64.ofNat c.toNat)
  | .obj o =>
    if host.isDec o then
      match host.decToInt o with
      | some n => .ok n
      | none => wrong
    else wrong
  | _ => wrong

/-- The text of an object. -/
def Host.obj (host : Host F O) (spec : Spec) (o : O) : Except Raised Bytes :=
  (host.objText spec o).mapError .thrown

/-- `vl_tostr`, padded. -/
def tostr (host : Host F O) (spec : Spec) : Value F O → Except Raised Bytes
  | .obj o => host.obj spec o
  | v => .ok (host.plainText spec v)

/-- An integer verb. -/
def integer (host : Host F O) (spec : Spec) (v : Value F O) : Except Raised Bytes := do
  let n ← wantInt host v
  return host.plainText spec (.int n)

/-- `%f`. -/
def fixed (host : Host F O) (spec : Spec) (v : Value F O) : Except Raised Bytes :=
  let wrong := Except.error (Raised.kind ("%f applied to " ++ host.kindName v))
  match v with
  | .float x => .ok (host.plainText spec (.float x))
  | .int i => .ok (host.plainText spec (.int i))
  | .obj o => if host.isDec o then host.obj spec o else wrong
  | _ => wrong

/-- `%e` and `%g`, which take what is neither a float nor an integer for a decimal. -/
def general (host : Host F O) (spec : Spec) : Value F O → Except Raised Bytes
  | .float x => .ok (host.plainText spec (.float x))
  | .int i => .ok (host.plainText spec (.int i))
  | .obj o => if host.isDec o then host.obj spec o else .error .fault
  | _ => .error .fault

/-- `%x`. -/
def hexadecimal (host : Host F O) (spec : Spec) : Value F O → Except Raised Bytes
  | .obj o => if host.isStr o then host.obj spec o else integer host spec (.obj o)
  | v => integer host spec v

/-- `%c`. -/
def character (host : Host F O) (spec : Spec) : Value F O → Except Raised Bytes
  | .rune c => .ok (host.plainText spec (.rune c))
  | v => do
    let n ← wantInt host v
    return host.plainText spec (.rune n.toUInt64.toUInt32)

/-- `%t`. -/
def truth (host : Host F O) (spec : Spec) : Value F O → Except Raised Bytes
  | .bool b => .ok (host.plainText spec (.bool b))
  | v => .error (.kind ("%t applied to " ++ host.kindName v))

/-- The `switch` over the verb. -/
def convert (host : Host F O) (spec : Spec) (v : Value F O) : Except Raised Bytes :=
  match spec.verb with
  | 100 | 105 | 117 => integer host spec v          -- d i u
  | 102 | 70 => fixed host spec v                   -- f F
  | 101 | 69 | 103 | 71 => general host spec v      -- e E g G
  | 115 | 113 => tostr host spec v                  -- s q
  | 120 | 88 => hexadecimal host spec v             -- x X
  | 111 | 98 => integer host spec v                 -- o b
  | 99 => character host spec v                     -- c
  | 116 => truth host spec v                        -- t
  | 118 => tostr host spec v                        -- v
  | verb => .error (.format ("unknown verb %" ++ String.singleton (Char.ofNat verb.toNat)))

/-! ### A directive -/

/-- `strchr("-+0 #", c) != NULL`, which it is for the NUL as well. -/
def strchrFlags (c : UInt8) : Bool := [45, 43, 48, 32, 35, 0].any (· == c)

/-- The loop over the flags, with room for `k` more. -/
def takeFlags : Nat → Bytes → Bytes × Bytes
  | k + 1, c :: s =>
    if strchrFlags c then
      let r := takeFlags k s
      (c :: r.1, r.2)
    else ([], c :: s)
  | _, s => ([], s)

/-- A width or a precision: from an argument, or written out. -/
inductive Amount
  | star
  | digits (ds : Bytes)

def amount : Bytes → Amount × Bytes
  | 42 :: s => (.star, s)
  | s => (.digits (s.takeWhile isdigit), s.dropWhile isdigit)

def precAmount : Bytes → Option Amount × Bytes
  | 46 :: s =>
    let p := amount s
    (some p.1, p.2)
  | s => (none, s)

def skipPlus : Bytes → Bytes
  | 43 :: s => s
  | s => s

/-- What stands between a `%` and the verb. -/
structure Directive where
  flags : Bytes
  width : Amount
  prec : Option Amount

/-- A directive, and the text from its verb on. -/
def scan (s : Bytes) : Directive × Bytes :=
  let flags := takeFlags 7 s
  let width := amount flags.2
  let prec := precAmount width.2
  (⟨flags.1, width.1, prec.1⟩, skipPlus prec.2)

theorem takeFlags_length (k : Nat) (s : Bytes) : (takeFlags k s).2.length ≤ s.length := by
  induction k generalizing s with
  | zero => exact le_rfl
  | succ k ih =>
    cases s with
    | nil => exact le_rfl
    | cons c s =>
      rw [takeFlags]
      split_ifs
      · exact Nat.le_succ_of_le (ih s)
      · exact le_rfl

theorem amount_length (s : Bytes) : (amount s).2.length ≤ s.length := by
  unfold amount
  split
  · exact Nat.le_succ _
  · exact List.length_dropWhile_le ..

theorem precAmount_length (s : Bytes) : (precAmount s).2.length ≤ s.length := by
  unfold precAmount
  split
  · exact Nat.le_trans (amount_length _) (Nat.le_succ _)
  · exact le_rfl

theorem skipPlus_length (s : Bytes) : (skipPlus s).length ≤ s.length := by
  unfold skipPlus
  split
  · exact Nat.le_succ _
  · exact le_rfl

theorem scan_length (s : Bytes) : (scan s).2.length ≤ s.length :=
  calc (scan s).2.length
      ≤ (precAmount (amount (takeFlags 7 s).2).2).2.length := skipPlus_length _
    _ ≤ (amount (takeFlags 7 s).2).2.length := precAmount_length _
    _ ≤ (takeFlags 7 s).2.length := amount_length _
    _ ≤ s.length := takeFlags_length 7 s

/-! ### A run -/

/-- Digits as an `int`. -/
def number (ds : Bytes) : Int32 := ds.foldl (fun w c => w * 10 + (c.toUInt32 - 48).toInt32) 0

/-- The value of a width or a precision, and the arguments behind it; `none` stands for no digits. -/
def Amount.value (host : Host F O) (none : Int32) (args : List (Value F O)) :
    Amount → Except Raised (Int32 × List (Value F O))
  | .star =>
    match args with
    | [] => .error (.format "printf: not enough arguments")
    | v :: args => do
      let n ← wantInt host v
      return (n.toInt32, args)
  | .digits ds => .ok (if ds = [] then none else number ds, args)

/-- The width, the precision and the arguments behind them. -/
def Directive.amounts (host : Host F O) (d : Directive) (args : List (Value F O)) :
    Except Raised (Int32 × Int32 × List (Value F O)) := do
  let (width, args) ← d.width.value host (-1) args
  let (prec, args) ← match d.prec with
    | none => .ok (-1, args)
    | some p => p.value host 0 args
  return (width, prec, args)

/-- The main loop, with the arguments that are left. -/
def sprintfLoop (host : Host F O) (args : List (Value F O)) : Bytes → Except Raised Bytes
  | [] =>
    if args.length = 0 then .ok []
    else .error (.format ("printf: " ++ toString args.length ++ " extra argument(s)"))
  | 37 :: 37 :: s => do
    let text ← sprintfLoop host args s
    return 37 :: text
  | 37 :: s => do
    let d := (scan s).1
    let (width, prec, args) ← d.amounts host args
    match _h : (scan s).2 with
    | [] => .error (.format "printf: missing verb at end of format")
    | verb :: rest =>
      match args with
      | [] => .error (.format "printf: not enough arguments for format")
      | v :: args => do
        let text ← convert host ⟨d.flags, width, prec, verb⟩ v
        let more ← sprintfLoop host args rest
        return text ++ more
  | c :: s => do
    let text ← sprintfLoop host args s
    return c :: text
termination_by s => s.length
decreasing_by
  · exact Nat.lt_succ_of_lt (Nat.lt_succ_self _)
  · have hle := scan_length s
    rw [_h, List.length_cons] at hle
    exact Nat.lt_succ_of_lt hle
  · exact Nat.lt_succ_self _

/-- `vl_sprintf_v`. -/
def sprintf (host : Host F O) (f : Bytes) (args : List (Value F O)) : Except Raised Bytes :=
  sprintfLoop host args f

end Voila.Rt.Fmt
