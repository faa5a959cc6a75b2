import Voila.Typ.Table

/-!
# Voila.Typ.Spelling

Which types are spelled alike.

A type of the table is an expression (`Ty`), and its text is `spell` of it. The text keeps
less than the expression: a name does not show what it was found to be, and a `!` does not
show how far to the left the type reaches that it closes. `Ty.norm` forgets just that much
(`spell_eq_iff`). That the text keeps the rest is shown by reading it back: `read` gives the
normal form of whatever was spelled (`read_spell`).
-/

open List

-- the decision by the list, and not over all characters
attribute [local instance (high)] List.decidableBAll

namespace Voila.Typ

open Chk.Acyclic (BoxKind)
open Table (commas)

/-- A type as an expression. `nil` is the id `0`. -/
inductive Ty
  | nil
  | name (f : Found) (n : Name) (args : List Ty)
  | option (e : Ty)
  | result (e : Ty)
  | slice (n : Extent) (e : Ty)
  | map (k v : Ty)
  | set (e : Ty)
  | chan (e : Ty)
  | box (b : BoxKind) (e : Ty)
  | fn (ps : List Ty) (r : Ty)
  | tuple (es : List Ty)
  | borrow (e : Ty)

namespace Ty

/-- Induction on a type, with a hypothesis for each member of a list of parts. -/
@[induction_eliminator]
theorem induct {P : Ty → Prop} (nil : P .nil)
    (name : ∀ f n as, (∀ a ∈ as, P a) → P (.name f n as))
    (option : ∀ e, P e → P (.option e)) (result : ∀ e, P e → P (.result e))
    (slice : ∀ n e, P e → P (.slice n e)) (map : ∀ k v, P k → P v → P (.map k v))
    (set : ∀ e, P e → P (.set e)) (chan : ∀ e, P e → P (.chan e))
    (box : ∀ b e, P e → P (.box b e))
    (fn : ∀ ps r, (∀ a ∈ ps, P a) → P r → P (.fn ps r))
    (tuple : ∀ es, (∀ a ∈ es, P a) → P (.tuple es)) (borrow : ∀ e, P e → P (.borrow e)) :
    ∀ t, P t := by
  intro t
  refine @Ty.rec P (fun as => ∀ a ∈ as, P a) nil name option result slice map set chan box
    fn tuple borrow ?_ ?_ t
  · intro a ha
    cases ha
  · intro a as ha has
    exact forall_mem_cons.2 ⟨ha, has⟩

def isNil : Ty → Bool
  | .nil => true
  | _ => false

variable {t e : Ty} {r w : Str} {head : Ty → Ty} {ps as : List Ty} {k : Nat}

@[simp] theorem isNil_iff : t.isNil = true ↔ t = .nil := by cases t <;> simp [isNil]

/-- The type a construction makes of the types of its parts. -/
def ofCon : Con Ty → Ty
  | .name f n as => .name f n as
  | .option e => .option e
  | .result e => .result e
  | .slice n e => .slice n e
  | .map k v => .map k v
  | .set e => .set e
  | .chan e => .chan e
  | .box b e => .box b e
  | .fn ps r => .fn ps r
  | .tuple es => .tuple es
  | .borrow e => .borrow e

theorem ofCon_injective {c d : Con Ty} (h : ofCon c = ofCon d) : c = d := by
  cases c <;> cases d <;> simp_all [ofCon]

theorem ofCon_ne_nil (c : Con Ty) : ofCon c ≠ .nil := by
  cases c <;> simp [ofCon]

/-- The mark that `key_of` sets before the text of a type. -/
def sigil : Ty → Str
  | .name .param _ _ => ['$']
  | .name .unknown _ _ => ['!']
  | _ => []

/-- The text of a type. -/
def spell : Ty → Str
  | .nil => ['?']
  | .name _ n as =>
    if as.isEmpty then n.text else n.text ++ '[' :: commas (as.map spell) ++ [']']
  | .option e => '?' :: spell e
  | .result e => spell e ++ ['!']
  | .slice n e => '[' :: n.text ++ ']' :: spell e
  | .map k v => "map[".toList ++ spell k ++ ']' :: spell v
  | .set e => "set[".toList ++ spell e ++ [']']
  | .chan e => "chan[".toList ++ spell e ++ [']']
  | .box b e => Table.boxWord (flagOf b) ++ '[' :: spell e ++ [']']
  | .fn ps r =>
    "fn(".toList ++ commas (ps.map spell) ++ [')'] ++ if r.isNil then [] else ' ' :: spell r
  | .tuple es => '(' :: commas (es.map spell) ++ [')']
  | .borrow e => '&' :: spell e

/-! ## The normal form -/

/-- A `!` after a type, moved past whatever stands to the left of the type it closes. -/
def bang : Ty → Ty
  | .option e => .option (bang e)
  | .slice n e => .slice n (bang e)
  | .map k v => .map k (bang v)
  | .borrow e => .borrow (bang e)
  | .fn ps r => if r.isNil then .result (.fn ps r) else .fn ps (bang r)
  | t => .result t

/-- The words that a type in brackets may follow, with the type they make of it. -/
def heads : List (Str × (Ty → Ty)) :=
  [("set".toList, .set), ("chan".toList, .chan), ("shared".toList, .box .shared),
    ("cell".toList, .box .cell), ("weak".toList, .box .weak)]

/-- A name at arguments, read as the type it is spelled like. -/
def applied (n : Name) : List Ty → Ty
  | [e] =>
    match heads.lookup n.text with
    | some head => head e
    | none => .name .nominal n [e]
  | as => .name .nominal n as

/-- A type, less what its text does not show. -/
def norm : Ty → Ty
  | .nil => .nil
  | .name _ n as => applied n (as.map norm)
  | .option e => .option (norm e)
  | .result e => bang (norm e)
  | .slice n e => .slice n (norm e)
  | .map k v => .map (norm k) (norm v)
  | .set e => .set (norm e)
  | .chan e => .chan (norm e)
  | .box b e => .box b (norm e)
  | .fn ps r => .fn (ps.map norm) (norm r)
  | .tuple es => .tuple (es.map norm)
  | .borrow e => .borrow (norm e)

/-! ## Reading a text back -/

/-- Whether a text begins with a type: what may follow a type does not. -/
def starts : Str → Bool
  | [] => false
  | c :: _ => c ∉ [']', ')', ',', '!', ' ']

/-- The `!`s after a type. -/
def bangs (t : Ty) : Str → Ty × Str
  | '!' :: s => bangs (.result t) s
  | s => (t, s)

/-- The types up to a closing mark, with `", "` between them. -/
def readList (rd : Str → Option (Ty × Str)) (close : Char) : Nat → Str → Option (List Ty × Str)
  | 0, _ => none
  | k + 1, s => do
    let (e, r) ← rd s
    match r with
    | ',' :: ' ' :: r' =>
      let (es, q) ← readList rd close k r'
      return (e :: es, q)
    | c :: q => if c = close then return ([e], q) else none
    | [] => none

/-- `readList`, of a list that may be empty. -/
def readList? (rd : Str → Option (Ty × Str)) (close : Char) (k : Nat) (s : Str) :
    Option (List Ty × Str) :=
  if s.head? = some close then return ([], s.tail) else readList rd close k s

/-- A name, if a text is one. -/
def nameOf? (w : Str) : Option Name :=
  if h : w ≠ [] ∧ ∀ c ∈ w, c ∉ marks then some ⟨w, h.1, h.2⟩ else none

/-- What stands before the `]` of a slice. -/
def extentOf (s : Str) : Extent :=
  ⟨s.takeWhile (· ≠ ']'), fun h => by simpa using mem_takeWhile_imp h⟩

/-- The type that begins with a word. -/
def readWord (rd : Str → Option (Ty × Str)) (k : Nat) (w : Str) : Str → Option (Ty × Str)
  | '(' :: s => do
    let (ps, r) ← readList? rd ')' k s
    match r with
    | ' ' :: r' =>
      let (e, q) ← rd r'
      return (.fn ps e, q)
    | _ => return bangs (.fn ps .nil) r
  | '[' :: s => do
    let n ← nameOf? w
    let (as, r) ← readList rd ']' k s
    match w == "map".toList && starts r, as with
    | true, [key] =>
      let (e, q) ← rd r
      return (.map key e, q)
    | _, as => return bangs (applied n as) r
  | s => do
    let n ← nameOf? w
    return bangs (.name .nominal n []) s

/-- The type a text begins with, in its normal form, and what follows it. -/
def read : Nat → Str → Option (Ty × Str)
  | 0, _ => none
  | k + 1, '?' :: s =>
    if starts s then do
      let (e, r) ← read k s
      return (.option e, r)
    else return bangs .nil s
  | k + 1, '&' :: s => do
    let (e, r) ← read k s
    return (.borrow e, r)
  | k + 1, '[' :: s => do
    let (e, r) ← read k ((s.dropWhile (· ≠ ']')).drop 1)
    return (.slice (extentOf s) e, r)
  | k + 1, '(' :: s => do
    let (es, r) ← readList? (read k) ')' k s
    return bangs (.tuple es) r
  | k + 1, s => readWord (read k) k (s.takeWhile (· ∉ marks)) (s.dropWhile (· ∉ marks))

/-- What may follow a type. -/
def Ended (r : Str) : Prop := ∀ c ∈ r.head?, c ∈ [']', ')', ',']

theorem Ended.not_starts (h : Ended r) : starts r = false := by
  cases r with
  | nil => rfl
  | cons c r =>
    have hc := h c rfl
    simp only [mem_cons, not_mem_nil, or_false] at hc
    obtain rfl | rfl | rfl := hc <;> rfl

theorem ended_nil : Ended [] := by simp [Ended]

theorem ended_cons {c : Char} {r : Str} (h : c ∈ [']', ')', ',']) : Ended (c :: r) := by
  simpa [Ended] using h

/-- The text of a type begins with a character that follows no type and marks no key. -/
theorem spell_head (t : Ty) : ∃ c s, spell t = c :: s ∧ c ∉ [']', ')', ',', '!', ' ', '$'] := by
  induction t with
  | nil => exact ⟨'?', [], by simp [spell]⟩
  | name f n as =>
    obtain ⟨c, w, hw⟩ := exists_cons_of_ne_nil n.nonempty
    have hc := n.plain c (by simp [hw])
    refine ⟨c, w ++ if as.isEmpty then [] else '[' :: commas (as.map spell) ++ [']'], ?_, ?_⟩
    · rw [spell, hw]
      split <;> simp
    · simp only [marks, mem_cons, not_mem_nil, or_false, not_or] at hc ⊢
      tauto
  | result e ih =>
    obtain ⟨c, s, hs, hc⟩ := ih
    exact ⟨c, s ++ ['!'], by simp [spell, hs], hc⟩
  | box b e =>
    rw [spell]
    cases b <;> exact ⟨_, _, rfl, by decide⟩
  | _ =>
    rw [spell]
    exact ⟨_, _, rfl, by decide⟩

theorem spell_starts (t : Ty) (r : Str) : starts (spell t ++ r) = true := by
  obtain ⟨c, s, hs, hc⟩ := spell_head t
  simp only [mem_cons, not_mem_nil, or_false, not_or] at hc
  simp [hs, starts, hc]

/-! ### Moving a `!` -/

@[simp] theorem bang_ne_nil (t : Ty) : bang t ≠ .nil := by
  cases t <;> simp only [bang, ne_eq, reduceCtorEq, not_false_eq_true]
  split <;> simp

/-- A head of a bracketed type is one that a `!` stays behind. -/
theorem heads_cases (h : heads.lookup w = some head) (e : Ty) :
    bang (head e) = .result (head e) ∧ head e ≠ .nil := by
  obtain ⟨l, l', hl, -⟩ := lookup_eq_some_iff.mp h
  have mem : (w, head) ∈ heads := by rw [hl]; simp
  simp only [heads, mem_cons, Prod.mk.injEq, not_mem_nil, or_false] at mem
  obtain ⟨-, rfl⟩ | ⟨-, rfl⟩ | ⟨-, rfl⟩ | ⟨-, rfl⟩ | ⟨-, rfl⟩ := mem <;> simp [bang]

theorem bang_applied (n : Name) (as : List Ty) : bang (applied n as) = .result (applied n as) := by
  unfold applied
  split
  · split
    · next h => exact (heads_cases h _).1
    · rfl
  · rfl

theorem applied_ne_nil (n : Name) (as : List Ty) : applied n as ≠ .nil := by
  unfold applied
  split
  · split
    · next h => exact (heads_cases h _).2
    · simp
  · simp

@[simp] theorem norm_eq_nil : norm t = .nil ↔ t = .nil := by
  cases t <;> simp [norm, applied_ne_nil]

theorem bang_fn {r : Ty} (h : r ≠ .nil) : bang (.fn ps r) = .fn ps (bang r) := by
  cases r <;> simp_all [bang, isNil]

/-- Any number of `!`s passes whatever one `!` passes. -/
theorem bangs_pass {f : Ty → Ty} (h : ∀ e, bang (f e) = f (bang e)) (n : Nat) (e : Ty) :
    bang^[n] (f e) = f (bang^[n] e) :=
  (Function.Semiconj.iterate_right (fun e => (h e).symm) n e).symm

theorem bangs_fn (n : Nat) {r : Ty} (h : r ≠ .nil) : bang^[n] (.fn ps r) = .fn ps (bang^[n] r) := by
  induction n generalizing r with
  | zero => rfl
  | succ n ih => rw [Function.iterate_succ_apply, bang_fn h, ih (bang_ne_nil r), Function.iterate_succ_apply]

/-- The `!`s after a type that they stay behind. -/
theorem bangs_spelled (h : bang t = .result t) (n : Nat) (hr : Ended r) :
    bangs t (List.replicate n '!' ++ r) = (bang^[n] t, r) := by
  induction n generalizing t with
  | zero =>
    cases r with
    | nil => rfl
    | cons c r =>
      have hc : c ≠ '!' := by
        rintro rfl
        simpa using hr '!' rfl
      simp [bangs, hc]
  | succ n ih =>
    rw [replicate_succ, cons_append, bangs, ih rfl, Function.iterate_succ_apply, h]

/-! ### What `read` makes of a text -/

theorem commas_two (a b : Str) (as : List Str) :
    commas (a :: b :: as) = a ++ ',' :: ' ' :: commas (b :: as) := by
  simp [commas, List.intercalate]

/-- What ends a type where `close` ends a list of them. -/
theorem ended_close {close : Char} (h : close ∈ [']', ')']) (q : Str) : Ended (close :: q) :=
  ended_cons (by simp only [mem_cons] at h ⊢; tauto)

theorem readList_spelled {rd : Str → Option (Ty × Str)} {close : Char} (hclose : close ∈ [']', ')'])
    (q : Str) : ∀ {as : List Ty} {k : Nat}, as ≠ [] → as.length ≤ k →
      (∀ a ∈ as, ∀ r, Ended r → rd (spell a ++ r) = some (norm a, r)) →
      readList rd close k (commas (as.map spell) ++ close :: q) = some (as.map norm, q)
  | [], _, hne, _, _ => absurd rfl hne
  | [a], k + 1, _, _, reads => by
    have here := reads a mem_cons_self _ (ended_close hclose q)
    have hc : close ≠ ',' := by
      rintro rfl
      simp at hclose
    rw [map_singleton, commas, intercalate_singleton, readList, here]
    simp [hc]
  | a :: b :: as, k + 1, _, hk, reads => by
    have rest := readList_spelled hclose q (k := k) (cons_ne_nil b as) (Nat.le_of_succ_le_succ hk)
      fun x hx => reads x (mem_cons_of_mem a hx)
    have here := reads a mem_cons_self (',' :: ' ' :: (commas ((b :: as).map spell) ++ close :: q))
      (ended_cons (by simp))
    simp only [map_cons] at rest here ⊢
    rw [commas_two, append_assoc, cons_append, cons_append, readList, here]
    simp [rest]

/-- A list that may be empty: its text does not begin with the closing mark. -/
theorem readList?_spelled {rd : Str → Option (Ty × Str)} {close : Char} (hclose : close ∈ [']', ')'])
    (q : Str) {as : List Ty} {k : Nat} (hk : as.length ≤ k)
    (reads : ∀ a ∈ as, ∀ r, Ended r → rd (spell a ++ r) = some (norm a, r)) :
    readList? rd close k (commas (as.map spell) ++ close :: q) = some (as.map norm, q) := by
  cases as with
  | nil => simp [readList?, commas]
  | cons a as =>
    obtain ⟨c, s, hs, hc⟩ := spell_head a
    have begins : (commas ((a :: as).map spell) ++ close :: q).head? = some c := by
      cases as <;> simp [commas_two, commas, intercalate_singleton, hs]
    have other : c ≠ close := by
      rintro rfl
      exact hc (by simp only [mem_cons] at hclose ⊢; tauto)
    rw [readList?, begins, if_neg (by simpa using other)]
    exact readList_spelled hclose q (cons_ne_nil a as) hk reads

/-- What may follow a word: the text goes on with a mark, or is over. -/
def Parted (r : Str) : Prop := ∀ c ∈ r.head?, c ∈ marks

theorem word_span (hw : ∀ c ∈ w, c ∉ marks) (hr : Parted r) :
    (w ++ r).takeWhile (· ∉ marks) = w ∧ (w ++ r).dropWhile (· ∉ marks) = r := by
  have stop : r.takeWhile (· ∉ marks) = [] ∧ r.dropWhile (· ∉ marks) = r := by
    cases r with
    | nil => simp
    | cons c r => simp [hr c rfl]
  rw [takeWhile_append_of_pos (by simpa using hw), dropWhile_append_of_pos (by simpa using hw),
    stop.1, stop.2, List.append_nil]
  exact ⟨rfl, rfl⟩

/-- A text that begins with a word is read by `readWord`. -/
theorem read_word (hne : w ≠ []) (hw : ∀ c ∈ w, c ∉ marks) (hr : Parted r) (k : Nat) :
    read (k + 1) (w ++ r) = readWord (read k) k w r := by
  obtain ⟨c, w', rfl⟩ := exists_cons_of_ne_nil hne
  have span := word_span hw hr
  have hc := hw c mem_cons_self
  simp only [marks, mem_cons, not_mem_nil, or_false, not_or] at hc
  rw [cons_append] at span ⊢
  rw [read.eq_6, span.1, span.2]
  all_goals simp [hc]

theorem nameOf?_text (n : Name) : nameOf? n.text = some n := by
  rw [nameOf?, dif_pos ⟨n.nonempty, n.plain⟩]

theorem extentOf_text (n : Extent) (s : Str) : extentOf (n.text ++ ']' :: s) = n ∧
    ((n.text ++ ']' :: s).dropWhile (· ≠ ']')).drop 1 = s := by
  have plain : ∀ c ∈ n.text, (c ≠ ']' : Bool) = true := by
    intro c hc
    simpa using fun h : c = ']' => n.plain (h ▸ hc)
  constructor
  · apply Extent.ext
    simp only [extentOf]
    rw [takeWhile_append_of_pos (by simpa using plain)]
    simp
  · rw [dropWhile_append_of_pos (by simpa using plain)]
    simp

/-- What is left after a type and some `!`s: no type begins there, and no word goes on. -/
theorem tail_spec (n : Nat) (hr : Ended r) :
    Parted (List.replicate n '!' ++ r) ∧ starts (List.replicate n '!' ++ r) = false ∧
      (List.replicate n '!' ++ r).head? ≠ some ' ' := by
  cases n with
  | zero =>
    refine ⟨fun c hc => ?_, hr.not_starts, fun blank => ?_⟩
    · have := hr c hc
      simp only [marks, mem_cons] at this ⊢
      tauto
    · simpa using hr ' ' blank
  | succ n =>
    exact ⟨by simp [Parted, replicate_succ, marks], by simp [replicate_succ, starts],
      by simp [replicate_succ]⟩

/-- `rd` gives the normal form of each of some types. -/
def Reads (rd : Str → Option (Ty × Str)) (as : List Ty) : Prop :=
  ∀ a ∈ as, ∀ r, Ended r → rd (spell a ++ r) = some (norm a, r)

theorem readWord_applied {rd : Str → Option (Ty × Str)} (w : Name) (hne : as ≠ [])
    (hk : as.length ≤ k) (reads : Reads rd as) (n : Nat) (hr : Ended r) :
    readWord rd k w.text ('[' :: (commas (as.map spell) ++ ']' :: (List.replicate n '!' ++ r))) =
      some (bang^[n] (applied w (as.map norm)), r) := by
  have close : ']' ∈ [']', ')'] := by simp
  have list := readList_spelled close (List.replicate n '!' ++ r) hne hk reads
  have spelled := bangs_spelled (bang_applied w (as.map norm)) n hr
  simp [readWord, nameOf?_text, list, (tail_spec n hr).2.1, spelled]

theorem length_le_sizeOf (as : List Ty) : as.length ≤ sizeOf as := by
  induction as with
  | nil => simp
  | cons a as ih =>
    simp only [length_cons, List.cons.sizeOf_spec]
    omega

/-- A word with types in brackets after it is read as `applied` has it. -/
theorem read_applied (w : Name) (hne : as ≠ []) (hk : as.length ≤ k)
    (reads : Reads (read k) as) (n : Nat) (hr : Ended r) :
    read (k + 1) (w.text ++ '[' :: (commas (as.map spell) ++ ']' :: (List.replicate n '!' ++ r))) =
      some (bang^[n] (applied w (as.map norm)), r) := by
  rw [read_word w.nonempty w.plain (by simp [Parted, marks])]
  exact readWord_applied w hne hk reads n hr

/-- The heads of bracketed types that are no names. -/
theorem heads_applied (h : heads.lookup w = some head) (hw : w ≠ [])
    (plain : ∀ c ∈ w, c ∉ marks) (e : Ty) : applied ⟨w, hw, plain⟩ [e] = head e := by
  simp [applied, h]

/-- A word that nothing in brackets follows. -/
theorem readWord_bare (rd : Str → Option (Ty × Str)) (k : Nat) (w : Name) {s : Str} (h : starts s = false) :
    readWord rd k w.text s = some (bangs (.name .nominal w []) s) := by
  cases s with
  | nil => simp [readWord, nameOf?_text]
  | cons c s =>
    simp only [starts, decide_eq_false_iff_not, Decidable.not_not, mem_cons, not_mem_nil, or_false] at h
    obtain rfl | rfl | rfl | rfl | rfl := h <;> simp [readWord, nameOf?_text]

theorem one_le_sizeOf (t : Ty) : 1 ≤ sizeOf t := by
  cases t <;> simp <;> omega

/-- `read` gives the normal form of a type for its text, whatever `!`s come after it. -/
def Legible (t : Ty) : Prop :=
  ∀ (n : Nat) {r : Str} {k : Nat}, Ended r → sizeOf t ≤ k →
    read k (spell t ++ (List.replicate n '!' ++ r)) = some (bang^[n] (norm t), r)

/-- Fuel for a type leaves fuel for what it is made of. -/
theorem fuel_succ (h : sizeOf t ≤ k) : ∃ m, k = m + 1 :=
  ⟨k - 1, by have := one_le_sizeOf t; omega⟩

theorem reads_of (ih : ∀ a ∈ as, Legible a) (hk : sizeOf as ≤ k) : Reads (read k) as := by
  intro a ha r hr
  have := sizeOf_lt_of_mem ha
  simpa using ih a ha 0 hr (k := k) (by omega)

theorem reads_one (ih : Legible e) (hk : sizeOf e ≤ k) : Reads (read k) [e] := by
  intro a ha r hr
  obtain rfl := mem_singleton.mp ha
  simpa using ih 0 hr hk

theorem legible_name (f : Found) (w : Name) (ih : ∀ a ∈ as, Legible a) :
    Legible (.name f w as) := by
  intro n r k hr hk
  obtain ⟨k, rfl⟩ := fuel_succ hk
  simp only [name.sizeOf_spec] at hk
  cases as with
  | nil =>
    have spelled := bangs_spelled (t := .name .nominal w []) rfl n hr
    have tail := tail_spec n hr
    rw [spell, norm, isEmpty_nil, if_pos rfl, read_word w.nonempty w.plain tail.1, map_nil,
      readWord_bare _ _ _ tail.2.1, spelled]
    rfl
  | cons a as =>
    have short := length_le_sizeOf (a :: as)
    have reads := reads_of (k := k) ih (by omega)
    have whole := read_applied w (cons_ne_nil a as) (by omega) reads n hr
    simpa [spell, norm] using whole

/-- A type in brackets after one of the `heads`. -/
theorem read_head (h : heads.lookup w = some head) (hw : w ≠ [])
    (plain : ∀ c ∈ w, c ∉ marks) (ih : Legible e) (hk : sizeOf e ≤ k) (n : Nat) (hr : Ended r) :
    read (k + 1) (w ++ '[' :: (spell e ++ ']' :: (List.replicate n '!' ++ r))) =
      some (bang^[n] (head (norm e)), r) := by
  have one := (one_le_sizeOf e).trans hk
  have whole := read_applied ⟨w, hw, plain⟩ (cons_ne_nil e []) one (reads_one ih hk) n hr
  rw [map_singleton, map_singleton, heads_applied h] at whole
  simpa [commas, intercalate_singleton] using whole

theorem legible_map {a b : Ty} (iha : Legible a) (ihb : Legible b) : Legible (.map a b) := by
  intro n r k hr hk
  obtain ⟨k, rfl⟩ := fuel_succ hk
  simp only [map.sizeOf_spec] at hk
  have fuel : sizeOf a ≤ k := by omega
  have inner := ihb n hr (k := k) (by omega)
  have close : ']' ∈ [']', ')'] := by simp
  have key := readList_spelled close (spell b ++ (List.replicate n '!' ++ r)) (cons_ne_nil a [])
    ((one_le_sizeOf a).trans fuel) (reads_one iha fuel)
  have word := read_word (w := "map".toList)
    (r := '[' :: (spell a ++ ']' :: (spell b ++ (List.replicate n '!' ++ r)))) (by decide) (by decide)
    (by simp [Parted, marks]) k
  have named : nameOf? "map".toList = some ⟨"map".toList, by decide, by decide⟩ := rfl
  simp only [map_singleton, commas, intercalate_singleton] at key
  rw [norm, bangs_pass (f := map (norm a)) fun _ => rfl]
  calc read (k + 1) (spell (.map a b) ++ (List.replicate n '!' ++ r))
      = readWord (read k) k "map".toList ('[' :: (spell a ++ ']' :: (spell b ++ (List.replicate n '!' ++ r)))) := by
        rw [← word, spell]
        simp
    _ = some (.map (norm a) (bang^[n] (norm b)), r) := by
        simp only [readWord, named, key, spell_starts, Option.bind_eq_bind, Option.bind_some, Bool.and_true,
          beq_self_eq_true, inner]
        rfl

theorem legible_fn {q : Ty} (ih : ∀ a ∈ ps, Legible a) (ihq : Legible q) : Legible (.fn ps q) := by
  intro n r k hr hk
  obtain ⟨k, rfl⟩ := fuel_succ hk
  simp only [fn.sizeOf_spec] at hk
  have short := length_le_sizeOf ps
  have close : ')' ∈ [']', ')'] := by simp
  have reads := reads_of (k := k) ih (by omega)
  have list (s : Str) := readList?_spelled close s (short.trans (show sizeOf ps ≤ k by omega)) reads
  have word (s : Str) := read_word (w := "fn".toList) (r := '(' :: s) (by decide) (by decide)
    (by simp [Parted, marks]) k
  by_cases none : q = .nil
  · subst none
    have spelled := bangs_spelled (t := .fn (ps.map norm) .nil) rfl n hr
    have tail := (tail_spec n hr).2.2
    calc read (k + 1) (spell (.fn ps .nil) ++ (List.replicate n '!' ++ r))
        = readWord (read k) k "fn".toList
            ('(' :: (commas (ps.map spell) ++ ')' :: (List.replicate n '!' ++ r))) := by
          rw [← word, spell]
          simp [isNil]
      _ = some (bangs (.fn (ps.map norm) .nil) (List.replicate n '!' ++ r)) := by
          simp only [readWord, list, Option.bind_eq_bind, Option.bind_some]
          split
          · next h => exact absurd (congrArg List.head? h) tail
          · rfl
      _ = some (bang^[n] (norm (.fn ps .nil)), r) := by rw [spelled, norm, norm]
  · have inner := ihq n hr (k := k) (by omega)
    rw [norm, bangs_fn n (by simpa using none)]
    calc read (k + 1) (spell (.fn ps q) ++ (List.replicate n '!' ++ r))
        = readWord (read k) k "fn".toList
            ('(' :: (commas (ps.map spell) ++ ')' :: ' ' :: (spell q ++ (List.replicate n '!' ++ r)))) := by
          rw [← word, spell]
          simp [none]
      _ = some (.fn (ps.map norm) (bang^[n] (norm q)), r) := by
          simp [readWord, list, inner]

/-- **The text of a type reads back as its normal form**, with as many `!`s after it as there are. -/
theorem read_spell (t : Ty) : Legible t := by
  induction t with
  | nil =>
    intro n r k hr hk
    obtain ⟨k, rfl⟩ := fuel_succ hk
    have tail := (tail_spec n hr).2.1
    simp [spell, read, tail, norm, bangs_spelled (t := .nil) rfl n hr]
  | name f w as ih => exact legible_name f w ih
  | option e ih =>
    intro n r k hr hk
    obtain ⟨k, rfl⟩ := fuel_succ hk
    simp only [option.sizeOf_spec] at hk
    have inner := ih n hr (k := k) (by omega)
    rw [spell, cons_append, read, if_pos (spell_starts e _), inner, norm,
      bangs_pass (f := option) fun _ => rfl]
    rfl
  | result e ih =>
    -- the `!` joins those that come after it
    intro n r k hr hk
    simp only [result.sizeOf_spec] at hk
    have inner := ih (n + 1) hr (k := k) (by omega)
    rw [spell, append_assoc, singleton_append, ← cons_append, ← replicate_succ, inner,
      norm, Function.iterate_succ_apply]
  | slice w e ih =>
    intro n r k hr hk
    obtain ⟨k, rfl⟩ := fuel_succ hk
    simp only [slice.sizeOf_spec] at hk
    have inner := ih n hr (k := k) (by omega)
    have split := extentOf_text w (spell e ++ (List.replicate n '!' ++ r))
    rw [norm, bangs_pass (f := slice w) fun _ => rfl]
    simp only [spell, cons_append, append_assoc, read]
    rw [split.1, split.2, inner]
    rfl
  | map a b iha ihb => exact legible_map iha ihb
  | set e ih =>
    intro n r k hr hk
    obtain ⟨k, rfl⟩ := fuel_succ hk
    simp only [set.sizeOf_spec] at hk
    have whole := read_head (w := "set".toList) rfl (by decide) (by decide) ih (k := k) (by omega) n hr
    simpa [spell, norm] using whole
  | chan e ih =>
    intro n r k hr hk
    obtain ⟨k, rfl⟩ := fuel_succ hk
    simp only [chan.sizeOf_spec] at hk
    have whole := read_head (w := "chan".toList) rfl (by decide) (by decide) ih (k := k) (by omega) n hr
    simpa [spell, norm] using whole
  | box b e ih =>
    intro n r k hr hk
    obtain ⟨k, rfl⟩ := fuel_succ hk
    simp only [box.sizeOf_spec] at hk
    have found : heads.lookup (Table.boxWord (flagOf b)) = some (.box b) := by cases b <;> rfl
    have whole := read_head found (by cases b <;> decide) (by cases b <;> decide) ih (k := k) (by omega) n hr
    simpa [spell, norm] using whole
  | fn ps q ih ihq => exact legible_fn ih ihq
  | tuple es ih =>
    intro n r k hr hk
    obtain ⟨k, rfl⟩ := fuel_succ hk
    simp only [tuple.sizeOf_spec] at hk
    have short := length_le_sizeOf es
    have close : ')' ∈ [']', ')'] := by simp
    have reads := reads_of (k := k) ih (by omega)
    have list := readList?_spelled close (List.replicate n '!' ++ r) (short.trans (show sizeOf es ≤ k by omega)) reads
    have spelled := bangs_spelled (t := .tuple (es.map norm)) rfl n hr
    simp [spell, norm, read, list, spelled]
  | borrow e ih =>
    intro n r k hr hk
    obtain ⟨k, rfl⟩ := fuel_succ hk
    simp only [borrow.sizeOf_spec] at hk
    have inner := ih n hr (k := k) (by omega)
    rw [spell, cons_append, read, inner, norm, bangs_pass (f := borrow) fun _ => rfl]
    rfl

/-! ## What is spelled alike -/

theorem spell_bang (t : Ty) : spell (bang t) = spell t ++ ['!'] := by
  induction t with
  | option e ih | slice w e ih | borrow e ih => simp [bang, spell, ih]
  | map a b _ ih => simp [bang, spell, ih]
  | fn ps q _ ih =>
    by_cases none : q = .nil
    · simp [bang, spell, none, isNil]
    · simp [bang_fn none, spell, none, ih]
  | _ => simp [bang, spell]

theorem spell_applied (f : Found) (w : Name) (as : List Ty) :
    spell (applied w as) = spell (.name f w as) := by
  unfold applied
  split
  · next e =>
      split
      · next head h =>
          obtain ⟨l, l', hl, -⟩ := lookup_eq_some_iff.mp h
          have mem : (w.text, head) ∈ heads := by rw [hl]; simp
          simp only [heads, mem_cons, Prod.mk.injEq, not_mem_nil, or_false] at mem
          obtain ⟨hw, rfl⟩ | ⟨hw, rfl⟩ | ⟨hw, rfl⟩ | ⟨hw, rfl⟩ | ⟨hw, rfl⟩ := mem <;>
            simp [spell, hw, commas, intercalate_singleton, flagOf, Table.boxWord]
      · simp [spell]
  · simp [spell]

theorem spell_norm (t : Ty) : spell (norm t) = spell t := by
  induction t with
  | name f w as ih =>
    have same : (as.map norm).map spell = as.map spell := by
      rw [map_map]
      exact map_congr_left ih
    rw [norm, spell_applied f, spell, spell, same, isEmpty_map]
  | fn ps q ih ihq =>
    have same : (ps.map norm).map spell = ps.map spell := by
      rw [map_map]
      exact map_congr_left ih
    have none : (norm q).isNil = q.isNil := Bool.eq_iff_iff.mpr (by simp)
    rw [norm, spell, spell, same, ihq, none]
  | tuple es ih =>
    have same : (es.map norm).map spell = es.map spell := by
      rw [map_map]
      exact map_congr_left ih
    rw [norm, spell, spell, same]
  | result e ih => rw [norm, spell_bang, ih, spell]
  | nil => rw [norm]
  | map a b iha ihb => simp only [norm, spell, iha, ihb]
  | option e ih | slice w e ih | set e ih | chan e ih | box b e ih | borrow e ih => simp only [norm, spell, ih]

/-- **Two types are spelled alike just when their normal forms are equal.** -/
theorem spell_eq_iff {s t : Ty} : spell s = spell t ↔ norm s = norm t := by
  constructor
  · intro h
    have hs := read_spell s 0 (k := sizeOf s + sizeOf t) ended_nil (by omega)
    have ht := read_spell t 0 (k := sizeOf s + sizeOf t) ended_nil (by omega)
    rw [h, ht] at hs
    exact (Prod.mk.inj (Option.some.inj hs)).1.symm
  · intro h
    rw [← spell_norm s, h, spell_norm]

/-- The key of a type: `key_of` its text. -/
def key (t : Ty) : Str := sigil t ++ spell t

/-- What the key of a type keeps of it. -/
def blur (t : Ty) : Str × Ty := (sigil t, norm t)

theorem sigil_cases (t : Ty) : sigil t = [] ∨ sigil t = ['$'] ∨ sigil t = ['!'] := by
  cases t with
  | name f w as => cases f <;> simp [sigil]
  | _ => exact .inl rfl

theorem head_spell (t : Ty) : (spell t).head? ≠ some '$' ∧ (spell t).head? ≠ some '!' := by
  obtain ⟨c, s, hs, hc⟩ := spell_head t
  simp only [mem_cons, not_mem_nil, or_false, not_or] at hc
  simp [hs, hc]

/-- A mark before a text that begins with neither mark can be told from the text. -/
theorem marked_inj {a b x y : Str} (ha : a = [] ∨ a = ['$'] ∨ a = ['!']) (hb : b = [] ∨ b = ['$'] ∨ b = ['!'])
    (hx : x.head? ≠ some '$' ∧ x.head? ≠ some '!') (hy : y.head? ≠ some '$' ∧ y.head? ≠ some '!')
    (h : a ++ x = b ++ y) : a = b ∧ x = y := by
  obtain rfl | rfl | rfl := ha <;> obtain rfl | rfl | rfl := hb <;> grind

/-- **Two types have one key just when they blur into one.** -/
theorem key_eq_iff {s t : Ty} : key s = key t ↔ blur s = blur t := by
  unfold key blur
  rw [Prod.mk.injEq, ← spell_eq_iff]
  constructor
  · exact marked_inj (sigil_cases s) (sigil_cases t) (head_spell s) (head_spell t)
  · intro h
    rw [h.1, h.2]

end Ty

end Voila.Typ
