import Voila.Csv.WriterSound

/-!
# Voila.Csv.Format

What the format says of a text, without a scanner: each byte is marked with where it stands, the lines are
the pieces between line feeds outside quotes, the fields of a line the pieces between separators outside
quotes, and a field is the bytes of its piece less the quotes around it and one of each two in it.
-/

open List

namespace Voila.Csv

open Voila.Rt (Bytes)
open Voila.Rt.Json (ch)

/-- A byte with where it stands. -/
structure Mark where
  byte : UInt8
  mode : Mode
  deriving DecidableEq

/-- The bytes of a text that starts at `m`. -/
def marked (sep : Nat) (m : Mode) : Bytes → List Mark
  | [] => []
  | c :: s => ⟨c, m⟩ :: marked sep (m.step sep c) s

/-- A line feed outside quotes. -/
def Mark.feeds (p : Mark) : Bool := p.mode ≠ .quoted ∧ p.byte = ch '\n'

/-- A separator outside quotes. -/
def Mark.parts (sep : Nat) (p : Mark) : Bool := p.mode ≠ .quoted ∧ p.byte.toNat = sep

/-- A byte of a field: not the quote that opens or closes one, nor the first of two. -/
def Mark.content (p : Mark) : Bool := p.byte = ch '"' → p.mode = .plain ∨ p.mode = .closing

def value (piece : List Mark) : Bytes := (piece.filter Mark.content).map Mark.byte

/-- A piece without the return at its end. -/
def dropReturn (piece : List Mark) : List Mark :=
  if piece.getLast?.map Mark.byte = some (ch '\r') then piece.dropLast else piece

/-- All pieces but the last one without the return at their end. -/
def dropReturns : List (List Mark) → List (List Mark)
  | [] => []
  | [piece] => [piece]
  | piece :: pieces => dropReturn piece :: dropReturns pieces

/-- The lines that are not blank, each without the return in front of its feed. -/
def linesOf (marks : List Mark) : List (List Mark) :=
  (dropReturns (marks.splitOnP Mark.feeds)).filter (· ≠ [])

/-- The records of a text. -/
def denoted (sep : Nat) (text : Bytes) : List (List Bytes) :=
  (linesOf (marked sep .line text)).map fun line => (line.splitOnP (Mark.parts sep)).map value

/-- The bytes of all fields: what is neither a separator or a line feed outside quotes, nor a return in front
of such a feed, nor a quote that a field loses. -/
def contents (sep : Nat) : List Mark → Bytes
  | [] => []
  | p :: marks =>
    if p.feeds ∨ p.parts sep ∨ ¬ p.content ∨ p.byte = ch '\r' ∧ marks.head?.any Mark.feeds then
      contents sep marks
    else p.byte :: contents sep marks

/-- The records of a text as the scanner finds them: a return goes in front of a separator as well. -/
def scanned (sep : Nat) (text : Bytes) : List (List Bytes) :=
  (linesOf (marked sep .line text)).map fun line =>
    (dropReturns (line.splitOnP (Mark.parts sep))).map value

end Voila.Csv

/-!
The scanner finds the records that the format says are in a text, but that it drops a return in front of a
separator as it does in front of a line feed (`decodes_scanned`). So the two differ exactly on the texts with
such a return outside quotes (`denotes_iff`).
-/

namespace Voila.Csv

open Voila.Rt (Bytes)
open Voila.Rt.Json (ch)

section
variable {sep : Nat}

/-! ### Marks -/

@[simp] theorem marked_nil (m : Mode) : marked sep m [] = [] := rfl

theorem marked_append (m : Mode) (s t : Bytes) :
    marked sep m (s ++ t) = marked sep m s ++ marked sep (ending sep m s) t := by
  induction s generalizing m with
  | nil => rfl
  | cons c s ih => rw [cons_append, marked, ih, marked, cons_append, ending_cons]

theorem marked_eq_nil_iff (m : Mode) (s : Bytes) : marked sep m s = [] ↔ s = [] := by
  cases s with
  | nil => exact ⟨fun _ => rfl, fun _ => rfl⟩
  | cons c s => exact ⟨nofun, nofun⟩

theorem getLast_marked (m : Mode) (s : Bytes) : (marked sep m s).getLast?.map Mark.byte = s.getLast? := by
  have bytes : ∀ m s, (marked sep m s).map Mark.byte = s := by
    intro m s
    induction s generalizing m with
    | nil => rfl
    | cons c s ih => rw [marked, map_cons, ih]
  conv_rhs => rw [← bytes m s, getLast?_map]

/-! ### Lines -/

variable {piece : List Mark} {pieces : List (List Mark)} {m : Mode} {p x y : Mark} {more : Bool}
  {len : Nat} {s : Bytes}

theorem dropReturns_cons (h : pieces ≠ []) :
    dropReturns (piece :: pieces) = dropReturn piece :: dropReturns pieces := by
  cases pieces with
  | nil => exact absurd rfl h
  | cons p pieces => rfl

/-- A line with its feed. -/
theorem linesOf_line {line rest : List Mark} {feed : Mark} (plain : ∀ p ∈ line, p.feeds = false)
    (ends : feed.feeds = true) :
    linesOf (line ++ feed :: rest) =
      (if dropReturn line = [] then [] else [dropReturn line]) ++ linesOf rest := by
  unfold linesOf
  rw [splitOnP_append_cons_of_forall_mem plain feed ends,
    dropReturns_cons (splitOnP_ne_nil _ _), filter_cons]
  by_cases blank : dropReturn line = []
  · rw [if_pos blank, if_neg (by simp [blank])]
    rfl
  · rw [if_neg blank, if_pos (by simp [blank])]
    rfl

/-- The last line. -/
theorem linesOf_last {line : List Mark} (plain : ∀ p ∈ line, p.feeds = false) :
    linesOf line = if line = [] then [] else [line] := by
  unfold linesOf
  rw [splitOnP_eq_singleton plain, dropReturns, filter_cons]
  by_cases blank : line = []
  · rw [if_pos blank, if_neg (by simp [blank])]
    rfl
  · rw [if_neg blank, if_pos (by simp [blank])]
    rfl

theorem feeds_lf (h : m ≠ .quoted) : (Mark.mk (ch '\n') m).feeds = true :=
  decide_eq_true ⟨h, rfl⟩

/-- Blank lines say nothing. -/
theorem linesOf_skipBlank (s : Bytes) :
    linesOf (marked sep .line s) = linesOf (marked sep .line (skipBlank s)) := by
  fun_induction skipBlank s with
  | case1 => rfl
  | case2 s ih =>
    rw [← ih, marked, step_lf (by decide)]
    have none : ∀ p ∈ ([] : List Mark), p.feeds = false := (by simp)
    exact linesOf_line none (feeds_lf (by decide))
  | case3 s _ ih =>
    have outer : Mode.step sep .line (ch '\r') ≠ .quoted := by
      rw [step_outside (by decide) (by decide), outside, if_neg (by decide)]
      split <;> decide
    have plain : ∀ p ∈ [Mark.mk (ch '\r') .line], p.feeds = false := by decide
    rw [← ih, marked, marked, step_lf outer]
    exact linesOf_line plain (feeds_lf outer)
  | case4 => rfl
  | case5 => rfl
  | case6 => rfl

/-! ### Fields -/

theorem value_append (a b : List Mark) : value (a ++ b) = value a ++ value b := by
  unfold value
  rw [filter_append, map_append]

theorem value_cons (h : p.content = true) (a : List Mark) : value (p :: a) = p.byte :: value a := by
  unfold value
  rw [filter_cons_of_pos h, map_cons]

theorem value_quote (h : p.content = false) (a : List Mark) : value (p :: a) = value a := by
  unfold value
  rw [filter_cons_of_neg (by simp [h])]

theorem content_of_ne {c : UInt8} (h : c ≠ ch '"') (m : Mode) : (Mark.mk c m).content = true :=
  decide_eq_true fun quote => absurd quote h

/-- Where the bytes of a quoted part stand. -/
def Inside (p : Mark) : Prop := p.mode = .quoted ∨ p.mode = .closing ∧ p.byte = ch '"'

theorem Inside.feeds (h : Inside p) : p.feeds = false := by
  unfold Mark.feeds
  obtain quoted | ⟨-, quote⟩ := h
  · simp [quoted]
  · simp [quote, show ch '"' ≠ ch '\n' from by decide]

theorem Inside.parts (hsep : Separates sep) (h : Inside p) : p.parts sep = false := by
  unfold Mark.parts
  obtain quoted | ⟨-, quote⟩ := h
  · simp [quoted]
  · simp [quote, hsep.noQuote.symm]

/-- What is copied out of the quotes is the value of what stands there. -/
theorem quotedLoop_value (sep : Nat) {b run s v after : Bytes}
    (h : quotedLoop more b run s = some (v, after)) :
    ∃ t, s = t ++ after ∧ ending sep .quoted t = .closing ∧ t.getLast? = some (ch '"') ∧
      (∀ p ∈ marked sep .quoted t, Inside p) ∧ v = b ++ run ++ value (marked sep .quoted t) := by
  have opening : (Mark.mk (ch '"') .quoted).content = false := by decide
  have second : (Mark.mk (ch '"') .closing).content = true := by decide
  have closed : ∀ p ∈ [Mark.mk (ch '"') .quoted], Inside p := fun p hp => by
    rw [mem_singleton.mp hp]
    exact Or.inl rfl
  fun_induction quotedLoop more b run s with
  | case1 => cases h
  | case2 => cases h
  | case3 b run more =>
    cases h
    refine ⟨[ch '"'], rfl, quote_closes sep, rfl, closed, ?_⟩
    rw [marked, value_quote opening]
    simp [value]
  | case4 b run s ih =>
    obtain ⟨t, eq, ends, last, inside, copied⟩ := ih h
    refine ⟨ch '"' :: ch '"' :: t, by rw [eq]; rfl, ?_, ?_, ?_, ?_⟩
    · rw [ending_cons, ending_cons, quote_closes, quote_opens]
      exact ends
    · simp [getLast?_cons, last]
    · rw [marked, marked, quote_closes, quote_opens]
      intro p hp
      rw [mem_cons, mem_cons] at hp
      obtain rfl | rfl | hp := hp
      · exact Or.inl rfl
      · exact Or.inr ⟨rfl, rfl⟩
      · exact inside p hp
    · rw [copied, marked, marked, quote_closes, quote_opens, value_quote opening, value_cons second]
      simp
  | case5 b run d s other =>
    cases h
    refine ⟨[ch '"'], rfl, quote_closes sep, rfl, closed, ?_⟩
    rw [marked, value_quote opening]
    simp [value]
  | case6 b run c s other ih =>
    obtain ⟨t, eq, ends, last, inside, copied⟩ := ih h
    have stays : Mode.step sep .quoted c = .quoted := if_neg other
    refine ⟨c :: t, by rw [eq]; rfl, ?_, ?_, ?_, ?_⟩
    · rw [ending_cons, stays]
      exact ends
    · simp [getLast?_cons, last]
    · rw [marked, stays]
      intro p hp
      cases mem_cons.mp hp with
      | inl first => exact first ▸ Or.inl rfl
      | inr later => exact inside p later
    · rw [copied, marked, stays, value_cons (content_of_ne other _)]
      simp

/-- The body of a field outside quotes is the field. -/
theorem tail_marks (hm : m ≠ .quoted) {t : Bytes} (h : ∀ c ∈ t, inTail sep c = true)
    (first : ∀ c ∈ t.head?, c ≠ ch '"') :
    (∀ p ∈ marked sep m t, p.feeds = false ∧ p.parts sep = false) ∧ value (marked sep m t) = t := by
  have within : ∀ (m : Mode) {c : UInt8}, inTail sep c = true →
      (Mark.mk c m).feeds = false ∧ (Mark.mk c m).parts sep = false := by
    intro m c hc
    obtain ⟨noSep, noFeed⟩ := inTail_iff.mp hc
    exact ⟨by simp [Mark.feeds, noFeed], by simp [Mark.parts, noSep]⟩
  have plain : ∀ {t : Bytes}, (∀ c ∈ t, inTail sep c = true) →
      (∀ p ∈ marked sep .plain t, p.feeds = false ∧ p.parts sep = false) ∧ value (marked sep .plain t) = t := by
    intro t h
    induction t with
    | nil => exact ⟨(by simp), rfl⟩
    | cons c t ih =>
      obtain ⟨noSep, noFeed⟩ := inTail_iff.mp (h c mem_cons_self)
      have stays : Mode.step sep .plain c = .plain := by
        rw [Mode.step, outside, if_neg noFeed, if_neg noSep]
      obtain ⟨marks, same⟩ := ih fun d hd => h d (mem_cons_of_mem _ hd)
      have content : (Mark.mk c .plain).content = true := decide_eq_true fun _ => Or.inl rfl
      rw [marked, stays]
      refine ⟨fun p hp => ?_, by rw [value_cons content, same]⟩
      cases mem_cons.mp hp with
      | inl first => exact first ▸ within _ (h c mem_cons_self)
      | inr later => exact marks p later
  cases t with
  | nil => exact ⟨(by simp), rfl⟩
  | cons c t =>
    obtain ⟨noSep, noFeed⟩ := inTail_iff.mp (h c mem_cons_self)
    have out : m.step sep c = .plain := by
      rw [step_outside hm (first c rfl), outside, if_neg noFeed, if_neg noSep]
    obtain ⟨marks, same⟩ := plain fun d hd => h d (mem_cons_of_mem _ hd)
    rw [marked, out]
    refine ⟨fun p hp => ?_, by rw [value_cons (content_of_ne (first c rfl) m), same]⟩
    cases mem_cons.mp hp with
    | inl first => exact first ▸ within _ (h c mem_cons_self)
    | inr later => exact marks p later

theorem marked_dropLast (m : Mode) (s : Bytes) : (marked sep m s).dropLast = marked sep m s.dropLast := by
  obtain rfl | ⟨init, last, rfl⟩ := eq_nil_or_concat s
  · rfl
  · rw [concat_eq_append, marked_append, marked, marked_nil, dropLast_concat, dropLast_concat]

theorem dropReturn_eq (m : Mode) (s : Bytes) :
    dropReturn (marked sep m s) = marked sep m (if s.getLast? = some (ch '\r') then s.dropLast else s) := by
  unfold dropReturn
  rw [getLast_marked]
  split
  · exact marked_dropLast m s
  · rfl

/-- The body of a field behind what is in quotes, if anything is. -/
theorem scanTail_value {front s v after : Bytes} (outer : ending sep m front ≠ .quoted)
    (last : front.getLast? ≠ some (ch '\r')) (first : ∀ c ∈ s.head?, c ≠ ch '"')
    (h : scanTail sep (value (marked sep m front)) s = (v, after)) :
    ∃ tail, s = tail ++ after ∧ ending sep m (front ++ tail) ≠ .quoted ∧
      (∀ p ∈ marked sep (ending sep m front) tail, p.feeds = false ∧ p.parts sep = false) ∧ Ends sep after ∧
      v = value (if after = [] then marked sep m (front ++ tail) else dropReturn (marked sep m (front ++ tail))) := by
  cases h
  have body : ∀ c ∈ s.takeWhile (inTail sep), inTail sep c = true := fun c hc => mem_takeWhile_imp hc
  have start : ∀ c ∈ (s.takeWhile (inTail sep)).head?, c ≠ ch '"' := by
    intro c hc
    refine first c ?_
    cases s with
    | nil => exact hc
    | cons d s =>
      rw [takeWhile_cons] at hc
      split at hc
      · exact hc
      · cases hc
  generalize htail : s.takeWhile (inTail sep) = tail at body start
  generalize hafter : s.dropWhile (inTail sep) = after
  have ends : Ends sep after := hafter ▸ dropWhile_ends s
  obtain ⟨marks, same⟩ := tail_marks outer body start
  refine ⟨tail, by rw [← htail, ← hafter, takeWhile_append_dropWhile], ?_, marks, ends, ?_⟩
  · rw [ending_append]
    obtain rfl | plain := ending_tail outer body start
    · exact outer
    · rw [plain]
      decide
  · unfold trimTail
    by_cases spent : after = []
    · rw [if_pos spent, if_neg (fun both => both.1 spent), marked_append, value_append, same]
    · rw [if_neg spent, dropReturn_eq]
      have returned : (front ++ tail).getLast? = some (ch '\r') ↔ tail.getLast? = some (ch '\r') := by
        rw [getLast?_append]
        cases tail.getLast? with
        | none => exact ⟨fun h => absurd h last, nofun⟩
        | some c => rfl
      by_cases ret : tail.getLast? = some (ch '\r')
      · have some : tail ≠ [] := fun none => by
          rw [none] at ret
          cases ret
        rw [if_pos ⟨spent, ret⟩, if_pos (returned.mpr ret), dropLast_append_of_ne_nil some,
          marked_append, value_append]
        have shorter : ∀ c ∈ tail.dropLast, inTail sep c = true := fun c hc => body c (mem_of_mem_dropLast hc)
        rw [(tail_marks outer shorter fun c hc => start c ?_).2]
        cases tail with
        | nil => exact absurd rfl some
        | cons d tail =>
          cases tail with
          | nil => cases hc
          | cons d' tail => exact hc
      · rw [if_neg (fun both => ret both.2), if_neg (fun both => ret (returned.mp both)), marked_append,
          value_append, same]

/-- The field that is scanned is the value of its piece. -/
theorem scanField_value (hsep : Separates sep) (hm : m.Starts)
    {s v after : Bytes} (h : scanField sep more len s = .ok (some (v, after))) :
    ∃ t, s = t ++ after ∧ ending sep m t ≠ .quoted ∧
      (∀ p ∈ marked sep m t, p.feeds = false ∧ p.parts sep = false) ∧ Ends sep after ∧
      v = value (if after = [] then marked sep m t else dropReturn (marked sep m t)) := by
  cases s with
  | nil => cases h
  | cons c rest =>
    rw [scanField] at h
    by_cases quote : c = ch '"'
    · subst quote
      rw [if_pos rfl] at h
      have opens : m.step sep (ch '"') = .quoted := step_quote hm
      have opening : (Mark.mk (ch '"') m).content = false := by
        cases hm with
        | inl line => subst line; decide
        | inr field => subst field; decide
      cases hq : quotedLoop more [] [] rest with
      | none =>
        rw [hq] at h
        cases h
      | some p =>
        obtain ⟨copied, rest'⟩ := p
        rw [hq] at h
        have scan : scanTail sep copied rest' = (v, after) := Option.some.inj (Except.ok.inj h)
        obtain ⟨t, rfl, closed, last, inside, same⟩ := quotedLoop_value sep hq
        obtain ⟨-, next, -⟩ := quotedLoop_some sep hq
        have behind : ending sep m (ch '"' :: t) = .closing := by rw [ending_cons, opens, closed]
        have front : value (marked sep m (ch '"' :: t)) = copied := by
          rw [marked, value_quote opening, opens, same]
          rfl
        rw [← front] at scan
        obtain ⟨tail, rfl, outer, marks, ends, value⟩ :=
          scanTail_value (by rw [behind]; decide) (by rw [getLast?_cons, last]; decide) next scan
        refine ⟨ch '"' :: t ++ tail, by simp, outer, fun p hp => ?_, ends, value⟩
        rw [marked_append, mem_append, marked, mem_cons, opens] at hp
        obtain (rfl | hp) | hp := hp
        · have noSep := hsep.noQuote
          have noFeed : ch '"' ≠ ch '\n' := by decide
          exact ⟨by simp [Mark.feeds, noFeed], by simp [Mark.parts, noSep.symm]⟩
        · exact ⟨(inside p hp).feeds, (inside p hp).parts hsep⟩
        · exact marks p hp
    · rw [if_neg quote] at h
      have scan : scanTail sep (value (marked sep m [])) (c :: rest) = (v, after) :=
        Option.some.inj (Except.ok.inj h)
      have first : ∀ d ∈ (c :: rest).head?, d ≠ ch '"' := fun d hd => by
        cases hd
        exact quote
      have outer : ending sep m [] ≠ .quoted := hm.open
      have last : ([] : Bytes).getLast? ≠ some (ch '\r') := (by simp)
      exact scanTail_value outer last first scan

/-! ### Records -/

/-- The fields of a line as the scanner finds them. -/
def readLine (sep : Nat) (line : List Mark) : List Bytes :=
  (dropReturns (line.splitOnP (Mark.parts sep))).map value

theorem readLine_last (plain : ∀ p ∈ piece, p.parts sep = false) :
    readLine sep piece = [value piece] := by
  unfold readLine
  rw [splitOnP_eq_singleton plain]
  rfl

theorem readLine_cons {piece rest : List Mark} (plain : ∀ p ∈ piece, p.parts sep = false)
    (ends : p.parts sep = true) :
    readLine sep (piece ++ p :: rest) = value (dropReturn piece) :: readLine sep rest := by
  unfold readLine
  rw [splitOnP_append_cons_of_forall_mem plain p ends, dropReturns_cons (splitOnP_ne_nil _ _),
    map_cons]

theorem mem_of_mem_dropReturn (h : p ∈ dropReturn piece) : p ∈ piece := by
  unfold dropReturn at h
  split at h
  · exact mem_of_mem_dropLast h
  · exact h

theorem dropReturn_append (h : p.byte ≠ ch '\r') (a rest : List Mark) :
    dropReturn (a ++ p :: rest) = a ++ p :: dropReturn rest := by
  have cut : ∀ x xs, (a ++ p :: x :: xs).dropLast = a ++ p :: (x :: xs).dropLast := fun x xs => by simp
  cases rest with
  | nil =>
    unfold dropReturn
    rw [if_neg (by simpa using h), if_neg nofun]
  | cons x xs =>
    unfold dropReturn
    rw [getLast?_append_cons, getLast?_cons_cons]
    split
    · exact cut x xs
    · rfl

/-- A record that is scanned is a line of the text, with its feed or at the end of the text. -/
theorem fieldsLoop_line (hsep : Separates sep) (noReturn : sep ≠ (ch '\r').toNat) {len n : Nat}
    (hm : m.Starts) {s next : Bytes} {fields fs : List Bytes}
    (h : fieldsLoop sep false len n fields s = .ok (.record fs next)) :
    ∃ line, (∀ p ∈ marked sep m line, p.feeds = false) ∧ ending sep m line ≠ .quoted ∧
      (s = line ++ ch '\n' :: next ∧ fs = fields ++ readLine sep (dropReturn (marked sep m line)) ∨
        s = line ∧ next = [] ∧ fs = fields ++ readLine sep (marked sep m line)) := by
  induction n generalizing m s fields with
  | zero => cases h
  | succ n ih =>
    rw [fieldsLoop] at h
    cases hfield : scanField sep false len s with
    | error e =>
      rw [hfield] at h
      cases h
    | ok r =>
      cases r with
      | none =>
        rw [hfield] at h
        cases h
      | some p =>
        obtain ⟨v, after⟩ := p
        rw [hfield] at h
        obtain ⟨t, rfl, outer, marks, ends, same⟩ := scanField_value hsep hm hfield
        have noFeeds : ∀ p ∈ marked sep m t, p.feeds = false := fun p hp => (marks p hp).1
        have noParts : ∀ p ∈ marked sep m t, p.parts sep = false := fun p hp => (marks p hp).2
        cases after with
        | nil =>
          obtain ⟨rfl, rfl⟩ := Scan.record.inj (Except.ok.inj h)
          refine ⟨t, noFeeds, outer, Or.inr ⟨append_nil t, rfl, ?_⟩⟩
          rw [readLine_last noParts, same, if_pos rfl]
        | cons c next' =>
          rw [if_neg (cons_ne_nil _ _)] at same
          dsimp only at h
          by_cases isSep : c.toNat = sep
          · rw [if_pos isSep] at h
            obtain ⟨line, feeds, out, found⟩ := ih (Or.inr rfl) h
            have goes : Mode.step sep (ending sep m t) c = .field :=
              step_sep hsep.noQuote hsep.noFeed outer isSep
            have parts : (Mark.mk c (ending sep m t)).parts sep = true := decide_eq_true ⟨outer, isSep⟩
            have noFeed : (Mark.mk c (ending sep m t)).feeds = false := by
              have other : c ≠ ch '\n' := fun eq => hsep.noFeed (by rw [← isSep, eq])
              simp [Mark.feeds, other]
            have other : c ≠ ch '\r' := fun eq => noReturn (by rw [← isSep, eq])
            have whole : marked sep m (t ++ c :: line) =
                marked sep m t ++ ⟨c, ending sep m t⟩ :: marked sep .field line := by
              rw [marked_append, marked, goes]
            refine ⟨t ++ c :: line, fun p hp => ?_, ?_, ?_⟩
            · rw [whole, mem_append, mem_cons] at hp
              obtain hp | rfl | hp := hp
              · exact noFeeds p hp
              · exact noFeed
              · exact feeds p hp
            · rw [ending_append, ending_cons, goes]
              exact out
            · rw [whole]
              obtain ⟨rfl, rfl⟩ | ⟨rfl, rfl, rfl⟩ := found
              · refine Or.inl ⟨by simp, ?_⟩
                rw [dropReturn_append other, readLine_cons noParts parts, same]
                simp
              · refine Or.inr ⟨rfl, rfl, ?_⟩
                rw [readLine_cons noParts parts, same]
                simp
          · rw [if_neg isSep] at h
            obtain rfl : c = ch '\n' := (ends c rfl).resolve_left isSep
            obtain ⟨rfl, rfl⟩ := Scan.record.inj (Except.ok.inj h)
            refine ⟨t, noFeeds, outer, Or.inl ⟨rfl, ?_⟩⟩
            rw [readLine_last fun p hp => noParts p (mem_of_mem_dropReturn hp), same]

theorem scanned_skipBlank (s : Bytes) : scanned sep (skipBlank s) = scanned sep s := by
  unfold scanned
  rw [linesOf_skipBlank s]

theorem scanned_nil : scanned sep [] = [] := rfl

/-- A record that is scanned is the first one of the text. -/
theorem scanRecord_scan (hsep : Separates sep) (noReturn : sep ≠ (ch '\r').toNat) {s f next : Bytes}
    {fs : List Bytes} (h : scanRecord sep false len s = .ok (.record (f :: fs) next)) :
    scanned sep s = (f :: fs) :: scanned sep next := by
  unfold scanRecord at h
  dsimp only at h
  split at h
  · cases h
  · next some_read =>
      rw [← scanned_skipBlank s]
      obtain ⟨line, plain, outer, found⟩ := fieldsLoop_line hsep noReturn (Or.inl rfl) h
      rw [nil_append] at found
      unfold scanned
      obtain ⟨whole, fields⟩ | ⟨whole, rfl, fields⟩ := found
      · -- a line that is not blank
        have shown : dropReturn (marked sep .line line) ≠ [] := by
          rw [dropReturn_eq, Ne, marked_eq_nil_iff]
          intro blank
          have first := skipBlank_first s next
          rw [whole] at first
          split at blank
          · next ret =>
              obtain rfl | ⟨init, last, rfl⟩ := eq_nil_or_concat line
              · exact first.1 rfl
              · rw [concat_eq_append] at blank ret first
                rw [dropLast_concat] at blank
                rw [getLast?_concat, Option.some.injEq] at ret
                rw [blank, ret] at first
                exact first.2 rfl
          · rw [blank] at first
            exact first.1 rfl
        rw [whole, marked_append, marked, step_lf outer, linesOf_line plain (feeds_lf outer), if_neg shown,
          singleton_append, map_cons, fields]
        rfl
      · have marks : marked sep .line line ≠ [] := by
          rw [Ne, marked_eq_nil_iff, ← whole]
          exact some_read
        rw [whole, linesOf_last plain, if_neg marks, fields]
        rfl

/-- What a text holds to its end is what the scanner finds in its lines. -/
theorem decodes_scanned (hsep : Separates sep) (noReturn : sep ≠ (ch '\r').toNat)
    {recs : List (List Bytes)} {e : End} (h : Decodes sep s recs e) (done : e = .done) : recs = scanned sep s := by
  induction h with
  | done blank => rw [← scanned_skipBlank, blank, scanned_nil]
  | unfinished => cases done
  | fault => cases done
  | record len h _ ih => rw [scanRecord_scan hsep noReturn h, ih done]

/-! ### The bytes of the fields -/

/-- The bytes of the fields of a line. -/
def fieldBytes (sep : Nat) (line : List Mark) : Bytes := value (line.filter fun p => !p.parts sep)

theorem fieldBytes_cons (p : Mark) (line : List Mark) : fieldBytes sep (p :: line) =
    if p.parts sep ∨ ¬ p.content then fieldBytes sep line else p.byte :: fieldBytes sep line := by
  unfold fieldBytes
  rw [filter_cons]
  by_cases parts : p.parts sep = true
  · rw [if_neg (by simp [parts]), if_pos (Or.inl parts)]
  · rw [if_pos (by simp [parts])]
    by_cases content : p.content = true
    · rw [if_neg (by simp [parts, content]), value_cons content]
    · rw [if_pos (Or.inr content), value_quote (by simpa using content)]

theorem flatten_fields (line : List Mark) :
    ((line.splitOnP (Mark.parts sep)).map value).flatten = fieldBytes sep line := by
  have join : ∀ pieces : List (List Mark), (pieces.map value).flatten = value pieces.flatten := by
    intro pieces
    induction pieces with
    | nil => rfl
    | cons piece pieces ih => rw [map_cons, flatten_cons, ih, flatten_cons, value_append]
  have pieces : (line.splitOnP (Mark.parts sep)).flatten = line.filter fun p => !p.parts sep := by
    induction line with
    | nil => rfl
    | cons p line ih =>
      rw [splitOnP_cons_eq_if_modifyHead, filter_cons]
      by_cases parts : p.parts sep = true
      · rw [if_pos parts, if_neg (by simp [parts]), flatten_cons, nil_append, ih]
      · obtain ⟨h, t, cut⟩ := exists_cons_of_ne_nil (splitOnP_ne_nil (Mark.parts sep) line)
        rw [if_neg parts, if_pos (by simp [parts]), cut, modifyHead_cons, flatten_cons,
          cons_append, ← flatten_cons, ← cut, ih]
  rw [join, pieces]
  rfl

/-- The contents of a text, line by line. -/
theorem contents_eq (marks : List Mark) :
    contents sep marks = ((dropReturns (marks.splitOnP Mark.feeds)).map (fieldBytes sep)).flatten := by
  induction marks with
  | nil => rfl
  | cons p marks ih =>
    obtain ⟨h, t, cut⟩ := exists_cons_of_ne_nil (splitOnP_ne_nil Mark.feeds marks)
    rw [cut] at ih
    rw [contents, splitOnP_cons_eq_if_modifyHead, cut]
    by_cases feeds : p.feeds = true
    · rw [if_pos (Or.inl feeds), if_pos feeds, dropReturns_cons (cons_ne_nil _ _), map_cons,
        flatten_cons, ih]
      rfl
    · rw [if_neg feeds, modifyHead_cons]
      cases t with
      | nil =>
        -- there is no feed behind
        have open_ : marks.head?.any Mark.feeds = false := by
          cases marks with
          | nil => rfl
          | cons q marks =>
            rw [splitOnP_cons_eq_if_modifyHead] at cut
            by_cases next : q.feeds = true
            · rw [if_pos next] at cut
              exact absurd (List.cons.inj cut).2 (splitOnP_ne_nil _ _)
            · simpa using next
        have whole : contents sep marks = fieldBytes sep h := by simpa [dropReturns] using ih
        rw [whole]
        simp [dropReturns, fieldBytes_cons, feeds, open_]
      | cons l ls =>
        rw [dropReturns_cons (cons_ne_nil _ _)] at ih ⊢
        rw [map_cons, flatten_cons] at ih ⊢
        cases marks with
        | nil => exact absurd (List.cons.inj cut).2 nofun
        | cons q marks =>
          rw [splitOnP_cons_eq_if_modifyHead] at cut
          by_cases next : q.feeds = true
          · rw [if_pos next] at cut
            obtain rfl : [] = h := (List.cons.inj cut).1
            rw [ih]
            have nothing : fieldBytes sep (dropReturn []) = [] := rfl
            rw [nothing, nil_append]
            by_cases ret : p.byte = ch '\r'
            · have dropped : dropReturn [p] = [] := by simp [dropReturn, ret]
              rw [if_pos (Or.inr (Or.inr (Or.inr ⟨ret, by simpa using next⟩))), dropped]
              rfl
            · have kept : dropReturn [p] = [p] := by simp [dropReturn, ret]
              rw [kept, fieldBytes_cons]
              by_cases skipped : p.parts sep = true ∨ ¬ p.content = true
              · rw [if_pos (by tauto), if_pos skipped]
                rfl
              · rw [if_neg (by tauto), if_neg skipped]
                rfl
          · rw [if_neg next] at cut
            obtain ⟨h', t', cut'⟩ := exists_cons_of_ne_nil (splitOnP_ne_nil Mark.feeds marks)
            rw [cut', modifyHead_cons] at cut
            obtain ⟨rfl, rfl⟩ := List.cons.inj cut
            have later : dropReturn (p :: q :: h') = p :: dropReturn (q :: h') := by
              unfold dropReturn
              rw [getLast?_cons_cons]
              split
              · rfl
              · rfl
            have open_ : ¬ (p.byte = ch '\r' ∧ (q :: marks).head?.any Mark.feeds = true) := fun both =>
              next (by simpa using both.2)
            rw [later, fieldBytes_cons, ih]
            by_cases skipped : p.parts sep = true ∨ ¬ p.content = true
            · rw [if_pos (by tauto), if_pos skipped]
            · rw [if_neg (by tauto), if_neg skipped, cons_append]

/-- The fields of the format are the contents of the text. -/
theorem denoted_contents (text : Bytes) :
    (denoted sep text).flatten.flatten = contents sep (marked sep .line text) := by
  have lines : ∀ ls : List (List Mark), ((ls.filter (· ≠ [])).map fun line =>
      (line.splitOnP (Mark.parts sep)).map value).flatten.flatten = (ls.map (fieldBytes sep)).flatten := by
    intro ls
    induction ls with
    | nil => rfl
    | cons l ls ih =>
      rw [filter_cons, map_cons, flatten_cons]
      by_cases blank : l = []
      · rw [if_neg (by simp [blank]), ih, blank]
        rfl
      · rw [if_pos (by simp [blank]), map_cons, flatten_cons, flatten_append, ih, flatten_fields]
  rw [contents_eq]
  exact lines _

/-! ### Returns in front of separators -/

/-- A piece that ends with a return. -/
def Returns (piece : List Mark) : Prop := piece.getLast?.map Mark.byte = some (ch '\r')

instance (piece : List Mark) : Decidable (Returns piece) := inferInstanceAs (Decidable (_ = _))

theorem value_dropReturn (piece : List Mark) : value (dropReturn piece) = value piece ↔ ¬ Returns piece := by
  unfold dropReturn
  split
  · next ret =>
      refine ⟨fun same => ?_, fun other => absurd ret other⟩
      obtain rfl | ⟨init, last, rfl⟩ := eq_nil_or_concat piece
      · cases ret
      · rw [concat_eq_append] at ret same
        rw [getLast?_concat, Option.map_some, Option.some.injEq] at ret
        have content : last.content = true := decide_eq_true fun quote => by
          rw [ret] at quote
          exact absurd quote (by decide)
        rw [dropLast_concat, value_append, value_cons content] at same
        exact absurd (congrArg List.length same) (by simp)
  · next other => exact ⟨fun _ => other, fun _ => rfl⟩

theorem map_dropReturns (pieces : List (List Mark)) :
    (dropReturns pieces).map value = pieces.map value ↔ ∀ piece ∈ pieces.dropLast, ¬ Returns piece := by
  induction pieces with
  | nil => exact ⟨fun _ => nofun, fun _ => rfl⟩
  | cons piece pieces ih =>
    cases pieces with
    | nil => exact ⟨fun _ => nofun, fun _ => rfl⟩
    | cons next pieces =>
      rw [dropReturns_cons (cons_ne_nil _ _), map_cons, map_cons, List.cons.injEq, ih,
        value_dropReturn, dropLast_cons_cons, forall_mem_cons]

/-- A piece before the last one ends with a return. -/
def Cut (pieces : List (List Mark)) : Prop := ∃ piece ∈ pieces.dropLast, Returns piece

theorem not_cut_single (piece : List Mark) : ¬ Cut [piece] := fun h => by
  obtain ⟨_, h, -⟩ := h
  cases h

theorem cut_cons (h : pieces ≠ []) : Cut (piece :: pieces) ↔ Returns piece ∨ Cut pieces := by
  unfold Cut
  rw [dropLast_cons_of_ne_nil h, exists_mem_cons_iff]

/-- A return in front of a separator. -/
def Stray (sep : Nat) (line : List Mark) : Prop :=
  ∃ x y, [x, y] <:+: line ∧ x.byte = ch '\r' ∧ y.parts sep = true

theorem not_stray_nil : ¬ Stray sep [] := fun h => by
  obtain ⟨x, y, h, -⟩ := h
  exact absurd (infix_nil.mp h) nofun

theorem not_stray_single (p : Mark) : ¬ Stray sep [p] := fun h => by
  obtain ⟨x, y, h, -⟩ := h
  exact absurd h.length_le (by simp)

theorem stray_cons (p q : Mark) (line : List Mark) :
    Stray sep (p :: q :: line) ↔ p.byte = ch '\r' ∧ q.parts sep = true ∨ Stray sep (q :: line) := by
  constructor
  · intro h
    obtain ⟨x, y, found, ret, parts⟩ := h
    rw [infix_cons_iff, cons_prefix_cons, cons_prefix_cons] at found
    obtain ⟨rfl, rfl, -⟩ | found := found
    · exact Or.inl ⟨ret, parts⟩
    · exact Or.inr ⟨x, y, found, ret, parts⟩
  · intro h
    obtain ⟨ret, parts⟩ | ⟨x, y, found, rest⟩ := h
    · exact ⟨p, q, ⟨[], line, rfl⟩, ret, parts⟩
    · exact ⟨x, y, infix_cons found, rest⟩

/-- A piece before the last one ends with a return where a return stands in front of a separator. -/
theorem cut_iff_stray (noReturn : sep ≠ (ch '\r').toNat) (line : List Mark) :
    Cut (line.splitOnP (Mark.parts sep)) ↔ Stray sep line := by
  have other : ∀ {p : Mark}, p.parts sep = true → p.byte ≠ ch '\r' := fun {p} parts ret => by
    simp [Mark.parts, ret, noReturn.symm] at parts
  induction line with
  | nil => exact iff_of_false (not_cut_single []) not_stray_nil
  | cons p line ih =>
    obtain ⟨h, t, cut⟩ := exists_cons_of_ne_nil (splitOnP_ne_nil (Mark.parts sep) line)
    rw [splitOnP_cons_eq_if_modifyHead]
    rw [cut] at ih ⊢
    cases line with
    | nil =>
      obtain ⟨rfl, rfl⟩ := List.cons.inj cut
      refine iff_of_false ?_ (not_stray_single p)
      split
      · rw [cut_cons (cons_ne_nil _ _)]
        exact not_or.mpr ⟨nofun, not_cut_single []⟩
      · exact not_cut_single [p]
    | cons q line =>
      rw [stray_cons, ← propext ih]
      by_cases parts : p.parts sep = true
      · -- an empty piece in front
        rw [if_pos parts, cut_cons (cons_ne_nil _ _)]
        have none : ¬ Returns [] := nofun
        exact or_congr_left ⟨fun ret => absurd ret none, fun both => absurd both.1 (other parts)⟩
      · rw [if_neg parts, modifyHead_cons]
        rw [splitOnP_cons_eq_if_modifyHead] at cut
        by_cases ends : q.parts sep = true
        · rw [if_pos ends] at cut
          obtain ⟨rfl, rfl⟩ := List.cons.inj cut
          rw [cut_cons (splitOnP_ne_nil _ _), cut_cons (splitOnP_ne_nil _ _)]
          have own : Returns [p] ↔ p.byte = ch '\r' := by simp [Returns]
          have none : ¬ Returns [] := nofun
          rw [own, or_iff_right none, and_iff_left ends]
        · -- the piece goes on
          obtain ⟨h', t', cut'⟩ := exists_cons_of_ne_nil (splitOnP_ne_nil (Mark.parts sep) line)
          rw [if_neg ends, cut', modifyHead_cons] at cut
          obtain ⟨rfl, rfl⟩ := List.cons.inj cut
          rw [or_iff_right fun both => ends both.2]
          cases t' with
          | nil => exact iff_of_false (not_cut_single _) (not_cut_single _)
          | cons l ls =>
            rw [cut_cons (cons_ne_nil _ _), cut_cons (cons_ne_nil _ _)]
            unfold Returns
            rw [getLast?_cons_cons]

/-- Two marks that stand side by side in a piece do so in the whole. -/
theorem infix_splitOnP (hx : x.feeds = false) (hy : y.feeds = false) (marks : List Mark) :
    (∃ line ∈ marks.splitOnP Mark.feeds, [x, y] <:+: line) ↔ [x, y] <:+: marks := by
  have nothing : ¬ [x, y] <:+: ([] : List Mark) := fun h => absurd (infix_nil.mp h) nofun
  induction marks with
  | nil =>
    rw [splitOnP_nil, exists_mem_cons_iff]
    exact iff_of_false (not_or.mpr ⟨nothing, fun h => by simp at h⟩) nothing
  | cons p marks ih =>
    rw [splitOnP_cons_eq_if_modifyHead, infix_cons_iff, cons_prefix_cons, ← propext ih]
    by_cases feeds : p.feeds = true
    · rw [if_pos feeds, exists_mem_cons_iff, or_iff_right nothing, or_iff_right]
      intro both
      rw [← both.1, hx] at feeds
      cases feeds
    · obtain ⟨h, t, cut⟩ := exists_cons_of_ne_nil (splitOnP_ne_nil Mark.feeds marks)
      have next : [y] <+: h ↔ [y] <+: marks := by
        cases marks with
        | nil =>
          obtain rfl : [] = h := (List.cons.inj cut).1
          rfl
        | cons q marks =>
          rw [splitOnP_cons_eq_if_modifyHead] at cut
          by_cases ends : q.feeds = true
          · rw [if_pos ends] at cut
            obtain rfl : [] = h := (List.cons.inj cut).1
            refine iff_of_false (fun h => absurd (prefix_nil.mp h) nofun) fun h => ?_
            rw [cons_prefix_cons] at h
            rw [← h.1, hy] at ends
            cases ends
          · obtain ⟨h', t', cut'⟩ := exists_cons_of_ne_nil (splitOnP_ne_nil Mark.feeds marks)
            rw [if_neg ends, cut', modifyHead_cons] at cut
            obtain rfl := (List.cons.inj cut).1
            rw [cons_prefix_cons, cons_prefix_cons]
            exact and_congr_right fun _ => iff_of_true nil_prefix nil_prefix
      rw [if_neg feeds, cut, modifyHead_cons, exists_mem_cons_iff, exists_mem_cons_iff,
        infix_cons_iff, cons_prefix_cons, next, or_assoc]

theorem infix_dropReturn (hy : y.byte ≠ ch '\r') (line : List Mark) :
    [x, y] <:+: dropReturn line ↔ [x, y] <:+: line := by
  constructor
  · intro h
    refine h.trans (List.IsPrefix.isInfix ?_)
    unfold dropReturn
    split
    · exact dropLast_prefix line
    · exact prefix_refl line
  · intro h
    obtain ⟨a, b, rfl⟩ := h
    have cut : a ++ [x, y] ++ b = (a ++ [x]) ++ y :: b := by simp
    rw [cut, dropReturn_append hy]
    exact ⟨a, dropReturn b, by simp⟩

theorem infix_dropReturns (hy : y.byte ≠ ch '\r') (lines : List (List Mark)) :
    (∃ line ∈ dropReturns lines, [x, y] <:+: line) ↔ ∃ line ∈ lines, [x, y] <:+: line := by
  induction lines with
  | nil => rfl
  | cons line lines ih =>
    cases lines with
    | nil => rfl
    | cons l lines =>
      rw [dropReturns_cons (cons_ne_nil _ _), exists_mem_cons_iff, exists_mem_cons_iff,
        infix_dropReturn hy, propext ih]

/-- A return stands in front of a separator in a line where it does so in the text. -/
theorem stray_linesOf (hsep : Separates sep) (noReturn : sep ≠ (ch '\r').toNat) (marks : List Mark) :
    (∃ line ∈ linesOf marks, Stray sep line) ↔ Stray sep marks := by
  have side : ∀ {x y : Mark}, x.byte = ch '\r' → y.parts sep = true →
      ((∃ line ∈ linesOf marks, [x, y] <:+: line) ↔ [x, y] <:+: marks) := by
    intro x y ret parts
    have isSep : y.byte.toNat = sep := (of_decide_eq_true parts).2
    have hx : x.feeds = false := by
      have other : ch '\r' ≠ ch '\n' := by decide
      simp [Mark.feeds, ret, other]
    have hy : y.feeds = false := by
      have other : y.byte ≠ ch '\n' := fun eq => hsep.noFeed (by rw [← isSep, eq])
      simp [Mark.feeds, other]
    have hy' : y.byte ≠ ch '\r' := fun eq => noReturn (by rw [← isSep, eq])
    have lines := (infix_dropReturns hy' (marks.splitOnP Mark.feeds)).trans (infix_splitOnP hx hy marks)
    rw [← propext lines]
    unfold linesOf
    constructor
    · intro h
      obtain ⟨line, member, found⟩ := h
      exact ⟨line, (mem_filter.mp member).1, found⟩
    · intro h
      obtain ⟨line, member, found⟩ := h
      refine ⟨line, mem_filter.mpr ⟨member, decide_eq_true fun none => ?_⟩, found⟩
      rw [none] at found
      exact absurd (infix_nil.mp found) nofun
  constructor
  · intro h
    obtain ⟨line, member, x, y, found, ret, parts⟩ := h
    exact ⟨x, y, (side ret parts).mp ⟨line, member, found⟩, ret, parts⟩
  · intro h
    obtain ⟨x, y, found, ret, parts⟩ := h
    obtain ⟨line, member, found⟩ := (side ret parts).mpr found
    exact ⟨line, member, x, y, found, ret, parts⟩

theorem marked_eq_append {a b : List Mark} (h : marked sep m s = a ++ b) :
    ∃ s₁ s₂, s = s₁ ++ s₂ ∧ a = marked sep m s₁ ∧ b = marked sep (ending sep m s₁) s₂ := by
  induction a generalizing m s with
  | nil => exact ⟨[], s, rfl, rfl, h.symm⟩
  | cons p a ih =>
    cases s with
    | nil => cases h
    | cons c s =>
      obtain ⟨rfl, rest⟩ := List.cons.inj h
      obtain ⟨s₁, s₂, rfl, rfl, rfl⟩ := ih rest
      exact ⟨c :: s₁, s₂, rfl, rfl, rfl⟩

/-- A return outside quotes with a separator behind it. -/
def ReturnCut (sep : Nat) (text : Bytes) : Prop :=
  ∃ pre c post, text = pre ++ ch '\r' :: c :: post ∧ c.toNat = sep ∧ ending sep .line pre ≠ .quoted

theorem returnCut_iff (text : Bytes) : ReturnCut sep text ↔ Stray sep (marked sep .line text) := by
  have behind : ∀ m : Mode, m.step sep (ch '\r') ≠ .quoted ↔ m ≠ .quoted := by
    intro m
    have other : ch '\r' ≠ ch '"' := by decide
    by_cases quoted : m = .quoted
    · subst quoted
      rw [Mode.step, if_neg other]
    · rw [step_outside quoted other]
      refine iff_of_true ?_ quoted
      unfold outside
      split
      · decide
      · split <;> decide
  constructor
  · intro h
    obtain ⟨pre, c, post, rfl, isSep, outer⟩ := h
    refine ⟨⟨ch '\r', ending sep .line pre⟩, ⟨c, (ending sep .line pre).step sep (ch '\r')⟩, ?_, rfl,
      decide_eq_true ⟨(behind _).mpr outer, isSep⟩⟩
    rw [marked_append, marked, marked]
    exact ⟨marked sep .line pre, marked sep _ post, by rw [append_assoc]; rfl⟩
  · intro h
    obtain ⟨x, y, ⟨a, b, cut⟩, ret, parts⟩ := h
    rw [append_assoc] at cut
    obtain ⟨pre, rest, rfl, -, same⟩ := marked_eq_append cut.symm
    obtain ⟨outer, isSep⟩ := of_decide_eq_true parts
    cases rest with
    | nil => cases same
    | cons c rest =>
      cases rest with
      | nil => cases same
      | cons d rest =>
        obtain ⟨rfl, tail⟩ := List.cons.inj same
        obtain ⟨rfl, -⟩ := List.cons.inj tail
        obtain rfl : c = ch '\r' := ret
        exact ⟨pre, d, rest, rfl, isSep, (behind _).mp outer⟩

/-- The scanner finds what the format says exactly where no return is cut off in front of a separator. -/
theorem scanned_eq_iff (hsep : Separates sep) (noReturn : sep ≠ (ch '\r').toNat) (text : Bytes) :
    scanned sep text = denoted sep text ↔ ¬ ReturnCut sep text := by
  unfold scanned denoted
  rw [map_inj_left, returnCut_iff, ← propext (stray_linesOf hsep noReturn _)]
  constructor
  · intro same stray
    obtain ⟨line, member, stray⟩ := stray
    obtain ⟨piece, hpiece, ret⟩ := (cut_iff_stray noReturn line).mpr stray
    exact (map_dropReturns _).mp (same line member) piece hpiece ret
  · intro clear line member
    refine (map_dropReturns _).mpr fun piece hpiece ret => clear ⟨line, member, ?_⟩
    exact (cut_iff_stray noReturn line).mp ⟨piece, hpiece, ret⟩

end

theorem comma_noReturn : comma ≠ (ch '\r').toNat := by decide

theorem decode_scanned {text : Bytes} {recs : List (List Bytes)} (h : decode text = .ok recs) :
    recs = scanned comma text := by
  obtain ⟨recs', e, decodes, same, stops⟩ := decodeWith_decodes comma_separates text
  unfold decode at h
  generalize decodeWith comma text = outcome at h same stops
  obtain ⟨found, stop⟩ := outcome
  cases stop with
  | some _ => cases h
  | none =>
    obtain rfl : found = recs := Except.ok.inj h
    obtain rfl : found = recs' := same
    refine decodes_scanned comma_separates comma_noReturn decodes ?_
    cases e with
    | done => rfl
    | unfinished => cases stops
    | fault =>
      obtain ⟨_, _, stops⟩ := stops
      cases stops

/-- What is decoded is what the format says, with every other byte in one field, unless a return outside
quotes stands in front of a separator. -/
theorem denotes_iff {text : Bytes} {recs : List (List Bytes)} (h : decode text = .ok recs) :
    (recs = denoted comma text ∧ recs.flatten.flatten = contents comma (marked comma .line text)) ↔
      ¬ ReturnCut comma text := by
  rw [decode_scanned h, ← scanned_eq_iff comma_separates comma_noReturn]
  refine ⟨fun both => both.1, fun same => ⟨same, ?_⟩⟩
  rw [same, denoted_contents]

/-- A quoted field with a doubled quote and a comma in it, a text behind it, an empty field and a return in
front of the feed. -/
theorem denotes_quoted :
    let text := ['"', 'a', '"', '"', ',', '"', 'b', ',', '\r', '\n'].map ch
    denoted comma text = [[['a', '"', ',', 'b'].map ch, []]] ∧
      contents comma (marked comma .line text) = ['a', '"', ',', 'b'].map ch := by
  have scan : decode (['"', 'a', '"', '"', ',', '"', 'b', ',', '\r', '\n'].map ch) =
      .ok [[['a', '"', ',', 'b'].map ch, []]] := by decide
  have clear : ¬ ReturnCut comma (['"', 'a', '"', '"', ',', '"', 'b', ',', '\r', '\n'].map ch) := by
    rw [returnCut_iff, ← propext (cut_iff_stray comma_noReturn _)]
    intro cut
    obtain ⟨piece, member, ret⟩ := cut
    revert piece
    decide
  obtain ⟨same, bytes⟩ := (denotes_iff scan).mpr clear
  exact ⟨same.symm, bytes.symm⟩

/-- A return in front of a comma is lost. -/
theorem returnCut_not_denoted :
    let text := ['a', '\r', ',', 'b'].map ch
    decode text = .ok [[[ch 'a'], [ch 'b']]] ∧ denoted comma text = [[[ch 'a', ch '\r'], [ch 'b']]] ∧
      [[[ch 'a'], [ch 'b']]] ≠ denoted comma text := by
  decide

end Voila.Csv
