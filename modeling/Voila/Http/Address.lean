import Voila.Http.ClientSound

/-!
# Voila.Http.Address

Addresses as texts: `net.parse_hostport`, and `URL.text` against `parse_url`.

Both parsers split an authority alike (`splitPort`), at the first `]` or the last `:`, and print a port that is no
number into the format of their errors.
-/

open List

namespace Voila.Http

open Voila.Rt (Bytes)
open Voila.Rt.Json (ch)

/-- `URL.text`. -/
def URL.text (u : URL) : Bytes := u.scheme ++ (lit "://" ++ (u.authority ++ u.target))

variable (past : Past)

/-- `net.parse_hostport`. -/
def parseHostport (addr : Bytes) : Except Fail (Bytes × Int) :=
  if addr = [] then errf (lit "empty address (want host:port)")
  else if addr.head? = some (ch '[') then
    match cutAt (ch ']') addr with
    | none => errf (lit "invalid address " ++ addr ++ lit ": unbalanced '['")
    | some (host, rest) =>
      match rest with
      | [] => errf (lit "invalid address " ++ addr ++ lit ": want [host]:port")
      | b :: txt =>
        if b ≠ ch ':' then errf (lit "invalid address " ++ addr ++ lit ": want [host]:port")
        else do
          let port ← parsePort past txt
          .ok (host.drop 1, port)
  else
    match cutLast (ch ':') addr with
    | none => errf (lit "invalid address " ++ addr ++ lit ": want host:port")
    | some (host, txt) => do
      let port ← parsePort past txt
      .ok (host, port)

/-! ### Ports -/

/-- A port number. -/
def IsPort (s : Bytes) : Prop := ∃ n : Nat, n ≤ 65535 ∧ ReadAs past decDigit 10 s n

/-- The text can be printed as a format, and what it gives again, `n` times in all. -/
def Prints : Nat → Bytes → Prop
  | 0, _ => True
  | n + 1, s => ∃ t, sprintf s = some t ∧ Prints n t

theorem prints_one {s : Bytes} : Prints 1 s ↔ Safe s :=
  (exists_congr fun _ => and_iff_left trivial).trans Option.isSome_iff_exists.symm

variable {past} {α : Type} {s raw scheme auth : Bytes}

/-- A number below the limit of a port does not leave the `int` range with one more digit. -/
theorem portLoop_ends (noDigit tooBig : Bytes) {v : Int} (hv : v ≤ 65535) (cs : List Nat) :
    (∃ n, numLoop decDigit 10 65535 noDigit tooBig v cs = .ok n) ∨
      ∃ fmt ∈ [noDigit, tooBig], numLoop decDigit 10 65535 noDigit tooBig v cs = errf fmt := by
  induction cs generalizing v with
  | nil => exact .inl ⟨v, rfl⟩
  | cons c cs ih =>
    cases hc : decDigit c with
    | none => exact .inr ⟨noDigit, by simp, by rw [numLoop, hc]⟩
    | some d =>
      have digit := decDigit_bounds c d hc
      rw [numLoop_cons hc digit.1, if_neg (by unfold maxInt; omega)]
      split_ifs with big
      · exact .inr ⟨tooBig, by simp, rfl⟩
      · exact ih (not_lt.mp big)

/-- An error whose message has the text between texts without a `%`. -/
def Quotes (s : Bytes) (x : Except Fail α) : Prop :=
  ∃ pre post, Plain pre ∧ Plain post ∧ post ≠ [] ∧ x = errf (pre ++ s ++ post)

theorem quotes_lit {pre post : String} (hpre : '%' ∉ pre.toList) (hpost : '%' ∉ post.toList) (some_ : lit post ≠ []) :
    Quotes s (errf (lit pre ++ s ++ lit post) : Except Fail α) :=
  ⟨_, _, lit_plain hpre, lit_plain hpost, some_, rfl⟩

theorem quotes_nil {post : String} (hpost : '%' ∉ post.toList) (some_ : lit post ≠ []) :
    Quotes [] (errf (lit post) : Except Fail α) :=
  ⟨[], _, nofun, lit_plain hpost, some_, rfl⟩

theorem Quotes.calm_iff {x : Except Fail α} (h : Quotes s x) : Calm x ↔ Safe s := by
  obtain ⟨pre, post, hpre, hpost, some_, rfl⟩ := h
  rw [errf_calm_iff, safe_between hpre hpost some_]

theorem Quotes.ne_ok {x : Except Fail α} (h : Quotes s x) (a : α) : x ≠ .ok a := by
  obtain ⟨pre, post, -, -, -, rfl⟩ := h
  exact errf_ne_ok _ a

/-- A port is read, or its text stands in the message. -/
theorem parsePort_cases (s : Bytes) :
    (∃ n : Nat, n ≤ 65535 ∧ ReadAs past decDigit 10 s n ∧ parsePort past s = .ok n) ∨
      ¬ IsPort past s ∧ Quotes s (parsePort past s) := by
  by_cases full : s = []
  · refine .inr ⟨fun ⟨_, _, h⟩ => h.1 full, ?_⟩
    rw [parsePort, if_pos full, full]
    exact quotes_nil (by simp) (by decide)
  rcases portLoop_ends (lit "invalid port " ++ s ++ lit ": not a number") (lit "port " ++ s ++ lit " out of range (0..65535)")
    (by decide : (0 : Int) ≤ 65535) (runes past s) with ⟨n, ok⟩ | ⟨fmt, member, bad⟩
  · obtain ⟨as, low, high⟩ := numLoop_readAs past (fun c d hc => (decDigit_bounds c d hc).1) (by decide) full ok
    refine .inl ⟨n.toNat, by omega, as, ?_⟩
    rw [parsePort, if_neg full, ok, Int.toNat_of_nonneg low]
  · refine .inr ⟨?_, ?_⟩
    · rintro ⟨n, fits, as⟩
      have within : (runes past s).foldl (fun v c => v * 10 + (decDigit c).getD 0) 0 ≤ 65535 := as.2.2 ▸ Int.ofNat_le.mpr fits
      exact errf_ne_ok _ _ (bad.symm.trans
        (numLoop_of (fun c d hc => (decDigit_bounds c d hc).1) (by decide) (by decide) as.2.1 le_rfl within).2)
    · rw [parsePort, if_neg full, bad]
      rcases mem_cons.mp member with rfl | member
      · exact quotes_lit (by simp) (by simp) (by decide)
      · obtain rfl := mem_singleton.mp member
        exact quotes_lit (by simp) (by simp) (by decide)

theorem map_eq_bind {β : Type} (x : Except Fail α) (f : α → β) : x.map f = (do let a ← x; .ok (f a)) := by cases x <;> rfl

theorem calm_map_iff {x : Except Fail α} {β : Type} (f : α → β) : Calm (x.map f) ↔ Calm x := by
  cases x with
  | ok a => exact iff_of_true (.ok _) (.ok _)
  | error e =>
    unfold Calm
    simp [Except.map]

theorem parsePort_calm_iff : Calm (parsePort past s) ↔ IsPort past s ∨ Prints 1 s := by
  rw [prints_one]
  rcases @parsePort_cases past s with ⟨n, fits, as, eq⟩ | ⟨no, quotes⟩
  · rw [eq]
    exact iff_of_true (.ok _) (.inl ⟨n, fits, as⟩)
  · rw [quotes.calm_iff]
    exact (or_iff_right no).symm

/-- A message of `parse_port` is printed once more. -/
theorem portOf_cases (s raw : Bytes) :
    (∃ n : Nat, n ≤ 65535 ∧ ReadAs past decDigit 10 s n ∧ portOf past s raw = .ok n) ∨
      ¬ IsPort past s ∧ (∀ n, portOf past s raw ≠ .ok n) ∧ (Calm (portOf past s raw) ↔ Prints 2 s) := by
  rcases @parsePort_cases past s with ⟨n, fits, as, eq⟩ | ⟨no, pre, post, hpre, hpost, some_, eq⟩
  · exact .inl ⟨n, fits, as, by rw [portOf, eq]⟩
  refine .inr ⟨no, ?_⟩
  unfold portOf
  rw [eq]
  cases printed : sprintf s with
  | none =>
    have thrown : (errf (pre ++ s ++ post) : Except Fail Int) = .error (.throws "FormatError") := by
      have none_ := (safe_between hpre hpost some_).not.mpr (by simp [Safe, printed] : ¬ Safe s)
      rw [errf, Option.not_isSome_iff_eq_none.mp none_]
    rw [thrown]
    refine ⟨(by simp), iff_of_false (fun h => h.2 _ rfl) ?_⟩
    rintro ⟨t, ht, -⟩
    rw [printed] at ht
    cases ht
  | some t =>
    have message : sprintf (pre ++ s ++ post) = some (pre ++ t ++ post) := by
      rw [append_assoc, sprintf_append hpre.sprintf, sprintf_append printed, hpost.sprintf]
      simp
    rw [errf, message]
    refine ⟨errf_ne_ok _, ?_⟩
    rw [errf_calm_iff, Safe.append_iff (((lit_safe (by simp)).append (brief_safe past raw)).append (lit_safe (by simp))),
      safe_between hpre hpost some_, ← prints_one]
    refine ⟨fun h => ⟨t, printed, h⟩, ?_⟩
    rintro ⟨t', ht, h⟩
    exact Option.some.inj (printed.symm.trans ht) ▸ h

/-! ### Hosts -/

/-- The host of an authority, and its port text if it has one; `none` where a bracket is not closed or no colon
follows it. -/
def splitPort (s : Bytes) : Option (Bytes × Option Bytes) :=
  if s.head? = some (ch '[') then
    match cutAt (ch ']') s with
    | none => none
    | some (host, []) => some (host.drop 1, none)
    | some (host, b :: txt) => if b = ch ':' then some (host.drop 1, some txt) else none
  else
    match cutLast (ch ':') s with
    | none => some (s, none)
    | some (host, txt) => some (host, some txt)

def portTail : Option Bytes → Bytes
  | none => []
  | some txt => ch ':' :: txt

/-- A host with a port text, as it is written. -/
def written (host : Bytes) (port : Option Bytes) : Bytes :=
  if ch ':' ∈ host then ch '[' :: host ++ ch ']' :: portTail port else host ++ portTail port

/-- A host that is read as it is written. -/
def Stable (host : Bytes) : Prop := if ch ':' ∈ host then ch ']' ∉ host else host.head? ≠ some (ch '[')

variable {host : Bytes} {port other : Option Bytes}

theorem cutLast_append {sep : UInt8} {b : Bytes} (hb : sep ∉ b) (a : Bytes) : cutLast sep (a ++ sep :: b) = some (a, b) := by
  have turned : (a ++ sep :: b).reverse = b.reverse ++ sep :: a.reverse := by simp
  rw [cutLast, turned, cutAt_append (mt mem_reverse.mp hb)]
  simp

theorem splitPort_opened (opened : s.head? = some (ch '[')) (h : splitPort s = some (host, port)) :
    ch ']' ∉ host ∧ s = ch '[' :: host ++ ch ']' :: portTail port := by
  rw [splitPort, if_pos opened] at h
  cases hc : cutAt (ch ']') s with
  | none =>
    rw [hc] at h
    cases h
  | some p =>
    obtain ⟨a, rest⟩ := p
    obtain ⟨rfl, closed⟩ := cutAt_some hc
    rw [hc] at h
    cases a with
    | nil => exact absurd (Option.some.inj opened) (by decide)
    | cons x a =>
      cases opened
      cases rest with
      | nil =>
        cases h
        exact ⟨fun member => closed (mem_cons_of_mem _ member), rfl⟩
      | cons b txt =>
        dsimp only at h
        split_ifs at h with colon
        cases h
        exact ⟨fun member => closed (mem_cons_of_mem _ member), by rw [colon]; rfl⟩

theorem splitPort_written (stable : Stable host) (plain : ∀ txt ∈ port, ch ':' ∉ txt) :
    splitPort (written host port) = some (host, port) := by
  unfold Stable at stable
  unfold written
  split_ifs at stable ⊢ with colon
  · have opened : (ch '[' :: host ++ ch ']' :: portTail port).head? = some (ch '[') := rfl
    rw [splitPort, if_pos opened, cutAt_append (fun member => stable ((mem_cons.mp member).resolve_left (by decide)))]
    cases port <;> rfl
  · have closed : (host ++ portTail port).head? ≠ some (ch '[') := by
      cases host with
      | nil =>
        cases port with
        | none => nofun
        | some txt => exact fun h => absurd (Option.some.inj h) (by decide)
      | cons x host => exact stable
    rw [splitPort, if_neg closed]
    cases port with
    | none => rw [portTail, append_nil, cutLast, cutAt_eq_none (mt mem_reverse.mp colon)]; rfl
    | some txt => rw [portTail, cutLast_append (plain txt rfl)]

theorem stable_of_split (h : splitPort (written host port) = some (host, other)) : Stable host := by
  unfold written at h
  unfold Stable
  split_ifs at h ⊢ with colon
  · exact (splitPort_opened rfl h).1
  · intro opened
    obtain ⟨x, rest, rfl⟩ := exists_cons_of_ne_nil (l := host) (by rintro rfl; cases opened)
    -- the host would be the text between its own bracket and a later one
    have opened' : (x :: rest ++ portTail port).head? = some (ch '[') := opened
    obtain ⟨-, eq⟩ := splitPort_opened opened' h
    cases port with
    | none =>
      have := congrArg length eq
      simp only [portTail, append_nil, length_append, length_cons] at this
      omega
    | some txt =>
      rcases append_eq_append_iff.mp eq with ⟨c, longer, after⟩ | ⟨c, shorter, -⟩
      · cases c with
        | nil => simpa using congrArg length longer
        | cons y c =>
          obtain ⟨rfl, -⟩ := cons.inj after
          have member : ch ':' ∈ ch '[' :: x :: rest := longer ▸ by simp
          exact colon ((mem_cons.mp member).resolve_left (by decide))
      · have := congrArg length shorter
        simp only [length_cons, length_append] at this
        omega

variable (past) in
/-- The port of a URL whose port text is `port`. -/
def portFor (raw scheme : Bytes) : Option Bytes → Except Fail Int
  | none => .ok (defaultPort scheme)
  | some txt => portOf past txt raw

theorem hostPort_cases (raw scheme auth : Bytes) :
    (splitPort auth = none ∧ ∃ fmt, Safe fmt ∧ hostPort past raw scheme auth = errf fmt) ∨
      ∃ host port, splitPort auth = some (host, port) ∧
        hostPort past raw scheme auth = (portFor past raw scheme port).map (host, ·) := by
  have front := (lit_safe (s := "http: URL ") (by simp)).append (brief_safe past raw)
  simp only [map_eq_bind]
  unfold splitPort hostPort
  split_ifs with opened
  · cases cutAt (ch ']') auth with
    | none => exact .inl ⟨rfl, _, front.append (lit_safe (by simp)), rfl⟩
    | some p =>
      obtain ⟨host, rest⟩ := p
      cases rest with
      | nil => exact .inr ⟨_, _, rfl, rfl⟩
      | cons b txt =>
        by_cases colon : b = ch ':'
        · exact .inr ⟨host.drop 1, some txt, if_pos colon, if_neg (not_not.mpr colon)⟩
        · exact .inl ⟨if_neg colon, _, front.append (lit_safe (by simp)), if_pos colon⟩
  · cases cutLast (ch ':') auth with
    | none => exact .inr ⟨_, _, rfl, rfl⟩
    | some p => exact .inr ⟨p.1, some p.2, rfl, rfl⟩

/-- An address without a port stands in the message. -/
theorem parseHostport_cases (addr : Bytes) :
    ((∀ host txt, splitPort addr ≠ some (host, some txt)) ∧ Quotes addr (parseHostport past addr)) ∨
      ∃ host txt, splitPort addr = some (host, some txt) ∧
        parseHostport past addr = (parsePort past txt).map (host, ·) := by
  by_cases empty : addr = []
  · rw [parseHostport, if_pos empty, empty]
    exact .inl ⟨fun _ _ h => (by cases h), quotes_nil (by simp) (by decide)⟩
  rw [parseHostport, if_neg empty]
  simp only [map_eq_bind]
  unfold splitPort
  split_ifs with opened
  · cases cutAt (ch ']') addr with
    | none => exact .inl ⟨(by simp), quotes_lit (by simp) (by simp) (by decide)⟩
    | some p =>
      obtain ⟨host, rest⟩ := p
      cases rest with
      | nil => exact .inl ⟨(by simp), quotes_lit (by simp) (by simp) (by decide)⟩
      | cons b txt =>
        by_cases colon : b = ch ':'
        · exact .inr ⟨host.drop 1, txt, if_pos colon, if_neg (not_not.mpr colon)⟩
        · dsimp only
          rw [if_neg colon, if_pos colon]
          exact .inl ⟨(by simp), quotes_lit (by simp) (by simp) (by decide)⟩
  · cases cutLast (ch ':') addr with
    | none => exact .inl ⟨(by simp), quotes_lit (by simp) (by simp) (by decide)⟩
    | some p => exact .inr ⟨p.1, p.2, rfl, rfl⟩

/-- A port number is read from what it is written as. -/
theorem readAs_intText {n : Nat} : ReadAs past decDigit 10 (intText n) n ∧ ch ':' ∉ intText n := by
  have number := printNat_number n
  rw [intText_nat]
  refine ⟨(readAs_ascii past (number.ascii decDigit_ascii) n).mpr number, fun member => ?_⟩
  exact absurd (number.2.1 _ member) (by decide)

theorem parsePort_intText {n : Nat} (fits : n ≤ 65535) : parsePort past (intText n) = .ok n := by
  have as := (@readAs_intText past n).1
  rcases @parsePort_cases past (intText n) with ⟨m, -, as', eq⟩ | ⟨no, -⟩
  · rw [eq, as.2.2, as'.2.2]
  · exact absurd ⟨n, fits, as⟩ no

theorem formatHostport_eq (host : Bytes) (n : Int) : formatHostport host n = written host (some (intText n)) := by
  have brackets : lit "]:" = [ch ']', ch ':'] := by decide
  unfold formatHostport written
  rw [brackets]
  split_ifs
  · simp [portTail]
  · rfl

/-! ### URLs -/

variable {lower : Bytes → Bytes} {tail : Bytes}

/-- A scheme, an authority and what follows it, as `parse_url` takes them. -/
structure Parts (scheme auth tail : Bytes) : Prop where
  known : scheme = lit "http" ∨ scheme = lit "https"
  full : auth ≠ []
  bytes : ∀ b ∈ auth, inAuthority b = true ∧ b ≠ ch '#' ∧ b ≠ ch '@'
  ends : ∀ b ∈ tail.head?, inAuthority b = false
  whole : ch '#' ∉ tail

theorem not_mem_withoutFragment (rest : Bytes) : ch '#' ∉ withoutFragment rest := by
  unfold withoutFragment
  cases hc : cutAt (ch '#') rest with
  | none => exact cutAt_none hc
  | some p => exact (cutAt_some (a := p.1) (b := p.2) hc).2

theorem authorityOf_some (h : authorityOf lower raw = some (scheme, auth, tail)) : Parts scheme auth tail := by
  unfold authorityOf at h
  split at h
  · cases h
  next before rest _ =>
    have whole := not_mem_withoutFragment rest
    dsimp only at h
    generalize withoutFragment rest = rest at h whole
    split_ifs at h with ok
    obtain ⟨rfl, rfl, rfl⟩ := h
    refine ⟨ok.2.1, ok.2.2.1, fun b member => ⟨mem_takeWhile_imp member, ?_, ?_⟩, fun b head => ?_, ?_⟩
    · rintro rfl
      exact whole ((takeWhile_sublist _).mem member)
    · rintro rfl
      exact ok.2.2.2 member
    · have stop := List.head?_dropWhile_not inAuthority rest
      rw [Option.mem_def.mp head] at stop
      exact stop
    · exact fun member => whole ((dropWhile_sublist _).mem member)

theorem authorityOf_of (http : lower (lit "http") = lit "http") (https : lower (lit "https") = lit "https")
    (parts : Parts scheme auth tail) :
    authorityOf lower (scheme ++ (lit "://" ++ (auth ++ tail))) = some (scheme, auth, tail) := by
  have inside : ∀ b ∈ auth, inAuthority b = true := fun b member => (parts.bytes b member).1
  have whole : withoutFragment (auth ++ tail) = auth ++ tail := by
    rw [withoutFragment, cutAt_eq_none]
    exact fun member => (mem_append.mp member).elim (fun h => (parts.bytes _ h).2.1 rfl) parts.whole
  have stops : tail.takeWhile inAuthority = [] ∧ tail.dropWhile inAuthority = tail := by
    cases tail with
    | nil => exact ⟨rfl, rfl⟩
    | cons b tail => simp [parts.ends b rfl]
  have cut : cutText (lit "://") (scheme ++ (lit "://" ++ (auth ++ tail))) = some (scheme, auth ++ tail) := by
    rcases parts.known with rfl | rfl <;> rfl
  have same : lower scheme = scheme ∧ scheme ≠ [] := by
    rcases parts.known with rfl | rfl
    · exact ⟨http, by decide⟩
    · exact ⟨https, by decide⟩
  rw [authorityOf, cut]
  dsimp only
  rw [whole, takeWhile_append_of_pos inside, dropWhile_append_of_pos inside, stops.1, stops.2, append_nil, same.1]
  exact if_pos ⟨same.2, parts.known, parts.full, fun member => (parts.bytes _ member).2.2 rfl⟩

/-- The path and the query of a URL are read from its target. -/
theorem pathQuery_target (ends : ∀ b ∈ tail.head?, inAuthority b = false) (whole : ch '#' ∉ tail) (u : URL)
    (hu : pathQuery tail = (u.path, u.query)) :
    pathQuery u.target = (u.path, u.query) ∧ u.target.head? = some (ch '/') ∧ ch '#' ∉ u.target := by
  have facts : u.path.head? = some (ch '/') ∧ ch '?' ∉ u.path ∧ ch '#' ∉ u.path ∧ ch '#' ∉ u.query := by
    have slash {a b : Bytes} (h : tail = a ++ b) (full : a ≠ []) (no : ch '?' ∉ a) : a.head? = some (ch '/') := by
      obtain ⟨x, a, rfl⟩ := exists_cons_of_ne_nil full
      have := ends x (by rw [h]; rfl)
      simp only [inAuthority, Bool.and_eq_false_iff, bne_eq_false_iff_eq] at this
      rcases this with rfl | rfl
      · rfl
      · exact absurd mem_cons_self no
    unfold pathQuery at hu
    split_ifs at hu with empty
    · obtain ⟨hp, hq⟩ := Prod.mk.inj hu
      rw [← hp, ← hq]
      decide
    · cases hc : cutAt (ch '?') tail with
      | none =>
        rw [hc] at hu
        obtain ⟨hp, hq⟩ := Prod.mk.inj hu
        rw [← hp, ← hq]
        exact ⟨slash (append_nil _).symm empty (cutAt_none hc), cutAt_none hc, whole, nofun⟩
      | some p =>
        obtain ⟨a, q⟩ := p
        obtain ⟨eq, no⟩ := cutAt_some hc
        rw [hc] at hu
        obtain ⟨hp, hq⟩ := Prod.mk.inj hu
        rw [eq, mem_append, mem_cons, not_or, not_or] at whole
        rw [← hp, ← hq]
        split_ifs with bare
        · exact ⟨rfl, by decide, by decide, whole.2.2⟩
        · exact ⟨slash eq bare no, no, whole.1, whole.2.2⟩
  obtain ⟨head, no, clean, clean'⟩ := facts
  have full : u.path ≠ [] := by
    intro h
    rw [h] at head
    cases head
  unfold URL.target
  split_ifs with bare
  · rw [pathQuery, if_neg full, cutAt_eq_none no, bare]
    exact ⟨rfl, head, clean⟩
  · refine ⟨?_, ?_, ?_⟩
    · rw [pathQuery, if_neg (by simp), cutAt_append no]
      dsimp only
      rw [if_neg full]
    · rw [head?_append_of_ne_nil _ full]
      exact head
    · simpa [clean, clean'] using (by decide : ch '#' ≠ ch '?')

/-- The port text that a URL is written with. -/
def URL.shown (u : URL) : Option Bytes := if u.port = defaultPort u.scheme then none else some (intText u.port)

theorem authority_eq (u : URL) : u.authority = written u.host u.shown := by
  unfold URL.authority URL.shown
  split_ifs with default colon
  · rw [written, if_pos colon]
    rfl
  · rw [written, if_neg colon, portTail, append_nil]
  · exact formatHostport_eq _ _

theorem splitPort_bytes (h : splitPort s = some (host, port)) : ∀ b ∈ host, b ∈ s := by
  intro b member
  by_cases opened : s.head? = some (ch '[')
  · rw [(splitPort_opened opened h).2]
    exact mem_append_left _ (mem_cons_of_mem _ member)
  · rw [splitPort, if_neg opened, cutLast] at h
    cases hc : cutAt (ch ':') s.reverse with
    | none =>
      rw [hc] at h
      obtain ⟨rfl, -⟩ := Prod.mk.inj (Option.some.inj h)
      exact member
    | some p =>
      rw [hc] at h
      obtain ⟨rfl, -⟩ := Prod.mk.inj (Option.some.inj h)
      have whole := (cutAt_some (a := p.1) (b := p.2) hc).1
      rw [← mem_reverse, whole]
      exact mem_append_right _ (mem_cons_of_mem _ (mem_reverse.mp member))

theorem portFor_cases (raw scheme : Bytes) (port : Option Bytes) :
    (∃ n : Nat, n ≤ 65535 ∧ portFor past raw scheme port = .ok n ∧ ∀ txt ∈ port, IsPort past txt) ∨
      ∃ txt, port = some txt ∧ ¬ IsPort past txt ∧ (∀ n, portFor past raw scheme port ≠ .ok n) ∧
        (Calm (portFor past raw scheme port) ↔ Prints 2 txt) := by
  cases port with
  | none =>
    refine .inl ⟨(defaultPort scheme).toNat, ?_, ?_, nofun⟩
    · unfold defaultPort
      split_ifs <;> decide
    · unfold portFor defaultPort
      split_ifs <;> rfl
  | some txt =>
    rcases @portOf_cases past txt raw with ⟨n, fits, as, eq⟩ | ⟨no, bad, calm⟩
    · exact .inl ⟨n, fits, eq, fun _ h => Option.some.inj h ▸ ⟨n, fits, as⟩⟩
    · exact .inr ⟨txt, rfl, no, bad, calm⟩

theorem portFor_shown {u : URL} {n : Nat} (fits : n ≤ 65535) (port : u.port = n) (raw : Bytes) :
    portFor past raw u.scheme u.shown = .ok u.port := by
  unfold URL.shown
  split_ifs with default
  · exact congrArg Except.ok default.symm
  · rw [portFor, portOf, port, parsePort_intText fits]

theorem plain_shown {u : URL} {n : Nat} (port : u.port = n) : ∀ txt ∈ u.shown, ch ':' ∉ txt := by
  unfold URL.shown
  split_ifs
  · exact nofun
  · intro txt member
    rw [← Option.some.inj member, port]
    exact (@readAs_intText (fun _ => []) _).2

/-- A URL is read from its text exactly if its host is. -/
theorem parseUrl_text_iff (http : lower (lit "http") = lit "http") (https : lower (lit "https") = lit "https")
    {u : URL} {n : Nat} (fits : n ≤ 65535) (port : u.port = n) (parts : Parts u.scheme u.authority u.target)
    (full : u.host ≠ []) (pathed : pathQuery u.target = (u.path, u.query)) :
    parseUrl past lower u.text = .ok u ↔ Stable u.host := by
  have found := authorityOf_of http https parts
  rcases parseUrl_cases past lower u.text with ⟨none_, -⟩ | ⟨scheme, auth, tail, some_, eq⟩
  · exact absurd (found.symm.trans none_) nofun
  obtain ⟨rfl, same⟩ := Prod.mk.inj (Option.some.inj (found.symm.trans some_))
  cases same
  rw [eq, pathed, authority_eq]
  rcases @hostPort_cases past u.text u.scheme (written u.host u.shown) with
    ⟨none_, fmt, -, bad⟩ | ⟨host, port', split, eq'⟩
  · rw [bad, errf_bind]
    refine iff_of_false (errf_ne_ok _ _) fun stable => ?_
    exact absurd (none_.symm.trans (splitPort_written stable (plain_shown port))) nofun
  rw [eq']
  constructor
  · intro h
    obtain ⟨⟨host', m⟩, read, rest⟩ := bind_eq_ok h
    obtain rfl : host = host' := by
      cases hr : portFor past u.text u.scheme port' with
      | error e =>
        rw [hr] at read
        cases read
      | ok m =>
        rw [hr] at read
        exact congrArg Prod.fst (Except.ok.inj read)
    dsimp only at rest
    split_ifs at rest with bare
    · exact absurd rest (errf_ne_ok _ _)
    · exact stable_of_split (split.trans (by rw [← congrArg URL.host (Except.ok.inj rest)]))
  · intro stable
    obtain ⟨rfl, rfl⟩ := Prod.mk.inj (Option.some.inj (split.symm.trans (splitPort_written stable (plain_shown port))))
    rw [portFor_shown fits port]
    exact if_neg full

variable (past) in
/-- `parse_url` ends without an exception, and reads back what it accepts. -/
def KeepsUrl (lower : Bytes → Bytes) (raw : Bytes) : Prop :=
  Calm (parseUrl past lower raw) ∧ ∀ u, parseUrl past lower raw = .ok u → parseUrl past lower u.text = .ok u

variable (past) in
/-- The port text is a port number, or can be printed and then printed again, and a host that is accepted is stable. -/
def SturdyUrl (lower : Bytes → Bytes) (raw : Bytes) : Prop :=
  match authorityOf lower raw with
  | none => True
  | some (_, auth, _) =>
    match splitPort auth with
    | none => True
    | some (host, port) => (∀ txt ∈ port, IsPort past txt ∨ Prints 2 txt) ∧
        (host ≠ [] → (∀ txt ∈ port, IsPort past txt) → Stable host)

variable (past) in
/-- `parse_hostport` ends without an exception, and reads back what it accepts. -/
def KeepsAddress (addr : Bytes) : Prop :=
  Calm (parseHostport past addr) ∧ ∀ host port, parseHostport past addr = .ok (host, port) →
    parseHostport past (formatHostport host port) = .ok (host, port)

variable (past) in
/-- The port text is a port number or can be printed, and its host is stable with a port number; an address without a
port text can be printed. -/
def SturdyAddress (addr : Bytes) : Prop :=
  match splitPort addr with
  | some (host, some txt) => (IsPort past txt ∨ Prints 1 txt) ∧ (IsPort past txt → Stable host)
  | _ => Prints 1 addr

theorem written_bytes {n : Nat} (hn : ∀ txt ∈ port, txt = intText n)
    (h : ∀ b ∈ host, inAuthority b = true ∧ b ≠ ch '#' ∧ b ≠ ch '@') :
    ∀ b ∈ written host port, inAuthority b = true ∧ b ≠ ch '#' ∧ b ≠ ch '@' := by
  have tail : ∀ b ∈ portTail port, inAuthority b = true ∧ b ≠ ch '#' ∧ b ≠ ch '@' := by
    cases port with
    | none => exact nofun
    | some txt =>
      intro b member
      rcases mem_cons.mp member with rfl | member
      · decide
      rw [hn txt rfl, intText_nat] at member
      have digit := (printNat_number n).2.1 b member
      refine ⟨?_, ?_, ?_⟩
      · rw [inAuthority, Bool.and_eq_true, bne_iff_ne, bne_iff_ne]
        constructor <;> rintro rfl <;> exact absurd digit (by decide)
      · rintro rfl
        exact absurd digit (by decide)
      · rintro rfl
        exact absurd digit (by decide)
  unfold written
  split_ifs
  · rw [cons_append]
    refine forall_mem_cons.mpr ⟨by decide, forall_mem_append.mpr ⟨h, forall_mem_cons.mpr ⟨by decide, tail⟩⟩⟩
  · exact forall_mem_append.mpr ⟨h, tail⟩

/-- What a URL is written with is taken apart as the URL was. -/
theorem Parts.again {u : URL} {n : Nat} (parts : Parts u.scheme auth tail) (split : splitPort auth = some (u.host, port))
    (full : u.host ≠ []) (number : u.port = n) (pathed : pathQuery tail = (u.path, u.query)) :
    Parts u.scheme u.authority u.target ∧ pathQuery u.target = (u.path, u.query) := by
  obtain ⟨again, head, whole⟩ := pathQuery_target parts.ends parts.whole u pathed
  rw [authority_eq]
  refine ⟨⟨parts.known, ?_, ?_, fun b h => ?_, whole⟩, again⟩
  · unfold written
    split_ifs
    · exact nofun
    · exact append_ne_nil_of_left_ne_nil full _
  · refine written_bytes (n := n) ?_ fun b member => parts.bytes b (splitPort_bytes split b member)
    unfold URL.shown
    split_ifs
    · exact nofun
    · exact fun txt member => by rw [← Option.some.inj member, number]
  · rw [head] at h
    rw [← Option.some.inj h]
    decide

/-- A refusal keeps what is asked of `parse_url`. -/
theorem keepsUrl_errf {fmt : Bytes} (safe : Safe fmt) (eq : parseUrl past lower raw = errf fmt) : KeepsUrl past lower raw :=
  ⟨eq ▸ safe.calm, fun _ h => absurd (eq.symm.trans h) (errf_ne_ok _ _)⟩

theorem keepsUrl_iff (http : lower (lit "http") = lit "http") (https : lower (lit "https") = lit "https")
    (raw : Bytes) : KeepsUrl past lower raw ↔ SturdyUrl past lower raw := by
  unfold SturdyUrl
  rcases parseUrl_cases past lower raw with ⟨none_, fmt, safe, eq⟩ | ⟨scheme, auth, tail, some_, eq⟩
  · rw [none_]
    exact iff_of_true (keepsUrl_errf safe eq) trivial
  have parts := authorityOf_some some_
  rw [some_]
  dsimp only
  rcases @hostPort_cases past raw scheme auth with ⟨none_, fmt, safe, eq'⟩ | ⟨host, port, split, eq'⟩
  · rw [none_]
    rw [eq', errf_bind] at eq
    exact iff_of_true (keepsUrl_errf safe eq) trivial
  rw [split]
  dsimp only
  rw [eq'] at eq
  rcases @portFor_cases past raw scheme port with ⟨n, fits, read, ports⟩ | ⟨txt, rfl, no, bad, calm⟩
  · rw [read] at eq
    have sound : ∀ txt ∈ port, IsPort past txt ∨ Prints 2 txt := fun txt h => .inl (ports txt h)
    by_cases bare : host = []
    · refine iff_of_true (keepsUrl_errf (((lit_safe (by simp)).append (brief_safe past raw)).append (lit_safe (by simp)))
        (eq.trans (if_pos bare))) ⟨sound, fun full => absurd bare full⟩
    have accepted : parseUrl past lower raw = .ok ⟨scheme, host, n, (pathQuery tail).1, (pathQuery tail).2⟩ :=
      eq.trans (if_neg bare)
    obtain ⟨parts', again⟩ := Parts.again (n := n) (u := ⟨scheme, host, n, (pathQuery tail).1, (pathQuery tail).2⟩) parts split
      bare rfl rfl
    have back := @parseUrl_text_iff past lower http https _ _ fits rfl parts' bare again
    constructor
    · rintro ⟨-, keeps⟩
      exact ⟨sound, fun _ _ => back.mp (keeps _ accepted)⟩
    · rintro ⟨-, stable⟩
      refine ⟨accepted ▸ .ok _, fun u h => ?_⟩
      obtain rfl := Except.ok.inj (accepted.symm.trans h)
      exact back.mpr (stable bare ports)
  · cases hr : portFor past raw scheme (some txt) with
    | ok n => exact absurd hr (bad n)
    | error e =>
      rw [hr] at eq calm
      have refused : parseUrl past lower raw = .error e := eq
      have ends : Calm (.error e : Except Fail URL) ↔ Prints 2 txt :=
        (calm_map_iff (URL.mk [] [] · [] []) (x := .error e)).trans calm
      rw [KeepsUrl, refused, ends]
      constructor
      · rintro ⟨prints, -⟩
        exact ⟨fun _ h => .inr (Option.some.inj h ▸ prints), fun _ ports => absurd (ports txt rfl) no⟩
      · rintro ⟨prints, -⟩
        exact ⟨(prints txt rfl).resolve_left no, nofun⟩

/-- A host and a port are read from what they are written as exactly if the host is. -/
theorem parseHostport_format_iff {n : Nat} (fits : n ≤ 65535) :
    parseHostport past (formatHostport host n) = .ok (host, n) ↔ Stable host := by
  have plain : ∀ txt ∈ some (intText n), ch ':' ∉ txt := fun txt member =>
    Option.some.inj member ▸ (@readAs_intText past _).2
  rw [formatHostport_eq]
  rcases @parseHostport_cases past (written host (some (intText n))) with ⟨none_, quotes⟩ | ⟨host', txt, split, eq⟩
  · exact iff_of_false (quotes.ne_ok _) fun stable => none_ _ _ (splitPort_written stable plain)
  rw [eq]
  constructor
  · intro h
    cases hr : parsePort past txt with
    | error e =>
      rw [hr] at h
      cases h
    | ok m =>
      rw [hr] at h
      obtain rfl := congrArg Prod.fst (Except.ok.inj h)
      exact stable_of_split split
  · intro stable
    obtain ⟨rfl, same⟩ := Prod.mk.inj (Option.some.inj (split.symm.trans (splitPort_written stable plain)))
    rw [Option.some.inj same, parsePort_intText fits]
    rfl

theorem keepsAddress_iff (addr : Bytes) : KeepsAddress past addr ↔ SturdyAddress past addr := by
  unfold SturdyAddress
  rcases @parseHostport_cases past addr with ⟨none_, quotes⟩ | ⟨host, txt, split, eq⟩
  · have safe : KeepsAddress past addr ↔ Prints 1 addr := by
      rw [prints_one, ← quotes.calm_iff]
      exact and_iff_left fun host port h => absurd h (quotes.ne_ok _)
    rw [safe]
    split
    next host txt split => exact absurd split (none_ host txt)
    next => rfl
  rw [split]
  unfold KeepsAddress
  rw [eq, calm_map_iff, parsePort_calm_iff]
  refine and_congr_right fun _ => ?_
  rcases @parsePort_cases past txt with ⟨n, fits, as, read⟩ | ⟨no, quotes⟩
  · rw [read]
    constructor
    · exact fun keeps _ => (parseHostport_format_iff fits).mp (keeps _ _ rfl)
    · rintro stable _ _ ⟨⟩
      exact (parseHostport_format_iff fits).mpr (stable ⟨n, fits, as⟩)
  · refine iff_of_true (fun host' port h => ?_) fun h => absurd h no
    cases hr : parsePort past txt with
    | error e =>
      rw [hr] at h
      cases h
    | ok m => exact absurd hr (quotes.ne_ok m)

/-- URLs and addresses are parsed without an exception and read back as they are written exactly if their port texts can
be printed and their hosts are stable. -/
theorem addresses_iff (http : lower (lit "http") = lit "http") (https : lower (lit "https") = lit "https") :
    ((∀ raw, KeepsUrl past lower raw ↔ SturdyUrl past lower raw) ∧
      ∀ addr, KeepsAddress past addr ↔ SturdyAddress past addr) :=
  ⟨keepsUrl_iff http https, keepsAddress_iff⟩

theorem addresses_lower :
    ((∀ raw, KeepsUrl (fun _ => []) (List.map toLower) raw ↔ SturdyUrl (fun _ => []) (List.map toLower) raw) ∧
      ∀ addr, KeepsAddress (fun _ => []) addr ↔ SturdyAddress (fun _ => []) addr) :=
  addresses_iff (by decide) (by decide)

/-- A host with a colon and a bracket behind it is read, and not from the text of its URL. -/
theorem bracket_cut : ¬ KeepsUrl (fun _ => []) (List.map toLower) (lit "http://a:b]:81") := fun keeps =>
  absurd (keeps.2 ⟨lit "http", lit "a:b]", 81, lit "/", []⟩ (by decide +kernel)) (by decide +kernel)

end Voila.Http
