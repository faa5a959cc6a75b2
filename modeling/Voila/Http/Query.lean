import Voila.Http.TextSound
import Voila.Str.Codec
import Voila.Str.SplitSound

/-!
# Voila.Http.Query

Percent-codes and query strings (`http.voi`): `url_encode`, `url_decode` and `parse_query`.

What `url_encode` writes has neither `&` nor `=` in it, and no `%` but one that two hex digits follow; so decoding
undoes it (`decodeLoop_urlEncode`), and the pairs of a query come apart where they were joined (`queryLoop_pairs`).
-/

open List

namespace Voila.Http

open Voila.Rt (Bytes)
open Voila.Rt.Json (ch)
open Voila.Str (isxdigit join)

variable (past : Past)

/-! ### Percent-codes -/

/-- `str.from_bytes`. -/
def fromBytes (out : List Int) : Except Fail Bytes :=
  match out.findIdx? fun v => v < 0 || 255 < v with
  | some i =>
    .error (.err (lit "from_bytes: element " ++ intText i ++ lit " is " ++ intText (out.getD i 0) ++
      lit ", not a byte"))
  | none => .ok (out.map fun v => UInt8.ofNat v.toNat)

/-- The loop of `url_decode` over what is left of `s`. -/
def decodeLoop (s : Bytes) : Bytes → Except Fail (List Int)
  | [] => .ok []
  | b :: bs =>
    if b = ch '+' then (decodeLoop s bs).map (32 :: ·)
    else if b = ch '%' then
      match bs with
      | x :: y :: bs =>
        match hexDigit x.toNat, hexDigit y.toNat with
        | some hi, some lo => (decodeLoop s bs).map ((hi * 16 + lo) :: ·)
        | _, _ => errf (lit "http: bad escape in " ++ brief past s)
      | _ => errf (lit "http: truncated escape in " ++ brief past s)
    else (decodeLoop s bs).map ((b.toNat : Int) :: ·)

/-- `url_decode`. -/
def urlDecode (s : Bytes) : Except Fail Bytes := decodeLoop past s s >>= fromBytes

/-- The digits of `url_encode`. -/
def upperHex : Bytes := lit "0123456789ABCDEF"

/-- A byte that `url_encode` keeps. -/
def plain (c : UInt8) : Bool :=
  (65 ≤ c && c ≤ 90) || (97 ≤ c && c ≤ 122) || (48 ≤ c && c ≤ 57) || c == 45 || c == 95 || c == 46 || c == 126

/-- What `url_encode` writes for a byte. -/
def encodeByte (c : UInt8) : Bytes :=
  if plain c then [c]
  else if c = 32 then [ch '+']
  else ch '%' :: ((upperHex.drop (c.toNat / 16)).take 1 ++ (upperHex.drop (c.toNat % 16)).take 1)

/-- `url_encode`. -/
def urlEncode (s : Bytes) : Bytes := s.flatMap encodeByte

/-! ### Queries -/

/-- A `map[str][]str`, in the order of its keys. -/
abbrev Values := List (Bytes × List Bytes)

/-- `out[k]`. -/
def Values.get (out : Values) (k : Bytes) : Option (List Bytes) := out.lookup k

/-- A value is added to those of a name, or to none. -/
def Values.add (out : Values) (k v : Bytes) : Values :=
  match out with
  | [] => [(k, [v])]
  | (k', vs) :: out => if k = k' then (k', vs ++ [v]) :: out else (k', vs) :: Values.add out k v

/-- The loop of `parse_query`. -/
def queryLoop (out : Values) : List Bytes → Except Fail Values
  | [] => .ok out
  | part :: parts =>
    if part = [] then queryLoop out parts
    else do
      -- `part.cut("=")`
      let (rawk, rawv, found) := match cutAt (ch '=') part with
        | some (before, after) => (before, after, true)
        | none => (part, [], false)
      let k ← urlDecode past rawk
      let v ← if found then urlDecode past rawv else .ok []
      queryLoop (out.add k v) parts

/-- `parse_query`. -/
def parseQuery (q : Bytes) : Except Fail Values :=
  if q = [] then .ok [] else queryLoop past [] (Str.split q [ch '&'])

variable {past}

/-! ### Decoding -/

theorem hexDigit_range {c : Nat} {d : Int} (h : hexDigit c = some d) : 0 ≤ d ∧ d ≤ 15 := by
  unfold hexDigit at h
  split_ifs at h <;> cases h <;> omega

theorem hexDigit_some_iff (b : UInt8) : (∃ d, hexDigit b.toNat = some d) ↔ isxdigit b = true := by
  have le (n : UInt8) : n ≤ b ↔ n.toNat ≤ b.toNat := UInt8.le_iff_toNat_le
  have ge (n : UInt8) : b ≤ n ↔ b.toNat ≤ n.toNat := UInt8.le_iff_toNat_le
  unfold hexDigit isxdigit Str.isdigit
  split_ifs <;> simp [le, ge] <;> omega

variable {out : List Int} {c : UInt8}

theorem fromBytes_ok (bytes : ∀ v ∈ out, 0 ≤ v ∧ v ≤ 255) :
    fromBytes out = .ok (out.map fun v => UInt8.ofNat v.toNat) := by
  have none_ : (out.findIdx? fun v => v < 0 || 255 < v) = none := by
    rw [List.findIdx?_eq_none_iff]
    intro v member
    have range := bytes v member
    simp
    omega
  rw [fromBytes, none_]

/-- What is decoded are bytes. -/
theorem decodeLoop_bytes {s bs : Bytes} (h : decodeLoop past s bs = .ok out) :
    ∀ v ∈ out, 0 ≤ v ∧ v ≤ 255 := by
  have more {bs : Bytes} {v : Int} {out : List Int} (range : 0 ≤ v ∧ v ≤ 255)
      (ih : ∀ {out}, decodeLoop past s bs = .ok out → ∀ v ∈ out, 0 ≤ v ∧ v ≤ 255)
      (h : (decodeLoop past s bs).map (v :: ·) = .ok out) : ∀ v ∈ out, 0 ≤ v ∧ v ≤ 255 := by
    cases rest : decodeLoop past s bs with
    | error e => rw [rest] at h; cases h
    | ok out' =>
      rw [rest] at h
      cases h
      exact forall_mem_cons.mpr ⟨range, ih rest⟩
  fun_induction decodeLoop past s bs generalizing out with
  | case1 => cases h; exact nofun
  | case2 bs ih => exact more (by omega) ih h
  | case3 x y bs hi lo hexLo hexHi _ ih =>
    have high := hexDigit_range hexHi
    have low := hexDigit_range hexLo
    exact more (by omega) ih h
  | case4 => exact absurd h (errf_ne_ok _ _)
  | case5 => exact absurd h (errf_ne_ok _ _)
  | case6 b bs _ _ ih =>
    have small := b.toNat_lt
    exact more (by omega) ih h

/-- Every `%` is followed by two hex digits. -/
def Escaped (s : Bytes) : Prop :=
  ∀ i, s[i]? = some (ch '%') → ∃ x y, s[i + 1]? = some x ∧ s[i + 2]? = some y ∧ isxdigit x = true ∧ isxdigit y = true

theorem escaped_cons {b : UInt8} (other : b ≠ ch '%') (s : Bytes) : Escaped (b :: s) ↔ Escaped s := by
  constructor
  · intro h i percent
    exact h (i + 1) percent
  · intro h i percent
    cases i with
    | zero => exact absurd (Option.some.inj percent) other
    | succ i => exact h i percent

theorem escaped_escape {x y : UInt8} (s : Bytes) :
    Escaped (ch '%' :: x :: y :: s) ↔ (isxdigit x = true ∧ isxdigit y = true) ∧ Escaped s := by
  have digit {b : UInt8} (hex : isxdigit b = true) : b ≠ ch '%' := by
    rintro rfl
    exact absurd hex (by decide)
  constructor
  · intro h
    obtain ⟨x', y', first, second, hex⟩ := h 0 rfl
    cases first
    cases second
    exact ⟨hex, fun i percent => h (i + 3) percent⟩
  · rintro ⟨⟨hexX, hexY⟩, h⟩ i percent
    match i with
    | 0 => exact ⟨x, y, rfl, rfl, hexX, hexY⟩
    | 1 => exact absurd (Option.some.inj percent) (digit hexX)
    | 2 => exact absurd (Option.some.inj percent) (digit hexY)
    | i + 3 => exact h i percent

theorem map_ok_iff {α β : Type} (f : α → β) (r : Except Fail α) : (∃ b, r.map f = .ok b) ↔ ∃ a, r = .ok a := by
  cases r with
  | error e => exact iff_of_false nofun nofun
  | ok a => exact iff_of_true ⟨f a, rfl⟩ ⟨a, rfl⟩

theorem decodeLoop_ok_iff (s bs : Bytes) : (∃ out, decodeLoop past s bs = .ok out) ↔ Escaped bs := by
  fun_induction decodeLoop past s bs with
  | case1 => exact iff_of_true ⟨[], rfl⟩ nofun
  | case2 bs ih => rw [map_ok_iff, ih, escaped_cons (by decide)]
  | case3 x y bs hi lo hexY hexX _ ih =>
    rw [map_ok_iff, ih, escaped_escape, and_iff_right]
    exact ⟨(hexDigit_some_iff x).mp ⟨hi, hexX⟩, (hexDigit_some_iff y).mp ⟨lo, hexY⟩⟩
  | case4 x y bs bad =>
    refine iff_of_false (fun ⟨out, h⟩ => errf_ne_ok _ _ h) fun h => ?_
    obtain ⟨⟨hexX, hexY⟩, -⟩ := (escaped_escape bs).mp h
    obtain ⟨hi, hexX⟩ := (hexDigit_some_iff x).mpr hexX
    obtain ⟨lo, hexY⟩ := (hexDigit_some_iff y).mpr hexY
    exact bad hi lo hexX hexY
  | case5 bs short =>
    refine iff_of_false (fun ⟨out, h⟩ => errf_ne_ok _ _ h) fun h => ?_
    obtain ⟨x, y, first, second, -⟩ := h 0 rfl
    match bs with
    | [] => cases first
    | [_] => cases second
    | x' :: y' :: bs => exact short x' y' bs rfl
  | case6 b bs _ percent ih => rw [map_ok_iff, ih, escaped_cons percent]

theorem urlDecode_of {s : Bytes} (h : decodeLoop past s s = .ok out) :
    urlDecode past s = .ok (out.map fun v => UInt8.ofNat v.toNat) := by
  rw [urlDecode, h]
  exact fromBytes_ok (decodeLoop_bytes h)

/-- `url_decode` accepts exactly what is escaped. -/
theorem urlDecode_ok_iff (s : Bytes) : (∃ t, urlDecode past s = .ok t) ↔ Escaped s := by
  rw [← @decodeLoop_ok_iff past s]
  constructor
  · rintro ⟨t, h⟩
    cases loop : decodeLoop past s s with
    | error e => rw [urlDecode, loop] at h; cases h
    | ok out => exact ⟨out, rfl⟩
  · rintro ⟨out, loop⟩
    exact ⟨_, urlDecode_of loop⟩

/-! ### Encoding -/

theorem upperHex_eq : upperHex = [48, 49, 50, 51, 52, 53, 54, 55, 56, 57, 65, 66, 67, 68, 69, 70] := rfl

/-- A digit that `url_encode` writes. -/
theorem upperHex_digit {d : Nat} (small : d < 16) : ∃ x, (upperHex.drop d).take 1 = [x] ∧
    hexDigit x.toNat = some (d : Int) ∧ x ≠ ch '&' ∧ x ≠ ch '=' := by
  have one : ∀ d < 16, (upperHex.drop d).take 1 = [upperHex.getD d 0] := by
    rw [upperHex_eq]
    decide
  have worth : ∀ d < 16, (hexDigit (upperHex.getD d 0).toNat == some (d : Int)) = true := by
    rw [upperHex_eq]
    decide
  have clean : ∀ d < 16, upperHex.getD d 0 ≠ ch '&' ∧ upperHex.getD d 0 ≠ ch '=' := by
    rw [upperHex_eq]
    decide
  exact ⟨_, one d small, beq_iff_eq.mp (worth d small), clean d small⟩

theorem plain_ne (h : plain c = true) : c ≠ ch '+' ∧ c ≠ ch '%' ∧ c ≠ ch '&' ∧ c ≠ ch '=' := by
  refine ⟨?_, ?_, ?_, ?_⟩
  all_goals
    intro same
    rw [same] at h
    exact absurd h (by decide)

theorem decodeLoop_encodeByte (s : Bytes) (c : UInt8) (rest : Bytes) :
    decodeLoop past s (encodeByte c ++ rest) = (decodeLoop past s rest).map ((c.toNat : Int) :: ·) := by
  unfold encodeByte
  rcases Bool.eq_false_or_eq_true (plain c) with kept | kept
  · obtain ⟨plus, percent, -⟩ := plain_ne kept
    rw [if_pos kept, singleton_append, decodeLoop.eq_def]
    dsimp only
    rw [if_neg plus, if_neg percent]
  rw [if_neg (Bool.eq_false_iff.mp kept)]
  rcases eq_or_ne c 32 with blank | blank
  · subst blank
    rw [if_pos rfl, singleton_append, decodeLoop.eq_def]
    dsimp only
    rw [if_pos rfl]
    rfl
  · have small := c.toNat_lt
    obtain ⟨x, first, hexX, -⟩ := upperHex_digit (d := c.toNat / 16) (by omega)
    obtain ⟨y, second, hexY, -⟩ := upperHex_digit (d := c.toNat % 16) (by omega)
    rw [if_neg blank, first, second]
    rw [decodeLoop.eq_def]
    dsimp only [cons_append, nil_append]
    rw [if_neg (by decide), if_pos rfl]
    simp only [hexX, hexY]
    have whole : ((c.toNat / 16 : Nat) : Int) * 16 + ((c.toNat % 16 : Nat) : Int) = c.toNat := by omega
    rw [whole]

theorem decodeLoop_urlEncode (s t : Bytes) :
    decodeLoop past s (urlEncode t) = .ok (t.map fun c => (c.toNat : Int)) := by
  induction t with
  | nil => rfl
  | cons c t ih =>
    rw [urlEncode, flatMap_cons, decodeLoop_encodeByte]
    rw [urlEncode] at ih
    rw [ih]
    rfl

theorem urlDecode_urlEncode (t : Bytes) : urlDecode past (urlEncode t) = .ok t := by
  rw [urlDecode_of (decodeLoop_urlEncode _ t), map_map]
  refine congrArg _ ((map_congr_left fun c _ => ?_).trans (map_id t))
  simp

/-- The separators of a query are not written. -/
theorem urlEncode_clean {t : Bytes} (h : c ∈ urlEncode t) : c ≠ ch '&' ∧ c ≠ ch '=' := by
  obtain ⟨b, -, h⟩ := mem_flatMap.mp h
  unfold encodeByte at h
  split_ifs at h with kept blank
  · rw [mem_singleton] at h
    subst h
    exact (plain_ne kept).2.2
  · rw [mem_singleton] at h
    subst h
    decide
  · have small := b.toNat_lt
    obtain ⟨x, first, -, cleanX⟩ := upperHex_digit (d := b.toNat / 16) (by omega)
    obtain ⟨y, second, -, cleanY⟩ := upperHex_digit (d := b.toNat % 16) (by omega)
    rw [first, second] at h
    simp only [cons_append, nil_append, mem_cons, not_mem_nil, or_false] at h
    rcases h with rfl | rfl | rfl
    · decide
    · exact cleanX
    · exact cleanY

/-! ### Queries -/

theorem Values.get_add (out : Values) (k v k' : Bytes) :
    (out.add k v).get k' = if k' = k then some ((out.get k).getD [] ++ [v]) else out.get k' := by
  induction out with
  | nil =>
    rw [Values.add, Values.get, lookup_cons]
    split_ifs with same
    · simp [same, Values.get]
    · rw [beq_eq_false_iff_ne.mpr same]
      rfl
  | cons e out ih =>
    obtain ⟨k₁, vs⟩ := e
    simp only [Values.get] at ih ⊢
    rw [Values.add]
    by_cases here : k = k₁
    · subst here
      rw [if_pos rfl]
      by_cases same : k' = k
      · rw [if_pos same, same]
        simp
      · rw [if_neg same, lookup_cons, lookup_cons, beq_eq_false_iff_ne.mpr same]
    · rw [if_neg here, lookup_cons, lookup_cons, lookup_cons, ih]
      by_cases other : k' = k₁
      · have differ : k' ≠ k := fun same => here (same.symm.trans other)
        simp only [if_neg differ, beq_iff_eq.mpr other]
      · simp only [beq_eq_false_iff_ne.mpr other, beq_eq_false_iff_ne.mpr here]

/-- A pair of a query. -/
def pairText (p : Bytes × Bytes) : Bytes := urlEncode p.1 ++ ch '=' :: urlEncode p.2

theorem queryLoop_pairs (pairs : List (Bytes × Bytes)) (out : Values) :
    ∃ out', queryLoop past out (pairs.map pairText) = .ok out' ∧ ∀ k, out'.get k =
      match (pairs.filter (·.1 = k)).map Prod.snd with
      | [] => out.get k
      | vs => some ((out.get k).getD [] ++ vs) := by
  induction pairs generalizing out with
  | nil => exact ⟨out, rfl, fun _ => rfl⟩
  | cons p pairs ih =>
    obtain ⟨out', rest, values⟩ := ih (out.add p.1 p.2)
    refine ⟨out', ?_, fun k => ?_⟩
    · have some_ : pairText p ≠ [] := by simp [pairText]
      have cut : cutAt (ch '=') (pairText p) = some (urlEncode p.1, urlEncode p.2) :=
        cutAt_append (fun h => (urlEncode_clean h).2 rfl) _
      rw [map_cons, queryLoop, if_neg some_, cut]
      simp only [urlDecode_urlEncode, if_true]
      exact rest
    · rw [values k, Values.get_add]
      by_cases same : k = p.1
      · rw [if_pos same, filter_cons_of_pos (by simp [same]), map_cons, ← same]
        cases (pairs.filter (·.1 = k)).map Prod.snd with
        | nil => rfl
        | cons v vs => simp
      · have other : ¬ p.1 = k := fun h => same h.symm
        rw [if_neg same, filter_cons_of_neg (by simp [other])]

/-- What is asked of the codes, for a string, a text to decode and the pairs of a query. -/
structure Coded (past : Past) (s t : Bytes) (pairs : List (Bytes × Bytes)) : Prop where
  decoded : urlDecode past (urlEncode s) = .ok s
  accepts : (∃ u, urlDecode past t = .ok u) ↔ Escaped t
  query : (∀ p ∈ pairs, urlEncode p.1 ≠ []) → ∃ out, parseQuery past (join [ch '&'] (pairs.map pairText)) = .ok out ∧
    ∀ k, out.get k =
      match (pairs.filter (·.1 = k)).map Prod.snd with
      | [] => none
      | vs => some vs

/-- `url_decode` undoes `url_encode` and accepts what is escaped, and `parse_query` gives the values of every name. -/
theorem codes_and_queries (past : Past) (s t : Bytes) (pairs : List (Bytes × Bytes)) : Coded past s t pairs := by
  refine ⟨urlDecode_urlEncode s, urlDecode_ok_iff t, fun _ => ?_⟩
  obtain ⟨out, loop, values⟩ := @queryLoop_pairs past pairs []
  refine ⟨out, ?_, fun k => ?_⟩
  · cases pairs with
    | nil => exact loop
    | cons p pairs =>
      have clean : ∀ w ∈ (p :: pairs).map pairText, ch '&' ∉ w := by
        intro w member
        obtain ⟨q, -, rfl⟩ := mem_map.mp member
        intro h
        rcases mem_append.mp h with h | h
        · exact (urlEncode_clean h).1 rfl
        · rcases mem_cons.mp h with h | h
          · exact absurd h (by decide)
          · exact (urlEncode_clean h).1 rfl
      have split := Str.splitLoop_lines clean (cons_ne_nil _ _) 0
      have some_ : join [ch '&'] ((p :: pairs).map pairText) ≠ [] := by
        intro empty
        rw [empty] at split
        have short := congrArg List.head? split
        exact absurd (Option.some.inj short) (by simp [pairText])
      rw [parseQuery, if_neg some_, Str.split, Str.splitStr, if_neg (by simp), split]
      exact loop
  · rw [values k]
    cases (pairs.filter (·.1 = k)).map Prod.snd <;> rfl

end Voila.Http
