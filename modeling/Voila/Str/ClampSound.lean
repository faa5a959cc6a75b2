import Voila.Str.Str

/-!
# Voila.Str.ClampSound

The parts of a string by offset, count and width: `substr`, `left`, `right`, `pad`, `pad_left`, `center`,
`insert`, `delstr`, `subword` and `delword`.

Each clamps some of its arguments. Where a sum behind a clamp wraps, or an argument is left as it is that has to
be at least 0, the call answers wrongly or copies what is not there; otherwise it is as if all offsets and
counts were clamped (`clamps_iff`).
-/

namespace Voila.Str

open Rt List

/-! ### Clamps -/

variable {n : Int} {s : Bytes} {p : Nat → Bool} {α : Type} {w k : Int64} {cnt : Option Int64}

theorem wrapped_of_fits (h : FitsInt64 n) : wrapped n = n := by
  unfold FitsInt64 at h
  exact Int.bmod_eq_of_le (by omega) (by omega)

theorem wrapped_of_over (low : 2 ^ 63 ≤ n) (high : n < 2 ^ 64) : wrapped n = n - 2 ^ 64 := by
  have mod : n % ((2 ^ 64 : Nat) : Int) = n := Int.emod_eq_of_lt (by omega) (by omega)
  unfold wrapped Int.bmod
  rw [mod]
  exact if_neg (by omega)

theorem clampAt_eq (s : Bytes) (a : Int64) : clampAt s a = ((min a.toInt.toNat s.length : Nat) : Int) := by
  unfold clampAt
  dsimp only
  split_ifs <;> omega

theorem strN_some (off len : Nat) (h : off + len ≤ s.length) :
    strN s off len = some ((s.drop off).take len) := by
  unfold strN
  rw [if_pos (by omega), Int.toNat_natCast, Int.toNat_natCast]

theorem strN_none {off len : Int} (h : off < 0 ∨ len < 0) : strN s off len = none :=
  if_neg (by omega)

theorem take_min (s : Bytes) (k : Nat) : s.take (min k s.length) = s.take k := by
  rcases Nat.le_total k s.length with h | h
  · rw [Nat.min_eq_left h]
  · rw [Nat.min_eq_right h, take_length, take_of_length_le h]

theorem drop_min (s : Bytes) (k : Nat) : s.drop (min k s.length) = s.drop k := by
  rcases Nat.le_total k s.length with h | h
  · rw [Nat.min_eq_left h]
  · rw [Nat.min_eq_right h, drop_length, drop_of_length_le h]

/-- The bytes up to a clamped offset. -/
theorem strN_front (s : Bytes) (a : Int64) : strN s 0 (clampAt s a) = some (s.take a.toInt.toNat) := by
  rw [clampAt_eq]
  have front := strN_some (s := s) 0 (min a.toInt.toNat s.length) (by omega)
  rw [drop_zero, take_min] at front
  exact front

/-- The bytes from a clamped offset on. -/
theorem strN_back (s : Bytes) (a : Int64) :
    strN s (clampAt s a) (s.length - clampAt s a) = some (s.drop a.toInt.toNat) := by
  rw [clampAt_eq]
  have here : min a.toInt.toNat s.length ≤ s.length := Nat.min_le_right ..
  rw [← Int.ofNat_sub here, strN_some _ _ (by omega), drop_min, take_of_length_le]
  rw [length_drop]
  omega

/-! ### Words by number -/

theorem filter_all {l : List α} {k : Nat}
    (h : ∀ i, k ≤ i → i < k + l.length → p i = true) : ((l.zipIdx k).filter (p ·.2)).map Prod.fst = l := by
  rw [filter_eq_self.mpr, zipIdx_map_fst]
  rintro ⟨x, i⟩ hx
  obtain ⟨low, high, -⟩ := mem_zipIdx hx
  exact h i low high

theorem filter_none {l : List α} {k : Nat}
    (h : ∀ i, k ≤ i → i < k + l.length → p i = false) : ((l.zipIdx k).filter (p ·.2)).map Prod.fst = [] := by
  rw [filter_eq_nil_iff.mpr, map_nil]
  rintro ⟨x, i⟩ hx
  obtain ⟨low, high, -⟩ := mem_zipIdx hx
  simp [h i low high]

/-- Before the window, the window, and what comes behind it. -/
theorem zipIdx_window (l : List α) (m c : Nat) (p : Nat → Bool) :
    ((l.zipIdx).filter (p ·.2)).map Prod.fst =
      (((l.take m).zipIdx).filter (p ·.2)).map Prod.fst ++
      ((((l.drop m).take c).zipIdx (l.take m).length).filter (p ·.2)).map Prod.fst ++
      (((l.drop (m + c)).zipIdx ((l.take m).length + ((l.drop m).take c).length)).filter (p ·.2)).map Prod.fst := by
  have parts : l = l.take m ++ ((l.drop m).take c ++ l.drop (m + c)) := by
    rw [← drop_drop, take_append_drop, take_append_drop]
  nth_rewrite 1 [parts]
  rw [zipIdx_append, zipIdx_append, Nat.zero_add, filter_append, filter_append,
    map_append, map_append, append_assoc]

theorem words_window (l : List α) {m c : Nat}
    (h : ∀ i, i < l.length → (p i = true ↔ m ≤ i ∧ i < m + c)) :
    ((l.zipIdx).filter (p ·.2)).map Prod.fst = (l.drop m).take c ∧
      ((l.zipIdx).filter (!p ·.2)).map Prod.fst = l.take m ++ l.drop (m + c) := by
  have lens : (l.take m).length = min m l.length ∧ ((l.drop m).take c).length = min c (l.length - m) ∧
      (l.drop (m + c)).length = l.length - (m + c) := by
    simp only [length_take, length_drop, and_self]
  have before : ∀ i, 0 ≤ i → i < 0 + (l.take m).length → p i = false := by
    intro i _ hi
    rw [← Bool.not_eq_true, h i (by omega)]
    omega
  have inside : ∀ i, (l.take m).length ≤ i → i < (l.take m).length + ((l.drop m).take c).length →
      p i = true := by
    intro i low high
    rw [h i (by omega)]
    omega
  have behind : ∀ i, (l.take m).length + ((l.drop m).take c).length ≤ i →
      i < (l.take m).length + ((l.drop m).take c).length + (l.drop (m + c)).length → p i = false := by
    intro i low high
    rw [← Bool.not_eq_true, h i (by omega)]
    omega
  constructor
  · rw [zipIdx_window l m c, filter_none before, filter_all inside, filter_none behind, nil_append,
      append_nil]
  · rw [zipIdx_window l m c (!p ·), filter_all (p := (!p ·)), filter_none (p := (!p ·)),
      filter_all (p := (!p ·)), append_nil]
    · intro i low high
      rw [behind i low high]
      rfl
    · intro i low high
      rw [inside i low high]
      rfl
    · intro i low high
      rw [before i low high]
      rfl

/-- What the words of a list take up, each with a space. -/
def room (ws : List Bytes) : Nat := (ws.map (·.length + 1)).sum

theorem room_append (ws vs : List Bytes) : room (ws ++ vs) = room ws + room vs := by
  simp [room]

theorem join_room (ws : List Bytes) : (join [32] ws).length = room ws - 1 := by
  induction ws with
  | nil => rfl
  | cons w ws ih =>
    cases ws with
    | nil => simp [join, room]
    | cons v ws =>
      simp only [join, room, length_append, map_cons, sum_cons, length_singleton] at ih ⊢
      omega

theorem fieldsOf_ne_nil {s w : Bytes} (h : w ∈ fieldsOf s) : w ≠ [] := by
  fun_induction fieldsOf s with
  | case1 => cases h
  | case2 s a t hd ih =>
    rcases mem_cons.mp h with rfl | h
    · have first := head_dropWhile_not isSpaceC (hd ▸ cons_ne_nil a t)
      rw [takeWhile_cons_of_pos (by simpa [hd] using first)]
      exact nofun
    · exact ih h

theorem fieldsOf_length (s : Bytes) : (fieldsOf s).length ≤ s.length := by
  fun_induction fieldsOf s with
  | case1 => exact Nat.zero_le _
  | case2 s a t hd ih =>
    have first := head_dropWhile_not isSpaceC (hd ▸ cons_ne_nil a t)
    have whole : (s.dropWhile isSpaceC).length ≤ s.length := length_dropWhile_le ..
    have rest : (t.dropWhile (!isSpaceC ·)).length ≤ t.length := length_dropWhile_le ..
    rw [dropWhile_cons_of_pos (by simpa [hd] using first)] at ih
    rw [hd, length_cons] at whole
    rw [dropWhile_cons_of_pos (by simpa [hd] using first), length_cons]
    omega

theorem room_pos {ws : List Bytes} (ne : ws ≠ []) (words : ∀ w ∈ ws, w ≠ []) : 2 ≤ room ws := by
  cases ws with
  | nil => exact absurd rfl ne
  | cons w ws =>
    have here := length_pos_of_ne_nil (words w mem_cons_self)
    simp only [room, map_cons, sum_cons]
    omega

/-! ### Calls -/

/-- A call, but for the string. -/
inductive Call
  | substr (start : Int64) (len : Option Int64)
  | left (k : Int64)
  | right (k : Int64)
  | padded (how : Pad) (w : Int64)
  | insert (new : Bytes) (at_ : Int64)
  | delstr (at_ k : Int64)
  | subword (keep : Bool) (k : Int64) (cnt : Option Int64)

def Call.run (s : Bytes) : Call → Option Bytes
  | .substr start len => Str.substr s start len
  | .left k => Str.left s k
  | .right k => Str.right s k
  | .padded how w => Str.padded how s w
  | .insert new at_ => Str.insert s new at_
  | .delstr at_ k => Str.delstr s at_ k
  | .subword keep k cnt => some (Str.subword keep s k cnt)

/-- What the call asks for, with every offset, count and width below 0 taken as 0 (`toNat`), and what lies
behind the end of the string left out. -/
def Call.Asks (s : Bytes) (out : Bytes) : Call → Prop
  | .substr start none => out = s.drop start.toInt.toNat
  | .substr start (some k) => out = (s.drop start.toInt.toNat).take k.toInt.toNat
  | .left k => out = s.take k.toInt.toNat
  | .right k => out = s.drop (s.length - k.toInt.toNat)
  | .padded _ w => out.length = w.toInt.toNat
  | .insert new at_ => out = s.take at_.toInt.toNat ++ new ++ s.drop at_.toInt.toNat
  | .delstr at_ k => out = s.take at_.toInt.toNat ++ s.drop (at_.toInt.toNat + k.toInt.toNat)
  | .subword keep k cnt =>
    let w := fieldsOf s
    let m := k.toInt.toNat - 1
    let c := (cnt.map (·.toInt.toNat)).getD w.length
    out = join [32] (if keep then (w.drop m).take c else w.take m ++ w.drop (m + c))

/-- The first word that `subword` asks for, and the one behind the last. -/
def wordFrom (k : Int64) : Int := max k.toInt 1

def wordTo (s : Bytes) (k : Int64) (cnt : Option Int64) : Int :=
  wordFrom k + (cnt.map Int64.toInt).getD (fieldsOf s).length

/-- The sums and differences that the call forms with an argument of any size. -/
def Call.sums (s : Bytes) : Call → List Int
  | .substr start (some k) => [clampAt s start + max k.toInt 0]
  | .padded _ w => if w.toInt ≤ s.length then [s.length - w.toInt] else [w.toInt - s.length]
  | .delstr at_ k => [clampAt s at_ + k.toInt]
  | .subword _ k cnt => if wordFrom k ≤ (fieldsOf s).length then [wordTo s k cnt] else []
  | _ => []

/-- What is asked of a call: it answers, rightly, and no sum wraps. -/
def Clamps (s : Bytes) (c : Call) : Prop :=
  (∃ out, c.run s = some out ∧ c.Asks s out) ∧ ∀ n ∈ c.sums s, FitsInt64 n

/-- The arguments behind a clamp are small enough, and those without one are not below 0. -/
def Call.Tame (s : Bytes) : Call → Prop
  | .substr start (some k) => min (max start.toInt 0) s.length + max k.toInt 0 < 2 ^ 63
  | .padded _ w => 0 ≤ w.toInt
  | .delstr at_ k => 0 ≤ k.toInt ∧ min (max at_.toInt 0) s.length + k.toInt < 2 ^ 63
  | .subword _ k cnt => wordFrom k ≤ (fieldsOf s).length → wordTo s k cnt < 2 ^ 63
  | _ => True

/-! ### What they answer -/

theorem substr_all (s : Bytes) (start : Int64) : substr s start none = some (s.drop start.toInt.toNat) :=
  strN_back s start

theorem substr_tame {start k : Int64}
    (h : min (max start.toInt 0) s.length + max k.toInt 0 < 2 ^ 63) :
    substr s start (some k) = some ((s.drop start.toInt.toNat).take k.toInt.toNat) := by
  have kept : (if k.toInt < 0 then 0 else k.toInt) = (k.toInt.toNat : Int) := by omega
  have sum : wrapped (clampAt s start + k.toInt.toNat) = clampAt s start + k.toInt.toNat := by
    rw [clampAt_eq]
    exact wrapped_of_fits ⟨by omega, by omega⟩
  unfold substr
  dsimp only
  rw [kept, sum, clampAt_eq]
  generalize hc : min start.toInt.toNat s.length = c
  have len : (if (c : Int) + k.toInt.toNat < s.length then (c : Int) + k.toInt.toNat else s.length) - c =
      ((min k.toInt.toNat (s.drop c).length : Nat) : Int) := by
    rw [length_drop]
    omega
  rw [len, strN_some _ _, take_min, ← hc, drop_min]
  rw [length_drop]
  omega

theorem substr_wild {start k : Int64}
    (h : 2 ^ 63 ≤ min (max start.toInt 0) s.length + max k.toInt 0) : substr s start (some k) = none := by
  have kept : (if k.toInt < 0 then 0 else k.toInt) = max k.toInt 0 := by omega
  have top := k.toInt_lt
  have first := start.toInt_lt
  have at_ : clampAt s start = min (max start.toInt 0) s.length := by
    rw [clampAt_eq]
    omega
  unfold substr
  dsimp only
  rw [kept, at_, wrapped_of_over h (by omega), if_pos (by omega)]
  exact strN_none (.inr (by omega))

theorem right_eq (s : Bytes) (k : Int64) : right s k = some (s.drop (s.length - k.toInt.toNat)) := by
  unfold right
  rw [clampAt_eq]
  generalize hc : min k.toInt.toNat s.length = c
  rw [← Int.ofNat_sub (by omega), strN_some _ _ (by omega)]
  have same : s.length - c = s.length - k.toInt.toNat := by omega
  rw [same, take_of_length_le]
  rw [length_drop]
  omega

theorem insert_eq (s new : Bytes) (at_ : Int64) :
    insert s new at_ = some (s.take at_.toInt.toNat ++ new ++ s.drop at_.toInt.toNat) := by
  unfold insert
  dsimp only
  rw [strN_front, strN_back]
  rfl

/-- A width of at least 0 is kept to. -/
theorem padded_tame (how : Pad) (len : s.length < 2 ^ 63) (h : 0 ≤ w.toInt) :
    ∃ out, padded how s w = some out ∧ out.length = w.toInt.toNat := by
  obtain ⟨n, hn⟩ := Int.eq_ofNat_of_zero_le h
  unfold padded
  dsimp only
  rw [hn, Int.toNat_natCast]
  split_ifs with fits
  · have diff : wrapped (s.length - (n : Int)) = ((s.length - n : Nat) : Int) := by
      rw [wrapped_of_fits ⟨by omega, by omega⟩]
      omega
    cases how with
    | padLeft =>
      refine ⟨(s.drop (s.length - n)).take n, ?_, ?_⟩
      · dsimp only
        rw [diff]
        exact strN_some _ _ (by omega)
      · rw [length_take, length_drop]
        omega
    | pad | center =>
      refine ⟨s.take n, ?_, ?_⟩
      · exact strN_some 0 _ (by omega)
      · rw [length_take]
        omega
  · cases how with
    | pad | padLeft =>
      refine ⟨_, rfl, ?_⟩
      simp only [spaces, length_append, length_replicate]
      omega
    | center =>
      refine ⟨_, rfl, ?_⟩
      simp only [spaces, length_append, length_replicate]
      omega

theorem padded_wild (how : Pad) (h : w.toInt < 0) : padded how s w = none := by
  unfold padded
  dsimp only
  rw [if_pos (by omega)]
  cases how <;> exact strN_none (.inr h)

theorem delstr_tame {at_ k : Int64} (low : 0 ≤ k.toInt)
    (h : min (max at_.toInt 0) s.length + k.toInt < 2 ^ 63) :
    delstr s at_ k = some (s.take at_.toInt.toNat ++ s.drop (at_.toInt.toNat + k.toInt.toNat)) := by
  have sum : wrapped (clampAt s at_ + k.toInt) = clampAt s at_ + k.toInt := by
    rw [clampAt_eq]
    exact wrapped_of_fits ⟨by omega, by omega⟩
  have stop : (if clampAt s at_ + k.toInt > s.length then (s.length : Int) else clampAt s at_ + k.toInt) =
      ((min (at_.toInt.toNat + k.toInt.toNat) s.length : Nat) : Int) := by
    rw [clampAt_eq]
    omega
  have after := strN_some (s := s) (min (at_.toInt.toNat + k.toInt.toNat) s.length)
    (s.length - min (at_.toInt.toNat + k.toInt.toNat) s.length) (by omega)
  rw [Int.ofNat_sub (Nat.min_le_right ..), drop_min, take_of_length_le (by rw [length_drop]; omega)]
    at after
  unfold delstr
  dsimp only
  rw [sum, stop, strN_front, after, Option.bind_eq_bind, Option.bind_some, Option.bind_some,
    if_pos (by rw [clampAt_eq]; omega)]
  rfl

/-- A count below 0 repeats bytes, or leaves the string. -/
theorem delstr_wild {at_ k : Int64} (len : s.length < 2 ^ 63)
    (h : k.toInt < 0 ∨ 2 ^ 63 ≤ min (max at_.toInt 0) s.length + k.toInt) :
    delstr s at_ k ≠ some (s.take at_.toInt.toNat ++ s.drop (at_.toInt.toNat + k.toInt.toNat)) := by
  have at_' : clampAt s at_ = min (max at_.toInt 0) s.length := by
    rw [clampAt_eq]
    omega
  have top := k.toInt_lt
  have bottom := k.le_toInt
  unfold delstr
  dsimp only
  rw [strN_front, at_', Option.bind_eq_bind, Option.bind_some]
  rcases h with low | high
  · rw [wrapped_of_fits ⟨by omega, by omega⟩, if_neg (by omega)]
    by_cases inside : 0 ≤ min (max at_.toInt 0) s.length + k.toInt
    · obtain ⟨e, he⟩ := Int.eq_ofNat_of_zero_le inside
      have after := strN_some (s := s) e (s.length - e) (by omega)
      rw [Int.ofNat_sub (by omega), take_of_length_le (by rw [length_drop])] at after
      rw [he, after, Option.bind_some]
      split_ifs
      · intro same
        have lens := congrArg List.length (Option.some.inj same)
        simp only [length_append, length_take, length_drop] at lens
        omega
      · exact nofun
    · rw [strN_none (.inl (by omega))]
      exact nofun
  · rw [wrapped_of_over high (by omega), if_neg (by omega), strN_none (.inl (by omega))]
    exact nofun

/-! ### Words -/

/-- `in_range` of `subword`. -/
def inRange (s : Bytes) (k : Int64) (cnt : Option Int64) (i : Nat) : Bool :=
  decide (i + 1 ≥ wordFrom k) && decide (i + 1 < wrapped (wordTo s k cnt))

theorem subword_eq (s : Bytes) (k : Int64) (cnt : Option Int64) :
    subword true s k cnt = join [32] ((((fieldsOf s).zipIdx).filter (inRange s k cnt ·.2)).map Prod.fst) ∧
    subword false s k cnt = join [32] ((((fieldsOf s).zipIdx).filter (!inRange s k cnt ·.2)).map Prod.fst) := by
  have first : (if k.toInt < 1 then 1 else k.toInt) = wordFrom k := by
    unfold wordFrom
    omega
  unfold subword inRange wordTo
  dsimp only
  rw [first]
  cases cnt with
  | none => simp only [beq_true, beq_false, Option.map_none, Option.getD_none, and_self]
  | some cnt => simp only [beq_true, beq_false, Option.map_some, Option.getD_some, and_self]

/-- The count, of which what is below 0 is taken as 0. -/
theorem count_toNat (s : Bytes) (cnt : Option Int64) : (cnt.map (·.toInt.toNat)).getD (fieldsOf s).length =
    ((cnt.map Int64.toInt).getD (fieldsOf s).length : Int).toNat := by
  cases cnt <;> rfl

theorem count_low (s : Bytes) (cnt : Option Int64) :
    -2 ^ 63 ≤ ((cnt.map Int64.toInt).getD (fieldsOf s).length : Int) := by
  cases cnt with
  | none =>
    show -2 ^ 63 ≤ ((fieldsOf s).length : Int)
    omega
  | some cnt => exact cnt.le_toInt

/-- Where the sum behind `in_range` does not wrap, or is not formed, the words are told apart. -/
theorem subword_tame (keep : Bool)
    (h : wordFrom k ≤ (fieldsOf s).length → wordTo s k cnt < 2 ^ 63) :
    (Call.subword keep k cnt).Asks s (subword keep s k cnt) := by
  have window : ∀ i, i < (fieldsOf s).length → (inRange s k cnt i = true ↔
      k.toInt.toNat - 1 ≤ i ∧
        i < k.toInt.toNat - 1 + (cnt.map (·.toInt.toNat)).getD (fieldsOf s).length) := by
    intro i hi
    have low := count_low s cnt
    rw [count_toNat]
    unfold inRange
    rw [Bool.and_eq_true, decide_eq_true_iff, decide_eq_true_iff]
    by_cases from_ : (i : Int) + 1 ≥ wordFrom k
    · have high := h (by omega)
      unfold wordTo wordFrom at *
      rw [wrapped_of_fits ⟨by omega, high⟩]
      omega
    · unfold wordFrom at *
      omega
  obtain ⟨inside, outside⟩ := words_window (fieldsOf s) window
  cases keep with
  | true => exact (subword_eq s k cnt).1.trans (congrArg (join [32]) inside)
  | false => exact (subword_eq s k cnt).2.trans (congrArg (join [32]) outside)

/-- Where it wraps, no word is in range. -/
theorem subword_wild (keep : Bool) (len : s.length < 2 ^ 63)
    (some : wordFrom k ≤ (fieldsOf s).length) (h : 2 ^ 63 ≤ wordTo s k cnt) :
    ¬ (Call.subword keep k cnt).Asks s (subword keep s k cnt) := by
  have few := fieldsOf_length s
  have high : wordTo s k cnt < 2 ^ 64 ∧
      0 < (cnt.map (·.toInt.toNat)).getD (fieldsOf s).length := by
    unfold wordTo wordFrom at *
    cases cnt with
    | none =>
      simp only [Option.map_none, Option.getD_none] at h ⊢
      omega
    | some cnt =>
      have top := cnt.toInt_lt
      simp only [Option.map_some, Option.getD_some] at h ⊢
      omega
  have nothing : ∀ i, 0 ≤ i → i < 0 + (fieldsOf s).length → inRange s k cnt i = false := by
    intro i _ _
    unfold inRange
    rw [wrapped_of_over h high.1, Bool.and_eq_false_iff, decide_eq_false_iff_not, decide_eq_false_iff_not]
    omega
  have everything : ∀ i, 0 ≤ i → i < 0 + (fieldsOf s).length → (!inRange s k cnt i) = true := by
    intro i low up
    rw [nothing i low up]
    rfl
  -- the words asked for take up room, and so they are missing here, or still there
  have missing : 2 ≤ room (((fieldsOf s).drop (k.toInt.toNat - 1)).take
      ((cnt.map (·.toInt.toNat)).getD (fieldsOf s).length)) := by
    refine room_pos ?_ fun w hw => fieldsOf_ne_nil (mem_of_mem_drop (mem_of_mem_take hw))
    intro none
    have lens := congrArg List.length none
    unfold wordFrom at some
    rw [length_take, length_drop, length_nil] at lens
    omega
  cases keep with
  | true =>
    show subword true s k cnt ≠ join [32] _
    rw [(subword_eq s k cnt).1, filter_none nothing]
    intro same
    have lens := congrArg List.length same
    rw [join_room, join_room, if_pos rfl] at lens
    have empty : room [] = 0 := rfl
    omega
  | false =>
    show subword false s k cnt ≠ join [32] _
    rw [(subword_eq s k cnt).2, filter_all everything]
    intro same
    have lens := congrArg List.length same
    have parts := congrArg room (take_append_drop (k.toInt.toNat - 1) (fieldsOf s))
    have parts' := congrArg room (take_append_drop ((cnt.map (·.toInt.toNat)).getD (fieldsOf s).length)
      ((fieldsOf s).drop (k.toInt.toNat - 1)))
    rw [drop_drop] at parts'
    rw [room_append] at parts parts'
    rw [join_room, join_room, if_neg nofun, room_append] at lens
    omega

/-! ### The promise -/

theorem answers_iff (len : s.length < 2 ^ 63) (c : Call) :
    (∃ out, c.run s = some out ∧ c.Asks s out) ↔ c.Tame s := by
  cases c with
  | substr start k =>
    cases k with
    | none => exact iff_of_true ⟨_, substr_all s start, rfl⟩ trivial
    | some k =>
      constructor
      · rintro ⟨out, run, -⟩
        by_contra wild
        rw [Call.run, substr_wild (Int.not_lt.mp wild)] at run
        cases run
      · intro tame
        exact ⟨_, substr_tame tame, rfl⟩
  | left k => exact iff_of_true ⟨_, strN_front s k, rfl⟩ trivial
  | right k => exact iff_of_true ⟨_, right_eq s k, rfl⟩ trivial
  | padded how w =>
    constructor
    · rintro ⟨out, run, -⟩
      by_contra wild
      rw [Call.run, padded_wild how (Int.not_le.mp wild)] at run
      cases run
    · exact padded_tame how len
  | insert new at_ => exact iff_of_true ⟨_, insert_eq s new at_, rfl⟩ trivial
  | delstr at_ k =>
    constructor
    · rintro ⟨out, run, rfl⟩
      by_contra wild
      refine delstr_wild len ?_ run
      unfold Call.Tame at wild
      omega
    · rintro ⟨low, high⟩
      exact ⟨_, delstr_tame low high, rfl⟩
  | subword keep k cnt =>
    constructor
    · rintro ⟨out, run, asks⟩ some
      by_contra wild
      cases run
      exact subword_wild keep len some (Int.not_lt.mp wild) asks
    · intro tame
      exact ⟨_, rfl, subword_tame keep tame⟩

theorem sums_tame (len : s.length < 2 ^ 63) {c : Call} (tame : c.Tame s) :
    ∀ n ∈ c.sums s, FitsInt64 n := by
  have clamped : ∀ a : Int64, clampAt s a = min (max a.toInt 0) s.length := by
    intro a
    rw [clampAt_eq]
    omega
  cases c with
  | substr start k =>
    cases k with
    | none => exact nofun
    | some k =>
      rw [Call.sums, forall_mem_singleton, clamped]
      unfold Call.Tame at tame
      exact ⟨by omega, tame⟩
  | left | right | insert => exact nofun
  | padded how w =>
    have top := w.toInt_lt
    unfold Call.Tame at tame
    rw [Call.sums]
    split_ifs
    · exact forall_mem_singleton.mpr ⟨by omega, by omega⟩
    · exact forall_mem_singleton.mpr ⟨by omega, by omega⟩
  | delstr at_ k =>
    rw [Call.sums, forall_mem_singleton, clamped]
    unfold Call.Tame at tame
    exact ⟨by omega, tame.2⟩
  | subword keep k cnt =>
    rw [Call.sums]
    split_ifs with some
    · rw [forall_mem_singleton]
      have low := count_low s cnt
      refine ⟨?_, tame some⟩
      unfold wordTo wordFrom
      omega
    · exact nofun

/-- A call on a string keeps the promise where its arguments are tame. -/
theorem clamps_iff {s : Bytes} (len : s.length < 2 ^ 63) (c : Call) : Clamps s c ↔ c.Tame s := by
  constructor
  · rintro ⟨answers, -⟩
    exact (answers_iff len c).mp answers
  · intro tame
    exact ⟨(answers_iff len c).mpr tame, sums_tame len tame⟩

theorem clamps_iff_tail : Clamps [0x61, 0x62] (.substr 1 (some 5)) :=
  (clamps_iff (by decide) _).mpr (by unfold Call.Tame; decide)

/-- A sum that wraps under an offset, a width below 0, a count below 0, and a sum that wraps under the words. -/
theorem clamps_fails :
    ¬ Clamps [0x61, 0x62] (.substr 1 (some Int64.maxValue)) ∧ ¬ Clamps [0x61] (.padded .pad (-1)) ∧
    ¬ Clamps [0x61, 0x62] (.delstr 1 (-1)) ∧ ¬ Clamps [0x61] (.subword true 1 (some Int64.maxValue)) := by
  refine ⟨?_, ?_, ?_, ?_⟩
  · rintro ⟨⟨out, run, -⟩, -⟩
    have outside : (Call.substr 1 (some Int64.maxValue)).run [0x61, 0x62] = none := by decide +kernel
    rw [outside] at run
    cases run
  · rintro ⟨⟨out, run, -⟩, -⟩
    have outside : (Call.padded .pad (-1)).run [0x61] = none := by decide +kernel
    rw [outside] at run
    cases run
  · rintro ⟨⟨out, run, asks⟩, -⟩
    have twice : (Call.delstr 1 (-1)).run [0x61, 0x62] = some [0x61, 0x61, 0x62] := by decide +kernel
    rw [twice] at run
    cases run
    cases asks
  · rintro ⟨⟨out, run, asks⟩, -⟩
    have words : fieldsOf [0x61] = [[0x61]] := by
      rw [fieldsOf]
      show _ :: fieldsOf [] = _
      rw [fieldsOf]
      rfl
    have nothing : subword true [0x61] 1 (some Int64.maxValue) = [] := by
      unfold subword
      rw [words]
      decide +kernel
    rw [Call.run, nothing] at run
    cases run
    unfold Call.Asks at asks
    rw [words] at asks
    exact absurd asks (by decide +kernel)

end Voila.Str
