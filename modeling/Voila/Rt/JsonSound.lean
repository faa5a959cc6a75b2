import Voila.Rt.JsonNum

/-!
# Voila.Rt.JsonSound

`vl_json_decode` without a type accepts the texts of RFC 8259, as far as its nesting limit and
decimals go, and gives their values with every string as `readChars` takes it (`decode_ok_iff`).
That is what the texts denote where every string is paired, and nowhere else unless an object repeats
a name (`decode_denotes`).

A value is read together with the blanks before it, and so the grammar is followed with the blanks
in front: one lemma for values, one for items and one for members, each way.
-/

open List

namespace Voila.Rt.Json

/-! ### Blanks -/

variable {w b : Bytes} {c : UInt8} {ms : List (List JChar × Doc)} {cs : List JChar}

theorem jskip_blank (hw : Blank w) (s : Bytes) : jskip (w ++ s) = jskip s :=
  dropWhile_append_of_pos hw

theorem jskip_cons (hc : isBlank c = false) (s : Bytes) : jskip (c :: s) = c :: s :=
  dropWhile_cons_of_neg (by simp [hc])

/-- The blanks in front of a text. -/
theorem jskip_split (s : Bytes) : ∃ w, Blank w ∧ s = w ++ jskip s :=
  ⟨s.takeWhile isBlank, fun _ hb => mem_takeWhile_imp hb, takeWhile_append_dropWhile.symm⟩

theorem jskip_head {s r : Bytes} (h : jskip s = c :: r) : isBlank c = false := by
  have head := List.head?_dropWhile_not isBlank s
  rw [jskip] at h
  simpa [h] using head

theorem jskip_jskip (s : Bytes) : jskip (jskip s) = jskip s := by
  cases h : jskip s with
  | nil => rfl
  | cons c r => exact jskip_cons (jskip_head h) r

theorem jvalue_skip (levels : Nat) (s : Bytes) : jvalue levels (jskip s) = jvalue levels s := by
  cases levels <;> rw [jvalue, jvalue, jskip_jskip]

/-- What can be behind a value. -/
def Follows (s : Bytes) : Prop :=
  ∀ c, s.head? = some c → isBlank c = true ∨ c = ch ',' ∨ c = ch ']' ∨ c = ch '}'

theorem Follows.blank {w s : Bytes} (hw : Blank w) (h : Follows s) : Follows (w ++ s) := by
  cases w with
  | nil => exact h
  | cons b w => exact fun c hc => .inl (Option.some.inj hc ▸ hw b (by simp))

theorem follows_cons {c : UInt8} (h : c = ch ',' ∨ c = ch ']' ∨ c = ch '}') (s : Bytes) :
    Follows (c :: s) := fun _ hb => .inr (Option.some.inj hb ▸ h)

theorem Follows.numEnds {s : Bytes} (h : Follows s) : NumEnds s := by
  cases s with
  | nil => exact ⟨rfl, by simp, by simp, by simp⟩
  | cons c s =>
    have blanks : isBlank c = true → c = ch ' ' ∨ c = ch '\n' ∨ c = ch '\t' ∨ c = ch '\r' := by
      simp [isBlank, or_assoc]
    have cases : c = ch ' ' ∨ c = ch '\n' ∨ c = ch '\t' ∨ c = ch '\r' ∨ c = ch ',' ∨ c = ch ']' ∨
        c = ch '}' := by
      have := h c rfl
      tauto
    unfold NumEnds
    simp only [digitNext_cons, List.head?_cons, ne_eq, Option.some.injEq]
    rcases cases with rfl | rfl | rfl | rfl | rfl | rfl | rfl <;> decide

/-! ### What texts begin with -/

/-- No value begins with such a character. -/
def Starts (s : Bytes) : Prop := ∃ c r, s = c :: r ∧ isBlank c = false ∧ c ≠ ch ']' ∧ c ≠ ch '}'

theorem digit_starts (x : Fin 10) (s : Bytes) : Starts (digitByte x :: s) := by
  have all : ∀ y : Fin 10, isBlank (digitByte y) = false ∧ digitByte y ≠ ch ']' ∧
      digitByte y ≠ ch '}' := by decide
  exact ⟨digitByte x, s, rfl, all x⟩

theorem JNum.starts (n : JNum) : Starts n.text := by
  obtain ⟨x, xs, hx⟩ := exists_cons_of_ne_nil n.whole_ne
  unfold JNum.text
  cases n.neg with
  | true => exact ⟨ch '-', _, rfl, by decide⟩
  | false =>
    rw [hx]
    exact digit_starts x _

theorem Derives.starts {t : Doc} (h : Derives t b) : Starts b := by
  cases h with
  | null => exact ⟨ch 'n', _, rfl, by decide⟩
  | true => exact ⟨ch 't', _, rfl, by decide⟩
  | false => exact ⟨ch 'f', _, rfl, by decide⟩
  | num n => exact n.starts
  | str cs => exact ⟨ch '"', _, rfl, by decide⟩
  | noItems hw => exact ⟨ch '[', _, rfl, by decide⟩
  | arr hs => exact ⟨ch '[', _, rfl, by decide⟩
  | noMembers hw => exact ⟨ch '{', _, rfl, by decide⟩
  | obj hs => exact ⟨ch '{', _, rfl, by decide⟩

theorem Starts.append {s : Bytes} (h : Starts s) (r : Bytes) : Starts (s ++ r) := by
  obtain ⟨c, s, rfl, hc⟩ := h
  exact ⟨c, s ++ r, rfl, hc⟩

theorem Starts.jskip {s : Bytes} (h : Starts s) : jskip s = s := by
  obtain ⟨c, s, rfl, hc, -⟩ := h
  exact jskip_cons hc s

theorem jskip_to (hw : Blank w) (hc : isBlank c = false) (s : Bytes) :
    jskip (w ++ c :: s) = c :: s := by
  rw [jskip_blank hw, jskip_cons hc]

/-! ### One value -/

/-- A value by its first character. -/
theorem jvalue_cons (levels : Nat) (hc : isBlank c = false) (r : Bytes) :
    jvalue (levels + 1) (c :: r) =
      if c = ch '{' then jobject (jvalue levels) r
      else if c = ch '[' then jarray (jvalue levels) r
      else if c = ch '"' then (jstring (c :: r)).map fun (k, s) => (.str k, s)
      else if c = ch 't' then jlit (c :: r) wordTrue (.bool true)
      else if c = ch 'f' then jlit (c :: r) wordFalse (.bool false)
      else if c = ch 'n' then jlit (c :: r) wordNull .nil
      else jnumber (c :: r) := by
  rw [jvalue, jskip_cons hc]

theorem jlit_word (word s : Bytes) (v : JVal) : jlit (word ++ s) word v = .ok (v, s) := by
  rw [jlit, take_left, if_pos rfl, drop_left]

theorem jlit_ok {word s rest : Bytes} {v v' : JVal} (h : jlit s word v = .ok (v', rest)) :
    s = word ++ rest := by
  unfold jlit at h
  split_ifs at h with hword
  obtain ⟨-, rfl⟩ := Prod.mk.inj (Except.ok.inj h)
  exact (hword ▸ take_append_drop word.length s).symm

theorem jvalue_string (levels : Nat) (cs : List JChar) (s : Bytes) :
    jvalue (levels + 1) (strText cs ++ s) = .ok (.str (readChars cs), s) := by
  have shape : strText cs ++ s = ch '"' :: (charsText cs ++ [ch '"'] ++ s) := rfl
  have read := jstring_text cs s
  rw [shape] at read ⊢
  rw [jvalue_cons levels (by decide), if_neg (by decide), if_neg (by decide), if_pos rfl, read]
  rfl

theorem jvalue_number (levels : Nat) (n : JNum) {s : Bytes} (hs : NumEnds s) (bound : n.InBound) :
    jvalue (levels + 1) (n.text ++ s) = .ok (n.denote, s) := by
  have first : ∃ c r, n.text = c :: r ∧ (c = ch '-' ∨ ∃ x, c = digitByte x) := by
    obtain ⟨x, xs, hx⟩ := exists_cons_of_ne_nil n.whole_ne
    unfold JNum.text
    cases n.neg with
    | true => exact ⟨ch '-', _, rfl, .inl rfl⟩
    | false =>
      rw [hx]
      exact ⟨digitByte x, _, rfl, .inr ⟨x, rfl⟩⟩
  have other : ∀ c, (c = ch '-' ∨ ∃ x, c = digitByte x) → isBlank c = false ∧ c ≠ ch '{' ∧
      c ≠ ch '[' ∧ c ≠ ch '"' ∧ c ≠ ch 't' ∧ c ≠ ch 'f' ∧ c ≠ ch 'n' := by
    intro c hc
    cases hc with
    | inl hc => rw [hc]; decide
    | inr hc =>
      obtain ⟨x, rfl⟩ := hc
      revert x
      decide
  obtain ⟨c, r, hcr, hc⟩ := first
  obtain ⟨blank, h1, h2, h3, h4, h5, h6⟩ := other c hc
  have read := jnumber_text n hs
  rw [hcr, cons_append] at read ⊢
  rw [jvalue_cons levels blank, if_neg h1, if_neg h2, if_neg h3, if_neg h4, if_neg h5, if_neg h6, read,
    if_pos bound]

/-! ### The loops -/

section

variable {value : Bytes → Except JErr (JVal × Bytes)} {n : Nat} {v : JVal} {s s₁ s₂ : Bytes}

variable {a : List JVal} {out : JVal} {rest : Bytes}

theorem jitems_comma (hv : value s = .ok (v, s₁)) (hs : jskip s₁ = ch ',' :: s₂) :
    jitems value (n + 1) a s = jitems value n (a ++ [v]) s₂ := by
  show (value s).bind _ = _
  rw [hv]
  dsimp only [Except.bind]
  rw [hs]
  exact if_pos rfl

theorem jitems_close {a : List JVal} (hv : value s = .ok (v, s₁)) (hs : jskip s₁ = ch ']' :: s₂) :
    jitems value (n + 1) a s = .ok (.slice (a ++ [v]), s₂) := by
  show (value s).bind _ = _
  rw [hv]
  dsimp only [Except.bind]
  rw [hs]
  show (if ch ']' = ch ',' then _ else _) = _
  rw [if_neg (by decide)]
  exact if_pos rfl

/-- A turn of the loop over items that goes well. -/
theorem jitems_ok (h : jitems value (n + 1) a s = .ok (out, rest)) :
    ∃ v s₁ s₂, value s = .ok (v, s₁) ∧
      (jskip s₁ = ch ',' :: s₂ ∧ jitems value n (a ++ [v]) s₂ = .ok (out, rest) ∨
        jskip s₁ = ch ']' :: rest) := by
  obtain ⟨⟨v, s₁⟩, hv, h⟩ := bind_ok h
  dsimp only at h
  cases hs : jskip s₁ with
  | nil => simp [hs] at h
  | cons c s₂ =>
    rw [hs] at h
    dsimp only at h
    by_cases comma : c = ch ','
    · rw [if_pos comma] at h
      exact ⟨v, s₁, s₂, hv, .inl ⟨by rw [hs, comma], h⟩⟩
    · rw [if_neg comma] at h
      split_ifs at h with close
      obtain ⟨-, rfl⟩ := Prod.mk.inj (Except.ok.inj h)
      exact ⟨v, s₁, s₂, hv, .inr (by rw [hs, close])⟩

variable {k : Bytes} {t t₁ : Bytes} {m : Bytes → Option JVal}

theorem jmembers_comma (hk : jstring (jskip t) = .ok (k, t₁)) (hcolon : jskip t₁ = ch ':' :: s)
    (hv : value s = .ok (v, s₁)) (hs : jskip s₁ = ch ',' :: s₂) :
    jmembers value (n + 1) m t = jmembers value n (mapSet m k v) s₂ := by
  simp only [jmembers, bind, Except.bind, hk, hcolon, hv, hs, ne_eq, not_true_eq_false, if_false, if_true]

theorem jmembers_close (hk : jstring (jskip t) = .ok (k, t₁)) (hcolon : jskip t₁ = ch ':' :: s)
    (hv : value s = .ok (v, s₁)) (hs : jskip s₁ = ch '}' :: s₂) :
    jmembers value (n + 1) m t = .ok (.map (mapSet m k v), s₂) := by
  have comma : ch '}' ≠ ch ',' := by decide
  simp only [jmembers, bind, Except.bind, hk, hcolon, hv, hs, ne_eq, not_true_eq_false, if_false,
    comma, if_true]

/-- A turn of the loop over members that goes well. -/
theorem jmembers_ok (h : jmembers value (n + 1) m t = .ok (out, rest)) :
    ∃ k t₁ s v s₁ s₂, jstring (jskip t) = .ok (k, t₁) ∧ jskip t₁ = ch ':' :: s ∧
      value s = .ok (v, s₁) ∧
      (jskip s₁ = ch ',' :: s₂ ∧ jmembers value n (mapSet m k v) s₂ = .ok (out, rest) ∨
        jskip s₁ = ch '}' :: rest) := by
  obtain ⟨⟨k, t₁⟩, hk, h⟩ := bind_ok h
  dsimp only at h
  cases hcolon : jskip t₁ with
  | nil => simp [hcolon] at h
  | cons c s =>
    rw [hcolon] at h
    dsimp only at h
    split_ifs at h with colon
    obtain rfl : c = ch ':' := by simpa using colon
    obtain ⟨⟨v, s₁⟩, hv, h⟩ := bind_ok h
    dsimp only at h
    cases hs : jskip s₁ with
    | nil => simp [hs] at h
    | cons c s₂ =>
      rw [hs] at h
      dsimp only at h
      by_cases comma : c = ch ','
      · rw [if_pos comma] at h
        exact ⟨k, t₁, s, v, s₁, s₂, hk, hcolon, hv, .inl ⟨by rw [hs, comma], h⟩⟩
      · rw [if_neg comma] at h
        split_ifs at h with close
        obtain ⟨-, rfl⟩ := Prod.mk.inj (Except.ok.inj h)
        exact ⟨k, t₁, s, v, s₁, s₂, hk, hcolon, hv, .inr (by rw [hs, close])⟩

end

/-! ### Every text is read -/

/-- The members that are read are laid over those before them. -/
def overlay (m : Bytes → Option JVal) (ms : List (List JChar × Doc)) : Bytes → Option JVal := fun k =>
  match memberValues readChars ms k with
  | some v => some v
  | none => m k

theorem overlay_cons (m : Bytes → Option JVal) (k : List JChar) (t : Doc)
    (ms : List (List JChar × Doc)) :
    overlay m ((k, t) :: ms) = overlay (mapSet m (readChars k) (t.value readChars)) ms := by
  funext name
  simp only [overlay, memberValues, mapSet]
  cases memberValues readChars ms name with
  | some v => rfl
  | none =>
    by_cases h : name = readChars k
    · rw [if_pos h, if_pos h]
    · rw [if_neg h, if_neg h]

theorem overlay_nil (m : Bytes → Option JVal) : overlay m [] = m := rfl

theorem overlay_none (ms : List (List JChar × Doc)) :
    overlay (fun _ => none) ms = memberValues readChars ms := by
  funext name
  simp only [overlay]
  cases memberValues readChars ms name <;> rfl

theorem Items.length_le : ∀ {ts : List Doc} {b : Bytes}, Items ts b → ts.length ≤ b.length
  | _, _, .one _ hd _ => by
    obtain ⟨c, r, rfl, -⟩ := hd.starts
    simp only [length_append, length_cons, length_nil]
    omega
  | _, _, .more _ hd _ hts => by
    obtain ⟨c, r, rfl, -⟩ := hd.starts
    have rest := hts.length_le
    simp only [length_append, length_cons]
    omega

theorem Members.length_le : ∀ {ms : List (List JChar × Doc)} {b : Bytes}, Members ms b →
    ms.length ≤ b.length
  | _, _, .one .. => by
    simp only [length_append, length_cons, length_nil]
    omega
  | _, _, .more _ _ _ _ _ hms => by
    have rest := hms.length_le
    simp only [length_append, length_cons]
    omega

theorem Items.head {ts : List Doc} (h : Items ts b) (s : Bytes) :
    ∃ c r, jskip (b ++ s) = c :: r ∧ c ≠ ch ']' := by
  cases h with
  | @one t w b w' hw hd hw' =>
    obtain ⟨c, r, rfl, hc, hne, -⟩ := hd.starts
    refine ⟨c, r ++ w' ++ s, ?_, hne⟩
    rw [append_assoc, append_assoc, jskip_blank hw, cons_append, jskip_cons hc,
      append_assoc]
  | @more t ts w b w' ss hw hd hw' hts =>
    obtain ⟨c, r, rfl, hc, hne, -⟩ := hd.starts
    refine ⟨c, r ++ (w' ++ ch ',' :: ss) ++ s, ?_, hne⟩
    simp only [append_assoc]
    rw [jskip_blank hw, cons_append, jskip_cons hc]

theorem Members.head (h : Members ms b) (s : Bytes) : ∃ r, jskip (b ++ s) = ch '"' :: r := by
  cases h with
  | one hw₁ | more hw₁ =>
    simp only [append_assoc, strText, cons_append]
    rw [jskip_to hw₁ (by decide)]
    exact ⟨_, rfl⟩

theorem jskip_string (hw : Blank w) (cs : List JChar) (s : Bytes) :
    jskip (w ++ (strText cs ++ s)) = strText cs ++ s := by
  rw [jskip_blank hw]
  exact jskip_cons (by decide) _

/-! #### After the bracket and the brace -/

theorem jarray_empty {value : Bytes → Except JErr (JVal × Bytes)} (hw : Blank w)
    (s : Bytes) : jarray value (w ++ ch ']' :: s) = .ok (.slice [], s) := by
  unfold jarray
  rw [jskip_to hw (by decide)]
  exact if_pos rfl

theorem jarray_items {levels : Nat} {s r : Bytes} {c : UInt8} (hs : jskip s = c :: r)
    (hc : c ≠ ch ']') :
    jarray (jvalue levels) s = jitems (jvalue levels) (s.length + 1) [] s := by
  have first : jitems (jvalue levels) (s.length + 1) [] (c :: r) =
      jitems (jvalue levels) (s.length + 1) [] s := by
    show (jvalue levels (c :: r)).bind _ = (jvalue levels s).bind _
    rw [← hs, jvalue_skip]
  unfold jarray
  rw [hs, ← first]
  exact if_neg hc

theorem jobject_empty {value : Bytes → Except JErr (JVal × Bytes)} (hw : Blank w)
    (s : Bytes) : jobject value (w ++ ch '}' :: s) = .ok (.map fun _ => none, s) := by
  unfold jobject
  rw [jskip_to hw (by decide)]
  exact if_pos rfl

theorem jobject_members {levels : Nat} {s r : Bytes} {c : UInt8} (hs : jskip s = c :: r)
    (hc : c ≠ ch '}') :
    jobject (jvalue levels) s = jmembers (jvalue levels) (s.length + 1) (fun _ => none) s := by
  have first : jmembers (jvalue levels) (s.length + 1) (fun _ => none) (c :: r) =
      jmembers (jvalue levels) (s.length + 1) (fun _ => none) s := by
    show (jstring (jskip (c :: r))).bind _ = (jstring (jskip s)).bind _
    rw [← hs, jskip_jskip]
  unfold jobject
  rw [hs, ← first]
  exact if_neg hc

theorem jvalue_bracket (levels : Nat) (b s : Bytes) :
    jvalue (levels + 1) ((ch '[' :: b ++ [ch ']']) ++ s) =
      jarray (jvalue levels) (b ++ ch ']' :: s) := by
  have shape : (ch '[' :: b ++ [ch ']']) ++ s = ch '[' :: (b ++ ch ']' :: s) := by simp
  rw [shape, jvalue_cons levels (by decide), if_neg (by decide), if_pos rfl]

theorem jvalue_brace (levels : Nat) (b s : Bytes) :
    jvalue (levels + 1) ((ch '{' :: b ++ [ch '}']) ++ s) =
      jobject (jvalue levels) (b ++ ch '}' :: s) := by
  have shape : (ch '{' :: b ++ [ch '}']) ++ s = ch '{' :: (b ++ ch '}' :: s) := by simp
  rw [shape, jvalue_cons levels (by decide), if_pos rfl]

variable {levels : Nat} {out : JVal}

theorem jvalue_starts (hw : Blank w) (hb : Starts b) (s : Bytes) :
    jvalue levels (w ++ (b ++ s)) = jvalue levels (b ++ s) := by
  rw [← jvalue_skip, jskip_blank hw, (hb.append s).jskip]

/-- The name of a member is read, and the colon behind it. -/
theorem name_read {w₁ w₂ : Bytes} (hw₁ : Blank w₁) (hw₂ : Blank w₂) (k : List JChar) (s : Bytes) :
    jstring (jskip (w₁ ++ (strText k ++ (w₂ ++ ch ':' :: s)))) = .ok (readChars k, w₂ ++ ch ':' :: s) ∧
      jskip (w₂ ++ ch ':' :: s) = ch ':' :: s := by
  rw [jskip_string hw₁, jstring_text]
  exact ⟨rfl, jskip_to hw₂ (by decide) s⟩

mutual

/-- A value is read, with the blanks before it. -/
theorem jvalue_text : ∀ {t : Doc} {b : Bytes}, Derives t b → ∀ {levels : Nat} {w s : Bytes},
    t.depth ≤ levels → t.InBound → Blank w → Follows s →
      jvalue levels (w ++ (b ++ s)) = .ok (t.value readChars, s)
  | t, b, h, 0, w, s, hd, _, _, _ => by
    cases h <;> exact absurd hd (by simp [Doc.depth])
  | _, _, .null, levels + 1, w, s, _, _, hw, _ => by
    rw [jvalue_starts hw Derives.null.starts]
    exact (jvalue_cons levels (by decide) _).trans (jlit_word wordNull s .nil)
  | _, _, .true, levels + 1, w, s, _, _, hw, _ => by
    rw [jvalue_starts hw Derives.true.starts]
    exact (jvalue_cons levels (by decide) _).trans (jlit_word wordTrue s (.bool Bool.true))
  | _, _, .false, levels + 1, w, s, _, _, hw, _ => by
    rw [jvalue_starts hw Derives.false.starts]
    exact (jvalue_cons levels (by decide) _).trans (jlit_word wordFalse s (.bool Bool.false))
  | _, _, .num n, levels + 1, w, s, _, hb, hw, hs => by
    rw [jvalue_starts hw n.starts]
    exact jvalue_number levels n hs.numEnds hb
  | _, _, .str cs, levels + 1, w, s, _, _, hw, _ => by
    rw [jvalue_starts hw (Derives.str cs).starts]
    exact jvalue_string levels cs s
  | _, _, .noItems hv, levels + 1, w, s, _, _, hw, _ => by
    rw [jvalue_starts hw (Derives.noItems hv).starts, jvalue_bracket, jarray_empty hv]
    rfl
  | _, _, @Derives.arr ts b hts, levels + 1, w, s, hd, hb, hw, _ => by
    obtain ⟨c, r, hs, hc⟩ := hts.head (ch ']' :: s)
    have fuel : ts.length ≤ (b ++ ch ']' :: s).length + 1 := by
      have len := hts.length_le
      rw [length_append]
      omega
    have depth : depths ts ≤ levels := by
      rw [Doc.depth] at hd
      omega
    rw [Doc.InBound] at hb
    rw [jvalue_starts hw (Derives.arr hts).starts, jvalue_bracket, jarray_items hs hc, jitems_text hts depth hb fuel]
    rfl
  | _, _, .noMembers hv, levels + 1, w, s, _, _, hw, _ => by
    rw [jvalue_starts hw (Derives.noMembers hv).starts, jvalue_brace, jobject_empty hv]
    rfl
  | _, _, @Derives.obj ms b hms, levels + 1, w, s, hd, hb, hw, _ => by
    obtain ⟨r, hs⟩ := hms.head (ch '}' :: s)
    have fuel : ms.length ≤ (b ++ ch '}' :: s).length + 1 := by
      have len := hms.length_le
      rw [length_append]
      omega
    have depth : memberDepths ms ≤ levels := by
      rw [Doc.depth] at hd
      omega
    rw [Doc.InBound] at hb
    rw [jvalue_starts hw (Derives.obj hms).starts, jvalue_brace, jobject_members hs (by decide),
      jmembers_text hms depth hb fuel, overlay_none]
    rfl

/-- The items of an array are read up to the bracket. -/
theorem jitems_text : ∀ {ts : List Doc} {b : Bytes}, Items ts b → ∀ {levels n : Nat} {a : List JVal}
    {s : Bytes}, depths ts ≤ levels → itemsInBound ts → ts.length ≤ n →
      jitems (jvalue levels) n a (b ++ ch ']' :: s) = .ok (.slice (a ++ itemValues readChars ts), s)
  | _, _, .one .., _, 0, _, _, _, _, hn => absurd hn (by simp)
  | _, _, .more .., _, 0, _, _, _, _, hn => absurd hn (by simp)
  | _, _, @Items.one t w b w' hw hd hw', levels, n + 1, a, s, hdepth, hb, _ => by
    have depth : t.depth ≤ levels := by simpa [depths] using hdepth
    have follows : Follows (w' ++ ch ']' :: s) := (follows_cons (by simp) s).blank hw'
    have read := jvalue_text hd depth hb.1 hw follows
    have shape : w ++ b ++ w' ++ ch ']' :: s = w ++ (b ++ (w' ++ ch ']' :: s)) := by simp
    rw [shape, jitems_close read (jskip_to hw' (by decide) s)]
    rfl
  | _, _, @Items.more t ts w b w' ss hw hd hw' hts, levels, n + 1, a, s, hdepth, hb, hn => by
    have depth : t.depth ≤ levels ∧ depths ts ≤ levels := by simpa [depths] using hdepth
    have follows : Follows (w' ++ ch ',' :: (ss ++ ch ']' :: s)) :=
      (follows_cons (by simp) _).blank hw'
    have read := jvalue_text hd depth.1 hb.1 hw follows
    have shape : w ++ b ++ w' ++ ch ',' :: ss ++ ch ']' :: s =
        w ++ (b ++ (w' ++ ch ',' :: (ss ++ ch ']' :: s))) := by simp
    rw [shape, jitems_comma read (jskip_to hw' (by decide) _), jitems_text hts depth.2 hb.2 (by simpa using hn), itemValues]
    simp

/-- The members of an object are read up to the brace. -/
theorem jmembers_text : ∀ {ms : List (List JChar × Doc)} {b : Bytes}, Members ms b →
    ∀ {levels n : Nat} {m : Bytes → Option JVal} {s : Bytes}, memberDepths ms ≤ levels →
      membersInBound ms → ms.length ≤ n →
        jmembers (jvalue levels) n m (b ++ ch '}' :: s) = .ok (.map (overlay m ms), s)
  | _, _, .one .., _, 0, _, _, _, _, hn => absurd hn (by simp)
  | _, _, .more .., _, 0, _, _, _, _, hn => absurd hn (by simp)
  | _, _, @Members.one k t w₁ w₂ w b w' hw₁ hw₂ hw hd hw', levels, n + 1, m, s, hdepth, hb, _ => by
    have depth : t.depth ≤ levels := by simpa [memberDepths] using hdepth
    have follows : Follows (w' ++ ch '}' :: s) := (follows_cons (by simp) s).blank hw'
    have read := jvalue_text hd depth hb.1 hw follows
    obtain ⟨name, colon⟩ := name_read hw₁ hw₂ k (w ++ (b ++ (w' ++ ch '}' :: s)))
    have shape : w₁ ++ strText k ++ w₂ ++ ch ':' :: (w ++ b ++ w') ++ ch '}' :: s =
        w₁ ++ (strText k ++ (w₂ ++ ch ':' :: (w ++ (b ++ (w' ++ ch '}' :: s))))) := by simp
    rw [shape, jmembers_close name colon read (jskip_to hw' (by decide) s), overlay_cons, overlay_nil]
  | _, _, @Members.more k t ms w₁ w₂ w b w' ss hw₁ hw₂ hw hd hw' hms, levels, n + 1, m, s, hdepth, hb,
      hn => by
    have depth : t.depth ≤ levels ∧ memberDepths ms ≤ levels := by
      simpa [memberDepths] using hdepth
    have follows : Follows (w' ++ ch ',' :: (ss ++ ch '}' :: s)) :=
      (follows_cons (by simp) _).blank hw'
    have read := jvalue_text hd depth.1 hb.1 hw follows
    obtain ⟨name, colon⟩ := name_read hw₁ hw₂ k (w ++ (b ++ (w' ++ ch ',' :: (ss ++ ch '}' :: s))))
    have shape : w₁ ++ strText k ++ w₂ ++ ch ':' :: (w ++ b ++ w' ++ ch ',' :: ss) ++ ch '}' :: s =
        w₁ ++ (strText k ++ (w₂ ++ ch ':' ::
          (w ++ (b ++ (w' ++ ch ',' :: (ss ++ ch '}' :: s)))))) := by simp
    rw [shape, jmembers_comma name colon read (jskip_to hw' (by decide) _),
      jmembers_text hms depth.2 hb.2 (by simpa using hn), overlay_cons]

end

/-! ### What is read is a text -/

/-- What a reader of values with so many levels accepts. -/
def Sound (levels : Nat) : Prop :=
  ∀ {s rest : Bytes} {v : JVal}, jvalue levels s = .ok (v, rest) →
    ∃ w b t, s = w ++ (b ++ rest) ∧ Blank w ∧ Derives t b ∧ t.depth ≤ levels ∧ t.InBound

theorem jitems_sound (sound : Sound levels) {n : Nat} {a : List JVal} {s rest : Bytes}
    (h : jitems (jvalue levels) n a s = .ok (out, rest)) :
    ∃ ts b, Items ts b ∧ s = b ++ ch ']' :: rest ∧ depths ts ≤ levels ∧ itemsInBound ts := by
  induction n generalizing a s with
  | zero => cases h
  | succ n ih =>
    obtain ⟨v, s₁, s₂, hv, next⟩ := jitems_ok h
    obtain ⟨w, b, t, rfl, hw, hd, depth, bound⟩ := sound hv
    obtain ⟨w', hw', hs₁⟩ := jskip_split s₁
    cases next with
    | inl next =>
      obtain ⟨comma, more⟩ := next
      obtain ⟨ts, bs, hts, rfl, depths', bounds⟩ := ih more
      refine ⟨t :: ts, _, .more hw hd hw' hts, ?_, by simp [depths, depth, depths'],
        bound, bounds⟩
      rw [hs₁, comma]
      simp
    | inr close =>
      refine ⟨[t], _, .one hw hd hw', ?_, by simp [depths, depth], bound, trivial⟩
      rw [hs₁, close]
      simp

theorem jmembers_sound (sound : Sound levels) {n : Nat} {m : Bytes → Option JVal}
    {s rest : Bytes} (h : jmembers (jvalue levels) n m s = .ok (out, rest)) :
    ∃ ms b, Members ms b ∧ s = b ++ ch '}' :: rest ∧ memberDepths ms ≤ levels ∧ membersInBound ms := by
  induction n generalizing m s with
  | zero => cases h
  | succ n ih =>
    obtain ⟨k, t₁, s', v, s₁, s₂, hk, colon, hv, next⟩ := jmembers_ok h
    obtain ⟨w₁, hw₁, hs⟩ := jskip_split s
    obtain ⟨cs, hcs, -⟩ := jstring_ok hk
    obtain ⟨w₂, hw₂, ht₁⟩ := jskip_split t₁
    obtain ⟨w, b, t, rfl, hw, hd, depth, bound⟩ := sound hv
    obtain ⟨w', hw', hs₁⟩ := jskip_split s₁
    cases next with
    | inl next =>
      obtain ⟨comma, more⟩ := next
      obtain ⟨ms, bs, hms, rfl, depths', bounds⟩ := ih more
      refine ⟨(cs, t) :: ms, _, .more hw₁ hw₂ hw hd hw' hms, ?_,
        by simp [memberDepths, depth, depths'], bound, bounds⟩
      rw [hs, hcs, ht₁, colon, hs₁, comma]
      simp
    | inr close =>
      refine ⟨[(cs, t)], _, .one hw₁ hw₂ hw hd hw', ?_, by simp [memberDepths, depth], bound,
        trivial⟩
      rw [hs, hcs, ht₁, colon, hs₁, close]
      simp

theorem jarray_sound (sound : Sound levels) {s rest : Bytes} {v : JVal}
    (h : jarray (jvalue levels) s = .ok (v, rest)) :
    ∃ ts b, Derives (.arr ts) (ch '[' :: b ++ [ch ']']) ∧ s = b ++ ch ']' :: rest ∧
      depths ts ≤ levels ∧ itemsInBound ts := by
  obtain ⟨w, hw, hs⟩ := jskip_split s
  cases hskip : jskip s with
  | nil =>
    unfold jarray at h
    rw [hskip] at h
    obtain ⟨ts, b, -, hb, -⟩ := jitems_sound sound h
    simp at hb
  | cons c r =>
    by_cases close : c = ch ']'
    · unfold jarray at h
      rw [hskip] at h
      obtain ⟨-, rfl⟩ := Prod.mk.inj (Except.ok.inj ((if_pos close).symm.trans h))
      exact ⟨[], w, .noItems hw, by rw [hs, hskip, close], by simp [depths], trivial⟩
    · rw [jarray_items hskip close] at h
      obtain ⟨ts, b, hts, rfl, depth, bound⟩ := jitems_sound sound h
      exact ⟨ts, b, .arr hts, rfl, depth, bound⟩

theorem jobject_sound (sound : Sound levels) {s rest : Bytes} {v : JVal}
    (h : jobject (jvalue levels) s = .ok (v, rest)) :
    ∃ ms b, Derives (.obj ms) (ch '{' :: b ++ [ch '}']) ∧ s = b ++ ch '}' :: rest ∧
      memberDepths ms ≤ levels ∧ membersInBound ms := by
  obtain ⟨w, hw, hs⟩ := jskip_split s
  cases hskip : jskip s with
  | nil =>
    unfold jobject at h
    rw [hskip] at h
    obtain ⟨ms, b, -, hb, -⟩ := jmembers_sound sound h
    simp at hb
  | cons c r =>
    by_cases close : c = ch '}'
    · unfold jobject at h
      rw [hskip] at h
      obtain ⟨-, rfl⟩ := Prod.mk.inj (Except.ok.inj ((if_pos close).symm.trans h))
      exact ⟨[], w, .noMembers hw, by rw [hs, hskip, close], by simp [memberDepths], trivial⟩
    · rw [jobject_members hskip close] at h
      obtain ⟨ms, b, hms, rfl, depth, bound⟩ := jmembers_sound sound h
      exact ⟨ms, b, .obj hms, rfl, depth, bound⟩

/-- What `jvalue` accepts is a value with blanks before it. -/
theorem jvalue_sound (levels : Nat) : Sound levels := by
  induction levels with
  | zero =>
    intro s rest v h
    rw [jvalue] at h
    cases hskip : jskip s <;> simp [hskip] at h
  | succ levels ih =>
    intro s rest v h
    obtain ⟨w, hw, hs⟩ := jskip_split s
    rw [← jvalue_skip] at h
    cases hskip : jskip s with
    | nil =>
      rw [hskip] at h
      cases h
    | cons c r =>
      rw [hskip] at hs h
      rw [jvalue_cons levels (jskip_head hskip)] at h
      refine ⟨w, ?_⟩
      split_ifs at h with hbrace hbracket hquote ht hf hn
      · obtain ⟨ms, b, hms, rfl, depth, bound⟩ := jobject_sound ih h
        exact ⟨_, .obj ms, by rw [hs, hbrace]; simp, hw, hms, by simpa [Doc.depth] using depth, bound⟩
      · obtain ⟨ts, b, hts, rfl, depth, bound⟩ := jarray_sound ih h
        exact ⟨_, .arr ts, by rw [hs, hbracket]; simp, hw, hts, by simpa [Doc.depth] using depth,
          bound⟩
      · obtain ⟨⟨k, s'⟩, hk, out⟩ := map_ok h
        obtain ⟨-, rfl⟩ := Prod.mk.inj out
        obtain ⟨cs, hcs, -⟩ := jstring_ok hk
        exact ⟨_, .str cs, by rw [hs, hcs], hw, .str cs, by simp [Doc.depth], trivial⟩
      · exact ⟨_, .bool true, by rw [hs, jlit_ok h], hw, .true, by simp [Doc.depth], trivial⟩
      · exact ⟨_, .bool false, by rw [hs, jlit_ok h], hw, .false, by simp [Doc.depth], trivial⟩
      · exact ⟨_, .null, by rw [hs, jlit_ok h], hw, .null, by simp [Doc.depth], trivial⟩
      · obtain ⟨n, bound, hnum, -⟩ := jnumber_ok h
        exact ⟨_, .num n, by rw [hs, hnum], hw, .num n, by simp [Doc.depth], bound⟩

/-- A document that the decoder takes: not nested too deeply, and with numbers that decimals hold. -/
def Doc.Fits (t : Doc) : Prop := t.depth ≤ jdMaxDepth ∧ t.InBound

/-- A text is read, its strings as `readChars` takes them. -/
theorem decode_text {s : Bytes} {t : Doc} (h : Text s t) (fits : t.Fits) :
    vlJsonDecode s = .ok (t.value readChars) := by
  obtain ⟨w, b, w', hw, hd, hw', rfl⟩ := h
  have read := jvalue_text hd fits.1 fits.2 hw (Follows.blank hw' (s := []) fun c hc => by simp at hc)
  rw [List.append_nil, ← append_assoc] at read
  have stop : jskip w' = [] := dropWhile_eq_nil_iff.mpr hw'
  unfold vlJsonDecode
  rw [read]
  simp only [stop]

/-- The decoder accepts the texts of the grammar that fit, and no others. -/
theorem decode_ok_iff (s : Bytes) (v : JVal) :
    vlJsonDecode s = .ok v ↔ ∃ t, Text s t ∧ t.Fits ∧ v = t.value readChars := by
  constructor
  · intro h
    have accepted : ∃ t, Text s t ∧ t.Fits := by
      unfold vlJsonDecode at h
      cases hv : jvalue jdMaxDepth s with
      | error e => simp [hv] at h
      | ok r =>
        obtain ⟨v', rest⟩ := r
        cases hrest : jskip rest with
        | cons c r => simp [hv, hrest] at h
        | nil =>
          obtain ⟨w, b, t, rfl, hw, hd, depth, bound⟩ := jvalue_sound jdMaxDepth hv
          refine ⟨t, ⟨w, b, rest, hw, hd, ?_, by simp⟩, depth, bound⟩
          obtain ⟨w', hw', hr⟩ := jskip_split rest
          rw [hr, hrest, List.append_nil]
          exact hw'
    obtain ⟨t, text, fits⟩ := accepted
    rw [decode_text text fits] at h
    exact ⟨t, text, fits, (Except.ok.inj h).symm⟩
  · intro h
    obtain ⟨t, text, fits, rfl⟩ := h
    exact decode_text text fits

/-! ### Where the value is the one denoted -/

theorem readChars_of_paired (h : Paired 0 cs = true) : readChars cs = denoteChars cs := by
  have reads := readChars_reads cs
  rw [h] at reads
  exact reads

theorem paired_of_le (h : (readChars cs).length ≤ (denoteChars cs).length) :
    Paired 0 cs = true := by
  have reads := readChars_reads cs
  by_contra unpaired
  rw [Bool.not_eq_true] at unpaired
  rw [unpaired] at reads
  exact absurd reads (Nat.not_lt.mpr h)

mutual

/-- The decoder gives what a text denotes where every string is paired. -/
theorem value_of_paired : ∀ {t : Doc}, t.AllPaired → t.value readChars = t.denote
  | .null, _ => by rw [Doc.denote, Doc.value, Doc.value]
  | .bool _, _ => by rw [Doc.denote, Doc.value, Doc.value]
  | .num _, _ => by rw [Doc.denote, Doc.value, Doc.value]
  | .str _, h => by rw [Doc.denote, Doc.value, Doc.value, readChars_of_paired h]
  | .arr _, h => by rw [Doc.denote, Doc.value, Doc.value, itemValues_of_paired h]
  | .obj _, h => by rw [Doc.denote, Doc.value, Doc.value, memberValues_of_paired h]

theorem itemValues_of_paired : ∀ {ts : List Doc}, itemsPaired ts →
    itemValues readChars ts = itemValues denoteChars ts
  | [], _ => by rw [itemValues, itemValues]
  | _ :: _, h => by
    have value := value_of_paired h.1
    rw [Doc.denote] at value
    rw [itemValues, itemValues, value, itemValues_of_paired h.2]

theorem memberValues_of_paired : ∀ {ms : List (List JChar × Doc)}, membersPaired ms →
    memberValues readChars ms = memberValues denoteChars ms
  | [], _ => by
    funext x
    rw [memberValues, memberValues]
  | (k, t) :: ms, h => by
    obtain ⟨name, paired, rest⟩ := h
    have value := value_of_paired paired
    rw [Doc.denote] at value
    funext x
    rw [memberValues, memberValues, memberValues_of_paired rest, readChars_of_paired name, value]

end

/-! #### Members of different names -/

/-- The names of members. -/
def names (chars : List JChar → Bytes) (ms : List (List JChar × Doc)) : List Bytes :=
  ms.map fun m => chars m.1

theorem memberValues_isSome (chars : List JChar → Bytes) (ms : List (List JChar × Doc)) (x : Bytes) :
    (memberValues chars ms x).isSome = true ↔ x ∈ names chars ms := by
  induction ms with
  | nil => simp [memberValues, names]
  | cons m ms ih =>
    obtain ⟨k, t⟩ := m
    rw [memberValues]
    simp only [names, map_cons, mem_cons] at ih ⊢
    cases hv : memberValues chars ms x with
    | some v => simp [ih.mp (by simp [hv])]
    | none =>
      have out : x ∉ ms.map fun m => chars m.1 := fun hx => by
        have some := ih.mpr hx
        simp [hv] at some
      by_cases hx : x = chars k
      · simp [hx]
      · simp only [if_neg hx, Option.isSome_none, Bool.false_eq_true, false_iff, not_or]
        exact ⟨hx, out⟩

/-- How long names are together. -/
def namesLength (ns : List Bytes) : Nat := (ns.map List.length).sum

/-- Names that together are as long as those denoted are paired. -/
theorem names_paired :
    namesLength (names denoteChars ms) ≤ namesLength (names readChars ms) ∧
      (namesLength (names readChars ms) ≤ namesLength (names denoteChars ms) →
        ∀ m ∈ ms, Paired 0 m.1 = true) := by
  induction ms with
  | nil => simp [names]
  | cons m ms ih =>
    have le := (readChars_reads m.1).le
    simp only [names, namesLength, map_cons, sum_cons] at ih ⊢
    refine ⟨by omega, fun h m' hm' => ?_⟩
    cases mem_cons.mp hm' with
    | inl hm' =>
      rw [hm']
      exact paired_of_le (by omega)
    | inr hm' => exact ih.2 (by omega) m' hm'

/-- Where one map comes out, and no name is there twice, every name is paired. -/
theorem names_of_same (distinct : (names denoteChars ms).Nodup)
    (same : memberValues readChars ms = memberValues denoteChars ms) :
    ∀ m ∈ ms, Paired 0 m.1 = true := by
  have sub : names denoteChars ms ⊆ names readChars ms := by
    intro x hx
    rw [← memberValues_isSome, same, memberValues_isSome]
    exact hx
  have perm : (names denoteChars ms).Perm (names readChars ms) :=
    (distinct.subperm sub).perm_of_length_le (by simp [names])
  exact names_paired.2 ((perm.map List.length).sum_eq.ge)

theorem memberValues_cons_same {k : List JChar} {t : Doc}
    (distinct : (names denoteChars ((k, t) :: ms)).Nodup)
    (paired : ∀ m ∈ (k, t) :: ms, Paired 0 m.1 = true)
    (same : memberValues readChars ((k, t) :: ms) = memberValues denoteChars ((k, t) :: ms)) :
    t.value readChars = t.denote ∧ memberValues readChars ms = memberValues denoteChars ms := by
  have name : readChars k = denoteChars k := readChars_of_paired (paired (k, t) (by simp))
  have others : names readChars ms = names denoteChars ms :=
    map_congr_left fun m hm => readChars_of_paired (paired m (by simp [hm]))
  have fresh : denoteChars k ∉ names denoteChars ms := (nodup_cons.mp distinct).1
  have gone (chars : List JChar → Bytes) (h : names chars ms = names denoteChars ms) :
      memberValues chars ms (denoteChars k) = none := by
    rw [← Option.not_isSome_iff_eq_none, memberValues_isSome, h]
    exact fresh
  have split := fun x => congrFun same x
  simp only [memberValues, name] at split
  constructor
  · have here := split (denoteChars k)
    rw [gone readChars others, gone denoteChars rfl] at here
    rw [Doc.denote]
    simpa using here
  · funext x
    by_cases hx : x = denoteChars k
    · rw [hx, gone readChars others, gone denoteChars rfl]
    · have there := split x
      simp only [if_neg hx] at there
      cases hr : memberValues readChars ms x <;> cases hd : memberValues denoteChars ms x <;>
        simp_all

mutual

/-- Where the decoder gives what a text denotes, and no name is there twice, every string is
paired. -/
theorem paired_of_value : ∀ {t : Doc}, t.Distinct → t.value readChars = t.denote → t.AllPaired
  | .null, _, _ => trivial
  | .bool _, _, _ => trivial
  | .num _, _, _ => trivial
  | .str cs, _, h => paired_of_le (congrArg List.length (JVal.str.inj h)).le
  | .arr ts, hd, h => itemsPaired_of_value hd (JVal.slice.inj h)
  | .obj ms, hd, h => by
    have same : memberValues readChars ms = memberValues denoteChars ms := JVal.map.inj h
    exact membersPaired_of_value hd.1 hd.2 (names_of_same hd.2 same) same

theorem itemsPaired_of_value : ∀ {ts : List Doc}, itemsDistinct ts →
    itemValues readChars ts = itemValues denoteChars ts → itemsPaired ts
  | [], _, _ => trivial
  | _ :: _, hd, h => by
    obtain ⟨hv, hvs⟩ := List.cons.inj h
    exact ⟨paired_of_value hd.1 hv, itemsPaired_of_value hd.2 hvs⟩

theorem membersPaired_of_value : ∀ {ms : List (List JChar × Doc)}, membersDistinct ms →
    (names denoteChars ms).Nodup → (∀ m ∈ ms, Paired 0 m.1 = true) →
      memberValues readChars ms = memberValues denoteChars ms → membersPaired ms
  | [], _, _, _, _ => trivial
  | (k, t) :: ms, hd, nodup, paired, h => by
    obtain ⟨hv, hvs⟩ := memberValues_cons_same nodup paired h
    exact ⟨paired (k, t) (by simp), paired_of_value hd.1 hv, membersPaired_of_value hd.2
      (nodup_cons.mp nodup).2 (fun m hm => paired m (by simp [hm])) hvs⟩

end

/-- The decoder gives the documents of RFC 8259 for a text. -/
def Denotes (s : Bytes) : Prop :=
  ∀ v, vlJsonDecode s = .ok v ↔ ∃ t, Text s t ∧ t.Fits ∧ v = t.denote

/-- The decoder accepts the texts of the grammar that fit, and no others, always. Its value is the one
denoted where every string is paired, and where no object repeats a name nowhere else; every decimal
of a value is exact. -/
theorem decode_denotes (s : Bytes) :
    ((∃ v, vlJsonDecode s = .ok v) ↔ ∃ t, Text s t ∧ t.Fits) ∧
      ((∀ t, Text s t → t.Fits → t.AllPaired) → Denotes s) ∧
      (Denotes s → ∀ t, Text s t → t.Fits → t.Distinct → t.AllPaired) ∧
      ∀ n : JNum, n.dec.value = n.value := by
  refine ⟨?_, ?_, ?_, fun n => n.dec_value⟩
  · constructor
    · intro h
      obtain ⟨v, hv⟩ := h
      obtain ⟨t, text, fits, -⟩ := (decode_ok_iff s v).mp hv
      exact ⟨t, text, fits⟩
    · intro h
      obtain ⟨t, text, fits⟩ := h
      exact ⟨_, decode_text text fits⟩
  · intro paired v
    rw [decode_ok_iff]
    constructor
    · intro h
      obtain ⟨t, text, fits, rfl⟩ := h
      exact ⟨t, text, fits, value_of_paired (paired t text fits)⟩
    · intro h
      obtain ⟨t, text, fits, rfl⟩ := h
      exact ⟨t, text, fits, (value_of_paired (paired t text fits)).symm⟩
  · intro denotes t text fits distinct
    have read := decode_text text fits
    rw [(denotes t.denote).mpr ⟨t, text, fits, rfl⟩] at read
    exact paired_of_value distinct (Except.ok.inj read).symm

theorem hex_of_all {ds : Bytes} (h : (ds.all fun b => (hexv b).isSome) = true) : ∀ b ∈ ds, (hexv b).isSome :=
  all_eq_true.mp h

/-- `\uD83D\uD83D\uDE00`: a lone high surrogate, and a pair behind it. -/
def loneThenPair : List JChar :=
  [.unit ⟨[ch 'D', ch '8', ch '3', ch 'D'], rfl, hex_of_all rfl⟩,
    .unit ⟨[ch 'D', ch '8', ch '3', ch 'D'], rfl, hex_of_all rfl⟩,
    .unit ⟨[ch 'D', ch 'E', ch '0', ch '0'], rfl, hex_of_all rfl⟩]

/-- The second high surrogate is taken along with the first, and so the low one behind it is lone. -/
theorem decode_lone_then_pair :
    vlJsonDecode (strText loneThenPair) = .ok (.str (utf8 0xFFFD ++ utf8 0xFFFD ++ utf8 0xFFFD)) ∧
      (Doc.str loneThenPair).denote = .str (utf8 0xFFFD ++ utf8 0x1F600) ∧
      ¬ Denotes (strText loneThenPair) := by
  have read : readChars loneThenPair = utf8 0xFFFD ++ utf8 0xFFFD ++ utf8 0xFFFD := by decide
  have denote : denoteChars loneThenPair = utf8 0xFFFD ++ utf8 0x1F600 := by decide
  have text : Text (strText loneThenPair) (.str loneThenPair) :=
    ⟨[], _, [], by simp [Blank], .str _, by simp [Blank], by simp⟩
  have fits : (Doc.str loneThenPair).Fits := ⟨by simp [Doc.depth, jdMaxDepth], trivial⟩
  have decoded := decode_text text fits
  rw [Doc.value, read] at decoded
  refine ⟨decoded, by rw [Doc.denote, Doc.value, denote], fun denotes => ?_⟩
  rw [(denotes _).mpr ⟨_, text, fits, rfl⟩, Doc.denote, Doc.value, denote] at decoded
  have same := congrArg List.length (JVal.str.inj (Except.ok.inj decoded))
  exact absurd same (by decide)

end Voila.Rt.Json
