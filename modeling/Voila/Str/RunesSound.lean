import Voila.Str.Str

/-!
# Voila.Str.RunesSound

The runes of a string, by `vl_iter_next`, `runes`, `rune_len` and `split` with an empty separator.

The last three take as many bytes as the lead byte announces, or one where the string has fewer.
`vl_iter_next` does not look at the length, and reads behind the end. So they agree on the strings that fall
into whole sequences (`Whole`), valid or not, and on no other (`decodes_iff`).
-/

namespace Voila.Str

open Rt List

/-! ### Iteration -/

/-- The bytes that a lead byte announces, itself among them. -/
def announced (a : UInt8) : Nat := if a ≥ 0xF0 then 4 else if a ≥ 0xE0 then 3 else if a ≥ 0xC0 then 2 else 1

theorem announced_pos (a : UInt8) : 0 < announced a := by
  unfold announced
  split_ifs <;> decide

theorem runeLenN_eq (a : UInt8) (remaining : Nat) :
    runeLenN a remaining = if announced a > remaining then 1 else announced a := rfl

variable {b s : Bytes} {i len : Nat}

/-- A step ends the iteration, or starts at the counter and moves it by what the lead byte announces. -/
theorem iterNext_cases {out : Option (Nat × Nat × Nat)}
    (h : iterNext b len i = some out) : (len ≤ i ∧ out = none) ∨
      (i < len ∧ ∃ a r, b[i]? = some a ∧ out = some (i, r, i + announced a) ∧ i + announced a ≤ b.length) := by
  have inside : ∀ {n : Nat} {x : UInt8}, b[n]? = some x → n < b.length := by
    intro n x hx
    exact (List.getElem?_eq_some_iff.mp hx).1
  unfold iterNext at h
  split_ifs at h with hend
  · cases h
    exact .inl ⟨hend, rfl⟩
  obtain ⟨a, ha, h⟩ := Option.bind_eq_some_iff.mp h
  refine .inr ⟨Nat.lt_of_not_le hend, a, ?_⟩
  unfold announced
  by_cases h4 : a ≥ 0xF0
  · rw [if_pos h4] at h ⊢
    obtain ⟨_, _, h⟩ := Option.bind_eq_some_iff.mp h
    obtain ⟨_, _, h⟩ := Option.bind_eq_some_iff.mp h
    obtain ⟨d, hd, h⟩ := Option.bind_eq_some_iff.mp h
    cases h
    exact ⟨_, ha, rfl, inside hd⟩
  by_cases h3 : a ≥ 0xE0
  · rw [if_neg h4, if_pos h3] at h ⊢
    obtain ⟨_, _, h⟩ := Option.bind_eq_some_iff.mp h
    obtain ⟨c, hc, h⟩ := Option.bind_eq_some_iff.mp h
    cases h
    exact ⟨_, ha, rfl, inside hc⟩
  rw [if_neg h4, if_neg h3] at h ⊢
  split_ifs at h ⊢ with h2
  · obtain ⟨c, hc, h⟩ := Option.bind_eq_some_iff.mp h
    cases h
    exact ⟨_, ha, rfl, inside hc⟩
  · cases h
    exact ⟨_, ha, rfl, inside ha⟩

theorem iterNext_some {len i k r j : Nat} (h : iterNext b len i = some (some (k, r, j))) :
    i < len ∧ ∃ a, b[i]? = some a ∧ j = i + announced a ∧ j ≤ b.length := by
  rcases iterNext_cases h with ⟨-, hout⟩ | ⟨hlt, a, r, ha, hout, fits⟩
  · cases hout
  · cases hout
    exact ⟨hlt, a, ha, rfl, fits⟩

/-- A `for` over the string from the counter `i` on: the keys and the runes, or `none` where a step reads what
is not in `b`. -/
def iterate (b : Bytes) (len i : Nat) : Option (List (Nat × Nat)) :=
  match h : iterNext b len i with
  | none => none
  | some none => some []
  | some (some (key, r, j)) => (iterate b len j).map ((key, r) :: ·)
termination_by len - i
decreasing_by
  obtain ⟨inside, a, -, rfl, -⟩ := iterNext_some h
  have forward := announced_pos a
  omega

theorem iterate_end (h : iterNext b len i = some none) : iterate b len i = some [] := by
  rw [iterate]
  split <;> simp_all

theorem iterate_step {len i k r j : Nat} (h : iterNext b len i = some (some (k, r, j))) :
    iterate b len i = (iterate b len j).map ((k, r) :: ·) := by
  rw [iterate]
  split <;> simp_all

theorem iterate_fault (h : iterNext b len i = none) : iterate b len i = none := by
  rw [iterate]
  split <;> simp_all

/-! ### Whole sequences -/

/-- The string falls into sequences, each with as many bytes as its first announces. -/
inductive Whole : Bytes → Prop
  | nil : Whole []
  | seq {a : UInt8} {t s : Bytes} : t.length + 1 = announced a → Whole s → Whole (a :: (t ++ s))

/-- A whole sequence is decoded as `runes` does. -/
theorem iterNext_whole {a : UInt8} {t : Bytes} (h : t.length + 1 = announced a) (pre rest : Bytes)
    (inside : pre.length < len) : iterNext (pre ++ a :: (t ++ rest)) len pre.length =
      some (some (pre.length, runeOf a (t ++ rest) (announced a), pre.length + announced a)) := by
  have at_ : ∀ n, (pre ++ a :: (t ++ rest))[pre.length + n]? = (a :: (t ++ rest))[n]? := by
    intro n
    rw [List.getElem?_append_right (Nat.le_add_right ..), Nat.add_sub_cancel_left]
  have first := at_ 0
  rw [Nat.add_zero] at first
  unfold iterNext
  rw [if_neg (Nat.not_le.mpr inside), first, at_, at_, at_]
  unfold announced at h ⊢
  simp only [List.getElem?_cons_zero, Option.bind_eq_bind, Option.bind_some]
  split_ifs at h ⊢
  · match t, h with
    | [b, c, d], _ => rfl
  · match t, h with
    | [b, c], _ => rfl
  · match t, h with
    | [b], _ => rfl
  · match t, h with
    | [], _ => rfl

theorem runesLoop_skip (t s : Bytes) : runesLoop t.length (t ++ s) = runesLoop 0 s := by
  induction t with
  | nil => rfl
  | cons b t ih => exact ih

theorem runeLenLoop_skip (t s : Bytes) : runeLenLoop t.length (t ++ s) = runeLenLoop 0 s := by
  induction t with
  | nil => rfl
  | cons b t ih => exact ih

theorem splitRunes_skip (t s : Bytes) : splitRunes t.length (t ++ s) = splitRunes 0 s := by
  induction t with
  | nil => rfl
  | cons b t ih => exact ih

/-- The offsets at which pieces start that lie one behind the other from `i` on. -/
def starts (i : Nat) : List Bytes → List Nat
  | [] => []
  | p :: ps => i :: starts (i + p.length) ps

/-- Where the sequences are whole, the decoders go on together. -/
theorem iterate_whole (whole : Whole s) (pre rest : Bytes) :
    ∃ steps, iterate (pre ++ (s ++ rest)) (pre.length + s.length) pre.length = some steps ∧
      steps.map Prod.snd = runes s ∧ steps.length = runeLen s ∧
      steps.map Prod.fst = starts pre.length (split s []) := by
  unfold runes runeLen split splitStr
  rw [if_pos rfl]
  induction whole generalizing pre with
  | nil =>
    refine ⟨[], iterate_end ?_, rfl, rfl, rfl⟩
    exact if_pos (Nat.le_refl _)
  | @seq a t s hlen _ ih =>
    obtain ⟨steps, run, values, number, keys⟩ := ih (pre ++ a :: t)
    have long : ¬ announced a > (t ++ s).length + 1 := by
      rw [length_append]
      omega
    have skip : announced a - 1 = t.length := by omega
    have inside : pre.length < pre.length + (a :: (t ++ s)).length := by
      rw [length_cons]
      omega
    have next := iterNext_whole hlen pre (s ++ rest) inside
    have same : runeOf a (t ++ (s ++ rest)) (announced a) = runeOf a (t ++ s) (announced a) := by
      clear next long skip
      rw [← hlen]
      match t, hlen with
      | [], _ => rfl
      | [b], _ => rfl
      | [b, c], _ => rfl
      | [b, c, d], _ => rfl
      | _ :: _ :: _ :: _ :: t, hlen =>
        simp only [length_cons] at hlen
        unfold announced at hlen
        split_ifs at hlen <;> omega
    refine ⟨(pre.length, runeOf a (t ++ s) (announced a)) :: steps, ?_, ?_, ?_, ?_⟩
    · rw [same] at next
      have there : (pre ++ a :: t).length = pre.length + announced a := by
        simp only [length_append, length_cons]
        omega
      have total : (pre ++ a :: t).length + s.length = pre.length + (a :: (t ++ s)).length := by
        simp only [length_append, length_cons]
        omega
      rw [total, there, append_assoc, cons_append] at run
      rw [cons_append, append_assoc, iterate_step next, run]
      rfl
    · rw [runesLoop, runeLenN_eq, if_neg long, skip, runesLoop_skip, map_cons, values]
    · rw [runeLenLoop, runeLenN_eq, if_neg long, skip, runeLenLoop_skip, length_cons, number]
    · have piece : (a :: (t ++ s)).take (announced a) = a :: t := by
        rw [← hlen, take_succ_cons, take_left']
        rfl
      rw [splitRunes, runeLenN_eq, if_neg long, skip, splitRunes_skip, piece, map_cons, starts, keys,
        length_append]

/-- Steps that stay inside the string find whole sequences. -/
theorem whole_of_iterate (pre : Bytes)
    (h : iterate (pre ++ s) (pre.length + s.length) pre.length ≠ none) : Whole s := by
  induction hn : s.length using Nat.strong_induction_on generalizing pre s with
  | _ n ih =>
    cases s with
    | nil => exact .nil
    | cons a s =>
      cases next : iterNext (pre ++ a :: s) (pre.length + (a :: s).length) pre.length with
      | none => exact absurd (iterate_fault next) h
      | some step =>
        cases step with
        | none =>
          rcases iterNext_cases next with ⟨past, -⟩ | ⟨-, _, _, -, hout, -⟩
          · rw [length_cons] at past
            omega
          · cases hout
        | some step =>
          obtain ⟨k, r, j⟩ := step
          rw [iterate_step next] at h
          obtain ⟨-, lead, hlead, rfl, fits⟩ := iterNext_some next
          rw [List.getElem?_append_right (Nat.le_refl _), Nat.sub_self] at hlead
          cases hlead
          have forward := announced_pos a
          rw [length_append, length_cons] at fits
          -- the sequence is what the lead byte announces, and the rest comes behind it
          have parts := take_append_drop (announced a - 1) s
          have len : (s.take (announced a - 1)).length + 1 = announced a := by
            rw [length_take]
            omega
          have rest : (s.drop (announced a - 1)).length < n := by
            rw [← hn, length_drop, length_cons]
            omega
          rw [← parts]
          refine .seq len (ih _ rest (pre ++ a :: s.take (announced a - 1)) ?_ rfl)
          have there : (pre ++ a :: s.take (announced a - 1)).length = pre.length + announced a := by
            simp only [length_append, length_cons, len]
          have total : (pre ++ a :: s.take (announced a - 1)).length +
              (s.drop (announced a - 1)).length = pre.length + (a :: s).length := by
            rw [there, length_drop, length_cons]
            omega
          rw [total, there, append_assoc, cons_append, parts]
          intro fault
          rw [fault] at h
          exact h rfl

/-- `split` takes the string apart. -/
theorem splitRunes_flatten (s : Bytes) (skip : Nat) : (splitRunes skip s).flatten = s.drop skip := by
  induction s generalizing skip with
  | nil => rw [splitRunes, drop_nil, flatten_nil]
  | cons a s ih =>
    cases skip with
    | succ skip => exact ih skip
    | zero =>
      have pos : 0 < runeLenN a (s.length + 1) := by
        have forward := announced_pos a
        rw [runeLenN_eq]
        split_ifs
        · exact Nat.one_pos
        · exact forward
      obtain ⟨n, hn⟩ := Nat.exists_eq_add_of_lt pos
      rw [Nat.zero_add] at hn
      rw [splitRunes, flatten_cons, ih, hn, take_succ_cons, Nat.add_sub_cancel, cons_append,
        take_append_drop, drop_zero]

/-- What is asked of the four decoders: the same runes, as many as `rune_len` says, at the offsets where the
pieces of `split` start, and no step reads what is not a byte of the string. -/
def Decodes (s : Bytes) : Prop :=
  ∃ steps, iterate (s ++ [0]) s.length 0 = some steps ∧ steps.map Prod.snd = runes s ∧
    steps.length = runeLen s ∧ (split s []).flatten = s ∧ steps.map Prod.fst = starts 0 (split s []) ∧
    iterate s s.length 0 ≠ none

/-- They agree where no sequence is cut off by the end of the string. -/
theorem decodes_iff (s : Bytes) : Decodes s ↔ Whole s := by
  constructor
  · rintro ⟨-, -, -, -, -, -, inside⟩
    exact whole_of_iterate [] (by simpa using inside)
  · intro whole
    obtain ⟨steps, run, values, number, keys⟩ := iterate_whole whole [] [0]
    obtain ⟨steps', run', -⟩ := iterate_whole whole [] []
    simp only [nil_append, length_nil, Nat.zero_add, append_nil] at run run'
    refine ⟨steps, run, values, number, ?_, keys, ?_⟩
    · unfold split splitStr
      rw [if_pos rfl, splitRunes_flatten, drop_zero]
    · rw [run']
      exact nofun

/-- A lead byte at the end is read together with the NUL behind it. -/
theorem decodes_cut :
    ¬ Decodes [0xC3] ∧ iterate ([0xC3] ++ [0]) 1 0 = some [(0, 0xC0)] ∧ runes [0xC3] = [0xC3] := by
  have run : iterate ([0xC3] ++ [0]) 1 0 = some [(0, 0xC0)] := by
    rw [iterate_step (j := 2) rfl, iterate_end rfl]
    rfl
  refine ⟨?_, run, rfl⟩
  rintro ⟨steps, run', values, -⟩
  rw [show ([0xC3] : Bytes).length = 1 from rfl, run] at run'
  cases run'
  cases values

end Voila.Str
