import Voila.Rt.Num

/-!
# Voila.Rt.Dec

Exact decimals (`dec.c`): the part that comparing and printing them needs.

A decimal is a coefficient of decimal digits and an exponent, and one number has many of
them. `vl_dec_cmp` compares the numbers; `vl_dec_str` prints the coefficient it is given,
after dropping zeros behind the point only. So equal decimals print alike when they are
below `10 ^ 34` or agree on how far their exponents are above zero (`decStr_eq_iff`), and
in no other case.
-/

open List

namespace Voila.Rt

/-- Bytes of a C string. -/
abbrev Bytes := List UInt8

instance bytes_lawful : LawfulBEq Bytes := inferInstance

instance ten_neZero : NeZero (10 : Nat) := ⟨by decide⟩

/-- A decimal (`VlDec`): no leading zeros, and one zero only. -/
structure Dec where
  neg : Bool
  /-- Most significant first. -/
  d : List (Fin 10)
  exp : Int
  canonical : (neg = false ∧ d = [0] ∧ exp = 0) ∨ ∃ x xs, d = x :: xs ∧ x ≠ 0
  deriving DecidableEq

/-- `dec_is_zero`. -/
def allZero (ds : List (Fin 10)) : Bool := ds.all (· == 0)

/-- The loop of `make` that skips leading zeros, up to the last digit. -/
def stripLead : List (Fin 10) → List (Fin 10)
  | x :: y :: ds => if x = 0 then stripLead (y :: ds) else x :: y :: ds
  | ds => ds

variable {ds : List (Fin 10)} {x : Fin 10} {v a b : Dec} {exp : Int} {k : Nat} {n : Int64}

theorem stripLead_head (h : allZero (stripLead ds) = false) :
    ∃ x xs, stripLead ds = x :: xs ∧ x ≠ 0 := by
  induction ds with
  | nil => simp [stripLead, allZero] at h
  | cons x ds ih =>
    cases ds with
    | nil => exact ⟨x, [], rfl, by simpa [stripLead, allZero] using h⟩
    | cons y ds =>
      by_cases hx : x = 0
      · rw [stripLead, if_pos hx] at h ⊢
        exact ih h
      · exact ⟨x, y :: ds, by rw [stripLead, if_neg hx], hx⟩

/-- `make`. -/
def Dec.make (neg : Bool) (digits : List (Fin 10)) (exp : Int) : Dec :=
  if h : allZero (stripLead digits) then ⟨false, [0], 0, .inl ⟨rfl, rfl, rfl⟩⟩
  else ⟨neg, stripLead digits, exp, .inr (stripLead_head (by simpa using h))⟩

/-- `vl_dec_from_int`. -/
def Dec.fromInt (n : Int64) : Dec :=
  .make (decide (n < 0))
    (if n.toInt.natAbs = 0 then [0] else ((Nat.digits 10 n.toInt.natAbs).reverse.map (Fin.ofNat 10))) 0

/-- `memcmp` of two coefficients of one length. -/
def memcmp : List (Fin 10) → List (Fin 10) → Int
  | x :: xs, y :: ys => if x < y then -1 else if y < x then 1 else memcmp xs ys
  | _, _ => 0

/-- `cmp_mag`. -/
def cmpMag (a b : List (Fin 10)) : Int :=
  let a := stripLead a
  let b := stripLead b
  if a.length ≠ b.length then if a.length < b.length then -1 else 1 else memcmp a b

/-- `scale`: the coefficient multiplied by `10 ^ k`. -/
def Dec.scale (v : Dec) (k : Int) : Dec :=
  if k ≤ 0 then v else .make v.neg (v.d ++ List.replicate k.toNat 0) (v.exp - k)

/-- `vl_dec_cmp`. -/
def vlDecCmp (a b : Dec) : Int :=
  let za := allZero a.d
  let zb := allZero b.d
  if za && zb then 0
  else
    let sa : Int := if za then 0 else if a.neg then -1 else 1
    let sb : Int := if zb then 0 else if b.neg then -1 else 1
    if sa ≠ sb then if sa < sb then -1 else 1
    else if sa = 0 then 0
    else
      let exp := min a.exp b.exp
      let c := cmpMag (a.scale (a.exp - exp)).d (b.scale (b.exp - exp)).d
      if a.neg then -c else c

/-- The loop of `normalize`, from the last digit: zeros go while the exponent is negative. -/
def dropTrailing : List (Fin 10) → Int → List (Fin 10) × Int
  | x :: y :: ds, exp =>
    if exp < 0 ∧ x = 0 then dropTrailing (y :: ds) (exp + 1) else (x :: y :: ds, exp)
  | ds, exp => (ds, exp)

/-- `normalize`. -/
def Dec.normalize (v : Dec) : Dec :=
  if allZero v.d then v
  else
    let r := dropTrailing v.d.reverse v.exp
    if r.1.length = v.d.length ∧ r.2 = v.exp then v else .make v.neg r.1.reverse r.2

/-- The byte of a digit. -/
def digitByte (x : Fin 10) : UInt8 := 48 + UInt8.ofNat x

/-- `%d` of a number that is not negative. -/
def printNat (n : Nat) : Bytes :=
  if n = 0 then [48] else (Nat.digits 10 n).reverse.map (fun x => 48 + UInt8.ofNat x)

/-- The scientific form: `d.dddE±n`. -/
def sciText (d : List (Fin 10)) (adj : Int) : Bytes :=
  (d.take 1).map digitByte ++ (if d.length > 1 then 46 :: (d.drop 1).map digitByte else []) ++
    69 :: (if adj < 0 then 45 else 43) :: printNat adj.natAbs

/-- The text of a normalized coefficient and exponent. -/
def magText (d : List (Fin 10)) (exp : Int) : Bytes :=
  let adj := exp + d.length - 1
  if exp ≤ 0 ∧ adj ≥ -6 then
    let point := d.length + exp
    if exp = 0 then d.map digitByte
    else if point > 0 then
      (d.take point.toNat).map digitByte ++ 46 :: (d.drop point.toNat).map digitByte
    else 48 :: 46 :: (List.replicate (-point).toNat 48 ++ d.map digitByte)
  else if exp > 0 ∧ adj ≤ 33 then d.map digitByte ++ List.replicate exp.toNat 48
  else sciText d adj

/-- `vl_dec_str`. -/
def vlDecStr (v : Dec) : Bytes :=
  let v := v.normalize
  (if v.neg then [45] else []) ++ magText v.d v.exp

/-! ### Canonical coefficients -/

theorem Dec.ne_nil (v : Dec) : v.d ≠ [] := by
  rcases v.canonical with ⟨-, h, -⟩ | ⟨x, xs, h, -⟩ <;> simp [h]

theorem stripLead_cons (hx : x ≠ 0) (xs : List (Fin 10)) : stripLead (x :: xs) = x :: xs := by
  cases xs with
  | nil => rfl
  | cons y ys => rw [stripLead, if_neg hx]

theorem allZero_cons (hx : x ≠ 0) (xs : List (Fin 10)) : allZero (x :: xs) = false := by
  simp [allZero, hx]

theorem make_cons (hx : x ≠ 0) (neg : Bool) (xs : List (Fin 10)) (exp : Int) :
    Dec.make neg (x :: xs) exp = ⟨neg, x :: xs, exp, .inr ⟨x, xs, rfl, hx⟩⟩ := by
  simp [Dec.make, stripLead_cons hx, allZero_cons hx]

/-- A decimal other than zero shows its first digit. -/
theorem Dec.cons_of_nonzero (h : allZero v.d = false) : ∃ x xs, v.d = x :: xs ∧ x ≠ 0 := by
  rcases v.canonical with ⟨-, hd, -⟩ | hx
  · rw [hd] at h
    exact absurd h (by decide)
  · exact hx

theorem Dec.eq_zero (h : allZero v.d = true) : v = ⟨false, [0], 0, .inl ⟨rfl, rfl, rfl⟩⟩ := by
  obtain ⟨neg, d, exp, hc⟩ := v
  rcases hc with ⟨rfl, rfl, rfl⟩ | ⟨x, xs, rfl, hx⟩
  · rfl
  · exact absurd h (by simp [allZero, hx])

theorem Dec.scale_d (h : allZero v.d = false) (k : Int) :
    (v.scale k).d = v.d ++ List.replicate k.toNat 0 := by
  unfold Dec.scale
  split_ifs with hk
  · have hz : k.toNat = 0 := by omega
    simp [hz]
  · obtain ⟨x, xs, hd, hx⟩ := Dec.cons_of_nonzero h
    rw [hd, cons_append, make_cons hx]

/-! ### Comparing -/

theorem memcmp_eq_zero {a b : List (Fin 10)} (h : a.length = b.length) :
    memcmp a b = 0 ↔ a = b := by
  induction a generalizing b with
  | nil => cases b with
    | nil => simp [memcmp]
    | cons y ys => simp at h
  | cons x xs ih => cases b with
    | nil => simp at h
    | cons y ys =>
      have hlen : xs.length = ys.length := by simpa using h
      rw [memcmp, List.cons.injEq, ← ih hlen]
      rcases lt_trichotomy x y with hxy | rfl | hxy
      · simp [hxy, hxy.ne]
      · simp
      · simp [hxy, hxy.not_gt, hxy.ne']

theorem cmpMag_eq_zero {a b : List (Fin 10)} : cmpMag a b = 0 ↔ stripLead a = stripLead b := by
  unfold cmpMag
  dsimp only
  split_ifs with hne hlt
  · exact ⟨fun h => absurd h (by decide), fun h => absurd (congrArg List.length h) hne⟩
  · exact ⟨fun h => absurd h (by decide), fun h => absurd (congrArg List.length h) hne⟩
  · exact memcmp_eq_zero (not_not.mp hne)

/-- Two decimals other than zero are equal when they have the same sign, and the same
coefficient once scaled to the smaller of their exponents. -/
theorem vlDecCmp_eq_zero (ha : allZero a.d = false) (hb : allZero b.d = false) :
    vlDecCmp a b = 0 ↔ a.neg = b.neg ∧
      a.d ++ List.replicate (a.exp - b.exp).toNat 0 =
        b.d ++ List.replicate (b.exp - a.exp).toNat 0 := by
  have hka : (a.exp - min a.exp b.exp).toNat = (a.exp - b.exp).toNat := by omega
  have hkb : (b.exp - min a.exp b.exp).toNat = (b.exp - a.exp).toNat := by omega
  have hmag : cmpMag (a.scale (a.exp - min a.exp b.exp)).d (b.scale (b.exp - min a.exp b.exp)).d = 0 ↔
      a.d ++ List.replicate (a.exp - b.exp).toNat 0 =
        b.d ++ List.replicate (b.exp - a.exp).toNat 0 := by
    obtain ⟨x, xs, hda, hx⟩ := Dec.cons_of_nonzero ha
    obtain ⟨y, ys, hdb, hy⟩ := Dec.cons_of_nonzero hb
    rw [cmpMag_eq_zero, Dec.scale_d ha, Dec.scale_d hb, hka, hkb, hda, hdb, cons_append,
      cons_append, stripLead_cons hx, stripLead_cons hy]
  rw [← hmag]
  cases hna : a.neg <;> cases hnb : b.neg <;> simp [vlDecCmp, ha, hb, hna, hnb]

/-- Equal decimals: one coefficient is the other with zeros at its end. -/
structure Dec.Shifted (a b : Dec) (k : Nat) : Prop where
  neg : a.neg = b.neg
  d : a.d = b.d ++ List.replicate k 0
  exp : a.exp = b.exp - k

theorem Dec.shifted_of_cmp (ha : allZero a.d = false) (hb : allZero b.d = false)
    (h : vlDecCmp a b = 0) : ∃ k, a.Shifted b k ∨ b.Shifted a k := by
  obtain ⟨hneg, hd⟩ := (vlDecCmp_eq_zero ha hb).mp h
  rcases le_total a.exp b.exp with hle | hle
  · refine ⟨(b.exp - a.exp).toNat, .inl ⟨hneg, ?_, by omega⟩⟩
    simpa [show (a.exp - b.exp).toNat = 0 by omega] using hd
  · refine ⟨(a.exp - b.exp).toNat, .inr ⟨hneg.symm, ?_, by omega⟩⟩
    simpa [show (b.exp - a.exp).toNat = 0 by omega] using hd.symm

/-- Zero is equal to zero alone. -/
theorem eq_zero_of_cmp (ha : allZero a.d = true) (h : vlDecCmp a b = 0) : allZero b.d = true := by
  by_contra hb
  have hb' : allZero b.d = false := by simpa using hb
  cases hn : b.neg <;> simp [vlDecCmp, ha, hb', hn] at h

theorem vlDecCmp_symm (h : vlDecCmp a b = 0) : vlDecCmp b a = 0 := by
  cases ha : allZero a.d with
  | true => simp [vlDecCmp, ha, eq_zero_of_cmp ha h]
  | false =>
    cases hb : allZero b.d with
    | true =>
      cases hn : a.neg <;> simp [vlDecCmp, ha, hb, hn] at h
    | false =>
      obtain ⟨hneg, hd⟩ := (vlDecCmp_eq_zero ha hb).mp h
      exact (vlDecCmp_eq_zero hb ha).mpr ⟨hneg.symm, hd.symm⟩

/-! ### Dropping zeros -/

theorem dropTrailing_of_nonneg (ds : List (Fin 10)) (h : 0 ≤ exp) :
    dropTrailing ds exp = (ds, exp) := by
  rcases ds with - | ⟨x, - | ⟨y, ds⟩⟩
  · rfl
  · rfl
  · rw [dropTrailing, if_neg (by omega)]

/-- Of `k` zeros at the end all but `j` go, as long as the exponent is still below zero. -/
theorem dropTrailing_zeros {ds : List (Fin 10)} (hds : ds ≠ []) {exp : Int} {j k : Nat} (hjk : j ≤ k)
    (h : exp - j ≤ 0 ∨ j = k) :
    dropTrailing (List.replicate k 0 ++ ds) (exp - k) =
      dropTrailing (List.replicate j 0 ++ ds) (exp - j) := by
  induction k, hjk using Nat.le_induction with
  | base => rfl
  | succ k hk ih =>
    obtain ⟨y, ys, hy⟩ : ∃ y ys, List.replicate k (0 : Fin 10) ++ ds = y :: ys :=
      exists_cons_of_ne_nil (by simp [hds])
    have hneg : exp - (k + 1 : Nat) < 0 := by omega
    rw [replicate_succ, cons_append, hy, dropTrailing, if_pos ⟨hneg, rfl⟩, ← hy,
      show exp - (k + 1 : Nat) + 1 = exp - k by omega]
    exact ih (.inl (by omega))

theorem dropTrailing_suffix (ds : List (Fin 10)) (exp : Int) : (dropTrailing ds exp).1 <:+ ds := by
  fun_induction dropTrailing ds exp with
  | case1 x y ds exp h ih => exact ih.trans (suffix_cons x (y :: ds))
  | case2 | case3 => exact suffix_rfl

theorem dropTrailing_ne_nil (h : ds ≠ []) (exp : Int) : (dropTrailing ds exp).1 ≠ [] := by
  fun_induction dropTrailing ds exp with
  | case1 x y ds exp _ ih => exact ih (by simp)
  | case2 => simp
  | case3 => exact h

/-- What `normalize` keeps of a decimal other than zero. -/
theorem Dec.normalize_eq (h : allZero v.d = false) :
    v.normalize.neg = v.neg ∧ v.normalize.d = (dropTrailing v.d.reverse v.exp).1.reverse ∧
      v.normalize.exp = (dropTrailing v.d.reverse v.exp).2 := by
  have hsuf := dropTrailing_suffix v.d.reverse v.exp
  have hrev : v.d.reverse ≠ [] := by simpa using v.ne_nil
  have hne := dropTrailing_ne_nil hrev v.exp
  obtain ⟨x, xs, hd, hx⟩ := Dec.cons_of_nonzero h
  rw [Dec.normalize, h]
  simp only [Bool.false_eq_true, if_false]
  split_ifs with hsame
  · refine ⟨rfl, ?_, hsame.2.symm⟩
    rw [hsuf.eq_of_length (by simpa using hsame.1), reverse_reverse]
  · -- what is left is a prefix of the coefficient, so it keeps the first digit
    obtain ⟨ys, hys⟩ : ∃ ys, (dropTrailing v.d.reverse v.exp).1.reverse = x :: ys := by
      have hpre : (dropTrailing v.d.reverse v.exp).1.reverse <+: x :: xs := by
        rw [← hd]
        simpa using reverse_prefix.mpr hsuf
      cases hr : (dropTrailing v.d.reverse v.exp).1.reverse with
      | nil => exact absurd (reverse_eq_nil_iff.mp hr) hne
      | cons y ys =>
        rw [hr, cons_prefix_cons] at hpre
        exact ⟨ys, by rw [hpre.1]⟩
    rw [hys, make_cons hx]
    exact ⟨rfl, rfl, rfl⟩

/-! ### Printing -/

/-- The text of a decimal other than zero. -/
theorem vlDecStr_eq (h : allZero v.d = false) :
    vlDecStr v = (if v.neg then [45] else []) ++
      magText (dropTrailing v.d.reverse v.exp).1.reverse (dropTrailing v.d.reverse v.exp).2 := by
  obtain ⟨hneg, hd, hexp⟩ := Dec.normalize_eq h
  rw [vlDecStr, hneg, hd, hexp]

/-- The plain form of a whole number does not tell digits from the zeros after them. -/
theorem magText_whole (h : 0 ≤ exp) (hadj : exp + ds.length ≤ 34 ∨ exp = 0) (hne : ds ≠ []) :
    magText ds exp = ds.map digitByte ++ List.replicate exp.toNat 48 := by
  have hpos := length_pos_of_ne_nil hne
  unfold magText
  dsimp only
  rcases h.eq_or_lt with rfl | hlt
  · simp only [le_refl, true_and, if_true]
    rw [if_pos (by omega)]
    simp
  · rw [if_neg (by omega), if_pos (by omega)]

theorem magText_sci (h : 0 < exp) (hadj : 34 < exp + ds.length) :
    magText ds exp = sciText ds (exp + ds.length - 1) := by
  unfold magText
  dsimp only
  rw [if_neg (by omega), if_neg (by omega)]

/-- Scientific texts of one exponent are as long as their coefficients. -/
theorem length_sciText_lt (hne : ds ≠ []) {j : Nat} (hj : 0 < j) (adj : Int) :
    (sciText ds adj).length < (sciText (ds ++ List.replicate j 0) adj).length := by
  have hpos := length_pos_of_ne_nil hne
  have hlong : 1 < (ds ++ List.replicate j (0 : Fin 10)).length := by simp; omega
  rw [sciText, sciText, if_pos hlong]
  by_cases h1 : ds.length > 1
  · rw [if_pos h1]
    simp
    omega
  · rw [if_neg h1]
    simp
    omega

/-- `E` is in a scientific text, and in no other. -/
theorem mem_sciText (ds : List (Fin 10)) (adj : Int) : 69 ∈ sciText ds adj := by simp [sciText]

theorem not_mem_digits (ds : List (Fin 10)) (n : Nat) :
    (69 : UInt8) ∉ ds.map digitByte ++ List.replicate n 48 := by
  have hd : ∀ x : Fin 10, digitByte x ≠ 69 := by decide
  simp [hd]

/-- Where equal decimals print alike: below `10 ^ 34`, and where their exponents are the
same number above zero, if they are. -/
def Dec.printsAs (a b : Dec) : Bool :=
  a.exp + a.d.length ≤ 34 || max a.exp 0 == max b.exp 0

theorem Dec.Shifted.nonzero (h : a.Shifted b k) (hb : allZero b.d = false) :
    allZero a.d = false := by
  obtain ⟨x, xs, hd, hx⟩ := Dec.cons_of_nonzero hb
  simp [allZero, h.d, hd, hx]

theorem Dec.Shifted.text_iff (h : a.Shifted b k) (hb : allZero b.d = false) :
    vlDecStr a = vlDecStr b ↔ b.exp + b.d.length ≤ 34 ∨ max a.exp 0 = max b.exp 0 := by
  have hbne : b.d.reverse ≠ [] := by simpa using b.ne_nil
  rw [vlDecStr_eq (h.nonzero hb), vlDecStr_eq hb, h.neg, append_cancel_left_eq, h.exp, h.d,
    reverse_append, reverse_replicate]
  rcases Int.lt_or_le 0 b.exp with hpos | hneg
  · -- no zero of `b` goes, and of the `k` more that `a` has those stay that are not behind
    -- the point
    have hstay := @dropTrailing_zeros _ hbne b.exp (min k b.exp.toNat) k (by omega) (by omega)
    have hj : 0 ≤ b.exp - (min k b.exp.toNat : Nat) := by omega
    rw [hstay, dropTrailing_of_nonneg _ hj, dropTrailing_of_nonneg _ hpos.le]
    simp only [reverse_append, reverse_replicate, reverse_reverse]
    generalize hjdef : min k b.exp.toNat = j at hj ⊢
    by_cases hsmall : b.exp + b.d.length ≤ 34
    · rw [magText_whole hj (.inl (by simp; omega)) (by simp [b.ne_nil]),
        magText_whole hpos.le (.inl hsmall) b.ne_nil]
      have hzeros : List.replicate j (48 : UInt8) ++ List.replicate (b.exp - j).toNat 48 =
          List.replicate b.exp.toNat 48 := by
        rw [replicate_append_replicate]
        congr 1
        omega
      have h0 : digitByte 0 = 48 := by decide
      simp [hsmall, ← hzeros, h0]
    · rw [magText_sci hpos (by omega)]
      rcases Nat.eq_zero_or_pos j with hj0 | hj0
      · have hk : k = 0 := by omega
        subst hj0 hk
        simp [magText_sci hpos (by omega : 34 < b.exp + b.d.length)]
      · refine iff_of_false ?_ (by omega)
        intro heq
        rcases hj.eq_or_lt with hz | hlt
        · -- `a` prints in full
          rw [← hz, magText_whole le_rfl (.inr rfl) (by simp [b.ne_nil])] at heq
          exact not_mem_digits _ _ (heq ▸ mem_sciText _ _)
        · rw [magText_sci hlt (by simp; omega)] at heq
          have hadj : b.exp - j + (b.d ++ List.replicate j (0 : Fin 10)).length - 1 =
              b.exp + b.d.length - 1 := by
            rw [length_append, length_replicate]
            omega
          rw [hadj] at heq
          exact (length_sciText_lt b.ne_nil hj0 _).ne (congrArg List.length heq.symm)
  · -- all the zeros that `a` has more are behind the point
    have hdrop := @dropTrailing_zeros _ hbne b.exp 0 k (Nat.zero_le k) (.inl (by omega))
    simp only [Nat.cast_zero, Int.sub_zero, replicate_zero, nil_append] at hdrop
    rw [hdrop]
    exact iff_of_true rfl (by omega)

/-- Equal decimals print alike where `printsAs` says so, and only there. -/
theorem vlDecStr_eq_iff (h : vlDecCmp a b = 0) : vlDecStr a = vlDecStr b ↔ a.printsAs b = true := by
  cases ha : allZero a.d with
  | true =>
    have hab : a = b := by rw [Dec.eq_zero ha, Dec.eq_zero (eq_zero_of_cmp ha h)]
    simp [hab, Dec.printsAs]
  | false =>
    have hb : allZero b.d = false := by
      by_contra hb
      rw [eq_zero_of_cmp (by simpa using hb) (vlDecCmp_symm h)] at ha
      exact absurd ha (by decide)
    obtain ⟨k, hk | hk⟩ := Dec.shifted_of_cmp ha hb h
    · have hlen : a.exp + a.d.length = b.exp + b.d.length := by simp [hk.d, hk.exp]
      rw [hk.text_iff hb]
      simp [Dec.printsAs, hlen]
    · rw [eq_comm, hk.text_iff ha, Dec.printsAs, Bool.or_eq_true, decide_eq_true_iff, beq_iff_eq]
      exact or_congr Iff.rfl eq_comm

/-! ### Whole numbers -/

/-- The coefficient of `vl_dec_from_int`. -/
theorem Dec.fromInt_nonzero (h : n ≠ 0) :
    allZero (Dec.fromInt n).d = false ∧ (Dec.fromInt n).exp = 0 ∧
      (Dec.fromInt n).neg = decide (n < 0) ∧
      (Dec.fromInt n).d = (Nat.digits 10 n.toInt.natAbs).reverse.map (Fin.ofNat 10) := by
  have hn : n.toInt.natAbs ≠ 0 := by
    intro h0
    exact h (Int64.toInt_inj.mp (by simpa using Int.natAbs_eq_zero.mp h0))
  have hne : Nat.digits 10 n.toInt.natAbs ≠ [] := Nat.digits_ne_nil_iff_ne_zero.mpr hn
  obtain ⟨x, xs, hx⟩ := exists_cons_of_ne_nil (reverse_ne_nil_iff.mpr hne)
  have hlast : (Nat.digits 10 n.toInt.natAbs).getLast hne = x := by
    have := head_reverse (l := Nat.digits 10 n.toInt.natAbs) (by simpa using hne)
    rw [← this]
    simp [hx]
  have hx0 : Fin.ofNat 10 x ≠ 0 := by
    have hlt : x < 10 := Nat.digits_lt_base (by norm_num) (hlast ▸ getLast_mem hne)
    have hpos : x ≠ 0 := hlast ▸ Nat.getLast_digit_ne_zero 10 hn
    intro h0
    exact hpos (by simpa [Fin.ofNat, Nat.mod_eq_of_lt hlt] using congrArg Fin.val h0)
  rw [Dec.fromInt, if_neg hn, hx, map_cons, make_cons hx0]
  exact ⟨allZero_cons hx0 _, rfl, rfl, rfl⟩

/-- A decimal equal to an `int` prints as the `int`: no longer than its digits and a sign. -/
theorem vlDecStr_of_int (hn : n ≠ 0) (h : vlDecCmp a (Dec.fromInt n) = 0) :
    vlDecStr a = (if n < 0 then [45] else []) ++
      ((Nat.digits 10 n.toInt.natAbs).reverse.map (Fin.ofNat 10)).map digitByte := by
  obtain ⟨hnz, hexp, hneg, hd⟩ := Dec.fromInt_nonzero hn
  have hlen : (Dec.fromInt n).d.length ≤ 34 := by
    have hlt : n.toInt.natAbs < 10 ^ 34 := by
      have := n.toInt_lt
      have := n.le_toInt
      omega
    rw [hd, length_map, length_reverse]
    exact Nat.digits_length_le_iff (by norm_num) _ |>.mpr hlt
  have hprints : (Dec.fromInt n).printsAs a = true := by
    simp [Dec.printsAs, hexp, hlen]
  rw [← (vlDecStr_eq_iff (vlDecCmp_symm h)).mpr hprints, vlDecStr_eq hnz, hneg, hexp,
    dropTrailing_of_nonneg _ le_rfl, reverse_reverse,
    magText_whole le_rfl (.inr rfl) (Dec.ne_nil _), hd]
  simp

end Voila.Rt
