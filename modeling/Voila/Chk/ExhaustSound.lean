import Voila.Chk.Fresh

/-!
# Voila.Chk.ExhaustSound

`check_match` is exact on fair matches (`checkMatch_exact`): it reports nothing exactly
when every value of the subject's type, nil included, is matched by an unguarded arm.

The checker guesses a column's constructors from the patterns in it. The guess is right
where the patterns fit the column's type, with one exception: over `?E` it takes the
variants of `E` for the whole type when no `nil` stands beside them, and takes `Some(_)`
beside a variant for a pattern that matches nil. `Fair` says that no column the check
comes to is one of these; `someRed_green` is a match that is not, and is wrongly accepted.
-/

namespace Voila.Chk

open Lib List

variable {L : Type} {D : Decls}

/-! ### The guessed signature -/

/-- The keys are constructors of `t`, literals and exceptions' names. -/
def KeysOf (D : Decls) (t : Ty) (keys : List Key) : Prop :=
  ∀ k ∈ keys, k = .lit ∨ (∃ x, k = .other x) ∨ ∃ as, Of D t k as

/-- What makes a signature right for a column of `t` with these keys. -/
structure Signature (L : Type) (D : Decls) (t : Ty) (keys sig : List Key) : Prop where
  of : ∀ k ∈ sig, ∃ as, Of D t k as
  clash : ∀ k ∈ sig, ∀ j ∈ keys, k.clash j = false
  signs : (∀ k ∈ sig, k ∈ keys) → Signs L D t sig
  ne_nil : sig ≠ []

variable {v : Name}

theorem signature_of_variant {keys : List Key} (hv : .variant v ∈ keys) :
    ∃ w, .variant w ∈ keys ∧ D.signature keys =
      ((D.enumOf w).map Decls.variantKeys).getD [] ++ if Key.nil ∈ keys then [.nil] else [] := by
  cases hf : keys.findSome? Key.variantName with
  | none =>
    have := findSome?_eq_none_iff.mp hf _ hv
    simp [Key.variantName] at this
  | some w =>
    obtain ⟨k, hk, hkw⟩ := exists_of_findSome?_eq_some hf
    cases k <;> simp only [Key.variantName, Option.some.injEq, reduceCtorEq] at hkw
    subst hkw
    exact ⟨_, hk, by simp only [Decls.signature, hf]⟩

theorem signature_of_no_variant {keys : List Key} (hv : ∀ v, .variant v ∉ keys) :
    D.signature keys = (keys.findSome? D.keySignature).getD [] := by
  have hf : keys.findSome? Key.variantName = none := by
    refine findSome?_eq_none_iff.mpr fun k hk => ?_
    cases k with
    | variant v => exact absurd hk (hv v)
    | _ => rfl
  simp only [Decls.signature, hf]

/-- A key other than a variant stands for the constructors of its type. -/
theorem keySignature_of {t : Ty} {k : Key} {as : List Ty} (hk : Of D t k as)
    (hv : k.isVariant = false) :
    ∃ sig, D.keySignature k = some sig ∧ sig ≠ [] ∧ (∀ j ∈ sig, j.isVariant = false) ∧
      (∀ j ∈ sig, ∃ bs, Of D t j bs) ∧ Signs L D t sig := by
  cases hk with
  | bool b =>
    refine ⟨_, rfl, by simp, by simp [Key.isVariant], ?_, signs_bool⟩
    simp only [mem_cons, not_mem_nil, or_false, forall_eq_or_imp, forall_eq]
    exact ⟨⟨_, .bool true⟩, _, .bool false⟩
  | tuple ts =>
    refine ⟨_, rfl, by simp, by simp [Key.isVariant], ?_, signs_tuple _⟩
    simp only [mem_singleton, forall_eq]
    exact ⟨_, .tuple _⟩
  | struct hs =>
    refine ⟨[.struct _], by simp [Decls.keySignature, hs], by simp, by simp [Key.isVariant], ?_,
      signs_struct _⟩
    simp only [mem_singleton, forall_eq]
    exact ⟨_, .struct hs⟩
  | variant | optVariant => simp [Key.isVariant] at hv
  | nil | some =>
    refine ⟨_, rfl, by simp, by simp [Key.isVariant], ?_, signs_opt _⟩
    simp only [mem_cons, not_mem_nil, or_false, forall_eq_or_imp, forall_eq]
    exact ⟨⟨_, .some⟩, _, .nil⟩
  | ok | err =>
    refine ⟨_, rfl, by simp, by simp [Key.isVariant], ?_, signs_res _⟩
    simp only [mem_cons, not_mem_nil, or_false, forall_eq_or_imp, forall_eq]
    exact ⟨⟨_, .ok⟩, _, .err⟩

/-- Over `?E`, the variants of `E` and no `nil`. -/
def SkipsNil (D : Decls) (t : Ty) (keys : List Key) : Prop :=
  ∃ e ∈ D.enums, t = .opt (.enum e.name) ∧ e.variants ≠ [] ∧
    (∀ d ∈ e.variants, Key.variant d.name ∈ keys) ∧ Key.nil ∉ keys

theorem signature_enum (h : D.Sound) {t : Ty} {keys : List Key} (hkeys : KeysOf D t keys)
    (hmix : ∀ v, .variant v ∈ keys → .some ∉ keys) (hfair : ¬ SkipsNil D t keys)
    (hv : .variant v ∈ keys) : Signature L D t keys (D.signature keys) := by
  obtain ⟨w, hw, hsig⟩ := signature_of_variant hv
  obtain ⟨as, hof⟩ : ∃ as, Of D t (.variant w) as := by
    rcases hkeys _ hw with h | ⟨x, h⟩ | h <;> first | exact h | simp at h
  obtain ⟨e, d, he, hd, rfl, -, hname⟩ := of_variant hof
  rw [h.enumOf_eq he hd, Option.map_some, Option.getD_some] at hsig
  have hdec := h.enumDec_eq he
  have hsome := hmix _ hw
  have hclash : ∀ k ∈ D.signature keys, ∀ j ∈ keys, k.clash j = false := by
    intro k hk j hj
    have hjs : j ≠ .some := fun heq => hsome (heq ▸ hj)
    have hks : k ≠ .some := by
      rintro rfl
      simp [hsig, Decls.variantKeys] at hk
    simp [Key.clash, hjs, hks]
  have hne : D.signature keys ≠ [] := by
    rw [hsig]
    exact append_ne_nil_of_left_ne_nil
      (ne_nil_of_mem (mem_map_of_mem hd)) _
  rcases enumName_eq hname with rfl | rfl
  · have hnil : Key.nil ∉ keys := by
      intro hnil
      rcases hkeys _ hnil with h | ⟨x, h⟩ | ⟨as, h⟩ <;> cases h
    rw [if_neg hnil, append_nil] at hsig
    refine ⟨fun k hk => ?_, hclash, fun _ => hsig ▸ signs_enum h hdec, hne⟩
    obtain ⟨d', hd', rfl⟩ := mem_map.mp (hsig ▸ hk)
    exact ⟨_, .variant hdec hd'⟩
  · refine ⟨fun k hk => ?_, hclash, fun hall => ?_, hne⟩
    · rw [hsig] at hk
      rcases mem_append.mp hk with hk | hk
      · obtain ⟨d', hd', rfl⟩ := mem_map.mp hk
        exact ⟨_, .optVariant hdec hd'⟩
      · obtain rfl : k = .nil := by
          split_ifs at hk
          · exact mem_singleton.mp hk
          · simp at hk
        exact ⟨_, .nil⟩
    · -- all variants stand in the column, so `nil` does too
      have hnil : Key.nil ∈ keys := by
        by_contra hnil
        refine hfair ⟨e, he, rfl, ne_nil_of_mem hd, fun d' hd' => hall _ ?_, hnil⟩
        exact hsig ▸ mem_append_left _ (mem_map_of_mem hd')
      rw [hsig, if_pos hnil]
      exact signs_optEnum h hdec

/-- The guessed signature is the type's, unless no constructor of the type is named. -/
theorem signature_spec (h : D.Sound) {t : Ty} {keys : List Key} (hkeys : KeysOf D t keys)
    (hmix : ∀ v, .variant v ∈ keys → .some ∉ keys) (hfair : ¬ SkipsNil D t keys) :
    Signature L D t keys (D.signature keys) ∨
      (D.signature keys = [] ∧ ∀ k ∈ keys, k = .lit ∨ ∃ x, k = .other x) := by
  by_cases hv : ∃ v, .variant v ∈ keys
  · obtain ⟨v, hv⟩ := hv
    exact .inl (signature_enum h hkeys hmix hfair hv)
  · have hv : ∀ v, Key.variant v ∉ keys := not_exists.mp hv
    have hsig : D.signature keys = (keys.findSome? D.keySignature).getD [] :=
      signature_of_no_variant hv
    have hplain : ∀ k ∈ keys, k.isVariant = false := by
      intro k hk
      cases k with
      | variant v => exact absurd hk (hv v)
      | _ => rfl
    cases hf : keys.findSome? D.keySignature with
    | none =>
      rw [hf, Option.getD_none] at hsig
      refine .inr ⟨hsig, fun k hk => ?_⟩
      rcases hkeys k hk with hlit | hother | ⟨as, hof⟩
      · exact .inl hlit
      · exact .inr hother
      · obtain ⟨sig, hk', -⟩ := keySignature_of (L := L) hof (hplain k hk)
        rw [findSome?_eq_none_iff.mp hf k hk] at hk'
        simp at hk'
    | some sig =>
      rw [hf, Option.getD_some] at hsig
      obtain ⟨k, hk, hks⟩ := exists_of_findSome?_eq_some hf
      obtain ⟨as, hof⟩ : ∃ as, Of D t k as := by
        rcases hkeys k hk with rfl | ⟨x, rfl⟩ | h
        · simp [Decls.keySignature] at hks
        · simp [Decls.keySignature] at hks
        · exact h
      obtain ⟨sig', hsig', hne, hnov, hofs, hsigns⟩ := keySignature_of (L := L) hof (hplain k hk)
      obtain rfl := Option.some.inj (hks ▸ hsig')
      rw [hsig]
      refine .inl ⟨hofs, fun i hi j hj => ?_, fun _ => hsigns, hne⟩
      simp [Key.clash, hnov i hi, hplain j hj]

/-! ### The columns the check comes to -/

/-- Variants and `Some` meet in one column. -/
def Mixed (keys : List Key) : Prop :=
  (keys.any Key.isVariant && decide (Key.some ∈ keys)) = true

instance (keys : List Key) : Decidable (Mixed keys) := inferInstanceAs (Decidable (_ = true))

/-- Every constructor of the guessed signature is named. -/
def Complete (D : Decls) (keys : List Key) : Prop :=
  D.signature keys ≠ [] ∧ ∀ k ∈ D.signature keys, k ∈ keys

instance (keys : List Key) : Decidable (Complete D keys) := inferInstanceAs (Decidable (_ ∧ _))

/-- One call of `uncovered` comes to another, over columns of these types. -/
inductive Step (D : Decls) : List Ty × List (Row L) → List Ty × List (Row L) → Prop where
  | unwrap {t : Ty} {ts : List Ty} {rows : List (Row L)}
      (hmix : Mixed (D.keysOf (expandRows rows))) :
      Step D (t :: ts, rows) (t :: ts, (expandRows rows).map D.unwrapRow)
  | ctor {t : Ty} {ts : List Ty} {rows : List (Row L)} {k : Key} {as : List Ty}
      (hmix : ¬ Mixed (D.keysOf (expandRows rows)))
      (hall : Complete D (D.keysOf (expandRows rows)))
      (hk : k ∈ D.signature (D.keysOf (expandRows rows))) (hof : Of D t k as) :
      Step D (t :: ts, rows) (as ++ ts, D.specialize k (D.ctorArity k) (expandRows rows))
  | rest {t : Ty} {ts : List Ty} {rows : List (Row L)}
      (hmix : ¬ Mixed (D.keysOf (expandRows rows)))
      (hall : ¬ Complete D (D.keysOf (expandRows rows))) :
      Step D (t :: ts, rows) (ts, D.defaults (expandRows rows))

/-- Over the first column the check neither leaves nil out nor takes `Some(_)` for it. -/
def FairColumn (D : Decls) : List Ty × List (Row L) → Prop
  | ([], _) => True
  | (t :: _, rows) =>
    (Mixed (D.keysOf (expandRows rows)) → ∀ p rest, p :: rest ∈ expandRows rows →
      D.ctorKey p = some .some → ∀ q ∈ alternatives p.kid, D.ctorKey q ≠ none) ∧
    (¬ Mixed (D.keysOf (expandRows rows)) → ¬ SkipsNil D t (D.keysOf (expandRows rows)))

/-- So is every column that the check comes to. -/
def Fair (D : Decls) (s : List Ty × List (Row L)) : Prop :=
  ∀ s', Relation.ReflTransGen (Step D) s s' → FairColumn D s'

theorem Fair.step {s s' : List Ty × List (Row L)} (h : Fair D s) (hs : Step D s s') : Fair D s' :=
  fun _ hs' => h _ (.head hs hs')

/-! ### Rows over the columns' types -/

/-- The rows fit the types, and mention neither the literal nor the exception. -/
structure Over (D : Decls) (l : L) (x : Name) (ts : List Ty) (rows : List (Row L)) : Prop where
  fit : ∀ r ∈ rows, fitsAll D ts r = true
  avoid : ∀ r ∈ rows, ∀ p ∈ r, Avoids l x p

mutual

theorem fits_alternatives {t : Ty} : ∀ {p : Pat L}, fits D t p = true →
    ∀ q ∈ alternatives p, fits D t q = true
  | .node hd ks, h, q, hq => by
    simp only [alternatives] at hq
    split_ifs at hq with hor
    · cases hd <;> simp [Head.isOr] at hor
      exact fits_alternativesAll (by simpa [fits] using h) q hq
    · exact mem_singleton.mp hq ▸ h

theorem fits_alternativesAll {t : Ty} : ∀ {ps : List (Pat L)}, fitsEach D t ps = true →
    ∀ q ∈ alternativesAll ps, fits D t q = true
  | [], _, q, hq => by simp [alternativesAll] at hq
  | p :: ps, h, q, hq => by
    simp only [fitsEach, Bool.and_eq_true] at h
    rcases mem_append.mp hq with hq | hq
    · exact fits_alternatives h.1 q hq
    · exact fits_alternativesAll h.2 q hq

end

section

variable {l : L} {x : Name} {t : Ty} {ts : List Ty} {rows : List (Row L)}

theorem Over.head (h : Over D l x (t :: ts) rows) {p : Pat L} {rest : Row L}
    (hr : p :: rest ∈ rows) : fits D t p = true ∧ Avoids l x p := by
  have := h.fit _ hr
  simp only [fitsAll, Bool.and_eq_true] at this
  exact ⟨this.1, h.avoid _ hr p mem_cons_self⟩

theorem Over.expand (h : Over D l x ts rows) : Over D l x ts (expandRows rows) := by
  constructor
  · intro r hr
    obtain ⟨r₀, hr₀, hr⟩ := mem_flatMap.mp hr
    have hfit := h.fit r₀ hr₀
    cases r₀ with
    | nil => exact mem_singleton.mp hr ▸ hfit
    | cons p rest =>
      obtain ⟨q, hq, rfl⟩ := mem_map.mp hr
      cases ts with
      | nil => simp [fitsAll] at hfit
      | cons t ts =>
        simp only [fitsAll, Bool.and_eq_true] at hfit ⊢
        exact ⟨fits_alternatives hfit.1 q hq, hfit.2⟩
  · intro r hr p hp
    obtain ⟨r₀, hr₀, hr⟩ := mem_flatMap.mp hr
    cases r₀ with
    | nil =>
      obtain rfl := mem_singleton.mp hr
      simp at hp
    | cons p₀ rest =>
      obtain ⟨q, hq, rfl⟩ := mem_map.mp hr
      rcases mem_cons.mp hp with rfl | hp
      · exact (h.avoid _ hr₀ p₀ mem_cons_self).alternatives _ hq
      · exact h.avoid _ hr₀ p (mem_cons_of_mem _ hp)

/-- `specialize` and the rows it leaves out, as one replacement of first patterns. -/
theorem specialize_eq (k : Key) (ar : Nat) (rows : List (Row L)) :
    D.specialize k ar rows = takeApart (fun p =>
      if D.ctorKey p = none ∨ D.ctorKey p = some k then some (D.subPats k ar p) else none) rows := by
  unfold Decls.specialize takeApart
  congr 1
  funext r
  cases r with
  | nil => rfl
  | cons p rest => simp only [Decls.specRow]; split_ifs <;> rfl

theorem defaults_eq (rows : List (Row L)) :
    D.defaults rows = takeApart (fun p => if D.ctorKey p = none then some [] else none) rows := by
  unfold Decls.defaults takeApart
  congr 1
  funext r
  cases r with
  | nil => rfl
  | cons p rest => simp only; split_ifs <;> rfl

theorem subPats_wild {p : Pat L} (hkey : D.ctorKey p = none) (k : Key) (ar : Nat) :
    D.subPats k ar p = List.replicate ar Pat.none := by
  simp [Decls.subPats, hkey]

theorem Over.specialize (h : D.Sound) (hover : Over D l x (t :: ts) rows) {k : Key}
    {as : List Ty} (hof : Of D t k as) :
    Over D l x (as ++ ts) (D.specialize k (D.ctorArity k) rows) := by
  rw [specialize_eq, hof.arity h]
  constructor
  · intro r hr
    obtain ⟨p, rest, qs, hp, hqs, rfl⟩ := mem_takeApart.mp hr
    obtain ⟨hkey, rfl⟩ : (D.ctorKey p = none ∨ D.ctorKey p = some k) ∧
        D.subPats k as.length p = qs := by simpa using hqs
    refine fitsAll_append ?_ ?_
    · rcases hkey with hkey | hkey
      · rw [subPats_wild hkey]
        exact fitsAll_replicate_none as
      · exact fitsAll_subPats h hof (hover.head hp).1 hkey
    · have := hover.fit _ hp
      simp only [fitsAll, Bool.and_eq_true] at this
      exact this.2
  · intro r hr q hq
    obtain ⟨p, rest, qs, hp, hqs, rfl⟩ := mem_takeApart.mp hr
    obtain ⟨-, rfl⟩ : (D.ctorKey p = none ∨ D.ctorKey p = some k) ∧
        D.subPats k as.length p = qs := by simpa using hqs
    rcases mem_append.mp hq with hq | hq
    · exact (hover.head hp).2.subPats k _ q hq
    · exact hover.avoid _ hp q (mem_cons_of_mem _ hq)

theorem Over.defaults (hover : Over D l x (t :: ts) rows) : Over D l x ts (D.defaults rows) := by
  rw [defaults_eq]
  constructor
  · intro r hr
    obtain ⟨p, rest, qs, hp, hqs, rfl⟩ := mem_takeApart.mp hr
    obtain ⟨-, rfl⟩ : D.ctorKey p = none ∧ [] = qs := by simpa using hqs
    have := hover.fit _ hp
    simp only [fitsAll, Bool.and_eq_true] at this
    exact this.2
  · intro r hr q hq
    obtain ⟨p, rest, qs, hp, hqs, rfl⟩ := mem_takeApart.mp hr
    obtain ⟨-, rfl⟩ : D.ctorKey p = none ∧ [] = qs := by simpa using hqs
    exact hover.avoid _ hp q (mem_cons_of_mem _ hq)

theorem Over.keys (h : D.Sound) (hover : Over D l x (t :: ts) rows) (hexp : Expanded rows) :
    KeysOf D t (D.keysOf rows) := by
  intro k hk
  obtain ⟨p, rest, hr, hkey⟩ := Decls.exists_cons_of_mem_keysOf hk
  exact of_key h (hexp _ hr p rfl) (hover.head hr).1 hkey

/-! ### `Some(p)` beside variants -/

mutual

/-- What is written for `E` may be written for `?E`. -/
theorem fits_opt {n : Name} : ∀ {p : Pat L}, fits D (.enum n) p = true →
    fits D (.opt (.enum n)) p = true
  | .node .or ks, h => by
    simp only [fits] at h ⊢
    exact fitsEach_opt h
  | .node .wild _, _ => by simp [fits]
  | .node (.bind _) _, _ => by simp [fits]
  | .node (.lit _) _, _ => by simp [fits]
  | .node (.field _) _, h => by simp [fits] at h
  | .node .nil _, h => by simp [fits] at h
  | .node (.bool _) _, h => by simp [fits] at h
  | .node .tuple _, h => by simp [fits] at h
  | .node (.struct _) _, h => by simp [fits] at h
  | .node (.variant name) ks, h => by
    simp only [fits] at h ⊢
    split_ifs at h ⊢
    exact h

theorem fitsEach_opt {n : Name} : ∀ {ps : List (Pat L)}, fitsEach D (.enum n) ps = true →
    fitsEach D (.opt (.enum n)) ps = true
  | [], _ => by simp [fitsEach]
  | p :: ps, h => by
    simp only [fitsEach, Bool.and_eq_true] at h ⊢
    exact ⟨fits_opt h.1, fitsEach_opt h.2⟩

end

/-- Only over `?E` do variants and `Some` meet. -/
theorem mixed_opt {keys : List Key} (hkeys : KeysOf D t keys) (hmix : Mixed keys) :
    ∃ n, t = .opt (.enum n) := by
  simp only [Mixed, Bool.and_eq_true, any_eq_true, decide_eq_true_eq] at hmix
  obtain ⟨⟨k, hk, hvar⟩, hsome⟩ := hmix
  rcases hkeys _ hsome with heq | ⟨y, heq⟩ | ⟨as, hof⟩
  · simp at heq
  · simp at heq
  · rcases hkeys _ hk with rfl | ⟨y, rfl⟩ | ⟨bs, hk⟩
    · simp [Key.isVariant] at hvar
    · simp [Key.isVariant] at hvar
    · cases k <;> simp [Key.isVariant] at hvar
      obtain ⟨e, -, -, -, -, -, hname⟩ := of_variant hk
      rcases enumName_eq hname with rfl | rfl
      · cases hof
      · exact ⟨_, rfl⟩

theorem some_pats {n : Name} {p : Pat L} (hfit : fits D (.opt (.enum n)) p = true)
    (hkey : D.ctorKey p = some .some) :
    ∃ ks, p = .node (.variant someName) ks ∧ fitsOnly D (.enum n) ks = true := by
  obtain ⟨hd, ks⟩ := p
  obtain rfl : hd = .variant someName := shaped_of_key hkey
  exact ⟨ks, rfl, by simpa [fits] using hfit⟩

theorem Over.unwrap (h : D.Sound) (hover : Over D l x (t :: ts) rows) (hexp : Expanded rows)
    (hmix : Mixed (D.keysOf rows)) : Over D l x (t :: ts) (rows.map D.unwrapRow) := by
  obtain ⟨n, rfl⟩ := mixed_opt (hover.keys h hexp) hmix
  constructor
  · intro r hr
    obtain ⟨r₀, hr₀, rfl⟩ := mem_map.mp hr
    have hfit := hover.fit r₀ hr₀
    cases r₀ with
    | nil => exact hfit
    | cons p rest =>
      simp only [Decls.unwrapRow, fitsAll, Bool.and_eq_true] at hfit ⊢
      refine ⟨?_, hfit.2⟩
      split_ifs with hkey
      · obtain ⟨ks, rfl, hks⟩ := some_pats hfit.1 hkey
        exact fits_opt (onlyPats_fits hks)
      · exact hfit.1
  · intro r hr p hp
    obtain ⟨r₀, hr₀, rfl⟩ := mem_map.mp hr
    cases r₀ with
    | nil => simp [Decls.unwrapRow] at hp
    | cons p₀ rest =>
      rcases mem_cons.mp hp with rfl | hp
      · split_ifs
        · exact (hover.avoid _ hr₀ p₀ mem_cons_self).kid
        · exact hover.avoid _ hr₀ p₀ mem_cons_self
      · exact hover.avoid _ hr₀ p (mem_cons_of_mem _ hp)

theorem uncovered_zero (rows : List (Row L)) :
    D.uncovered rows 0 = (expandRows rows).isEmpty := by
  rw [Decls.uncovered]

variable {n : Nat}

theorem uncovered_unwrap (hmix : Mixed (D.keysOf (expandRows rows))) :
    D.uncovered rows (n + 1) = D.uncovered ((expandRows rows).map D.unwrapRow) (n + 1) := by
  rw [Decls.uncovered]
  exact dif_pos hmix

theorem uncovered_ctor (hmix : ¬ Mixed (D.keysOf (expandRows rows)))
    (hall : Complete D (D.keysOf (expandRows rows))) :
    D.uncovered rows (n + 1) = true ↔ ∃ k ∈ D.signature (D.keysOf (expandRows rows)),
      D.uncovered (D.specialize k (D.ctorArity k) (expandRows rows)) (D.ctorArity k + n) = true := by
  unfold Mixed at hmix
  unfold Complete at hall
  rw [Decls.uncovered, dif_neg hmix, dif_pos hall]
  simp

theorem uncovered_rest (hmix : ¬ Mixed (D.keysOf (expandRows rows)))
    (hall : ¬ Complete D (D.keysOf (expandRows rows))) :
    D.uncovered rows (n + 1) = D.uncovered (D.defaults (expandRows rows)) n := by
  unfold Mixed at hmix
  unfold Complete at hall
  rw [Decls.uncovered, dif_neg hmix, dif_neg hall]

theorem Over.nil_rows (h : Over D l x [] rows) : ∀ r ∈ rows, r = [] := by
  intro r hr
  have := h.fit r hr
  cases r <;> simp_all [fitsAll]

theorem not_mixed {keys : List Key} (hmix : ¬ Mixed keys) (v : Name) (hv : .variant v ∈ keys) :
    .some ∉ keys := by
  intro hsome
  refine hmix ?_
  simp only [Mixed, Bool.and_eq_true, any_eq_true, decide_eq_true_eq]
  exact ⟨⟨_, hv, rfl⟩, hsome⟩

/-- Every type has a value. -/
def Peopled (L : Type) (D : Decls) : Prop := ∀ t : Ty, t.ok D = true → ∃ v : Val L, HasTy D t v

theorem Peopled.bleached (h : Peopled L D) {t : Ty} (ht : t.ok D = true) :
    ∃ v : Val L, HasTy D t v ∧ v.bleach l x = v := by
  obtain ⟨v, hv⟩ := h t ht
  exact ⟨v.bleach l x, hv.bleach, bleach_bleach v⟩

theorem Peopled.bleachedAll (h : Peopled L D) {ts : List Ty} (hts : Ty.oks D ts = true) :
    ∃ vs : List (Val L), HasTys D ts vs ∧ bleachAll l x vs = vs := by
  induction ts with
  | nil => exact ⟨[], .nil, rfl⟩
  | cons t ts ih =>
    simp only [Ty.oks, Bool.and_eq_true] at hts
    obtain ⟨v, hv, hb⟩ := h.bleached (l := l) (x := x) hts.1
    obtain ⟨vs, hvs, hbs⟩ := ih hts.2
    exact ⟨v :: vs, .cons hv hvs, by simp only [bleachAll, hb, hbs]⟩

theorem oks_append {as ts : List Ty} (has : Ty.oks D as = true) (hts : Ty.oks D ts = true) :
    Ty.oks D (as ++ ts) = true := by
  induction as with
  | nil => exact hts
  | cons a as ih =>
    simp only [Ty.oks, cons_append, Bool.and_eq_true] at has ⊢
    exact ⟨has.1, ih has.2⟩

end

/-! ### What the rows miss -/

section

variable [DecidableEq L]

mutual

theorem vlMatch_alternatives : ∀ (p : Pat L) (v : Val L),
    vlMatch D p v = true ↔ ∃ q ∈ alternatives p, vlMatch D q v = true
  | .node hd ks, v => by
    simp only [alternatives]
    split_ifs with hor
    · cases hd <;> simp [Head.isOr] at hor
      simpa only [vlMatch] using vlMatch_alternativesAll ks v
    · simp

theorem vlMatch_alternativesAll : ∀ (ps : List (Pat L)) (v : Val L),
    anyMatch D ps v = true ↔ ∃ q ∈ alternativesAll ps, vlMatch D q v = true
  | [], v => by simp [anyMatch, alternativesAll]
  | p :: ps, v => by
    simp only [anyMatch, alternativesAll, Bool.or_eq_true, mem_append, or_and_right,
      exists_or]
    rw [vlMatch_alternatives p v, vlMatch_alternativesAll ps v]

end

variable {vs : List (Val L)} {n : Name} {v : Val L}

theorem misses_expandRows {rows : List (Row L)} :
    Misses (vlMatch D) (expandRows rows) vs ↔ Misses (vlMatch D) rows vs := by
  refine misses_flatMap fun r _ => ?_
  cases r with
  | nil => simp [expandRow]
  | cons p rest =>
    cases vs with
    | nil =>
      refine ⟨fun hacc => (by cases hacc), ?_⟩
      rintro ⟨r', hr', hacc⟩
      obtain ⟨q, -, rfl⟩ := mem_map.mp hr'
      cases hacc
    | cons v vs =>
      rw [accepts_cons, vlMatch_alternatives p v]
      constructor
      · rintro ⟨⟨q, hq, hv⟩, hrest⟩
        exact ⟨_, mem_map_of_mem hq, accepts_cons.mpr ⟨hv, hrest⟩⟩
      · rintro ⟨r', hr', hacc⟩
        obtain ⟨q, hq, rfl⟩ := mem_map.mp hr'
        obtain ⟨hv, hrest⟩ := accepts_cons.mp hacc
        exact ⟨⟨q, hq, hv⟩, hrest⟩

/-- A pattern for `E` that is no wildcard does not match nil. -/
theorem vlMatch_nil (h : D.Sound) {p : Pat L} (hfit : fits D (.enum n) p = true)
    (hwild : ∀ q ∈ alternatives p, D.ctorKey q ≠ none) : vlMatch D p .nil = false := by
  by_contra hmatch
  obtain ⟨q, hq, hv⟩ := (vlMatch_alternatives p _).mp (by simpa using hmatch)
  have hor := isOr_alternatives p q hq
  obtain ⟨k, hk⟩ := Option.ne_none_iff_exists'.mp (hwild q hq)
  have hshape := shaped_of_key hk
  have hname : ∀ name ks, Named name → q = .node (.variant name) ks → False := by
    rintro name ks hname rfl
    simp [vlMatch_variant hname] at hv
  rcases of_key h hor (fits_alternatives hfit q hq) hk with rfl | ⟨y, rfl⟩ | ⟨as, hof⟩
  · obtain ⟨hd, ks⟩ := q
    rcases hshape with ⟨m, rfl⟩ | ⟨f, rfl⟩ | rfl
    · simp [vlMatch] at hv
    · simp [vlMatch] at hv
    · simp [Head.isOr] at hor
  · obtain ⟨hd, ks⟩ := q
    obtain ⟨rfl, hn, -⟩ := hshape
    exact hname _ _ hn rfl
  · cases hof
    obtain ⟨hd, ks⟩ := q
    obtain ⟨name, rfl, hn, -⟩ := hshape
    exact hname _ _ hn rfl

theorem vlMatch_unwrap (h : D.Sound) {p : Pat L}
    (hv : HasTy D (.opt (.enum n)) v) (hfit : fits D (.opt (.enum n)) p = true)
    (hkey : D.ctorKey p = some .some) (hwild : ∀ q ∈ alternatives p.kid, D.ctorKey q ≠ none) :
    vlMatch D p.kid v = vlMatch D p v := by
  obtain ⟨ks, rfl, hks⟩ := some_pats hfit hkey
  have honly := onlyMatch_iff hks v
  cases hv with
  | nil =>
    rw [Pat.kid_node] at hwild ⊢
    rw [vlMatch_nil h (onlyPats_fits hks) hwild]
    simp [vlMatch, Val.isNil]
  | some hv =>
    have hnil := hv.isNil_eq rfl
    simp only [vlMatch, hnil, if_true, Bool.not_false, Bool.true_and, honly, Pat.kid_node]

theorem misses_unwrap (h : D.Sound) {l : L} {x : Name} {t : Ty} {ts : List Ty}
    {rows : List (Row L)} (hover : Over D l x (t :: ts) rows) (hexp : Expanded rows)
    (hmix : Mixed (D.keysOf rows)) (hfair : ∀ p rest, p :: rest ∈ rows → D.ctorKey p = some .some →
      ∀ q ∈ alternatives p.kid, D.ctorKey q ≠ none) (hvs : HasTys D (t :: ts) vs) :
    Misses (vlMatch D) (rows.map D.unwrapRow) vs ↔ Misses (vlMatch D) rows vs := by
  obtain ⟨n, rfl⟩ := mixed_opt (hover.keys h hexp) hmix
  obtain ⟨v, vs, rfl, hv, -⟩ := hasTys_cons.mp hvs
  have hrow : ∀ r ∈ rows, Accepts (vlMatch D) (D.unwrapRow r) (v :: vs) ↔
      Accepts (vlMatch D) r (v :: vs) := by
    intro r hr
    cases r with
    | nil => rfl
    | cons p rest =>
      simp only [Decls.unwrapRow, accepts_cons]
      split_ifs with hkey
      · rw [vlMatch_unwrap h hv (hover.head hr).1 hkey (hfair p rest hr hkey)]
      · rfl
  constructor
  · exact fun hmiss r hr hacc => hmiss _ (mem_map_of_mem hr) ((hrow r hr).mpr hacc)
  · rintro hmiss r' hr' hacc
    obtain ⟨r, hr, rfl⟩ := mem_map.mp hr'
    exact hmiss r hr ((hrow r hr).mp hacc)

section

variable {l : L} {x : Name}

theorem vlMatch_wild {p : Pat L} (hor : p.head.isOr = false) (hkey : D.ctorKey p = none)
    (v : Val L) : vlMatch D p v = true := by
  obtain ⟨hd, ks⟩ := p
  cases hd with
  | wild | bind => simp [vlMatch]
  | or => simp [Head.isOr] at hor
  | variant name =>
    simp only [Decls.ctorKey, Pat.head_node] at hkey
    split_ifs at hkey
  | _ => simp [Decls.ctorKey] at hkey

variable {t : Ty} {ts : List Ty} {rows : List (Row L)}

variable {v : Val L} {vs : List (Val L)} {k : Key} {as : List Ty}

/-- A value that no key of the column stands for is matched by the wildcards only. -/
theorem misses_of_defaults
    (hv : ∀ p rest, p :: rest ∈ rows → D.ctorKey p ≠ none → vlMatch D p v = false)
    (hmiss : Misses (vlMatch D) (D.defaults rows) vs) : Misses (vlMatch D) rows (v :: vs) := by
  rw [defaults_eq, ← nil_append vs] at hmiss
  refine Misses.of_takeApart ?_ ?_ hmiss
  · intro p rest _ qs hqs
    obtain ⟨-, rfl⟩ : D.ctorKey p = none ∧ [] = qs := by simpa using hqs
    rfl
  · intro p rest hr hmatch
    by_cases hkey : D.ctorKey p = none
    · exact ⟨[], by simp [hkey], accepts_nil⟩
    · simp [hv p rest hr hkey] at hmatch

theorem misses_defaults (hexp : Expanded rows)
    (hmiss : Misses (vlMatch D) rows (v :: vs)) : Misses (vlMatch D) (D.defaults rows) vs := by
  rw [defaults_eq, ← nil_append vs]
  refine Misses.to_takeApart (v := v) ?_ ?_ hmiss
  · intro p rest _ qs hqs
    obtain ⟨-, rfl⟩ : D.ctorKey p = none ∧ [] = qs := by simpa using hqs
    rfl
  · intro p rest hr qs hqs _
    obtain ⟨hkey, -⟩ : D.ctorKey p = none ∧ [] = qs := by simpa using hqs
    exact vlMatch_wild (hexp _ hr p rfl) hkey v

/-- Under the constructor that made it, a missed value's parts are missed. -/
theorem misses_specialize (h : D.Sound) (ht : t.ok D = true) (hover : Over D l x (t :: ts) rows)
    (hexp : Expanded rows) (hof : Of D t k as) {us vs : List (Val L)}
    (hus : HasTys D as us) (hmiss : Misses (vlMatch D) rows (build D k us :: vs)) :
    Misses (vlMatch D) (D.specialize k (D.ctorArity k) rows) (us ++ vs) := by
  rw [specialize_eq, hof.arity h]
  refine Misses.to_takeApart (v := build D k us) ?_ ?_ hmiss
  · intro p rest hr qs hqs
    obtain ⟨hkey, rfl⟩ : (D.ctorKey p = none ∨ D.ctorKey p = some k) ∧
        D.subPats k as.length p = qs := by simpa using hqs
    rw [hus.length_eq]
    rcases hkey with hkey | hkey
    · simp [subPats_wild hkey]
    · exact fitsAll_length (fitsAll_subPats h hof (hover.head hr).1 hkey)
  · intro p rest hr qs hqs hacc
    obtain ⟨hkey, rfl⟩ : (D.ctorKey p = none ∨ D.ctorKey p = some k) ∧
        D.subPats k as.length p = qs := by simpa using hqs
    rcases hkey with hkey | hkey
    · exact vlMatch_wild (hexp _ hr p rfl) hkey _
    · exact (vlMatch_build h ht hof hus (hover.head hr).1 hkey).mpr hacc

/-- And a bleached value whose parts are missed is missed. -/
theorem misses_of_specialize (h : D.Sound) (ht : t.ok D = true)
    (hover : Over D l x (t :: ts) rows) (hexp : Expanded rows)
    (hof : Of D t k as) (hclash : ∀ j ∈ D.keysOf rows, k.clash j = false) {us vs : List (Val L)}
    (hus : HasTys D as us) (hbleach : bleachAll l x us = us)
    (hmiss : Misses (vlMatch D) (D.specialize k (D.ctorArity k) rows) (us ++ vs)) :
    Misses (vlMatch D) rows (build D k us :: vs) := by
  rw [specialize_eq, hof.arity h] at hmiss
  refine Misses.of_takeApart ?_ ?_ hmiss
  · intro p rest hr qs hqs
    obtain ⟨hkey, rfl⟩ : (D.ctorKey p = none ∨ D.ctorKey p = some k) ∧
        D.subPats k as.length p = qs := by simpa using hqs
    rw [hus.length_eq]
    rcases hkey with hkey | hkey
    · simp [subPats_wild hkey]
    · exact fitsAll_length (fitsAll_subPats h hof (hover.head hr).1 hkey)
  · intro p rest hr hmatch
    obtain ⟨hfit, havoid⟩ := hover.head hr
    have hor := hexp _ hr p rfl
    cases hkey : D.ctorKey p with
    | none =>
      refine ⟨D.subPats k as.length p, by simp, ?_⟩
      rw [subPats_wild hkey, ← hus.length_eq]
      exact accepts_replicate_none us
    | some j =>
      by_cases hkj : k = j
      · subst hkj
        exact ⟨D.subPats k as.length p, by simp,
          (vlMatch_build h ht hof hus hfit hkey).mp hmatch⟩
      · have hmem : j ∈ D.keysOf rows := Decls.mem_keysOf.mpr ⟨_, hr, by simpa [Decls.rowKey]⟩
        have hfalse : vlMatch D p (build D k us) = false := by
          rcases of_key h hor hfit hkey with hlit | hother | ⟨bs, hj⟩
          · exact vlMatch_literal (build_hasTy h hof hus) (build_bleach hof hus hbleach) havoid hor
              hfit hkey (.inl hlit)
          · exact vlMatch_literal (build_hasTy h hof hus) (build_bleach hof hus hbleach) havoid hor
              hfit hkey (.inr hother)
          · exact vlMatch_build_ne h ht hof hj hus hfit hkey hkj (hclash j hmem)
        simp [hfalse] at hmatch

/-- A value of the column that only its wildcards match, where some constructor is not named. -/
theorem exists_unnamed (h : D.Sound) (hP : Peopled L D) (ht : t.ok D = true)
    (hover : Over D l x (t :: ts) rows) (hexp : Expanded rows)
    (hmix : ¬ Mixed (D.keysOf rows)) (hskip : ¬ SkipsNil D t (D.keysOf rows))
    (hall : ¬ Complete D (D.keysOf rows)) :
    ∃ v : Val L, HasTy D t v ∧ v.bleach l x = v ∧
      ∀ p rest, p :: rest ∈ rows → D.ctorKey p ≠ none → vlMatch D p v = false := by
  have hkeys := hover.keys h hexp
  rcases signature_spec (L := L) h hkeys (not_mixed hmix) hskip with hsig | ⟨-, hlits⟩
  · obtain ⟨k, hk, hnot⟩ : ∃ k ∈ D.signature (D.keysOf rows), k ∉ D.keysOf rows := by
      by_contra hno
      exact hall ⟨hsig.ne_nil, fun k hk => by
        by_contra hkn
        exact hno ⟨k, hk, hkn⟩⟩
    obtain ⟨as, hof⟩ := hsig.of k hk
    obtain ⟨us, hus, hbleach⟩ := hP.bleachedAll (l := l) (x := x) (hof.oks h ht)
    refine ⟨_, build_hasTy h hof hus, build_bleach hof hus hbleach, fun p rest hr hp => ?_⟩
    obtain ⟨hfit, havoid⟩ := hover.head hr
    have hor := hexp _ hr p rfl
    obtain ⟨j, hj⟩ := Option.ne_none_iff_exists'.mp hp
    have hmem : j ∈ D.keysOf rows := Decls.mem_keysOf.mpr ⟨_, hr, by simpa [Decls.rowKey]⟩
    have hlit : (j = .lit ∨ ∃ y, j = .other y) → vlMatch D p (build D k us) = false :=
      vlMatch_literal (build_hasTy h hof hus) (build_bleach hof hus hbleach) havoid hor hfit hj
    rcases of_key h hor hfit hj with hl | hy | ⟨bs, hofj⟩
    · exact hlit (.inl hl)
    · exact hlit (.inr hy)
    · exact vlMatch_build_ne h ht hof hofj hus hfit hj (fun heq => hnot (heq ▸ hmem))
        (hsig.clash k hk j hmem)
  · obtain ⟨v, hv, hbleach⟩ := hP.bleached (l := l) (x := x) ht
    refine ⟨v, hv, hbleach, fun p rest hr hp => ?_⟩
    obtain ⟨hfit, havoid⟩ := hover.head hr
    obtain ⟨j, hj⟩ := Option.ne_none_iff_exists'.mp hp
    have hmem : j ∈ D.keysOf rows := Decls.mem_keysOf.mpr ⟨_, hr, by simpa [Decls.rowKey]⟩
    exact vlMatch_literal hv hbleach havoid (hexp _ hr p rfl) hfit hj (hlits j hmem)

/-- `uncovered` finds out whether the rows miss a vector, and a bleached one if any. -/
theorem uncovered_spec (h : D.Sound) (hP : Peopled L D) (rows : List (Row L)) (n : Nat) :
    ∀ ts : List Ty, ts.length = n → Ty.oks D ts = true → Over D l x ts rows →
      Fair D (ts, rows) →
      (∀ vs : List (Val L), HasTys D ts vs → Misses (vlMatch D) rows vs →
        D.uncovered rows n = true) ∧
      (D.uncovered rows n = true → ∃ vs : List (Val L), HasTys D ts vs ∧ bleachAll l x vs = vs ∧
        Misses (vlMatch D) rows vs) := by
  induction rows, n using Decls.uncovered.induct (D := D) with
  | case1 rows =>
    intro ts hlen _ hover _
    obtain rfl := length_eq_zero_iff.mp hlen
    rw [uncovered_zero, List.isEmpty_iff]
    have hnil := hover.expand.nil_rows
    constructor
    · intro vs hvs hmiss
      obtain rfl := hasTys_nil.mp hvs
      refine eq_nil_iff_forall_not_mem.mpr fun r hr => ?_
      exact misses_expandRows.mpr hmiss r hr (hnil r hr ▸ accepts_nil)
    · intro hempty
      refine ⟨[], .nil, rfl, misses_expandRows.mp fun r hr => ?_⟩
      simp [hempty] at hr
  | case2 rows n hmix ih =>
    intro ts hlen hts hover hfair
    obtain ⟨t, ts, rfl⟩ := exists_cons_of_length_eq_add_one hlen
    have hexp := expanded_expandRows rows
    obtain ⟨hmiss, hfind⟩ := ih (t :: ts) hlen hts (hover.expand.unwrap h hexp hmix)
      (hfair.step (.unwrap hmix))
    have hiff := fun vs (hvs : HasTys D (t :: ts) vs) =>
      (misses_unwrap h hover.expand hexp hmix ((hfair _ .refl).1 hmix) hvs).trans misses_expandRows
    rw [uncovered_unwrap hmix]
    refine ⟨fun vs hvs hm => hmiss vs hvs ((hiff vs hvs).mpr hm), fun hu => ?_⟩
    obtain ⟨vs, hvs, hbleach, hm⟩ := hfind hu
    exact ⟨vs, hvs, hbleach, (hiff vs hvs).mp hm⟩
  | case3 rows n hmix hall ih =>
    intro ts hlen hts hover hfair
    obtain ⟨t, ts, rfl⟩ := exists_cons_of_length_eq_add_one hlen
    have hexp := expanded_expandRows rows
    have hkeys := hover.expand.keys h hexp
    have hsig : Signature L D t _ (D.signature (D.keysOf (expandRows rows))) :=
      (signature_spec h hkeys (not_mixed hmix) ((hfair _ .refl).2 hmix)).resolve_right
        fun hnone => hall.1 hnone.1
    simp only [Ty.oks, Bool.and_eq_true] at hts
    have ih' : ∀ k (hk : k ∈ D.signature (D.keysOf (expandRows rows))) as (hof : Of D t k as), _ :=
      fun k hk as hof => ih ⟨k, hk⟩ (as ++ ts)
        (by simp [hof.arity h, Nat.succ_injective hlen])
        (oks_append (hof.oks h hts.1) hts.2) (hover.expand.specialize h hof)
        (hfair.step (.ctor hmix hall hk hof))
    rw [uncovered_ctor hmix hall]
    constructor
    · intro vs hvs hmiss
      obtain ⟨v, vs, rfl, hv, hrest⟩ := hasTys_cons.mp hvs
      obtain ⟨k, hk, as, us, hof, hus, rfl⟩ := hsig.signs hall.2 v hv
      refine ⟨k, hk, (ih' k hk as hof).1 (us ++ vs) (hus.append hrest) ?_⟩
      exact misses_specialize h hts.1 hover.expand hexp hof hus (misses_expandRows.mpr hmiss)
    · rintro ⟨k, hk, hu⟩
      obtain ⟨as, hof⟩ := hsig.of k hk
      obtain ⟨ws, hws, hbleach, hmiss⟩ := (ih' k hk as hof).2 hu
      obtain ⟨us, vs, rfl, hus, hvs⟩ := hws.split
      obtain ⟨hbus, hbvs⟩ := bleachAll_eq_append hbleach
      refine ⟨build D k us :: vs, .cons (build_hasTy h hof hus) hvs, ?_, ?_⟩
      · simp only [bleachAll, build_bleach hof hus hbus, hbvs]
      · exact misses_expandRows.mp
          (misses_of_specialize h hts.1 hover.expand hexp hof (hsig.clash k hk) hus hbus hmiss)
  | case4 rows n hmix hall ih =>
    intro ts hlen hts hover hfair
    obtain ⟨t, ts, rfl⟩ := exists_cons_of_length_eq_add_one hlen
    have hexp := expanded_expandRows rows
    simp only [Ty.oks, Bool.and_eq_true] at hts
    obtain ⟨hmiss, hfind⟩ := ih ts (Nat.succ_injective hlen) hts.2 hover.expand.defaults
      (hfair.step (.rest hmix hall))
    rw [uncovered_rest hmix hall]
    constructor
    · intro vs hvs hm
      obtain ⟨v, vs, rfl, hv, hvs⟩ := hasTys_cons.mp hvs
      exact hmiss vs hvs (misses_defaults hexp (misses_expandRows.mpr hm))
    · intro hu
      obtain ⟨vs, hvs, hbvs, hm⟩ := hfind hu
      obtain ⟨v, hv, hbv, hnot⟩ := exists_unnamed h hP hts.1 hover.expand hexp hmix
        ((hfair _ .refl).2 hmix) hall
      refine ⟨v :: vs, .cons hv hvs, by simp only [bleachAll, hbv, hbvs], ?_⟩
      exact misses_expandRows.mp (misses_of_defaults hnot hm)

end

/-! ### The whole match -/

/-- The patterns an arm is judged by. -/
def judged (arms : List (Arm L)) : List (Pat L) := arms.filterMap Arm.proves

/-- Some unguarded arm matches the value. -/
def Matched (D : Decls) (arms : List (Arm L)) (v : Val L) : Prop :=
  ∃ a ∈ arms, a.guarded = false ∧ ∃ p ∈ a.pat, vlMatch D p v = true

/-- `check_match` is right about a match over `t`: it reports nothing exactly when every
    value is matched by an unguarded arm. -/
def Exact (D : Decls) (t : Ty) (arms : List (Arm L)) : Prop :=
  D.checkMatch arms = none ↔ ∀ v : Val L, HasTy D t v → Matched D arms v

theorem matched_iff {arms : List (Arm L)} :
    Matched D arms v ↔ ∃ p ∈ judged arms, vlMatch D p v = true := by
  constructor
  · rintro ⟨a, ha, hg, p, hp, hv⟩
    exact ⟨p, mem_filterMap.mpr ⟨a, ha, by simp [Arm.proves, hg, Option.mem_def.mp hp]⟩, hv⟩
  · rintro ⟨p, hp, hv⟩
    obtain ⟨a, ha, hap⟩ := mem_filterMap.mp hp
    simp only [Arm.proves] at hap
    split_ifs at hap with hg
    exact ⟨a, ha, by simpa using hg, p, hap, hv⟩

omit [DecidableEq L] in
/-- Some exception's name stands in no pattern. -/
theorem exists_fresh (ps : List (Pat L)) : ∃ x : Name, ∀ p ∈ ps, .variant x ∉ p.heads := by
  obtain ⟨x, hx⟩ := Infinite.exists_notMem_finset
    ((headsAll ps).filterMap fun h => match h with
      | .variant n => some n
      | _ => none).toFinset
  refine ⟨x, fun p hp hmem => hx ?_⟩
  rw [mem_toFinset, mem_filterMap]
  exact ⟨_, mem_headsAll.mpr ⟨p, hp, hmem⟩, rfl⟩

/-- On a match whose arms are written for the subject's type and leave some literal out, the
    check is exact if the match is fair. -/
theorem checkMatch_exact (h : D.Sound) (hP : Peopled L D) {t : Ty} (ht : t.ok D = true)
    (arms : List (Arm L)) (hfit : ∀ p ∈ judged arms, fits D t p = true)
    (hlit : ∃ l : L, ∀ p ∈ judged arms, .lit l ∉ p.heads)
    (hfair : Fair D ([t], (judged arms).map fun p => [p])) : Exact D t arms := by
  obtain ⟨l, hl⟩ := hlit
  obtain ⟨x, hx⟩ := exists_fresh (judged arms)
  have hover : Over D l x [t] ((judged arms).map fun p => [p]) := by
    constructor
    · intro r hr
      obtain ⟨p, hp, rfl⟩ := mem_map.mp hr
      simp [fitsAll, hfit p hp]
    · intro r hr q hq
      obtain ⟨p, hp, rfl⟩ := mem_map.mp hr
      obtain rfl := mem_singleton.mp hq
      exact fun hd hhd => ⟨fun heq => hl q hp (heq ▸ hhd), fun heq => hx q hp (heq ▸ hhd)⟩
  have hspec := uncovered_spec h hP _ 1 [t] rfl (by simp [Ty.oks, ht]) hover hfair
  have hmiss : ∀ v : Val L, Misses (vlMatch D) ((judged arms).map fun p => [p]) [v] ↔
      ¬ Matched D arms v := by
    intro v
    rw [matched_iff]
    constructor
    · rintro hm ⟨p, hp, hv⟩
      exact hm _ (mem_map_of_mem hp) (by simp [hv])
    · rintro hno r hr hacc
      obtain ⟨p, hp, rfl⟩ := mem_map.mp hr
      exact hno ⟨p, hp, (accepts_cons.mp hacc).1⟩
  have hreport : D.checkMatch arms = none ↔
      ¬ D.uncovered ((judged arms).map fun p => [p]) 1 = true := by
    rw [Decls.checkMatch]
    simp only [judged]
    split_ifs <;> simp_all
  rw [Exact, hreport]
  constructor
  · intro hcov v hv
    by_contra hno
    exact hcov (hspec.1 [v] (.cons hv .nil) ((hmiss v).mpr hno))
  · intro hall hunc
    obtain ⟨vs, hvs, -, hm⟩ := hspec.2 hunc
    obtain ⟨v, rfl, hv⟩ := hasTys_singleton.mp hvs
    exact (hmiss v).mp hm (hall v hv)

end

/-! ### `enum Light { Red, Green }` -/

def red : Name := ["Red".toList]
def green : Name := ["Green".toList]
def light : Name := ["Light".toList]

def lights : Decls :=
  { enums := [{ name := light, variants := [⟨red, []⟩, ⟨green, []⟩] }], structs := [] }

/-- `?Light`. -/
def optLight : Ty := .opt (.enum light)

def redPat : Pat Nat := .node (.variant red) []
def greenPat : Pat Nat := .node (.variant green) []
def someRedPat : Pat Nat := .node (.variant someName) [redPat]
def nilPat : Pat Nat := .node .nil []

/-- The arms of a match without guards. -/
def unguarded (ps : List (Pat Nat)) : List (Arm Nat) := ps.map fun p => ⟨false, some p⟩

/-- Both variants and no `nil`: nothing is found missing. -/
theorem red_green_covered : lights.uncovered [[redPat], [greenPat]] 1 = false := by
  have hsig : lights.signature (lights.keysOf (expandRows [[redPat], [greenPat]])) =
      [.variant red, .variant green] := rfl
  rw [← Bool.not_eq_true, uncovered_ctor (by decide) (by decide), hsig]
  rintro ⟨k, hk, hu⟩
  rcases mem_cons.mp hk with rfl | hk
  · exact absurd (uncovered_zero _ ▸ hu) (by decide)
  · obtain rfl := mem_singleton.mp hk
    exact absurd (uncovered_zero _ ▸ hu) (by decide)

/-- `match o { Some(Red) => …; Green => … }` is accepted, and nil is not matched. -/
theorem someRed_green_not_exact : ¬ Exact lights optLight (unguarded [someRedPat, greenPat]) := by
  have hunwrap : (expandRows [[someRedPat], [greenPat]]).map lights.unwrapRow =
      [[redPat], [greenPat]] := rfl
  have hunc : lights.uncovered [[someRedPat], [greenPat]] 1 = false := by
    rw [uncovered_unwrap (by decide), hunwrap]
    exact red_green_covered
  have hnone : lights.checkMatch (unguarded [someRedPat, greenPat]) = none :=
    if_neg (by rw [Bool.not_eq_true]; exact hunc)
  intro hexact
  have hmatched := hexact.mp hnone .nil .nil
  rw [matched_iff] at hmatched
  revert hmatched
  decide

theorem lights_sound : lights.Sound where
  enumNames := by decide
  variantNames := by decide
  shortNames := by decide
  quals := by decide
  payloads := by decide
  fields := by decide

mutual

theorem lights_peopled : ∀ t : Ty, t.ok lights = true → ∃ v : Val Nat, HasTy lights t v
  | .bool, _ => ⟨.bool true, .bool true⟩
  | .base, _ => ⟨.lit 0, .base 0⟩
  | .error, _ => ⟨.err [], .error []⟩
  | .enum n, h => by
    obtain ⟨e, he⟩ := Option.isSome_iff_exists.mp h
    obtain rfl : e = ⟨light, [⟨red, []⟩, ⟨green, []⟩]⟩ := mem_singleton.mp (enumDec_mem he).1
    exact ⟨_, .enum he mem_cons_self .nil⟩
  | .struct n, h => by simp [Ty.ok, Decls.structDec, lights] at h
  | .tuple ts, h => by
    obtain ⟨vs, hvs⟩ := lights_peopledAll ts h
    exact ⟨_, .tuple hvs⟩
  | .opt _, _ => ⟨.nil, .nil⟩
  | .res _, _ => ⟨.err [], .err []⟩

theorem lights_peopledAll : ∀ ts : List Ty, Ty.oks lights ts = true →
    ∃ vs : List (Val Nat), HasTys lights ts vs
  | [], _ => ⟨[], .nil⟩
  | t :: ts, h => by
    simp only [Ty.oks, Bool.and_eq_true] at h
    obtain ⟨v, hv⟩ := lights_peopled t h.1
    obtain ⟨vs, hvs⟩ := lights_peopledAll ts h.2
    exact ⟨_, .cons hv hvs⟩

end

/-- `match o { Red => …; Green => …; nil => … }` is judged exactly. -/
theorem red_green_nil_exact : Exact lights optLight (unguarded [redPat, greenPat, nilPat]) := by
  refine checkMatch_exact lights_sound lights_peopled rfl _ (by decide) ⟨0, by decide⟩ ?_
  have hcol : FairColumn lights ([optLight], [[redPat], [greenPat], [nilPat]]) := by
    refine ⟨fun hmix => absurd hmix (by decide), ?_⟩
    rintro - ⟨e, -, -, -, -, hnil⟩
    exact hnil (by decide)
  intro s hs
  rcases Relation.ReflTransGen.cases_head hs with rfl | ⟨s', hstep, hrest⟩
  · exact hcol
  · -- the constructors of `?Light` that are named carry nothing
    have hs' : s'.1 = [] := by
      cases hstep with
      | unwrap hmix => exact absurd hmix (by decide)
      | rest hmix hall => rfl
      | ctor hmix hall hk hof =>
        cases hof with
        | some => exact absurd hk (by decide)
        | nil => rfl
        | optVariant he hd =>
          obtain rfl := mem_singleton.mp (enumDec_mem he).1
          rcases mem_cons.mp hd with rfl | hd
          · rfl
          · obtain rfl := mem_singleton.mp hd
            rfl
    obtain ⟨ts, rows⟩ := s'
    obtain rfl : ts = [] := hs'
    rcases Relation.ReflTransGen.cases_head hrest with rfl | ⟨s', hstep, -⟩
    · trivial
    · cases hstep

end Voila.Chk
