import Voila.Chk.Pattern

/-!
# Voila.Chk.Exhaust

`check_match`: the usefulness algorithm that decides whether a `match` covers its
subject, as the checker runs it, without the subject's type.

`uncovered` recurses on the weight of its rows. An or-pattern weighs what its
alternatives weigh together and a row the product of its columns, so that neither
expanding a row nor specialising it makes the matrix heavier.
-/

open List

namespace Voila.Chk

variable {L : Type}

/-- What `ctor_key` names. -/
inductive Key where
  | nil
  | some
  | ok
  | err
  | bool (b : Bool)
  | tuple (width : Nat)
  | struct (name : Name)
  | variant (name : Name)
  | other (name : Name)
  | lit
deriving DecidableEq

/-- `str.starts_with(key, "v:")`. -/
def Key.isVariant : Key → Bool
  | .variant _ => true
  | _ => false

/-- `key[2..len(key)]` of a variant's key. -/
def Key.variantName : Key → Option Name
  | .variant v => Option.some v
  | _ => Option.none

abbrev Row (L : Type) := List (Pat L)

def Head.isOr : Head L → Bool
  | .or => true
  | _ => false

/-- The node is a `PFIELD` named `f`. -/
def Head.isField (f : Str) : Head L → Bool
  | .field g => decide (g = f)
  | _ => false

mutual

/-- A pattern's alternatives, those of or-patterns among them included. -/
def alternatives : Pat L → List (Pat L)
  | .node h ks => if h.isOr then alternativesAll ks else [.node h ks]

def alternativesAll : List (Pat L) → List (Pat L)
  | [] => []
  | p :: ps => alternatives p ++ alternativesAll ps

end

/-- A row's alternatives. -/
def expandRow : Row L → List (Row L)
  | [] => [[]]
  | p :: rest => (alternatives p).map (· :: rest)

/-- `expand_rows`. -/
def expandRows (rows : List (Row L)) : List (Row L) := rows.flatMap expandRow

namespace Decls

variable (D : Decls)

/-- `ctor_key`; `none` for a pattern that matches anything. -/
def ctorKey (p : Pat L) : Option Key :=
  match p.head with
  | .wild => none
  | .bind _ => none
  | .nil => some .nil
  | .bool b => some (.bool b)
  | .lit _ => some .lit
  | .tuple => some (.tuple p.kids.length)
  | .struct name => some (.struct name)
  | .variant name =>
    if name = someName then some .some
    else if name = okName then some .ok
    else if name = errName then some .err
    else if (D.enumOf (D.variantName name)).isSome then some (.variant (D.variantName name))
    else some (.other name)
  | .field _ => some .lit
  | .or => some .lit

def rowKey (r : Row L) : Option Key := D.ctorKey (r.headD Pat.none)

/-- The constructors the first column mentions, in row order. -/
def keysOf (rows : List (Row L)) : List Key := (rows.filterMap D.rowKey).eraseDups

/-- `Some(p)` in the first column, rewritten to `p`. -/
def unwrapRow (r : Row L) : Row L :=
  match r with
  | [] => []
  | p :: rest => (if D.ctorKey p = some .some then p.kid else p) :: rest

def variantKeys (e : EnumDec) : List Key := e.variants.map fun v => .variant v.name

/-- The signature one key stands for. -/
def keySignature : Key → Option (List Key)
  | .some => some [.some, .nil]
  | .nil => some [.some, .nil]
  | .ok => some [.ok, .err]
  | .err => some [.ok, .err]
  | .bool _ => some [.bool true, .bool false]
  | .tuple n => some [.tuple n]
  | .struct name => if (D.structDec name).isSome then some [.struct name] else none
  | _ => none

/-- `signature`. -/
def signature (keys : List Key) : List Key :=
  match keys.findSome? Key.variantName with
  | some v =>
    ((D.enumOf v).map variantKeys).getD [] ++ if Key.nil ∈ keys then [.nil] else []
  | none => (keys.findSome? D.keySignature).getD []

/-- `ctor_arity`. -/
def ctorArity : Key → Nat
  | .some => 1
  | .ok => 1
  | .err => 1
  | .tuple n => n
  | .variant v => ((D.variantDecl v).map fun d => d.fields.length).getD 0
  | .struct s => (D.structFields s).length
  | _ => 0

/-- The sub-pattern a struct pattern gives for field `f`: the last, where it lists several. -/
def fieldSub (f : Str) (kids : List (Pat L)) : Pat L :=
  kids.foldl (fun sub pf => if pf.head.isField f then pf.kid else sub) Pat.none

/-- The sub-patterns of `h` for constructor `k`; wildcards for those it leaves unwritten. -/
def subPats (k : Key) (ar : Nat) (h : Pat L) : List (Pat L) :=
  if D.ctorKey h = none then List.replicate ar Pat.none
  else match k with
    | .struct name => (D.structFields name).map fun f => fieldSub f h.kids
    | _ => (h.kids ++ List.replicate ar Pat.none).take ar

def specRow (k : Key) (ar : Nat) : Row L → Option (Row L)
  | [] => none
  | h :: rest =>
    if D.ctorKey h = none ∨ D.ctorKey h = some k then some (D.subPats k ar h ++ rest) else none

/-- `specialize`. -/
def specialize (k : Key) (ar : Nat) (rows : List (Row L)) : List (Row L) :=
  rows.filterMap (D.specRow k ar)

/-- The rows that start with a wildcard, without it. -/
def defaults (rows : List (Row L)) : List (Row L) :=
  rows.filterMap fun r => match r with
    | [] => none
    | h :: rest => if D.ctorKey h = none then some rest else none

end Decls

/-! ### The weight of the rows -/

def Head.isWild : Head L → Bool
  | .wild => true
  | .bind _ => true
  | _ => false

mutual

def Pat.weight : Pat L → Nat
  | .node h ks =>
    if h.isOr then 1 + sumWeights ks else if h.isWild then 1 else 1 + prodWeights ks

def sumWeights : List (Pat L) → Nat
  | [] => 0
  | p :: ps => p.weight + sumWeights ps

def prodWeights : List (Pat L) → Nat
  | [] => 1
  | p :: ps => p.weight * prodWeights ps

end

def weight (rows : List (Row L)) : Nat := (rows.map prodWeights).sum

@[simp] theorem weight_none : (Pat.none : Pat L).weight = 1 := rfl

theorem Pat.one_le_weight (p : Pat L) : 1 ≤ p.weight := by
  cases p with
  | node h ks => simp only [Pat.weight]; split_ifs <;> omega

theorem one_le_prodWeights (ps : List (Pat L)) : 1 ≤ prodWeights ps := by
  induction ps with
  | nil => exact le_rfl
  | cons p ps ih => exact Nat.mul_pos p.one_le_weight ih

@[simp] theorem prodWeights_append (ps qs : List (Pat L)) :
    prodWeights (ps ++ qs) = prodWeights ps * prodWeights qs := by
  induction ps with
  | nil => simp [prodWeights]
  | cons p ps ih => simp [prodWeights, ih, Nat.mul_assoc]

@[simp] theorem prodWeights_replicate_none (n : Nat) :
    prodWeights (List.replicate n (Pat.none : Pat L)) = 1 := by
  induction n with
  | zero => rfl
  | succ n ih => simp [replicate_succ, prodWeights, ih]

theorem prodWeights_take_le (ps : List (Pat L)) (n : Nat) :
    prodWeights (ps.take n) ≤ prodWeights ps := by
  conv_rhs => rw [← take_append_drop n ps, prodWeights_append]
  exact Nat.le_mul_of_pos_right _ (one_le_prodWeights _)

theorem sumWeights_append (ps qs : List (Pat L)) :
    sumWeights (ps ++ qs) = sumWeights ps + sumWeights qs := by
  induction ps with
  | nil => simp [sumWeights]
  | cons p ps ih => simp [sumWeights, ih, Nat.add_assoc]

mutual

theorem sumWeights_alternatives : ∀ p : Pat L, sumWeights (alternatives p) ≤ p.weight
  | .node h ks => by
    simp only [alternatives, Pat.weight]
    split_ifs with hor hw
    · have := sumWeights_alternativesAll ks
      omega
    all_goals simp [sumWeights, Pat.weight, hor, hw]

theorem sumWeights_alternativesAll :
    ∀ ps : List (Pat L), sumWeights (alternativesAll ps) ≤ sumWeights ps
  | [] => le_rfl
  | p :: ps => by
    simp only [alternativesAll, sumWeights_append, sumWeights]
    exact Nat.add_le_add (sumWeights_alternatives p) (sumWeights_alternativesAll ps)

end

theorem weight_map_cons (ps : List (Pat L)) (rest : Row L) :
    weight (ps.map (· :: rest)) = sumWeights ps * prodWeights rest := by
  induction ps with
  | nil => simp [weight, sumWeights]
  | cons p ps ih =>
    simp only [weight, map_cons, sum_cons, sumWeights, prodWeights] at ih ⊢
    rw [ih, Nat.add_mul]

theorem weight_expandRows_le (rows : List (Row L)) : weight (expandRows rows) ≤ weight rows := by
  induction rows with
  | nil => exact le_rfl
  | cons r rows ih =>
    have hr : weight (expandRow r) ≤ prodWeights r := by
      cases r with
      | nil => simp [expandRow, weight, prodWeights]
      | cons p rest =>
        rw [expandRow, weight_map_cons, prodWeights]
        exact Nat.mul_le_mul_right _ (sumWeights_alternatives p)
    simp only [expandRows, weight, flatMap_cons, map_append, sum_append,
      map_cons, sum_cons] at ih hr ⊢
    exact Nat.add_le_add hr ih

mutual

theorem isOr_alternatives : ∀ (p : Pat L), ∀ q ∈ alternatives p, q.head.isOr = false
  | .node h ks, q, hq => by
    simp only [alternatives] at hq
    split_ifs at hq with hor
    · exact isOr_alternativesAll ks q hq
    · obtain rfl := mem_singleton.mp hq
      simpa using hor

theorem isOr_alternativesAll :
    ∀ (ps : List (Pat L)), ∀ q ∈ alternativesAll ps, q.head.isOr = false
  | [], q, hq => by simp [alternativesAll] at hq
  | p :: ps, q, hq => by
    rcases mem_append.mp hq with hq | hq
    · exact isOr_alternatives p q hq
    · exact isOr_alternativesAll ps q hq

end

/-- No row of an expanded matrix starts with an or-pattern. -/
def Expanded (rows : List (Row L)) : Prop := ∀ r ∈ rows, ∀ p ∈ r.head?, p.head.isOr = false

theorem expanded_expandRows (rows : List (Row L)) : Expanded (expandRows rows) := by
  intro r hr p hp
  obtain ⟨r₀, -, hr⟩ := mem_flatMap.mp hr
  cases r₀ with
  | nil => simp_all [expandRow]
  | cons q rest =>
    obtain ⟨a, ha, rfl⟩ := mem_map.mp hr
    obtain rfl : a = p := by simpa using hp
    exact isOr_alternatives q a ha

namespace Decls

variable (D : Decls)

theorem structFields_nodup (name : Name) : (D.structFields name).Nodup := by
  rw [structFields]
  cases D.structDec name with
  | none => exact nodup_nil
  | some s => exact s.nodup

variable {fs : List Str} {p : Pat L} {k : Key} {g : Row L → Option (Row L)}

/-- Replacing the pattern of one field among distinct ones costs at most its weight. -/
theorem prodWeights_update_le (q : Pat L) (h : Str) (g : Str → Pat L) (hfs : fs.Nodup) :
    prodWeights (fs.map fun f => if h = f then q else g f) ≤
      prodWeights (fs.map g) * q.weight := by
  induction fs with
  | nil => simpa [prodWeights] using q.one_le_weight
  | cons f fs ih =>
    obtain ⟨hf, hfs⟩ := nodup_cons.mp hfs
    simp only [map_cons, prodWeights]
    by_cases hh : h = f
    · have hrest : (fs.map fun f' => if h = f' then q else g f') = fs.map g :=
        map_congr_left fun f' hf' => if_neg fun heq => hf (by rwa [← hh, heq])
      rw [if_pos hh, hrest, Nat.mul_comm q.weight]
      exact Nat.mul_le_mul_right _ (Nat.le_mul_of_pos_left _ (g f).one_le_weight)
    · rw [if_neg hh, Nat.mul_assoc]
      exact Nat.mul_le_mul_left _ (ih hfs)

theorem ctorKey_of_isWild (h : p.head.isWild = true) : D.ctorKey p = none := by
  obtain ⟨hd, ks⟩ := p
  cases hd <;> simp_all [Head.isWild, ctorKey]

theorem weight_eq_of_key (hor : p.head.isOr = false)
    (hk : D.ctorKey p = some k) : p.weight = 1 + prodWeights p.kids := by
  have hwild : p.head.isWild = false := by
    by_contra hw
    have := D.ctorKey_of_isWild (by simpa using hw)
    simp [this] at hk
  obtain ⟨hd, ks⟩ := p
  simp_all [Pat.weight]

theorem weight_kid_le (p : Pat L) : p.kid.weight ≤ prodWeights p.kids := by
  obtain ⟨hd, ks⟩ := p
  cases ks with
  | nil => exact le_rfl
  | cons q qs => exact Nat.le_mul_of_pos_right _ (one_le_prodWeights qs)

theorem weight_kid_lt (hor : p.head.isOr = false)
    (hk : D.ctorKey p = some k) : p.kid.weight < p.weight := by
  rw [D.weight_eq_of_key hor hk, Nat.lt_one_add_iff]
  exact weight_kid_le p

theorem prodWeights_fieldSub_le (hfs : fs.Nodup) (kids : List (Pat L)) :
    prodWeights (fs.map fun f => fieldSub f kids) ≤ prodWeights kids := by
  -- the loop over the fields the pattern lists, from any sub-patterns found so far
  suffices h : ∀ g : Str → Pat L,
      prodWeights (fs.map fun f =>
        kids.foldl (fun sub pf => if pf.head.isField f then pf.kid else sub) (g f)) ≤
        prodWeights (fs.map g) * prodWeights kids by
    have hnone := h fun _ => Pat.none
    rwa [map_const', prodWeights_replicate_none, Nat.one_mul] at hnone
  induction kids with
  | nil => intro g; simp [prodWeights]
  | cons pf kids ih =>
    intro g
    simp only [foldl_cons, prodWeights]
    refine (ih _).trans ?_
    rw [← Nat.mul_assoc]
    refine Nat.mul_le_mul_right _ ?_
    obtain ⟨hd, ks⟩ := pf
    cases hd with
    | field h =>
      have hupd := prodWeights_update_le (Pat.node (.field h) ks).kid h g hfs
      simp only [Pat.head_node, Head.isField, decide_eq_true_eq]
      have hkid : prodWeights ks ≤ (Pat.node (.field h) ks).weight := Nat.le_add_left _ 1
      exact hupd.trans (Nat.mul_le_mul_left _ ((weight_kid_le _).trans hkid))
    | _ =>
      simp only [Pat.head_node, Head.isField, Bool.false_eq_true, if_false]
      exact Nat.le_mul_of_pos_right _ (Pat.one_le_weight _)

theorem prodWeights_subPats_lt {k j : Key} (ar : Nat) (hor : p.head.isOr = false)
    (hk : D.ctorKey p = some k) : prodWeights (D.subPats j ar p) < p.weight := by
  rw [D.weight_eq_of_key hor hk, Nat.lt_one_add_iff]
  have hpad : prodWeights ((p.kids ++ List.replicate ar Pat.none).take ar) ≤
      prodWeights p.kids := by
    refine (prodWeights_take_le _ _).trans ?_
    simp
  cases j <;> simp only [subPats, hk, reduceCtorEq, if_false] <;> try exact hpad
  exact prodWeights_fieldSub_le (D.structFields_nodup _) p.kids

theorem weight_filterMap_le {rows : List (Row L)}
    (h : ∀ r ∈ rows, ∀ r' ∈ g r, prodWeights r' ≤ prodWeights r) :
    weight (rows.filterMap g) ≤ weight rows := by
  induction rows with
  | nil => exact le_rfl
  | cons r rows ih =>
    have ih := ih fun q hq => h q (mem_cons_of_mem _ hq)
    have hr := h r mem_cons_self
    cases hg : g r with
    | none => simp only [weight, filterMap_cons, hg, map_cons, sum_cons] at ih ⊢; omega
    | some r' =>
      have := hr r' hg
      simp only [weight, filterMap_cons, hg, map_cons, sum_cons] at ih ⊢
      omega

theorem weight_filterMap_lt {rows : List (Row L)}
    (h : ∀ r ∈ rows, ∀ r' ∈ g r, prodWeights r' ≤ prodWeights r) {r : Row L} (hr : r ∈ rows)
    (hlt : ∀ r' ∈ g r, prodWeights r' < prodWeights r) :
    weight (rows.filterMap g) < weight rows := by
  obtain ⟨before, behind, rfl⟩ := append_of_mem hr
  have hbefore := weight_filterMap_le fun q hq => h q (mem_append_left _ hq)
  have hbehind := weight_filterMap_le fun q hq =>
    h q (mem_append_right _ (mem_cons_of_mem _ hq))
  have hpos := one_le_prodWeights r
  cases hg : g r with
  | none =>
    simp only [weight, filterMap_append, filterMap_cons, hg, map_append,
      map_cons, sum_append, sum_cons] at hbefore hbehind ⊢
    omega
  | some r' =>
    have := hlt r' hg
    simp only [weight, filterMap_append, filterMap_cons, hg, map_append,
      map_cons, sum_append, sum_cons] at hbefore hbehind ⊢
    omega

variable {D} {rows : List (Row L)}

theorem mem_keysOf : k ∈ D.keysOf rows ↔ ∃ r ∈ rows, D.rowKey r = some k := by
  simp [keysOf]

/-- A key of the column stands at the head of a row. -/
theorem exists_cons_of_mem_keysOf (h : k ∈ D.keysOf rows) :
    ∃ p rest, p :: rest ∈ rows ∧ D.ctorKey p = some k := by
  obtain ⟨r, hr, hk⟩ := mem_keysOf.mp h
  cases r with
  | nil => simp [rowKey, Pat.none, ctorKey] at hk
  | cons p rest => exact ⟨p, rest, hr, hk⟩

theorem weight_specialize_lt (hexp : Expanded rows) (ar : Nat)
    (hk : k ∈ D.keysOf rows) : weight (D.specialize k ar rows) < weight rows := by
  have hstep : ∀ p rest, p :: rest ∈ rows → D.ctorKey p = some k →
      ∀ r' ∈ D.specRow k ar (p :: rest), prodWeights r' < prodWeights (p :: rest) := by
    intro p rest hr hkey r' hr'
    obtain rfl : D.subPats k ar p ++ rest = r' := by simpa [specRow, hkey] using hr'
    rw [prodWeights_append, prodWeights]
    have hlt := D.prodWeights_subPats_lt (j := k) ar (hexp _ hr p rfl) hkey
    exact Nat.mul_lt_mul_of_pos_right hlt (one_le_prodWeights rest)
  obtain ⟨p, rest, hr, hkey⟩ := exists_cons_of_mem_keysOf hk
  refine weight_filterMap_lt (fun q hq r' hr' => ?_) hr (hstep p rest hr hkey)
  cases q with
  | nil => simp [specRow] at hr'
  | cons h rest =>
    by_cases hnone : D.ctorKey h = none
    · obtain rfl : D.subPats k ar h ++ rest = r' := by simpa [specRow, hnone] using hr'
      simp only [subPats, hnone, if_true, prodWeights_append, prodWeights_replicate_none,
        prodWeights, Nat.one_mul]
      exact Nat.le_mul_of_pos_left _ h.one_le_weight
    · have hkey : D.ctorKey h = some k := by
        by_contra hne
        simp [specRow, hnone, hne] at hr'
      exact (hstep h rest hq hkey r' hr').le

theorem weight_unwrap_lt (hexp : Expanded rows) (hk : Key.some ∈ D.keysOf rows) :
    weight (rows.map D.unwrapRow) < weight rows := by
  have hkid : ∀ p rest, p :: rest ∈ rows → D.ctorKey p = some .some →
      prodWeights (D.unwrapRow (p :: rest)) < prodWeights (p :: rest) := by
    intro p rest hr hkey
    simp only [unwrapRow, hkey, if_true, prodWeights]
    exact Nat.mul_lt_mul_of_pos_right (D.weight_kid_lt (hexp _ hr p rfl) hkey)
      (one_le_prodWeights rest)
  obtain ⟨p, rest, hr, hkey⟩ := exists_cons_of_mem_keysOf hk
  rw [← filterMap_eq_map]
  refine weight_filterMap_lt (fun q hq r' hr' => ?_) hr (fun r' hr' => ?_)
  · obtain rfl : D.unwrapRow q = r' := by simpa using hr'
    cases q with
    | nil => exact le_rfl
    | cons h rest =>
      by_cases hkey : D.ctorKey h = some .some
      · exact (hkid h rest hq hkey).le
      · simp [unwrapRow, hkey]
  · obtain rfl : D.unwrapRow (p :: rest) = r' := by simpa using hr'
    exact hkid p rest hr hkey

theorem weight_defaults_le (D : Decls) (rows : List (Row L)) :
    weight (D.defaults rows) ≤ weight rows := by
  refine weight_filterMap_le fun q hq r' hr' => ?_
  cases q with
  | nil => simp at hr'
  | cons h rest =>
    obtain ⟨-, rfl⟩ : D.ctorKey h = none ∧ rest = r' := by simpa using hr'
    exact Nat.le_mul_of_pos_left _ h.one_le_weight

/-! ### The decision -/

/-- `uncovered`: some vector of `n` values is matched by no row. -/
def uncovered (D : Decls) (rows0 : List (Row L)) (n : Nat) : Bool :=
  match n with
  | 0 => (expandRows rows0).isEmpty
  | n + 1 =>
    if _ : ((D.keysOf (expandRows rows0)).any Key.isVariant &&
        decide (Key.some ∈ D.keysOf (expandRows rows0))) = true then
      uncovered D ((expandRows rows0).map D.unwrapRow) (n + 1)
    else if _ : D.signature (D.keysOf (expandRows rows0)) ≠ [] ∧
        ∀ k ∈ D.signature (D.keysOf (expandRows rows0)), k ∈ D.keysOf (expandRows rows0) then
      (D.signature (D.keysOf (expandRows rows0))).attach.any fun k =>
        uncovered D (D.specialize k.1 (D.ctorArity k.1) (expandRows rows0)) (D.ctorArity k.1 + n)
    else uncovered D (D.defaults (expandRows rows0)) n
termination_by (weight rows0, n)
decreasing_by
  · rename_i h
    have hsome := (Bool.and_eq_true_iff.mp h).2
    exact Prod.Lex.left _ _ ((weight_unwrap_lt (expanded_expandRows rows0)
      (of_decide_eq_true hsome)).trans_le (weight_expandRows_le rows0))
  · rename_i h
    exact Prod.Lex.left _ _ ((weight_specialize_lt (expanded_expandRows rows0) _
      (h.2 k.1 k.2)).trans_le (weight_expandRows_le rows0))
  · have hle := (D.weight_defaults_le (expandRows rows0)).trans (weight_expandRows_le rows0)
    exact Prod.Lex.right' _ hle (Nat.lt_succ_self n)

end Decls

/-- One arm of a match. -/
structure Arm (L : Type) where
  /-- The arm has a guard, and may fall through. -/
  guarded : Bool
  pat : Option (Pat L)

/-- The pattern an arm is judged by: none where it is guarded. -/
def Arm.proves (a : Arm L) : Option (Pat L) := if a.guarded then none else a.pat

inductive Report where
  | missing (enum : Name) (cases : List Name)
  | notExhaustive
deriving DecidableEq

def Name.text (n : Name) : Str := List.intercalate ['.'] n

/-- The diagnostic's words. -/
def Report.text : Report → Str
  | .missing enum cases =>
    "match on `".toList ++ enum.text ++ "` is not exhaustive; missing cases: ".toList ++
      List.intercalate ", ".toList (cases.map Name.text)
  | .notExhaustive => "match is not exhaustive".toList

namespace Decls

variable (D : Decls)

/-- The variant a row names at the top, through `Some` too. -/
def rowVariant (r : Row L) : Option Name :=
  let key := match D.rowKey r with
    | some .some => D.ctorKey (r.headD Pat.none).kid
    | key => key
  key.bind Key.variantName

/-- The diagnostic for rows that leave something uncovered. -/
def reportOf (rows : List (Row L)) : Report :=
  let named := (expandRows rows).filterMap D.rowVariant
  match named.head?.bind D.enumOf with
  | none => .notExhaustive
  | some e =>
    let missing := (e.variants.map VariantDec.name).filter fun v => v ∉ named
    if missing = [] then .notExhaustive else .missing e.name missing

/-- `check_match`. -/
def checkMatch (arms : List (Arm L)) : Option Report :=
  let rows := (arms.filterMap Arm.proves).map fun p => [p]
  if D.uncovered rows 1 then some (D.reportOf rows) else none

end Decls

end Voila.Chk
