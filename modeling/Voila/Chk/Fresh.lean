import Voila.Chk.Ctor

/-!
# Voila.Chk.Fresh

Literals and exceptions no pattern mentions.

`specialize` drops the rows that start with a literal or with an exception's name: no
list of them is complete. What justifies that is a value made only of a literal and an
exception that the patterns never mention, which such rows cannot match
(`vlMatch_literal`). Any value of a type becomes one by bleaching.
-/

open List

namespace Voila.Chk

variable {L : Type} {D : Decls}

mutual

/-- The value with all its literals and exceptions replaced. -/
def Val.bleach (l : L) (x : Name) : Val L → Val L
  | .nil => .nil
  | .bool b => .bool b
  | .lit _ => .lit l
  | .tuple vs => .tuple (bleachAll l x vs)
  | .struct n vs => .struct n (bleachAll l x vs)
  | .enum n s vs => .enum n s (bleachAll l x vs)
  | .err _ => .err x

def bleachAll (l : L) (x : Name) : List (Val L) → List (Val L)
  | [] => []
  | v :: vs => v.bleach l x :: bleachAll l x vs

end

section

variable {l : L} {x : Name}

mutual

theorem HasTy.bleach : ∀ {t : Ty} {v : Val L}, HasTy D t v → HasTy D t (v.bleach l x)
  | _, _, .bool b => .bool b
  | _, _, .base _ => .base l
  | _, _, .error _ => .error x
  | _, _, .enum he hd hvs => .enum he hd hvs.bleach
  | _, _, .struct hs hvs => .struct hs hvs.bleach
  | _, _, .tuple hvs => .tuple hvs.bleach
  | _, _, .nil => .nil
  | _, _, .some hv => .some hv.bleach
  | _, _, .ok hv => .ok hv.bleach
  | _, _, .err _ => .err x

theorem HasTys.bleach : ∀ {ts : List Ty} {vs : List (Val L)}, HasTys D ts vs →
    HasTys D ts (bleachAll l x vs)
  | _, _, .nil => .nil
  | _, _, .cons hv hvs => .cons hv.bleach hvs.bleach

end

mutual

theorem bleach_bleach : ∀ v : Val L, (v.bleach l x).bleach l x = v.bleach l x
  | .nil => rfl
  | .bool _ => rfl
  | .lit _ => rfl
  | .tuple vs => congrArg Val.tuple (bleachAll_bleachAll vs)
  | .struct n vs => congrArg (Val.struct n) (bleachAll_bleachAll vs)
  | .enum n s vs => congrArg (Val.enum n s) (bleachAll_bleachAll vs)
  | .err _ => rfl

theorem bleachAll_bleachAll : ∀ vs : List (Val L),
    bleachAll l x (bleachAll l x vs) = bleachAll l x vs
  | [] => rfl
  | v :: vs => congrArg₂ List.cons (bleach_bleach v) (bleachAll_bleachAll vs)

end

theorem bleachAll_append (us vs : List (Val L)) :
    bleachAll l x (us ++ vs) = bleachAll l x us ++ bleachAll l x vs := by
  induction us with
  | nil => rfl
  | cons u us ih => simp [bleachAll, ih]

theorem bleachAll_length (vs : List (Val L)) : (bleachAll l x vs).length = vs.length := by
  induction vs with
  | nil => rfl
  | cons v vs ih => simp [bleachAll, ih]

theorem bleachAll_eq_append {us vs : List (Val L)} (h : bleachAll l x (us ++ vs) = us ++ vs) :
    bleachAll l x us = us ∧ bleachAll l x vs = vs := by
  rw [bleachAll_append] at h
  exact append_inj h (bleachAll_length us)

theorem build_bleach {t : Ty} {k : Key} {as : List Ty} (hk : Of D t k as) {us : List (Val L)}
    (hus : HasTys D as us) (h : bleachAll l x us = us) :
    (build D k us).bleach l x = build D k us := by
  cases hk with
  | some | ok | err =>
    obtain ⟨v, rfl, -⟩ := hasTys_singleton.mp hus
    simpa [bleachAll, build] using h
  | _ => simp [build, Val.bleach, h]

end

/-! ### What a pattern mentions -/

mutual

/-- The heads of a pattern and of everything below it. -/
def Pat.heads : Pat L → List (Head L)
  | .node h ks => h :: headsAll ks

def headsAll : List (Pat L) → List (Head L)
  | [] => []
  | p :: ps => p.heads ++ headsAll ps

end

theorem mem_headsAll {h : Head L} {ps : List (Pat L)} :
    h ∈ headsAll ps ↔ ∃ p ∈ ps, h ∈ p.heads := by
  induction ps with
  | nil => simp [headsAll]
  | cons p ps ih => simp [headsAll, ih]

/-- The pattern mentions neither the literal nor the exception. -/
def Avoids (l : L) (x : Name) (p : Pat L) : Prop :=
  ∀ h ∈ p.heads, h ≠ .lit l ∧ h ≠ .variant x

section

variable {l : L} {x : Name}

theorem avoids_none : Avoids l x Pat.none := by
  intro h hh
  obtain rfl : h = .wild := by simpa [Pat.none, Pat.heads, headsAll] using hh
  exact ⟨by simp, by simp⟩

theorem Avoids.of_mem_kids {p q : Pat L} (h : Avoids l x p) (hq : q ∈ p.kids) : Avoids l x q := by
  obtain ⟨hd, ks⟩ := p
  exact fun a ha => h a (mem_cons_of_mem _ (mem_headsAll.mpr ⟨q, hq, ha⟩))

theorem Avoids.kid {p : Pat L} (h : Avoids l x p) : Avoids l x p.kid := by
  obtain ⟨hd, ks⟩ := p
  cases ks with
  | nil => exact avoids_none
  | cons k ks => exact h.of_mem_kids mem_cons_self

mutual

theorem Avoids.alternatives : ∀ {p : Pat L}, Avoids l x p → ∀ q ∈ alternatives p, Avoids l x q
  | .node hd ks, h, q, hq => by
    simp only [Voila.Chk.alternatives] at hq
    split_ifs at hq
    · exact avoids_alternativesAll (fun p hp => h.of_mem_kids hp) q hq
    · exact mem_singleton.mp hq ▸ h

theorem avoids_alternativesAll : ∀ {ps : List (Pat L)}, (∀ p ∈ ps, Avoids l x p) →
    ∀ q ∈ alternativesAll ps, Avoids l x q
  | [], _, q, hq => by simp [alternativesAll] at hq
  | p :: ps, h, q, hq => by
    rcases mem_append.mp hq with hq | hq
    · exact (h p mem_cons_self).alternatives q hq
    · exact avoids_alternativesAll (fun p hp => h p (mem_cons_of_mem _ hp)) q hq

end

theorem Avoids.fieldSub {f : Str} {ks : List (Pat L)} (h : ∀ p ∈ ks, Avoids l x p) :
    Avoids l x (Decls.fieldSub f ks) := by
  suffices hfold : ∀ q : Pat L, Avoids l x q → Avoids l x
      (ks.foldl (fun sub pf => if pf.head.isField f then pf.kid else sub) q) from
    hfold _ avoids_none
  induction ks with
  | nil => exact fun q hq => hq
  | cons p ks ih =>
    intro q hq
    refine ih (fun p hp => h p (mem_cons_of_mem _ hp)) _ ?_
    beta_reduce
    split_ifs
    · exact (h p mem_cons_self).kid
    · exact hq

theorem Avoids.subPats {p : Pat L} (h : Avoids l x p) (k : Key) (ar : Nat) :
    ∀ q ∈ D.subPats k ar p, Avoids l x q := by
  intro q hq
  have hpad : q ∈ (p.kids ++ List.replicate ar Pat.none).take ar → Avoids l x q := by
    intro hq
    rcases mem_append.mp (mem_of_mem_take hq) with hq | hq
    · exact h.of_mem_kids hq
    · exact eq_of_mem_replicate hq ▸ avoids_none
  unfold Decls.subPats at hq
  split_ifs at hq
  · exact eq_of_mem_replicate hq ▸ avoids_none
  · cases k with
    | struct n =>
      obtain ⟨f, -, rfl⟩ := mem_map.mp hq
      exact Avoids.fieldSub fun p hp => h.of_mem_kids hp
    | _ => exact hpad hq

theorem HasTy.enum_inv {t : Ty} {n : Name} {s : Str} {vs : List (Val L)}
    (hv : HasTy D t (.enum n s vs)) :
    ∃ e ∈ D.enums, ∃ d ∈ e.variants, e.name = n ∧ d.name.short = s := by
  cases hv with
  | enum he hd _ => exact ⟨_, (enumDec_mem he).1, _, hd, (enumDec_mem he).2, rfl⟩
  | some hv => exact hv.enum_inv
  | ok hv => exact hv.enum_inv
termination_by t

variable [DecidableEq L]

/-- A literal or an exception's name does not match a value that holds only others. -/
theorem vlMatch_literal {t : Ty} {p : Pat L} {k : Key} {v : Val L} (hv : HasTy D t v)
    (hbleach : v.bleach l x = v) (havoid : Avoids l x p) (hor : p.head.isOr = false)
    (hfit : fits D t p = true) (hkey : D.ctorKey p = some k)
    (hk : k = .lit ∨ ∃ y, k = .other y) : vlMatch D p v = false := by
  have hshape := shaped_of_key hkey
  obtain ⟨hd, ks⟩ := p
  obtain ⟨hlit, hexc⟩ := havoid hd mem_cons_self
  rcases hk with rfl | ⟨y, rfl⟩
  · rcases hshape with ⟨m, rfl⟩ | ⟨f, rfl⟩ | rfl
    · cases v with
      | lit n =>
        obtain rfl : l = n := by simpa [Val.bleach] using hbleach
        simpa [vlMatch] using fun heq : m = l => hlit (heq ▸ rfl)
      | _ => simp [vlMatch]
    · simp [vlMatch]
    · simp [Head.isOr] at hor
  · obtain ⟨rfl, hname, hvar⟩ : hd = .variant y ∧ Named y ∧ D.enumOf (D.variantName y) = none :=
      hshape
    rw [vlMatch_variant hname]
    cases v with
    | err z =>
      obtain rfl : x = z := by simpa [Val.bleach] using hbleach
      simpa using fun heq : x = y => hexc (heq ▸ rfl)
    | enum n s vs =>
      obtain ⟨e, he, d, hd, rfl, rfl⟩ := hv.enum_inv
      have hstrange := all_eq_true.mp (all_eq_true.mp (fits_other hname hvar hfit) e he) d hd
      simp only [Bool.not_eq_true'] at hstrange
      simp [hstrange]
    | _ => rfl

end

end Voila.Chk
