import Voila.Chk.Exhaust
import Voila.Lib.Rows

/-!
# Voila.Chk.Typed

What a subject's type says: the values of a type (`HasTy`), the patterns that are
written for it (`fits`), and its constructors with what they carry (`Of`).

The checker never sees the type. Over a column whose patterns fit a type, the
constructors it finds are constructors of that type, and its sub-patterns judge the
parts of a value exactly as `vl_match` judges the value (`vlMatch_build`).
-/

namespace Voila.Chk

open Lib List

variable {L : Type}

/-! ### Types -/

/-- Some value of the type is nil. -/
def Ty.holdsNil : Ty → Bool
  | .opt _ => true
  | .res t => t.holdsNil
  | _ => false

/-- Some value of the type is an error. -/
def Ty.holdsErr : Ty → Bool
  | .error => true
  | .res _ => true
  | .opt t => t.holdsErr
  | _ => false

mutual

/-- The type's names are declared, and nil and errors say which `?T` or `T!` they belong to:
    no payload of an option holds nil, none of a result an error. -/
def Ty.ok (D : Decls) : Ty → Bool
  | .bool => true
  | .base => true
  | .error => true
  | .enum n => (D.enumDec n).isSome
  | .struct n => (D.structDec n).isSome
  | .tuple ts => Ty.oks D ts
  | .opt t => !t.holdsNil && t.ok D
  | .res t => !t.holdsErr && t.ok D

def Ty.oks (D : Decls) : List Ty → Bool
  | [] => true
  | t :: ts => t.ok D && Ty.oks D ts

end

/-- What the loader and the checker establish of the declarations. -/
structure Decls.Sound (D : Decls) : Prop where
  enumNames : (D.enums.map (·.name)).Nodup
  variantNames : (D.enums.flatMap fun e => e.variants.map (·.name)).Nodup
  /-- Within an enum the short names differ. -/
  shortNames : ∀ e ∈ D.enums, (e.variants.map fun d => d.name.short).Nodup
  /-- A variant is qualified by its enum or by the enum's package. -/
  quals : ∀ e ∈ D.enums, ∀ d ∈ e.variants, d.name.qual.isPrefixOf e.name = true
  payloads : ∀ e ∈ D.enums, ∀ d ∈ e.variants, Ty.oks D d.fields = true
  fields : ∀ s ∈ D.structs, Ty.oks D (s.fields.map Prod.snd) = true

mutual

/-- The values of a type. -/
inductive HasTy (D : Decls) : Ty → Val L → Prop where
  | bool (b : Bool) : HasTy D .bool (.bool b)
  | base (l : L) : HasTy D .base (.lit l)
  | error (x : Name) : HasTy D .error (.err x)
  | enum {n : Name} {e : EnumDec} {d : VariantDec} {vs : List (Val L)}
      (he : D.enumDec n = some e) (hd : d ∈ e.variants) (hvs : HasTys D d.fields vs) :
      HasTy D (.enum n) (.enum n d.name.short vs)
  | struct {n : Name} {s : StructDec} {vs : List (Val L)} (hs : D.structDec n = some s)
      (hvs : HasTys D (s.fields.map Prod.snd) vs) : HasTy D (.struct n) (.struct n vs)
  | tuple {ts : List Ty} {vs : List (Val L)} (hvs : HasTys D ts vs) :
      HasTy D (.tuple ts) (.tuple vs)
  | nil {t : Ty} : HasTy D (.opt t) .nil
  | some {t : Ty} {v : Val L} (hv : HasTy D t v) : HasTy D (.opt t) v
  | ok {t : Ty} {v : Val L} (hv : HasTy D t v) : HasTy D (.res t) v
  | err {t : Ty} (x : Name) : HasTy D (.res t) (.err x)

inductive HasTys (D : Decls) : List Ty → List (Val L) → Prop where
  | nil : HasTys D [] []
  | cons {t : Ty} {ts : List Ty} {v : Val L} {vs : List (Val L)} (hv : HasTy D t v)
      (hvs : HasTys D ts vs) : HasTys D (t :: ts) (v :: vs)

end

/-! ### Patterns of a type -/

/-- The enum a type's values are variants of, directly or as `?E`. -/
def Ty.enumName : Ty → Option Name
  | .enum n => some n
  | .opt (.enum n) => some n
  | _ => none

/-- No variant answers to the name. -/
def Decls.strange (D : Decls) (name : Name) : Bool :=
  D.enums.all fun e => e.variants.all fun d => !answers e.name d.name.short name

mutual

/-- The pattern is written for the type: an option by `Some` and `nil`, a result by `Ok` and
    `Err`, every other type by its own constructors, and `?E` by the variants of `E` as well. -/
def fits (D : Decls) : Ty → Pat L → Bool
  | _, .node .wild _ => true
  | _, .node (.bind _) _ => true
  | _, .node (.lit _) _ => true
  | _, .node (.field _) _ => false
  | t, .node .or ks => fitsEach D t ks
  | t, .node .nil _ => match t with
    | .opt _ => true
    | _ => false
  | t, .node (.bool _) _ => match t with
    | .bool => true
    | _ => false
  | t, .node .tuple ks => match t with
    | .tuple ts => fitsAll D ts ks
    | _ => false
  | t, .node (.struct name) ks => match t with
    | .struct n => decide (n = name) && (match D.structDec n with
      | some s => fitsFields D s.fields ks
      | none => false)
    | _ => false
  | t, .node (.variant name) ks =>
    if name = someName then match t with
      | .opt u => fitsOnly D u ks
      | _ => false
    else if name = okName then match t with
      | .res u => fitsOnly D u ks
      | _ => false
    else if name = errName then match t with
      | .res _ => fitsOnly D .error ks
      | _ => false
    else match D.enumOf (D.variantName name), D.variantDecl (D.variantName name) with
      | some e, some d => decide (t.enumName = some e.name) && (ks.isEmpty || fitsAll D d.fields ks)
      | _, _ => D.strange name

def fitsEach (D : Decls) : Ty → List (Pat L) → Bool
  | _, [] => true
  | t, p :: ps => fits D t p && fitsEach D t ps

def fitsAll (D : Decls) : List Ty → List (Pat L) → Bool
  | [], [] => true
  | t :: ts, p :: ps => fits D t p && fitsAll D ts ps
  | _, _ => false

def fitsOnly (D : Decls) : Ty → List (Pat L) → Bool
  | _, [] => true
  | t, [p] => fits D t p
  | _, _ => false

/-- Declared fields, each listed once. -/
def fitsFields (D : Decls) (fields : List (Str × Ty)) : List (Pat L) → Bool
  | [] => true
  | .node (.field f) ks :: rest => (match fields.lookup f with
      | some t => fitsOnly D t ks
      | none => false) && (rest.all fun pf => !pf.head.isField f) && fitsFields D fields rest
  | _ :: _ => false

end

/-! ### Vectors -/

theorem HasTys.length_eq {D : Decls} :
    ∀ {ts : List Ty} {vs : List (Val L)}, HasTys D ts vs → vs.length = ts.length
  | _, _, .nil => rfl
  | _, _, .cons _ hvs => congrArg (· + 1) hvs.length_eq

variable {ts : List Ty} {vs : List (Val L)} {t : Ty} {ps : List (Pat L)} {e : EnumDec} {n : Name}
  {d : VariantDec}

theorem HasTys.append {D : Decls} :
    ∀ {as : List Ty} {us : List (Val L)}, HasTys D as us → HasTys D ts vs →
      HasTys D (as ++ ts) (us ++ vs)
  | _, _, .nil, h => h
  | _, _, .cons hv hus, h => .cons hv (hus.append h)

theorem HasTys.split {D : Decls} {as ts : List Ty} {ws : List (Val L)}
    (h : HasTys D (as ++ ts) ws) :
    ∃ us vs, ws = us ++ vs ∧ HasTys D as us ∧ HasTys D ts vs := by
  induction as generalizing ws with
  | nil => exact ⟨[], ws, rfl, .nil, h⟩
  | cons a as ih =>
    cases h with
    | cons hv hvs =>
      obtain ⟨us, vs, rfl, hus, hvs⟩ := ih hvs
      exact ⟨_ :: us, vs, rfl, .cons hv hus, hvs⟩

theorem hasTys_nil {D : Decls} : HasTys D [] vs ↔ vs = [] := by
  constructor
  · rintro ⟨⟩
    rfl
  · rintro rfl
    exact .nil

theorem hasTys_cons {D : Decls} :
    HasTys D (t :: ts) vs ↔ ∃ v vs', vs = v :: vs' ∧ HasTy D t v ∧ HasTys D ts vs' := by
  constructor
  · intro h
    cases h with
    | cons hv hvs => exact ⟨_, _, rfl, hv, hvs⟩
  · rintro ⟨v, vs', rfl, hv, hvs⟩
    exact .cons hv hvs

theorem hasTys_singleton {D : Decls} : HasTys D [t] vs ↔ ∃ v, vs = [v] ∧ HasTy D t v := by
  constructor
  · intro h
    cases h with
    | cons hv hnil => exact ⟨_, by rw [hasTys_nil.mp hnil], hv⟩
  · rintro ⟨v, rfl, hv⟩
    exact .cons hv .nil

variable {D : Decls}

theorem fitsAll_length (h : fitsAll D ts ps = true) : ps.length = ts.length := by
  induction ts generalizing ps with
  | nil => cases ps <;> simp_all [fitsAll]
  | cons t ts ih =>
    cases ps with
    | nil => simp [fitsAll] at h
    | cons p ps =>
      simp only [fitsAll, Bool.and_eq_true] at h
      simp [ih h.2]

theorem fitsAll_append {as ts : List Ty} {ps qs : List (Pat L)} (hps : fitsAll D as ps = true)
    (hqs : fitsAll D ts qs = true) : fitsAll D (as ++ ts) (ps ++ qs) = true := by
  induction as generalizing ps with
  | nil =>
    cases ps with
    | nil => exact hqs
    | cons p ps => simp [fitsAll] at hps
  | cons a as ih =>
    cases ps with
    | nil => simp [fitsAll] at hps
    | cons p ps =>
      simp only [fitsAll, Bool.and_eq_true, cons_append] at hps ⊢
      exact ⟨hps.1, ih hps.2⟩

@[simp] theorem fits_none (t : Ty) : fits D t (Pat.none : Pat L) = true := by
  simp [Pat.none, fits]

theorem fitsAll_replicate_none (ts : List Ty) :
    fitsAll D ts (List.replicate ts.length (Pat.none : Pat L)) = true := by
  induction ts with
  | nil => rfl
  | cons t ts ih => simpa [fitsAll, replicate_succ] using ih

/-! ### The declarations -/

theorem find?_eq_some_of_nodup {A B : Type*} [DecidableEq B] {f : A → B} {l : List A}
    (hl : (l.map f).Nodup) {a : A} (ha : a ∈ l) : l.find? (fun x => f x = f a) = some a := by
  induction l with
  | nil => simp at ha
  | cons x l ih =>
    obtain ⟨hx, hl⟩ := nodup_cons.mp hl
    rcases mem_cons.mp ha with rfl | ha
    · simp
    · have hne : f x ≠ f a := fun heq => hx (heq ▸ mem_map_of_mem ha)
      simpa [hne] using ih hl ha

theorem enumDec_mem (h : D.enumDec n = some e) : e ∈ D.enums ∧ e.name = n :=
  ⟨List.mem_of_find?_eq_some h, by simpa using List.find?_some h⟩

theorem structDec_mem {s : StructDec} (h : D.structDec n = some s) : s ∈ D.structs ∧ s.name = n :=
  ⟨List.mem_of_find?_eq_some h, by simpa using List.find?_some h⟩

theorem Decls.Sound.enumDec_eq (h : D.Sound) (he : e ∈ D.enums) :
    D.enumDec e.name = some e := find?_eq_some_of_nodup h.enumNames he

theorem Decls.Sound.variants_nodup (h : D.Sound) (he : e ∈ D.enums) :
    (e.variants.map (·.name)).Nodup := (nodup_flatMap.mp h.variantNames).1 e he

/-- A variant belongs to one enum. -/
theorem Decls.Sound.enumOf_eq (h : D.Sound) (he : e ∈ D.enums)
    (hd : d ∈ e.variants) : D.enumOf d.name = some e := by
  cases hf : D.enumOf d.name with
  | none =>
    have := List.find?_eq_none.mp hf e he
    simp only [any_eq_true, decide_eq_true_eq, not_exists, not_and] at this
    exact absurd rfl (this d hd)
  | some e' =>
    have hmem := List.mem_of_find?_eq_some hf
    obtain ⟨d', hd', hname⟩ : ∃ d' ∈ e'.variants, d'.name = d.name := by
      simpa using List.find?_some hf
    by_contra hne
    have : Std.Symm (Function.onFun List.Disjoint
        fun e : EnumDec => e.variants.map fun d => d.name) := ⟨fun _ _ hxy => hxy.symm⟩
    have hdisj := (nodup_flatMap.mp h.variantNames).2.forall hmem he
      fun heq => hne (congrArg some heq)
    exact hdisj (mem_map.mpr ⟨d', hd', hname⟩) (mem_map_of_mem hd)

theorem Decls.Sound.variantDecl_eq (h : D.Sound)
    (he : e ∈ D.enums) (hd : d ∈ e.variants) : D.variantDecl d.name = some d := by
  rw [Decls.variantDecl, h.enumOf_eq he hd, Option.bind_some]
  exact find?_eq_some_of_nodup (h.variants_nodup he) hd

theorem enumOf_mem {v : Name} (h : D.enumOf v = some e) :
    e ∈ D.enums ∧ ∃ d ∈ e.variants, d.name = v :=
  ⟨List.mem_of_find?_eq_some h, by simpa using List.find?_some h⟩

/-- A pattern's name resolves to variant `d` of `e`: at run time it is `d` that answers. -/
theorem Decls.Sound.answers_iff (h : D.Sound) {d d' : VariantDec} {name : Name}
    (he : e ∈ D.enums) (hd : d ∈ e.variants) (hd' : d' ∈ e.variants)
    (hname : D.variantName name = d.name) : answers e.name d'.name.short name = true ↔ d' = d := by
  have hshort : d'.name.short = d.name.short ↔ d' = d :=
    ⟨fun heq => inj_on_of_nodup_map (h.shortNames e he) hd' hd heq, fun heq => heq ▸ rfl⟩
  suffices hsame : name.qual.isPrefixOf e.name = true ∧ name.short = d.name.short by
    rw [answers, hsame.1, hsame.2, Bool.true_and, decide_eq_true_eq]
    exact hshort
  have hown := h.enumOf_eq he hd
  have hflat : D.variantName name = name →
      name.qual.isPrefixOf e.name = true ∧ name.short = d.name.short := by
    intro heq
    rw [heq] at hname
    exact ⟨hname ▸ h.quals e he d hd, hname ▸ rfl⟩
  simp only [Decls.variantName] at hname hflat
  split_ifs at hname hflat with hsome hqual
  · exact hflat rfl
  · exact hflat rfl
  · cases hq : D.enumDec name.qual with
    | none =>
      simp only [hq] at hflat
      exact hflat trivial
    | some e₀ =>
      simp only [hq] at hname hflat
      cases hfind : e₀.variants.find? fun v => v.name.short = name.short with
      | none =>
        simp only [hfind, Option.map_none, Option.getD_none] at hflat
        exact hflat trivial
      | some d₀ =>
        simp only [hfind, Option.map_some, Option.getD_some] at hname
        have hd₀ := List.mem_of_find?_eq_some hfind
        have hshort₀ : d₀.name.short = name.short := by simpa using List.find?_some hfind
        obtain ⟨he₀, hq₀⟩ := enumDec_mem hq
        have hsame : some e₀ = some e := by rw [← h.enumOf_eq he₀ hd₀, hname, hown]
        cases hsame
        exact ⟨by rw [← hq₀]; simp, by rw [← hshort₀, hname]⟩

/-! ### Matching by columns -/

variable [DecidableEq L]

theorem allMatch_iff : allMatch D ps vs = true ↔ Accepts (vlMatch D) ps vs := by
  induction ps generalizing vs with
  | nil => cases vs <;> simp [allMatch]
  | cons p ps ih => cases vs <;> simp [allMatch, ih, Accepts]

@[simp] theorem vlMatch_none (v : Val L) : vlMatch D Pat.none v = true := by
  simp [Pat.none, vlMatch]

theorem accepts_replicate_none (vs : List (Val L)) :
    Accepts (vlMatch D) (List.replicate vs.length Pat.none) vs := by
  induction vs with
  | nil => exact accepts_nil
  | cons v vs ih => simpa [replicate_succ] using ih

end Voila.Chk
