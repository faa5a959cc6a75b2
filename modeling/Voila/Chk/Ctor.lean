import Voila.Chk.Typed

/-!
# Voila.Chk.Ctor

The constructors of a type, and what the checker's keys say about them.

`vlMatch_build` and `vlMatch_build_ne` are all that a column needs: on a value built by
constructor `k`, a pattern of the same key matches by its sub-patterns, and a pattern of
another key does not match. The one exception is `?E`, whose values have two spellings:
`Some` and the variants of `E` are not told apart by their keys (`Key.clash`).
-/

namespace Voila.Chk

open Lib List

variable {L : Type} {D : Decls}

/-- `k` is a constructor of the type; it carries values of these types. -/
inductive Of (D : Decls) : Ty → Key → List Ty → Prop where
  | bool (b : Bool) : Of D .bool (.bool b) []
  | tuple (ts : List Ty) : Of D (.tuple ts) (.tuple ts.length) ts
  | struct {n : Name} {s : StructDec} (hs : D.structDec n = some s) :
      Of D (.struct n) (.struct n) (s.fields.map Prod.snd)
  | variant {n : Name} {e : EnumDec} {d : VariantDec} (he : D.enumDec n = some e)
      (hd : d ∈ e.variants) : Of D (.enum n) (.variant d.name) d.fields
  | optVariant {n : Name} {e : EnumDec} {d : VariantDec} (he : D.enumDec n = some e)
      (hd : d ∈ e.variants) : Of D (.opt (.enum n)) (.variant d.name) d.fields
  | nil {t : Ty} : Of D (.opt t) .nil []
  | some {t : Ty} : Of D (.opt t) .some [t]
  | ok {t : Ty} : Of D (.res t) .ok [t]
  | err {t : Ty} : Of D (.res t) .err [.error]

/-- The value a constructor makes. -/
def build (D : Decls) (k : Key) (us : List (Val L)) : Val L :=
  match k with
  | .bool b => .bool b
  | .tuple _ => .tuple us
  | .struct n => .struct n us
  | .variant v => .enum (((D.enumOf v).map (·.name)).getD []) v.short us
  | .some => us.headD .nil
  | .ok => us.headD .nil
  | .err => us.headD .nil
  | _ => .nil

/-- The two keys are spellings of one value: `Some` beside a variant. -/
def Key.clash (k j : Key) : Bool :=
  (k = .some && j.isVariant) || (k.isVariant && j = .some)

variable {as : List Ty} {t : Ty} {v n name : Name} {k : Key} {d : VariantDec} {e : EnumDec}
  {us : List (Val L)} {p : Pat L} {ks rest : List (Pat L)} {f : Str} {fs : List (Str × Ty)}
  {g : Str → Pat L}

theorem of_variant (hk : Of D t (.variant v) as) :
    ∃ e d, e ∈ D.enums ∧ d ∈ e.variants ∧ d.name = v ∧ as = d.fields ∧ t.enumName = some e.name := by
  cases hk with
  | variant he hd =>
    obtain ⟨he, hn⟩ := enumDec_mem he
    exact ⟨_, _, he, hd, rfl, rfl, congrArg some hn.symm⟩
  | optVariant he hd =>
    obtain ⟨he, hn⟩ := enumDec_mem he
    exact ⟨_, _, he, hd, rfl, rfl, congrArg some hn.symm⟩

theorem Of.arity (h : D.Sound) (hk : Of D t k as) : D.ctorArity k = as.length := by
  cases hk with
  | struct hs => simp [Decls.ctorArity, Decls.structFields, hs]
  | variant he hd =>
    simp [Decls.ctorArity, h.variantDecl_eq (enumDec_mem he).1 hd]
  | optVariant he hd =>
    simp [Decls.ctorArity, h.variantDecl_eq (enumDec_mem he).1 hd]
  | _ => rfl

theorem build_variant (h : D.Sound)
    (he : D.enumDec n = some e) (hd : d ∈ e.variants) (us : List (Val L)) :
    build D (.variant d.name) us = .enum n d.name.short us := by
  obtain ⟨hmem, hn⟩ := enumDec_mem he
  simp [build, h.enumOf_eq hmem hd, hn]

theorem build_hasTy (h : D.Sound) (hk : Of D t k as)
    (hus : HasTys D as us) : HasTy D t (build D k us) := by
  cases hk with
  | bool b => exact .bool b
  | tuple ts => exact .tuple hus
  | struct hs => exact .struct hs hus
  | variant he hd => exact build_variant h he hd us ▸ .enum he hd hus
  | optVariant he hd => exact build_variant h he hd us ▸ .some (.enum he hd hus)
  | nil => exact .nil
  | some =>
    obtain ⟨v, rfl, hv⟩ := hasTys_singleton.mp hus
    exact .some hv
  | ok =>
    obtain ⟨v, rfl, hv⟩ := hasTys_singleton.mp hus
    exact .ok hv
  | err =>
    obtain ⟨v, rfl, hv⟩ := hasTys_singleton.mp hus
    cases hv
    exact .err _

/-- The types a constructor carries are types again. -/
theorem Of.oks (h : D.Sound) {t : Ty} {k : Key} {as : List Ty} (hk : Of D t k as)
    (ht : t.ok D = true) : Ty.oks D as = true := by
  cases hk with
  | bool => rfl
  | tuple => exact ht
  | struct hs => exact h.fields _ (structDec_mem hs).1
  | variant he hd => exact h.payloads _ (enumDec_mem he).1 _ hd
  | optVariant he hd => exact h.payloads _ (enumDec_mem he).1 _ hd
  | nil => rfl
  | some => simp_all [Ty.ok, Ty.oks]
  | ok => simp_all [Ty.ok, Ty.oks]
  | err => rfl

theorem HasTy.isNil_eq {t : Ty} {v : Val L} (hv : HasTy D t v) (ht : t.holdsNil = false) :
    v.isNil = false := by
  cases hv with
  | nil | some => simp [Ty.holdsNil] at ht
  | ok hv => exact hv.isNil_eq ht
  | _ => rfl
termination_by t

theorem HasTy.isErr_eq {t : Ty} {v : Val L} (hv : HasTy D t v) (ht : t.holdsErr = false) :
    v.isErr = false := by
  cases hv with
  | error | ok | err => simp [Ty.holdsErr] at ht
  | some hv => exact hv.isErr_eq ht
  | _ => rfl
termination_by t

/-- Every value of the type is made by one of the keys. -/
def Signs (L : Type) (D : Decls) (t : Ty) (sig : List Key) : Prop :=
  ∀ v : Val L, HasTy D t v →
    ∃ k ∈ sig, ∃ as us, Of D t k as ∧ HasTys D as us ∧ v = build D k us

theorem signs_bool : Signs L D .bool [.bool true, .bool false] := by
  intro v hv
  cases hv with
  | bool b => exact ⟨.bool b, by cases b <;> simp, [], [], .bool b, .nil, rfl⟩

theorem signs_tuple (ts : List Ty) : Signs L D (.tuple ts) [.tuple ts.length] := by
  intro v hv
  cases hv with
  | tuple hvs => exact ⟨_, mem_singleton_self _, ts, _, .tuple ts, hvs, rfl⟩

theorem signs_struct (n : Name) : Signs L D (.struct n) [.struct n] := by
  intro v hv
  cases hv with
  | struct hs hvs => exact ⟨_, mem_singleton_self _, _, _, .struct hs, hvs, rfl⟩

theorem signs_enum (h : D.Sound) (he : D.enumDec n = some e) :
    Signs L D (.enum n) (Decls.variantKeys e) := by
  intro v hv
  cases hv with
  | enum he' hd hvs =>
    obtain rfl := Option.some.inj (he ▸ he')
    exact ⟨_, mem_map_of_mem hd, _, _, .variant he hd, hvs, (build_variant h he hd _).symm⟩

theorem signs_opt (t : Ty) : Signs L D (.opt t) [.some, .nil] := by
  intro v hv
  cases hv with
  | nil => exact ⟨.nil, by simp, [], [], .nil, .nil, rfl⟩
  | some hv => exact ⟨.some, by simp, [t], [v], .some, .cons hv .nil, rfl⟩

/-- The second spelling: the variants of `E` beside nil. -/
theorem signs_optEnum (h : D.Sound) (he : D.enumDec n = some e) :
    Signs L D (.opt (.enum n)) (Decls.variantKeys e ++ [.nil]) := by
  intro v hv
  cases hv with
  | nil => exact ⟨.nil, by simp, [], [], .nil, .nil, rfl⟩
  | some hv =>
    cases hv with
    | enum he' hd hvs =>
      obtain rfl := Option.some.inj (he ▸ he')
      exact ⟨_, mem_append_left _ (mem_map_of_mem hd), _, _, .optVariant he hd, hvs,
        (build_variant h he hd _).symm⟩

theorem signs_res (t : Ty) : Signs L D (.res t) [.ok, .err] := by
  intro v hv
  cases hv with
  | ok hv => exact ⟨.ok, by simp, [t], [v], .ok, .cons hv .nil, rfl⟩
  | err x => exact ⟨.err, by simp, [.error], [.err x], .err, .cons (.error x) .nil, rfl⟩

/-! ### Patterns by their keys -/

/-- A variant's name that is none of the built-in ones. -/
def Named (name : Name) : Prop := name ≠ someName ∧ name ≠ okName ∧ name ≠ errName

/-- The patterns that have key `k`. -/
def Shaped (D : Decls) (p : Pat L) : Key → Prop
  | .nil => p.head = .nil
  | .some => p.head = .variant someName
  | .ok => p.head = .variant okName
  | .err => p.head = .variant errName
  | .bool b => p.head = .bool b
  | .tuple n => p.head = .tuple ∧ p.kids.length = n
  | .struct s => p.head = .struct s
  | .variant v => ∃ name, p.head = .variant name ∧ Named name ∧ D.variantName name = v ∧
      (D.enumOf v).isSome
  | .other name => p.head = .variant name ∧ Named name ∧ D.enumOf (D.variantName name) = none
  | .lit => (∃ l, p.head = .lit l) ∨ (∃ f, p.head = .field f) ∨ p.head = .or

theorem shaped_of_key (hk : D.ctorKey p = some k) : Shaped D p k := by
  obtain ⟨hd, ks⟩ := p
  cases hd with
  | variant name =>
    simp only [Decls.ctorKey, Pat.head_node] at hk
    split_ifs at hk with hsome hok herr hvar <;> cases hk
    · simp [Shaped, hsome]
    · simp [Shaped, hok]
    · simp [Shaped, herr]
    · exact ⟨name, rfl, ⟨hsome, hok, herr⟩, rfl, hvar⟩
    · exact ⟨rfl, ⟨hsome, hok, herr⟩, by simpa using hvar⟩
  | _ =>
    simp only [Decls.ctorKey, Pat.head_node, Option.some.injEq, reduceCtorEq] at hk
    try subst hk
    try simp [Shaped]

theorem fits_variant (hname : Named name) (he : D.enumOf (D.variantName name) = some e)
    (hd : D.variantDecl (D.variantName name) = some d)
    (hfit : fits D t (.node (.variant name) ks) = true) :
    t.enumName = some e.name ∧ (ks = [] ∨ fitsAll D d.fields ks = true) := by
  obtain ⟨hsome, hok, herr⟩ := hname
  simpa [fits, hsome, hok, herr, he, hd] using hfit

theorem fits_other (hname : Named name) (he : D.enumOf (D.variantName name) = none)
    (hfit : fits D t (.node (.variant name) ks) = true) : D.strange name = true := by
  obtain ⟨hsome, hok, herr⟩ := hname
  simpa [fits, hsome, hok, herr, he] using hfit

theorem variantDecl_of_enumOf (h : D.Sound) (he : D.enumOf v = some e) :
    ∃ d ∈ e.variants, d.name = v ∧ D.variantDecl v = some d := by
  obtain ⟨hmem, d, hd, rfl⟩ := enumOf_mem he
  exact ⟨d, hd, rfl, h.variantDecl_eq hmem hd⟩

/-- What a variant pattern over `t` names: one variant of the enum that `t` is made of. -/
theorem variant_of_key (h : D.Sound)
    (hname : Named name) (hvar : (D.enumOf (D.variantName name)).isSome = true)
    (hfit : fits D t (.node (.variant name) ks) = true) :
    ∃ e d, e ∈ D.enums ∧ d ∈ e.variants ∧ D.variantName name = d.name ∧
      t.enumName = some e.name ∧ (ks = [] ∨ fitsAll D d.fields ks = true) := by
  obtain ⟨e, he⟩ := Option.isSome_iff_exists.mp hvar
  obtain ⟨d, hd, hdn, hdecl⟩ := variantDecl_of_enumOf h he
  obtain ⟨hn, hks⟩ := fits_variant hname he hdecl hfit
  exact ⟨e, d, (enumOf_mem he).1, hd, hdn.symm, hn, hks⟩

theorem enumName_eq (h : t.enumName = some n) : t = .enum n ∨ t = .opt (.enum n) := by
  cases t with
  | enum m => simp_all [Ty.enumName]
  | opt u => cases u <;> simp_all [Ty.enumName]
  | _ => simp [Ty.enumName] at h

/-- A key over a column of `t` is a constructor of `t`, a literal or an exception's name. -/
theorem of_key (h : D.Sound) (hor : p.head.isOr = false)
    (hfit : fits D t p = true) (hkey : D.ctorKey p = some k) :
    k = .lit ∨ (∃ x, k = .other x) ∨ ∃ as, Of D t k as := by
  have hshape := shaped_of_key hkey
  obtain ⟨hd, ks⟩ := p
  cases k with
  | lit => exact .inl rfl
  | other x => exact .inr (.inl ⟨x, rfl⟩)
  | nil =>
    obtain rfl : hd = .nil := hshape
    cases t <;> simp only [fits, Bool.false_eq_true] at hfit
    exact .inr (.inr ⟨_, .nil⟩)
  | some =>
    obtain rfl : hd = .variant someName := hshape
    cases t <;> simp [fits] at hfit
    exact .inr (.inr ⟨_, .some⟩)
  | ok =>
    obtain rfl : hd = .variant okName := hshape
    cases t <;> simp [fits, show okName ≠ someName by decide] at hfit
    exact .inr (.inr ⟨_, .ok⟩)
  | err =>
    obtain rfl : hd = .variant errName := hshape
    cases t <;>
      simp [fits, show errName ≠ someName by decide, show errName ≠ okName by decide] at hfit
    exact .inr (.inr ⟨_, .err⟩)
  | bool b =>
    obtain rfl : hd = .bool b := hshape
    cases t <;> simp only [fits, Bool.false_eq_true] at hfit
    exact .inr (.inr ⟨_, .bool b⟩)
  | tuple n =>
    obtain ⟨rfl, rfl⟩ : hd = .tuple ∧ ks.length = n := hshape
    cases t <;> simp only [fits, Bool.false_eq_true] at hfit
    rw [fitsAll_length hfit]
    exact .inr (.inr ⟨_, .tuple _⟩)
  | struct s =>
    obtain rfl : hd = .struct s := hshape
    cases t <;> simp only [fits, Bool.false_eq_true, Bool.and_eq_true, decide_eq_true_eq] at hfit
    obtain ⟨rfl, hfields⟩ := hfit
    split at hfields
    · rename_i hs
      exact .inr (.inr ⟨_, .struct hs⟩)
    · simp at hfields
  | variant v =>
    obtain ⟨name, hhead, hname, rfl, hvar⟩ := hshape
    obtain rfl : hd = .variant name := hhead
    obtain ⟨e, d, he, hd, hdn, hn, -⟩ := variant_of_key h hname hvar hfit
    have hdec := h.enumDec_eq he
    rw [hdn]
    rcases enumName_eq hn with rfl | rfl
    · exact .inr (.inr ⟨_, .variant hdec hd⟩)
    · exact .inr (.inr ⟨_, .optVariant hdec hd⟩)

/-! ### Sub-patterns -/

theorem onlyPats_fits (h : fitsOnly D t ks = true) : fits D t (ks.headD Pat.none) = true := by
  cases ks with
  | nil => exact fits_none t
  | cons k ks => cases ks <;> simp_all [fitsOnly]

/-- One sub-pattern, or none at all. -/
theorem pad_one (h : fitsOnly D t ks = true) :
    (ks ++ List.replicate 1 Pat.none).take 1 = [ks.headD Pat.none] := by
  cases ks <;> simp

/-- The payload's patterns, or wildcards where the variant stands alone. -/
theorem fitsAll_pad (h : ks = [] ∨ fitsAll D as ks = true) :
    fitsAll D as ((ks ++ List.replicate as.length Pat.none).take as.length) = true := by
  rcases h with rfl | h
  · simpa using fitsAll_replicate_none as
  · rwa [← fitsAll_length h, take_left]

theorem lookup_of_mem (hfs : (fs.map Prod.fst).Nodup) (h : (f, t) ∈ fs) : fs.lookup f = some t := by
  induction fs with
  | nil => simp at h
  | cons x fs ih =>
    obtain ⟨hx, hfs⟩ := nodup_cons.mp hfs
    rcases mem_cons.mp h with rfl | h
    · simp
    · have hne : f ≠ x.1 := fun heq => hx (heq ▸ mem_map_of_mem (f := Prod.fst) h)
      have hbeq : (f == x.1) = false := by simpa using hne
      rw [lookup_cons, hbeq]
      exact ih hfs h

/-- Fields of other names leave the sub-pattern found so far. -/
theorem foldl_skip (hlast : (rest.all fun pf => !pf.head.isField f) = true) (q : Pat L) :
    rest.foldl (fun sub pf => if pf.head.isField f then pf.kid else sub) q = q := by
  induction rest with
  | nil => rfl
  | cons pf rest ih =>
    simp only [all_cons, Bool.and_eq_true, Bool.not_eq_true'] at hlast
    simpa [hlast.1] using ih hlast.2

theorem fieldSub_cons {f g : Str} (hlast : (rest.all fun pf => !pf.head.isField g) = true) :
    Decls.fieldSub f (.node (.field g) ks :: rest) =
      if g = f then ks.headD Pat.none else Decls.fieldSub f rest := by
  have hdec : (Head.field g : Head L).isField f = decide (g = f) := rfl
  simp only [Decls.fieldSub, foldl_cons, Pat.head_node, hdec, decide_eq_true_eq, Pat.kid_node]
  split_ifs with heq
  · exact foldl_skip (heq ▸ hlast) _
  · rfl

theorem fitsFields_cons (h : fitsFields D fs (p :: rest) = true) :
    ∃ f ks t, p = .node (.field f) ks ∧ fs.lookup f = some t ∧ fitsOnly D t ks = true ∧
      (rest.all fun pf => !pf.head.isField f) = true ∧ fitsFields D fs rest = true := by
  obtain ⟨hd, ks⟩ := p
  cases hd <;> simp only [fitsFields, Bool.false_eq_true, Bool.and_eq_true] at h
  rename_i f
  obtain ⟨⟨hf, hlast⟩, hrest⟩ := h
  cases hl : fs.lookup f with
  | none => simp [hl] at hf
  | some t => exact ⟨f, ks, t, rfl, hl, by simpa [hl] using hf, hlast, hrest⟩

theorem fits_fieldSub (h : fitsFields D fs ks = true) (hf : fs.lookup f = some t) :
    fits D t (Decls.fieldSub f ks) = true := by
  induction ks with
  | nil => exact fits_none t
  | cons p rest ih =>
    obtain ⟨g, ks, u, rfl, hg, honly, hlast, hrest⟩ := fitsFields_cons h
    rw [fieldSub_cons hlast]
    split_ifs with heq
    · obtain rfl : u = t := Option.some.inj (hg ▸ heq ▸ hf)
      exact onlyPats_fits honly
    · exact ih hrest

theorem fitsAll_map (h : ∀ x ∈ fs, fits D x.2 (g x.1) = true) :
    fitsAll D (fs.map Prod.snd) ((fs.map Prod.fst).map g) = true := by
  induction fs with
  | nil => rfl
  | cons x fs ih =>
    simp only [map_cons, fitsAll, Bool.and_eq_true]
    exact ⟨h x mem_cons_self, ih fun y hy => h y (mem_cons_of_mem _ hy)⟩

/-- The sub-patterns a pattern has for a constructor of its own key. -/
theorem subPats_of_key {ar : Nat} (hkey : D.ctorKey p = some k) (hs : ∀ n, k ≠ .struct n) :
    D.subPats k ar p = (p.kids ++ List.replicate ar Pat.none).take ar := by
  cases k <;> first | exact absurd rfl (hs _) | simp [Decls.subPats, hkey]

/-- A variant's payload patterns, for either spelling of its type. -/
theorem variant_pats (h : D.Sound)
    (he : e ∈ D.enums) (hd : d ∈ e.variants) (hfit : fits D t p = true)
    (hkey : D.ctorKey p = some (.variant d.name)) :
    ∃ name ks, p = .node (.variant name) ks ∧ Named name ∧ D.variantName name = d.name ∧
      (ks = [] ∨ fitsAll D d.fields ks = true) := by
  obtain ⟨name, hhead, hname, hv, hvar⟩ := shaped_of_key hkey
  obtain ⟨hd', ks⟩ := p
  obtain rfl : hd' = .variant name := hhead
  obtain ⟨e', d', he', hd', hdn, -, hks⟩ := variant_of_key h hname (hv ▸ hvar) hfit
  have hsame : some d' = some d := by
    rw [← h.variantDecl_eq he' hd', ← hdn, hv, h.variantDecl_eq he hd]
  cases hsame
  exact ⟨name, ks, rfl, hname, hv, hks⟩

theorem struct_pats {s : StructDec} (hs : D.structDec n = some s)
    (hfit : fits D (.struct n) p = true) (hkey : D.ctorKey p = some (.struct n)) :
    ∃ ks, p = .node (.struct n) ks ∧ fitsFields D s.fields ks = true := by
  obtain ⟨hd, ks⟩ := p
  obtain rfl : hd = .struct n := shaped_of_key hkey
  exact ⟨ks, rfl, by simpa [fits, hs] using hfit⟩

/-- The built-in variants: one payload pattern at most. -/
theorem only_pats {t u : Ty} (hk : Of D t k [u])
    (hkind : k = .some ∨ k = .ok ∨ k = .err) (hfit : fits D t p = true)
    (hkey : D.ctorKey p = some k) : fitsOnly D u p.kids = true := by
  have hshape := shaped_of_key hkey
  obtain ⟨hd, ks⟩ := p
  rcases hkind with rfl | rfl | rfl <;> obtain rfl := hshape <;> cases hk
  · simpa [fits] using hfit
  · simpa [fits, show okName ≠ someName by decide] using hfit
  · simpa [fits, show errName ≠ someName by decide, show errName ≠ okName by decide] using hfit

/-- The sub-patterns fit what the constructor carries. -/
theorem fitsAll_subPats (h : D.Sound)
    (hk : Of D t k as) (hfit : fits D t p = true) (hkey : D.ctorKey p = some k) :
    fitsAll D as (D.subPats k as.length p) = true := by
  cases hk with
  | struct hs =>
    obtain ⟨ks, rfl, hks⟩ := struct_pats hs hfit hkey
    simp only [Decls.subPats, hkey, reduceCtorEq, if_false, Decls.structFields, hs,
      Option.map_some, Option.getD_some]
    exact fitsAll_map fun x hx => fits_fieldSub hks (lookup_of_mem (StructDec.nodup _) hx)
  | variant he hd =>
    obtain ⟨name, ks, rfl, -, -, hks⟩ := variant_pats h (enumDec_mem he).1 hd hfit hkey
    rw [subPats_of_key hkey (by simp)]
    exact fitsAll_pad hks
  | optVariant he hd =>
    obtain ⟨name, ks, rfl, -, -, hks⟩ := variant_pats h (enumDec_mem he).1 hd hfit hkey
    rw [subPats_of_key hkey (by simp)]
    exact fitsAll_pad hks
  | tuple ts =>
    rw [subPats_of_key hkey (by simp)]
    obtain ⟨hd, ks⟩ := p
    obtain ⟨rfl, -⟩ : hd = .tuple ∧ ks.length = _ := shaped_of_key hkey
    exact fitsAll_pad (.inr (by simpa [fits] using hfit))
  | bool => rw [subPats_of_key hkey (by simp)]; rfl
  | nil => rw [subPats_of_key hkey (by simp)]; rfl
  | some =>
    have honly := only_pats .some (by simp) hfit hkey
    rw [subPats_of_key hkey (by simp), length_singleton, pad_one honly]
    simp only [fitsAll, onlyPats_fits honly, Bool.and_self]
  | ok =>
    have honly := only_pats .ok (by simp) hfit hkey
    rw [subPats_of_key hkey (by simp), length_singleton, pad_one honly]
    simp only [fitsAll, onlyPats_fits honly, Bool.and_self]
  | err =>
    have honly := only_pats .err (by simp) hfit hkey
    rw [subPats_of_key hkey (by simp), length_singleton, pad_one honly]
    simp only [fitsAll, onlyPats_fits honly, Bool.and_self]

variable [DecidableEq L]

theorem accepts_pad (h : ks = [] ∨ fitsAll D as ks = true) (hus : us.length = as.length) :
    (ks.isEmpty || (decide (ks.length = us.length) && allMatch D ks us)) = true ↔
      Accepts (vlMatch D) ((ks ++ List.replicate as.length Pat.none).take as.length) us := by
  rcases h with rfl | h
  · simpa [← hus] using accepts_replicate_none us
  · have hlen := fitsAll_length h
    rw [← hlen, take_left, allMatch_iff.symm]
    cases ks with
    | nil =>
      obtain rfl : us = [] := length_eq_zero_iff.mp (hus.trans hlen.symm)
      simp [allMatch]
    | cons k ks => simp [hus, hlen]

theorem onlyMatch_iff (h : fitsOnly D t ks = true) (v : Val L) :
    onlyMatch D ks v = vlMatch D (ks.headD Pat.none) v := by
  cases ks with
  | nil => simp [onlyMatch]
  | cons k ks => cases ks <;> simp_all [fitsOnly, onlyMatch]

/-- Asking for one field more. -/
theorem accepts_update {fs : List Str} (hfs : fs.Nodup) (hf : f ∈ fs) {q : Pat L}
    (hg : g f = Pat.none) (hus : us.length = fs.length) :
    Accepts (vlMatch D) (fs.map fun x => if f = x then q else g x) us ↔
      (∃ v, us[fs.idxOf f]? = some v ∧ vlMatch D q v = true) ∧
        Accepts (vlMatch D) (fs.map g) us := by
  induction fs generalizing us with
  | nil => simp at hf
  | cons x fs ih =>
    cases us with
    | nil => simp at hus
    | cons u us =>
      obtain ⟨hx, hfs⟩ := nodup_cons.mp hfs
      simp only [map_cons, accepts_cons]
      by_cases heq : f = x
      · subst heq
        have hrest : (fs.map fun y => if f = y then q else g y) = fs.map g :=
          map_congr_left fun y hy => if_neg fun heq => hx (by rwa [heq])
        simp [hrest, hg]
      · have hf : f ∈ fs := by simpa [heq] using hf
        rw [if_neg heq, ih hfs hf (by simpa using hus), idxOf_cons_ne _ (Ne.symm heq)]
        simp only [List.getElem?_cons_succ]
        tauto

theorem fieldsMatch_iff (hfs : (fs.map Prod.fst).Nodup) (h : fitsFields D fs ks = true)
    (hus : us.length = fs.length) :
    fieldsMatch D (fs.map Prod.fst) ks us = true ↔
      Accepts (vlMatch D) ((fs.map Prod.fst).map fun f => Decls.fieldSub f ks) us := by
  induction ks with
  | nil =>
    have := accepts_replicate_none (D := D) us
    have hlen : us.length = (fs.map Prod.fst).length := by simpa using hus
    rw [hlen, ← map_const'] at this
    simpa [fieldsMatch, Decls.fieldSub] using this
  | cons p rest ih =>
    obtain ⟨f, ks, t, rfl, hf, honly, hlast, hrest⟩ := fitsFields_cons h
    have hmem : f ∈ fs.map Prod.fst := by
      by_contra hne
      have hnone : fs.lookup f = none := lookup_eq_none_iff.mpr fun x hx =>
        by simpa using fun heq : f = x.1 => hne (heq ▸ mem_map_of_mem hx)
      simp [hnone] at hf
    have hnone : Decls.fieldSub f rest = Pat.none := foldl_skip hlast _
    simp only [fieldsMatch, Bool.and_eq_true, ih hrest, fieldSub_cons hlast]
    rw [accepts_update hfs hmem hnone (by simpa using hus)]
    refine and_congr_left fun _ => ?_
    cases us[(fs.map Prod.fst).idxOf f]? with
    | none => simp
    | some v => simp [onlyMatch_iff honly]

/-! ### Values by their constructors -/

theorem vlMatch_variant (hname : Named name) (ks : List (Pat L)) (v : Val L) :
    vlMatch D (.node (.variant name) ks) v = match v with
      | .err type => decide (type = name)
      | .enum type variant vs => answers type variant name &&
          (ks.isEmpty || (decide (ks.length = vs.length) && allMatch D ks vs))
      | _ => false := by
  obtain ⟨hsome, hok, herr⟩ := hname
  cases v <;> simp [vlMatch, hsome, hok, herr]

/-- On a value its own constructor made, a pattern matches by its sub-patterns. -/
theorem vlMatch_build (h : D.Sound) (ht : t.ok D = true) (hk : Of D t k as) (hus : HasTys D as us)
    (hfit : fits D t p = true) (hkey : D.ctorKey p = some k) :
    vlMatch D p (build D k us) = true ↔ Accepts (vlMatch D) (D.subPats k as.length p) us := by
  have hlen := hus.length_eq
  have honly : ∀ u, as = [u] → (k = .some ∨ k = .ok ∨ k = .err) → ∀ v, us = [v] →
      (onlyMatch D p.kids v = true ↔ Accepts (vlMatch D) (D.subPats k as.length p) us) := by
    rintro u rfl hkind v rfl
    have hfits := only_pats hk hkind hfit hkey
    rw [subPats_of_key hkey (by rcases hkind with rfl | rfl | rfl <;> simp),
      length_singleton, pad_one hfits, onlyMatch_iff hfits]
    simp
  cases hk with
  | bool b =>
    obtain ⟨hd, ks⟩ := p
    obtain rfl : hd = .bool b := shaped_of_key hkey
    obtain rfl := hasTys_nil.mp hus
    rw [subPats_of_key hkey (by simp)]
    simp [vlMatch, build]
  | tuple ts =>
    obtain ⟨hd, ks⟩ := p
    obtain ⟨rfl, hks⟩ : hd = .tuple ∧ ks.length = _ := shaped_of_key hkey
    rw [subPats_of_key hkey (by simp), Pat.kids_node, ← hks, take_left, ← allMatch_iff]
    simp [vlMatch, build, hlen, hks]
  | struct hs =>
    obtain ⟨ks, rfl, hks⟩ := struct_pats hs hfit hkey
    have hfields := fieldsMatch_iff (StructDec.nodup _) hks (by simpa using hlen)
    simpa [vlMatch, build, Decls.subPats, hkey, Decls.structFields, hs] using hfields
  | variant he hd =>
    obtain ⟨hmem, rfl⟩ := enumDec_mem he
    obtain ⟨name, ks, rfl, hname, hv, hks⟩ := variant_pats h hmem hd hfit hkey
    have hans := (h.answers_iff hmem hd hd hv).mpr rfl
    rw [subPats_of_key hkey (by simp), build_variant h he hd, vlMatch_variant hname]
    simpa only [hans, Bool.true_and, Pat.kids_node] using accepts_pad hks hlen
  | optVariant he hd =>
    obtain ⟨hmem, rfl⟩ := enumDec_mem he
    obtain ⟨name, ks, rfl, hname, hv, hks⟩ := variant_pats h hmem hd hfit hkey
    have hans := (h.answers_iff hmem hd hd hv).mpr rfl
    rw [subPats_of_key hkey (by simp), build_variant h he hd, vlMatch_variant hname]
    simpa only [hans, Bool.true_and, Pat.kids_node] using accepts_pad hks hlen
  | nil =>
    obtain ⟨hd, ks⟩ := p
    obtain rfl : hd = .nil := shaped_of_key hkey
    obtain rfl := hasTys_nil.mp hus
    rw [subPats_of_key hkey (by simp)]
    simp [vlMatch, build, Val.isNil]
  | some =>
    obtain ⟨v, rfl, hv⟩ := hasTys_singleton.mp hus
    rw [← honly _ rfl (by simp) v rfl]
    obtain ⟨hd, ks⟩ := p
    obtain rfl : hd = .variant someName := shaped_of_key hkey
    simp only [Ty.ok, Bool.and_eq_true, Bool.not_eq_true'] at ht
    simp [vlMatch, build, hv.isNil_eq ht.1]
  | ok =>
    obtain ⟨v, rfl, hv⟩ := hasTys_singleton.mp hus
    rw [← honly _ rfl (by simp) v rfl]
    obtain ⟨hd, ks⟩ := p
    obtain rfl : hd = .variant okName := shaped_of_key hkey
    simp only [Ty.ok, Bool.and_eq_true, Bool.not_eq_true'] at ht
    simp [vlMatch, build, hv.isErr_eq ht.1, show okName ≠ someName by decide]
  | err =>
    obtain ⟨v, rfl, hv⟩ := hasTys_singleton.mp hus
    rw [← honly _ rfl (by simp) v rfl]
    obtain ⟨hd, ks⟩ := p
    obtain rfl : hd = .variant errName := shaped_of_key hkey
    cases hv
    simp [vlMatch, build, Val.isErr, show errName ≠ someName by decide,
      show errName ≠ okName by decide]

/-- On a value of another constructor it does not match, unless the keys clash. -/
theorem vlMatch_build_ne (h : D.Sound) (ht : t.ok D = true) {k j : Key}
    {as bs : List Ty} (hk : Of D t k as) (hj : Of D t j bs)
    (hus : HasTys D as us) (hfit : fits D t p = true) (hkey : D.ctorKey p = some j)
    (hne : k ≠ j) (hclash : k.clash j = false) : vlMatch D p (build D k us) = false := by
  have hshape := shaped_of_key hkey
  have hvariant : ∀ {e : EnumDec} {d d' : VariantDec}, e ∈ D.enums → d ∈ e.variants →
      d' ∈ e.variants → j = .variant d'.name → d ≠ d' → ∀ vs,
      vlMatch D p (.enum e.name d.name.short vs) = false := by
    intro e d d' he hd hd' hjd hdd vs
    obtain ⟨name, ks, rfl, hname, hv, -⟩ := variant_pats h he hd' hfit (hjd ▸ hkey)
    rw [vlMatch_variant hname]
    have hans : answers e.name d.name.short name = false := by
      by_contra hans
      exact hdd ((h.answers_iff he hd' hd hv).mp (by simpa using hans))
    simp [hans]
  obtain ⟨hd, ks⟩ := p
  cases hk with
  | bool b =>
    cases hj with
    | bool c =>
      obtain rfl : hd = .bool c := hshape
      have hcb : c ≠ b := fun heq => hne (heq ▸ rfl)
      simpa [vlMatch, build] using hcb
  | tuple => cases hj; exact absurd rfl hne
  | struct => cases hj; exact absurd rfl hne
  | variant he hd =>
    cases hj with
    | variant he' hd' =>
      obtain rfl := Option.some.inj (he ▸ he')
      obtain ⟨hmem, rfl⟩ := enumDec_mem he
      rw [build_variant h he hd]
      exact hvariant hmem hd hd' rfl (fun heq => hne (heq ▸ rfl)) us
  | optVariant he hd =>
    rw [build_variant h he hd]
    cases hj with
    | optVariant he' hd' =>
      obtain rfl := Option.some.inj (he ▸ he')
      obtain ⟨hmem, rfl⟩ := enumDec_mem he
      exact hvariant hmem hd hd' rfl (fun heq => hne (heq ▸ rfl)) us
    | nil =>
      obtain rfl := hshape
      simp [vlMatch, Val.isNil]
    | some => simp [Key.clash, Key.isVariant] at hclash
  | nil =>
    cases hj with
    | optVariant he' hd' =>
      obtain ⟨name, hhead, hname, -, -⟩ := hshape
      obtain rfl := hhead
      rw [vlMatch_variant hname]
      rfl
    | nil => exact absurd rfl hne
    | some =>
      obtain rfl := hshape
      simp [vlMatch, build, Val.isNil]
  | some =>
    obtain ⟨v, rfl, hv⟩ := hasTys_singleton.mp hus
    simp only [Ty.ok, Bool.and_eq_true, Bool.not_eq_true'] at ht
    cases hj with
    | optVariant he' hd' => simp [Key.clash, Key.isVariant] at hclash
    | nil =>
      obtain rfl := hshape
      simp [vlMatch, build, hv.isNil_eq ht.1]
    | some => exact absurd rfl hne
  | ok =>
    obtain ⟨v, rfl, hv⟩ := hasTys_singleton.mp hus
    simp only [Ty.ok, Bool.and_eq_true, Bool.not_eq_true'] at ht
    cases hj with
    | ok => exact absurd rfl hne
    | err =>
      obtain rfl := hshape
      simp [vlMatch, build, hv.isErr_eq ht.1, show errName ≠ someName by decide,
        show errName ≠ okName by decide]
  | err =>
    obtain ⟨v, rfl, hv⟩ := hasTys_singleton.mp hus
    cases hv
    cases hj with
    | ok =>
      obtain rfl := hshape
      simp [vlMatch, build, Val.isErr, show okName ≠ someName by decide]
    | err => exact absurd rfl hne

end Voila.Chk
