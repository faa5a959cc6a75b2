import Voila.Load.Loader

/-!
# Voila.Load.LoaderSound

What loading a program gives: every package once, after the packages it uses, or an error.

The invariant says of each package that is registered whether it is still being loaded: it is on the
stack, or it is in the order. A package that is asked for and on the stack is an error; one that is
registered and not on the stack has been ordered, with all it uses. As the stack has no package
twice, the depth of the calls is at most the number of packages.
-/

open List

namespace Voila.Load

variable {env : Env} {U : List String} {l l' l'' : Loader} {pi : Nat} {k : String} {pk pk' : Pkg}

/-! ### What a package uses -/

/-- The package that a `use` asks for. -/
def Use.need (env : Env) (u : Use) : Option String :=
  match env.resolve u.ipath with
  | .user dir => some dir
  | .stdsrc name => some ("std/" ++ name)
  | _ => none

def File.Needs (env : Env) (f : File) (k : String) : Prop := ∃ u ∈ f.uses, u.need env = some k

def Pkg.Needs (env : Env) (pk : Pkg) (k : String) : Prop := ∃ f ∈ pk.files, f.Needs env k

/-- What of a package does not change once it is registered. -/
def Pkg.core (pk : Pkg) : String × String × List File := (pk.name, pk.dir, pk.files)

theorem Pkg.core_eq (h : pk'.core = pk.core) :
    pk'.name = pk.name ∧ pk'.dir = pk.dir ∧ pk'.files = pk.files := by
  simpa [core] using h

/-- The package has been loaded, with all it uses. -/
def Loader.Done (l : Loader) (k : String) : Prop :=
  ∃ pi ∈ l.order, ∃ pk, l.pkgs[pi]? = some pk ∧ pk.dir = k

/-! ### The invariant -/

structure Good (env : Env) (U : List String) (l : Loader) : Prop where
  dirs : ∀ k pi, l.byDir k = some pi ↔ ∃ pk, l.pkgs[pi]? = some pk ∧ pk.dir = k
  names : ∀ (pi : Nat) (pk : Pkg), l.pkgs[pi]? = some pk → l.qualifier pk.name = some pk.dir
  nodup : l.stack.Nodup
  bounded : ∀ k ∈ l.stack, k ∈ U
  /-- A package is being loaded or has been ordered. -/
  order : ∀ pi, pi ∈ l.order ↔ ∃ pk, l.pkgs[pi]? = some pk ∧ pk.dir ∉ l.stack
  once : l.order.Nodup
  deps : l.nErrors = 0 → ∀ pre pi post, l.order = pre ++ pi :: post →
    ∀ pk, l.pkgs[pi]? = some pk → ∀ k, pk.Needs env k →
      ∃ pj ∈ pre, ∃ pk', l.pkgs[pj]? = some pk' ∧ pk'.dir = k

/-- What is loaded stays loaded, and errors stay. -/
structure Grows (l l' : Loader) : Prop where
  stack : l'.stack = l.stack
  pkgs : ∀ (pi : Nat) (pk : Pkg), l.pkgs[pi]? = some pk →
    ∃ pk', l'.pkgs[pi]? = some pk' ∧ pk'.core = pk.core
  order : l.order <+: l'.order
  errors : l.nErrors ≤ l'.nErrors

theorem Grows.refl (l : Loader) : Grows l l :=
  ⟨rfl, fun _ pk h => ⟨pk, h, rfl⟩, prefix_rfl, Nat.le_refl _⟩

theorem Grows.trans (h : Grows l l') (h' : Grows l' l'') : Grows l l'' := by
  refine ⟨h'.stack.trans h.stack, fun pi pk hpk => ?_, h.order.trans h'.order,
    Nat.le_trans h.errors h'.errors⟩
  obtain ⟨pk', hpk', hcore⟩ := h.pkgs pi pk hpk
  obtain ⟨pk'', hpk'', hcore'⟩ := h'.pkgs pi pk' hpk'
  exact ⟨pk'', hpk'', hcore'.trans hcore⟩

theorem Grows.done (h : Grows l l') (hd : l.Done k) : l'.Done k := by
  obtain ⟨pi, hpi, pk, hpk, rfl⟩ := hd
  obtain ⟨pk', hpk', hcore⟩ := h.pkgs pi pk hpk
  exact ⟨pi, h.order.subset hpi, pk', hpk', (Pkg.core_eq hcore).2.1⟩

/-- The packages are those they were, as far as they do not change. -/
structure Alike (l l' : Loader) : Prop where
  stack : l'.stack = l.stack
  pkgs : l'.pkgs.map Pkg.core = l.pkgs.map Pkg.core
  byDir : l'.byDir = l.byDir
  order : l'.order = l.order
  errors : l.nErrors ≤ l'.nErrors

theorem Alike.get (h : Alike l l') (hpk : l'.pkgs[pi]? = some pk') :
    ∃ pk, l.pkgs[pi]? = some pk ∧ pk'.core = pk.core := by
  have hmap : (l.pkgs.map Pkg.core)[pi]? = some pk'.core := by
    rw [← h.pkgs, List.getElem?_map, hpk]
    rfl
  rw [List.getElem?_map] at hmap
  obtain ⟨pk, hpk, hcore⟩ := Option.map_eq_some_iff.mp hmap
  exact ⟨pk, hpk, hcore.symm⟩

theorem Alike.get' (h : Alike l l') (hpk : l.pkgs[pi]? = some pk) :
    ∃ pk', l'.pkgs[pi]? = some pk' ∧ pk'.core = pk.core := by
  have hmap : (l'.pkgs.map Pkg.core)[pi]? = some pk.core := by
    rw [h.pkgs, List.getElem?_map, hpk]
    rfl
  rw [List.getElem?_map] at hmap
  exact Option.map_eq_some_iff.mp hmap

theorem Alike.grows (h : Alike l l') : Grows l l' :=
  ⟨h.stack, fun _ _ hpk => h.get' hpk, h.order ▸ prefix_rfl, h.errors⟩

/-- A name that is taken stays with its directory. -/
theorem Good.alike (hg : Good env U l) (h : Alike l l')
    (hq : ∀ n d, l.qualifier n = some d → l'.qualifier n = some d) : Good env U l' where
  dirs k pi := by
    rw [h.byDir, hg.dirs]
    constructor
    · intro ⟨pk, hpk, hd⟩
      obtain ⟨pk', hpk', hcore⟩ := h.get' hpk
      exact ⟨pk', hpk', (Pkg.core_eq hcore).2.1.trans hd⟩
    · intro ⟨pk', hpk', hd⟩
      obtain ⟨pk, hpk, hcore⟩ := h.get hpk'
      exact ⟨pk, hpk, (Pkg.core_eq hcore).2.1.symm.trans hd⟩
  names pi pk' hpk' := by
    obtain ⟨pk, hpk, hcore⟩ := h.get hpk'
    obtain ⟨hname, hdir, -⟩ := Pkg.core_eq hcore
    rw [hname, hdir]
    exact hq _ _ (hg.names pi pk hpk)
  nodup := h.stack ▸ hg.nodup
  bounded := h.stack ▸ hg.bounded
  order pi := by
    rw [h.order, hg.order, h.stack]
    constructor
    · intro ⟨pk, hpk, hd⟩
      obtain ⟨pk', hpk', hcore⟩ := h.get' hpk
      exact ⟨pk', hpk', (Pkg.core_eq hcore).2.1 ▸ hd⟩
    · intro ⟨pk', hpk', hd⟩
      obtain ⟨pk, hpk, hcore⟩ := h.get hpk'
      exact ⟨pk, hpk, (Pkg.core_eq hcore).2.1 ▸ hd⟩
  once := h.order ▸ hg.once
  deps h0 pre pi post hsplit pk' hpk' k hk := by
    obtain ⟨pk, hpk, hcore⟩ := h.get hpk'
    have hneeds : pk.Needs env k := by
      rw [Pkg.Needs, ← (Pkg.core_eq hcore).2.2]
      exact hk
    have herrors := h.errors
    obtain ⟨pj, hpj, pd, hpd, hd⟩ := hg.deps (by omega) pre pi post (h.order ▸ hsplit) pk hpk k hneeds
    obtain ⟨pd', hpd', hcore'⟩ := h.get' hpd
    exact ⟨pj, hpj, pd', hpd', (Pkg.core_eq hcore').2.1.trans hd⟩

/-! ### Reports -/

theorem nErrors_append (l : Loader) (ds : List Diag) :
    l.nErrors ≤ { l with diags := l.diags ++ ds }.nErrors := by
  unfold Loader.nErrors
  rw [countP_append]
  exact Nat.le_add_right ..

theorem err_nErrors (env : Env) (line col : Nat) (msg : String) :
    (l.err env line col msg).nErrors = l.nErrors + 1 := by
  unfold Loader.nErrors Loader.err
  rw [countP_append]
  rfl

theorem warn_nErrors (env : Env) (line col : Nat) (code msg : String) :
    (l.warn env line col code msg).nErrors = l.nErrors := by
  unfold Loader.nErrors Loader.warn
  rw [countP_append]
  rfl

theorem Alike.err (env : Env) (line col : Nat) (msg : String) : Alike l (l.err env line col msg) :=
  ⟨rfl, rfl, rfl, rfl, by rw [err_nErrors]; omega⟩

theorem Alike.warn (env : Env) (line col : Nat) (code msg : String) :
    Alike l (l.warn env line col code msg) :=
  ⟨rfl, rfl, rfl, rfl, Nat.le_of_eq (warn_nErrors ..).symm⟩

theorem Alike.current (l : Loader) (c : String) : Alike l { l with current := c } :=
  ⟨rfl, rfl, rfl, rfl, Nat.le_refl _⟩

theorem Alike.trans (h : Alike l l') (h' : Alike l' l'') : Alike l l'' :=
  ⟨h'.stack.trans h.stack, h'.pkgs.trans h.pkgs, h'.byDir.trans h.byDir, h'.order.trans h.order,
    Nat.le_trans h.errors h'.errors⟩

theorem Alike.refl (l : Loader) : Alike l l := ⟨rfl, rfl, rfl, rfl, Nat.le_refl _⟩

theorem map_modify_core {pkgs : List Pkg} {pi : Nat} {f : Pkg → Pkg} (hf : ∀ pk, (f pk).core = pk.core) :
    (pkgs.modify pi f).map Pkg.core = pkgs.map Pkg.core := by
  induction pkgs generalizing pi with
  | nil => simp
  | cons pk pkgs ih =>
    cases pi with
    | zero => simp [hf]
    | succ pi => simp [ih]

theorem Alike.setImports (l : Loader) (pi : Nat) (deps : List (String × Nat)) :
    Alike l (l.setImports pi deps) ∧ (l.setImports pi deps).qualifier = l.qualifier := by
  unfold Loader.setImports
  induction deps generalizing l with
  | nil => exact ⟨.refl l, rfl⟩
  | cons d deps ih =>
    have hone : Alike l (l.setImport pi d.1 d.2) :=
      ⟨rfl, map_modify_core fun _ => rfl, rfl, rfl, Nat.le_refl _⟩
    obtain ⟨hrest, hq⟩ := ih (l.setImport pi d.1 d.2)
    exact ⟨hone.trans hrest, hq⟩

/-! ### Imports -/

/-- A package was loaded, or an error was reported. -/
structure Loads (env : Env) (U : List String) (k : String) (l l' : Loader) (r : Option Nat) : Prop where
  good : Good env U l'
  grows : Grows l l'
  done : ∀ pi, r = some pi → l'.Done k
  failed : r = none → l.nErrors < l'.nErrors

/-- The loader of packages works while the stack has room. -/
def Works (env : Env) (U : List String) (load : LoadFn) (fuel : Nat) : Prop :=
  ∀ t line col l, Good env U l → t.key ∈ U → U.length < fuel + l.stack.length →
    ∃ l' r, load t line col l = some (l', r) ∧ Loads env U t.key l l' r

/-- The imports of a file were loaded, or an error was reported. -/
structure LoadsAll (env : Env) (U : List String) (Need : String → Prop) (l l' : Loader) : Prop where
  good : Good env U l'
  grows : Grows l l'
  done : l'.nErrors = 0 → ∀ k, Need k → l'.Done k

section

variable {load : LoadFn} {fuel : Nat}

-- the packages that imports may name
variable (hU : ∀ (u : Use) (k : String), u.need env = some k → k ∈ U)

include hU

theorem importsOf_loads (hload : Works env U load fuel) (uses : List Use) :
    ∀ imports l, Good env U l → U.length < fuel + l.stack.length →
      ∃ l' deps, importsOf env load uses imports l = some (l', deps) ∧
        LoadsAll env U (fun k => ∃ u ∈ uses, u.need env = some k) l l' := by
  induction uses with
  | nil => exact fun imports l hg _ => ⟨l, imports, rfl, hg, .refl l, fun _ k hk => by simp at hk⟩
  | cons u uses ih =>
    intro imports l hg hroom
    -- what is left of the list, once this one is dealt with
    have hrest : ∀ imports' l₁, Good env U l₁ → Grows l l₁ →
        (l₁.nErrors = 0 → ∀ k, u.need env = some k → l₁.Done k) →
        ∃ l' deps, importsOf env load uses imports' l₁ = some (l', deps) ∧
          LoadsAll env U (fun k => ∃ v ∈ u :: uses, v.need env = some k) l l' := by
      intro imports' l₁ hg₁ hgrows hdone
      obtain ⟨l', deps, heq, hall⟩ := ih imports' l₁ hg₁ (by rw [hgrows.stack]; exact hroom)
      refine ⟨l', deps, heq, hall.good, hgrows.trans hall.grows, fun h0 k ⟨v, hv, hk⟩ => ?_⟩
      rcases mem_cons.mp hv with rfl | hv
      · have herrors := hall.grows.errors
        exact hall.grows.done (hdone (by omega) k hk)
      · exact hall.done h0 k ⟨v, hv, hk⟩
    have hreport : ∀ msg, ∃ l' deps,
        importsOf env load uses imports (l.err env u.line u.col msg) = some (l', deps) ∧
          LoadsAll env U (fun k => ∃ v ∈ u :: uses, v.need env = some k) l l' := by
      intro msg
      have hlike : Alike l (l.err env u.line u.col msg) := .err env u.line u.col msg
      refine hrest imports _ (hg.alike hlike fun _ _ h => h) hlike.grows fun h0 => ?_
      rw [err_nErrors] at h0
      omega
    have hneed : u.need env = match env.resolve u.ipath with
      | .user dir => some dir
      | .stdsrc name => some ("std/" ++ name)
      | _ => none := rfl
    unfold importsOf
    cases hres : env.resolve u.ipath with
    | std =>
      rw [hres] at hneed
      exact hrest imports l hg (.refl l) fun _ k hk => by rw [hneed] at hk; cases hk
    | nostd => exact hreport _
    | bad => exact hreport _
    | stdsrc name =>
      rw [hres] at hneed
      generalize hl₁ : (if name = "ffi" then l.warn env u.line u.col "ffi"
        ("`std/ffi` steps outside the safety guarantees: " ++
          "a foreign call or raw memory is not checked (§12)") else l) = l₁
      have hlike : Alike l l₁ ∧ l₁.qualifier = l.qualifier := by
        rw [← hl₁]
        split
        · exact ⟨.warn env u.line u.col _ _, rfl⟩
        · exact ⟨.refl l, rfl⟩
      obtain ⟨l₂, r, heq, hloads⟩ := hload (.std name) u.line u.col l₁
        (hg.alike hlike.1 fun n d h => hlike.2 ▸ h) (hU u _ hneed)
        (by rw [hlike.1.stack]; exact hroom)
      have hcur := Alike.current l₂ l₁.current
      simp only [heq, hl₁]
      refine hrest imports _ (hloads.good.alike hcur fun _ _ h => h)
        ((hlike.1.grows.trans hloads.grows).trans hcur.grows) fun h0 k hk => ?_
      rw [hneed] at hk
      cases hk
      refine hcur.grows.done ?_
      cases r with
      | some pi => exact hloads.done pi rfl
      | none =>
        have hfailed := hloads.failed rfl
        have h0 : l₂.nErrors = 0 := h0
        omega
    | user dir =>
      rw [hres] at hneed
      dsimp only
      split
      · exact hreport _
      · obtain ⟨l₂, r, heq, hloads⟩ := hload (.dir (env.base u.ipath) dir) u.line u.col l hg
          (hU u _ hneed) hroom
        have hcur := Alike.current l₂ l.current
        have hgood := hloads.good.alike hcur fun _ _ h => h
        have hgrows := hloads.grows.trans hcur.grows
        simp only [heq]
        cases r with
        | none =>
          refine hrest imports _ hgood hgrows fun h0 => ?_
          have hfailed := hloads.failed rfl
          have h0 : l₂.nErrors = 0 := h0
          omega
        | some pi =>
          refine hrest _ _ hgood hgrows fun _ k hk => ?_
          rw [hneed] at hk
          cases hk
          exact hcur.grows.done (hloads.done pi rfl)

theorem loadImports_loads (hload : Works env U load fuel) (pi : Nat) (files : List File) :
    ∀ l, Good env U l → U.length < fuel + l.stack.length →
      ∃ l', loadImports env load pi files l = some l' ∧
        LoadsAll env U (fun k => ∃ f ∈ files, f.Needs env k) l l' := by
  induction files with
  | nil => exact fun l hg _ => ⟨l, rfl, hg, .refl l, fun _ k hk => by simp at hk⟩
  | cons f files ih =>
    intro l hg hroom
    obtain ⟨l₁, deps, heq, hall⟩ := importsOf_loads hU hload f.uses [] l hg hroom
    obtain ⟨hlike, hq⟩ := Alike.setImports l₁ pi deps
    obtain ⟨l', heq', hall'⟩ := ih (l₁.setImports pi deps)
      (hall.good.alike hlike fun n d h => hq ▸ h)
      (by rw [hlike.stack, hall.grows.stack]; exact hroom)
    have hgrows := hlike.grows.trans hall'.grows
    refine ⟨l', by simp [loadImports, heq, heq'], hall'.good, hall.grows.trans hgrows,
      fun h0 k ⟨g, hgm, hk⟩ => ?_⟩
    rcases mem_cons.mp hgm with rfl | hgm
    · have herrors := hgrows.errors
      exact hgrows.done (hall.done (by omega) k hk)
    · exact hall'.done h0 k ⟨g, hgm, hk⟩

/-! ### One package -/

/-- Taking up a package: its name is taken, it is on the stack, and its files are read. -/
structure TakesUp (key name : String) (l l₁ : Loader) (pk : Pkg) : Prop where
  stack : l₁.stack = l.stack ++ [key]
  pkgs : l₁.pkgs = l.pkgs
  byDir : l₁.byDir = l.byDir
  order : l₁.order = l.order
  errors : l.nErrors ≤ l₁.nErrors
  names : ∀ n d, l.qualifier n = some d → l₁.qualifier n = some d
  taken : l₁.qualifier name = some key
  pkg : pk.name = name ∧ pk.dir = key

theorem finish_loads (hload : Works env U load fuel) {key name : String} {l l₁ : Loader} {pk : Pkg}
    (hg : Good env U l) (htake : TakesUp key name l l₁ pk) (hkey : key ∈ U) (hnew : key ∉ l.stack)
    (hfresh : l.byDir key = none) (hroom : U.length < fuel + 1 + l.stack.length) :
    ∃ l' r, finish env load key pk l₁ = some (l', r) ∧ Loads env U key l l' r := by
  obtain ⟨hstack, hpkgs, hby, horder, herrors, hnames, hname, hpkname, hpkdir⟩ := htake
  have hother : ∀ (pj : Nat) (pk' : Pkg), l.pkgs[pj]? = some pk' → pk'.dir ≠ key := by
    intro pj pk' hpk' hd
    rw [(hg.dirs key pj).mpr ⟨pk', hpk', hd⟩] at hfresh
    cases hfresh
  -- the state in which the package is registered
  generalize hreg : { l₁ with
    pkgs := l₁.pkgs ++ [pk]
    byDir := fun d => if d = key then some l₁.pkgs.length else l₁.byDir d } = l₂
  have hget : ∀ (pj : Nat) (pk' : Pkg), l₂.pkgs[pj]? = some pk' ↔
      l.pkgs[pj]? = some pk' ∨ (pj = l.pkgs.length ∧ pk' = pk) := by
    intro pj pk'
    rw [← hreg]
    show (l₁.pkgs ++ [pk])[pj]? = some pk' ↔ _
    rw [hpkgs, List.getElem?_append]
    split
    next hlt =>
      refine ⟨.inl, fun h => h.resolve_right fun h => ?_⟩
      omega
    next hge =>
      rw [List.getElem?_eq_none (by omega : l.pkgs.length ≤ pj), List.getElem?_singleton]
      constructor
      · intro h
        split at h
        · exact .inr ⟨by omega, by simpa [eq_comm] using h⟩
        · cases h
      · rintro (h | ⟨rfl, rfl⟩)
        · cases h
        · simp
  have hlast : l₂.pkgs[l.pkgs.length]? = some pk := (hget _ _).mpr (.inr ⟨rfl, rfl⟩)
  have hstack₂ : l₂.stack = l.stack ++ [key] := by rw [← hreg, ← hstack]
  have horder₂ : l₂.order = l.order := by rw [← hreg, ← horder]
  have herrors₂ : l.nErrors ≤ l₂.nErrors := by
    rw [← hreg]
    exact herrors
  have hgrows₂ : ∀ (pj : Nat) (pk' : Pkg), l.pkgs[pj]? = some pk' → l₂.pkgs[pj]? = some pk' :=
    fun pj pk' h => (hget pj pk').mpr (.inl h)
  have hgood₂ : Good env U l₂ := by
    refine ⟨fun d pj => ?_, fun pj pk' hpk' => ?_, ?_, ?_, fun pj => ?_, horder₂ ▸ hg.once, ?_⟩
    · have hbyd : l₂.byDir d = if d = key then some l.pkgs.length else l.byDir d := by
        rw [← hreg, ← hpkgs, ← hby]
      rw [hbyd]
      split
      next hd =>
        constructor
        · intro h
          cases h
          exact ⟨pk, hlast, hpkdir.trans hd.symm⟩
        · intro ⟨pk', hpk', hd'⟩
          rcases (hget pj pk').mp hpk' with h | ⟨rfl, -⟩
          · exact absurd (hd'.trans hd) (hother pj pk' h)
          · rfl
      next hd =>
        rw [hg.dirs]
        constructor
        · intro ⟨pk', hpk', hd'⟩
          exact ⟨pk', hgrows₂ pj pk' hpk', hd'⟩
        · intro ⟨pk', hpk', hd'⟩
          rcases (hget pj pk').mp hpk' with h | ⟨-, rfl⟩
          · exact ⟨pk', h, hd'⟩
          · exact absurd (hd'.symm.trans hpkdir) hd
    · have hq : l₂.qualifier = l₁.qualifier := by rw [← hreg]
      rw [hq]
      rcases (hget pj pk').mp hpk' with h | ⟨-, rfl⟩
      · exact hnames _ _ (hg.names pj pk' h)
      · rw [hpkname, hpkdir]
        exact hname
    · rw [hstack₂]
      exact nodup_append.mpr ⟨hg.nodup, nodup_singleton key, fun a ha b hb hab =>
        hnew (mem_singleton.mp hb ▸ hab ▸ ha)⟩
    · rw [hstack₂]
      intro d hd
      rcases mem_append.mp hd with hd | hd
      · exact hg.bounded d hd
      · rw [mem_singleton.mp hd]
        exact hkey
    · rw [horder₂, hg.order, hstack₂]
      constructor
      · intro ⟨pk', hpk', hd⟩
        refine ⟨pk', hgrows₂ pj pk' hpk', fun hmem => ?_⟩
        rcases mem_append.mp hmem with hmem | hmem
        · exact hd hmem
        · exact hother pj pk' hpk' (mem_singleton.mp hmem)
      · intro ⟨pk', hpk', hd⟩
        rcases (hget pj pk').mp hpk' with h | ⟨-, rfl⟩
        · exact ⟨pk', h, fun hmem => hd (mem_append_left _ hmem)⟩
        · exact absurd (mem_append_right _ (mem_singleton.mpr hpkdir)) hd
    · intro h0 pre pj post hsplit pk' hpk' d hd
      have hold : l.pkgs[pj]? = some pk' := by
        refine ((hget pj pk').mp hpk').resolve_right fun ⟨hpj, _⟩ => ?_
        have hmem : pj ∈ l.order := by rw [← horder₂, hsplit]; simp
        obtain ⟨pk'', hpk'', -⟩ := (hg.order pj).mp hmem
        rw [hpj, List.getElem?_eq_none (Nat.le_refl _)] at hpk''
        cases hpk''
      obtain ⟨pi, hpi, pd, hpd, hdir⟩ :=
        hg.deps (by omega) pre pj post (horder₂ ▸ hsplit) pk' hold d hd
      exact ⟨pi, hpi, pd, hgrows₂ pi pd hpd, hdir⟩
  obtain ⟨l₃, heq, hgood₃, hgrows₃, hdone₃⟩ := loadImports_loads hU hload l.pkgs.length pk.files l₂
    hgood₂ (by rw [hstack₂, length_append, length_singleton]; omega)
  obtain ⟨pk₃, hpk₃, hcore⟩ := hgrows₃.pkgs _ pk hlast
  obtain ⟨-, hdir₃, hfiles₃⟩ := Pkg.core_eq hcore
  have hstack₃ : l₃.stack.dropLast = l.stack := by
    rw [hgrows₃.stack, hstack₂, dropLast_concat]
  have hnotin : l.pkgs.length ∉ l₃.order := by
    intro hmem
    obtain ⟨pk', hpk', hd⟩ := (hgood₃.order _).mp hmem
    cases hpk₃.symm.trans hpk'
    rw [hgrows₃.stack, hstack₂, hdir₃, hpkdir] at hd
    exact hd (mem_append_right _ (mem_singleton_self key))
  refine ⟨{ l₃ with order := l₃.order ++ [l.pkgs.length], stack := l₃.stack.dropLast },
    some l.pkgs.length, ?_, ⟨hgood₃.dirs, hgood₃.names, ?_, ?_, fun pj => ?_, ?_, ?_⟩,
    ⟨hstack₃, fun pj pk' hpk' => ?_, ?_, ?_⟩, ?_, nofun⟩
  · have hlen : l₁.pkgs.length = l.pkgs.length := by rw [hpkgs]
    simp only [finish]
    rw [hreg, hlen, heq]
    rfl
  · show l₃.stack.dropLast.Nodup
    rw [hstack₃]
    exact hg.nodup
  · show ∀ d ∈ l₃.stack.dropLast, d ∈ U
    rw [hstack₃]
    exact hg.bounded
  · -- of all packages this is the one that leaves the stack
    show pj ∈ l₃.order ++ [l.pkgs.length] ↔ ∃ pk', l₃.pkgs[pj]? = some pk' ∧ pk'.dir ∉ l₃.stack.dropLast
    rw [mem_append, mem_singleton, hgood₃.order, hstack₃]
    constructor
    · rintro (⟨pk', hpk', hd⟩ | rfl)
      · refine ⟨pk', hpk', fun hmem => hd ?_⟩
        rw [hgrows₃.stack, hstack₂]
        exact mem_append_left _ hmem
      · exact ⟨pk₃, hpk₃, by rw [hdir₃, hpkdir]; exact hnew⟩
    · intro ⟨pk', hpk', hd⟩
      by_cases hk : pk'.dir = key
      · have hsame := (hgood₃.dirs key pj).mpr ⟨pk', hpk', hk⟩
        rw [(hgood₃.dirs key l.pkgs.length).mpr ⟨pk₃, hpk₃, hdir₃.trans hpkdir⟩] at hsame
        cases hsame
        exact .inr rfl
      · refine .inl ⟨pk', hpk', fun hmem => ?_⟩
        rw [hgrows₃.stack, hstack₂] at hmem
        rcases mem_append.mp hmem with hmem | hmem
        · exact hd hmem
        · exact hk (mem_singleton.mp hmem)
  · exact nodup_append.mpr ⟨hgood₃.once, nodup_singleton _, fun a ha b hb hab =>
      hnotin (mem_singleton.mp hb ▸ hab ▸ ha)⟩
  · intro h0 pre pj post hsplit pk' hpk' d hd
    have h0 : l₃.nErrors = 0 := h0
    rcases append_eq_append_iff.mp hsplit.symm with ⟨mid, horder₃, hmid⟩ | ⟨mid, hpre, hmid⟩
    · cases mid with
      | nil =>
        obtain ⟨rfl, rfl⟩ : pj = l.pkgs.length ∧ post = [] := by simpa using hmid
        cases hpk₃.symm.trans hpk'
        obtain ⟨f, hf, hfd⟩ := hd
        obtain ⟨pi, hpi, pd, hpd, hdir⟩ := hdone₃ h0 d ⟨f, hfiles₃ ▸ hf, hfd⟩
        rw [horder₃, List.append_nil] at hpi
        exact ⟨pi, hpi, pd, hpd, hdir⟩
      | cons x mid =>
        obtain ⟨rfl, -⟩ : pj = x ∧ _ := by simpa using hmid
        exact hgood₃.deps h0 pre pj mid horder₃ pk' hpk' d hd
    · cases mid with
      | nil =>
        obtain ⟨rfl, rfl⟩ : pj = l.pkgs.length ∧ post = [] := by simpa [eq_comm] using hmid
        cases hpk₃.symm.trans hpk'
        obtain ⟨f, hf, hfd⟩ := hd
        obtain ⟨pi, hpi, pd, hpd, hdir⟩ := hdone₃ h0 d ⟨f, hfiles₃ ▸ hf, hfd⟩
        rw [hpre, List.append_nil]
        exact ⟨pi, hpi, pd, hpd, hdir⟩
      | cons x mid => simp at hmid
  · obtain ⟨pk'', hpk'', hcore'⟩ := hgrows₃.pkgs pj pk' (hgrows₂ pj pk' hpk')
    exact ⟨pk'', hpk'', hcore'⟩
  · exact (horder₂ ▸ hgrows₃.order).trans (prefix_append _ _)
  · exact Nat.le_trans herrors₂ hgrows₃.errors
  · intro pi hpi
    cases hpi
    exact ⟨l.pkgs.length, mem_append_right _ (mem_singleton_self _), pk₃, hpk₃,
      hdir₃.trans hpkdir⟩

variable {col line : Nat}

omit hU in
/-- A package that is on the stack is reported. -/
theorem loads_stacked {key : String} {l : Loader} (hg : Good env U l) (msg : String) :
    Loads env U key l (l.err env line col msg) none :=
  ⟨hg.alike (.err env line col msg) fun _ _ h => h, (Alike.err env line col msg).grows, nofun,
    fun _ => by rw [err_nErrors]; omega⟩

omit hU in
/-- A package that is registered and not on the stack has been loaded. -/
theorem loads_known {key : String} {l : Loader} (hg : Good env U l) (hnew : key ∉ l.stack)
    (hby : l.byDir key = some pi) : Loads env U key l l (some pi) := by
  obtain ⟨pk, hpk, hd⟩ := (hg.dirs key pi).mp hby
  refine ⟨hg, .refl l, fun pj hpj => ?_, nofun⟩
  exact ⟨pi, (hg.order pi).mpr ⟨pk, hpk, hd ▸ hnew⟩, pk, hpk, hd⟩

omit hU in
/-- A package that could not be read is taken off the stack again. -/
theorem loads_unread {key : String} {l l' : Loader} (hg : Good env U l) (hstack : l'.stack = l.stack)
    (hpkgs : l'.pkgs = l.pkgs) (hby : l'.byDir = l.byDir) (horder : l'.order = l.order)
    (herrors : l.nErrors < l'.nErrors)
    (hnames : ∀ n d, l.qualifier n = some d → l'.qualifier n = some d) :
    Loads env U key l l' none := by
  have hlike : Alike l l' := ⟨hstack, by rw [hpkgs], hby, horder, Nat.le_of_lt herrors⟩
  exact ⟨hg.alike hlike hnames, hlike.grows, nofun, fun _ => herrors⟩

omit hU in
theorem readFiles_takes {key name : String} (line col : Nat) (dir : String) (names : List String)
    {l : Loader} : ∀ pk l₁, TakesUp key name l l₁ pk →
      TakesUp key name l (readFiles env line col dir names (pk, l₁)).2
        (readFiles env line col dir names (pk, l₁)).1 := by
  induction names with
  | nil => exact fun _ _ h => h
  | cons n names ih =>
    intro pk l₁ h
    unfold readFiles
    dsimp only
    split
    · refine ih _ _ { h with errors := ?_ }
      rw [err_nErrors]
      exact Nat.le_succ_of_le h.errors
    next f _ =>
      refine ih _ _ { h with errors := Nat.le_trans h.errors ?_ }
      exact nErrors_append l₁ _

omit hU in
theorem readStdFiles_takes {key name : String} (files : List (String × File)) {l : Loader} :
    ∀ pk l₁, TakesUp key name l l₁ pk →
      TakesUp key name l (readStdFiles key files (pk, l₁)).2 (readStdFiles key files (pk, l₁)).1 := by
  induction files with
  | nil => exact fun _ _ h => h
  | cons f files ih =>
    intro pk l₁ h
    exact ih _ _ { h with errors := Nat.le_trans h.errors (nErrors_append l₁ _) }

theorem loadPkg_loads (hload : Works env U load fuel) {name dir : String} {l : Loader}
    (hg : Good env U l) (hkey : dir ∈ U) (hroom : U.length < fuel + 1 + l.stack.length) :
    ∃ l' r, loadPkg env load name dir line col l = some (l', r) ∧ Loads env U dir l l' r := by
  have hgo : dir ∉ l.stack → l.byDir dir = none → (∀ d, l.qualifier name = some d → d = dir) →
      ∃ l' r, loadPkg.go env load name dir line col l = some (l', r) ∧ Loads env U dir l l' r := by
    intro hnew hfresh hname
    have hnames : ∀ n d, l.qualifier n = some d →
        (if n = name then some dir else l.qualifier n) = some d := by
      intro n d h
      split
      next hn => rw [hname d (hn ▸ h)]
      · exact h
    unfold loadPkg.go
    dsimp only
    split
    · refine ⟨_, _, rfl, loads_unread hg ?_ rfl rfl rfl ?_ hnames⟩
      · exact dropLast_concat
      · exact Nat.lt_of_lt_of_eq (Nat.lt_succ_self _) (err_nErrors ..).symm
    next entries _ =>
      split
      · refine ⟨_, _, rfl, loads_unread hg ?_ rfl rfl rfl ?_ hnames⟩
        · exact dropLast_concat
        · exact Nat.lt_of_lt_of_eq (Nat.lt_succ_self _) (err_nErrors ..).symm
      · exact finish_loads hU hload hg (readFiles_takes line col dir _ _ _
          ⟨rfl, rfl, rfl, rfl, Nat.le_refl _, hnames, if_pos rfl, rfl, rfl⟩) hkey hnew hfresh hroom
  unfold loadPkg
  split
  · exact ⟨_, _, rfl, loads_stacked hg _⟩
  next hnew =>
    split
    next pi hby => exact ⟨_, _, rfl, loads_known hg hnew hby⟩
    next hfresh =>
      split
      next other hq =>
        split
        · exact ⟨_, _, rfl, loads_stacked hg _⟩
        next heq =>
          refine hgo hnew hfresh fun d hd => ?_
          rw [hq] at hd
          cases hd
          exact not_not.mp heq
      next hq => exact hgo hnew hfresh fun d hd => by rw [hq] at hd; cases hd

theorem loadStdPkg_loads (hload : Works env U load fuel) {name : String} {l : Loader}
    (hg : Good env U l) (hkey : "std/" ++ name ∈ U) (hroom : U.length < fuel + 1 + l.stack.length) :
    ∃ l' r, loadStdPkg env load name line col l = some (l', r) ∧
      Loads env U ("std/" ++ name) l l' r := by
  have hgo : "std/" ++ name ∉ l.stack → l.byDir ("std/" ++ name) = none →
      (∀ d, l.qualifier name = some d → d = "std/" ++ name) →
      ∃ l' r, loadStdPkg.go env load name line col l = some (l', r) ∧
        Loads env U ("std/" ++ name) l l' r := by
    intro hnew hfresh hname
    have hnames : ∀ n d, l.qualifier n = some d →
        (if n = name then some ("std/" ++ name) else l.qualifier n) = some d := by
      intro n d h
      split
      next hn => rw [hname d (hn ▸ h)]
      · exact h
    unfold loadStdPkg.go
    dsimp only
    split
    · refine ⟨_, _, rfl, loads_unread hg rfl rfl rfl rfl ?_ hnames⟩
      exact Nat.lt_of_lt_of_eq (Nat.lt_succ_self _) (err_nErrors ..).symm
    · exact finish_loads hU hload hg (readStdFiles_takes _ _ _
        ⟨rfl, rfl, rfl, rfl, Nat.le_refl _, hnames, if_pos rfl, rfl, rfl⟩) hkey hnew hfresh hroom
  unfold loadStdPkg
  dsimp only
  split
  · exact ⟨_, _, rfl, loads_stacked hg _⟩
  next hnew =>
    split
    next pi hby => exact ⟨_, _, rfl, loads_known hg hnew hby⟩
    next hfresh =>
      split
      next other hq =>
        split
        · exact ⟨_, _, rfl, loads_stacked hg _⟩
        next heq =>
          refine hgo hnew hfresh fun d hd => ?_
          rw [hq] at hd
          cases hd
          exact not_not.mp heq
      next hq => exact hgo hnew hfresh fun d hd => by rw [hq] at hd; cases hd

/-- The calls are nested no deeper than there are packages. -/
theorem load_works (fuel : Nat) : Works env U (Load.load env fuel) fuel := by
  induction fuel with
  | zero =>
    intro t line col l hg _ hroom
    have hle := hg.nodup.length_le_of_subset hg.bounded
    omega
  | succ fuel ih =>
    intro t line col l hg hkey hroom
    cases t with
    | dir name dir => exact loadPkg_loads hU ih hg hkey hroom
    | std name => exact loadStdPkg_loads hU ih hg hkey hroom

end

/-! ### The depth of the calls -/

section

variable {f g : LoadFn} (hfg : ∀ t line col l r, f t line col l = some r → g t line col l = some r)

include hfg

theorem importsOf_mono (uses : List Use) : ∀ imports l r, importsOf env f uses imports l = some r →
    importsOf env g uses imports l = some r := by
  induction uses with
  | nil => exact fun _ _ _ h => h
  | cons u uses ih =>
    intro imports l r h
    unfold importsOf at h ⊢
    cases hres : env.resolve u.ipath with
    | std | nostd | bad =>
      rw [hres] at h
      exact ih _ _ _ h
    | stdsrc name =>
      simp only [hres, Option.bind_eq_bind, Option.bind_eq_some_iff] at h ⊢
      obtain ⟨r₁, hr₁, h⟩ := h
      exact ⟨r₁, hfg _ _ _ _ _ hr₁, ih _ _ _ h⟩
    | user dir =>
      simp only [hres] at h ⊢
      split at h
      next hsel =>
        rw [if_pos hsel]
        exact ih _ _ _ h
      next hsel =>
        rw [if_neg hsel]
        simp only [Option.bind_eq_bind, Option.bind_eq_some_iff] at h ⊢
        obtain ⟨⟨l₁, r₁⟩, hr₁, h⟩ := h
        refine ⟨(l₁, r₁), hfg _ _ _ _ _ hr₁, ?_⟩
        cases r₁ <;> exact ih _ _ _ h

theorem loadImports_mono (pi : Nat) (files : List File) : ∀ l r, loadImports env f pi files l = some r →
    loadImports env g pi files l = some r := by
  induction files with
  | nil => exact fun _ _ h => h
  | cons file files ih =>
    intro l r h
    simp only [loadImports, Option.bind_eq_bind, Option.bind_eq_some_iff] at h ⊢
    obtain ⟨r₁, hr₁, h⟩ := h
    exact ⟨r₁, importsOf_mono hfg _ _ _ _ hr₁, ih _ _ h⟩

theorem finish_mono (key : String) (pk : Pkg) (l : Loader) (r : Loader × Option Nat)
    (h : finish env f key pk l = some r) : finish env g key pk l = some r := by
  simp only [finish, Option.bind_eq_bind, Option.bind_eq_some_iff] at h ⊢
  obtain ⟨l₁, hl₁, h⟩ := h
  exact ⟨l₁, loadImports_mono hfg _ _ _ _ hl₁, h⟩

variable {r : Loader × Option Nat}

theorem loadPkg_mono {name dir : String} {line col : Nat} {l : Loader}
    (h : loadPkg env f name dir line col l = some r) : loadPkg env g name dir line col l = some r := by
  have hgo : loadPkg.go env f name dir line col l = some r →
      loadPkg.go env g name dir line col l = some r := by
    intro h
    unfold loadPkg.go at h ⊢
    dsimp only at h ⊢
    split at h
    · exact h
    · split at h
      next hnone => rwa [if_pos hnone]
      next hsome =>
        rw [if_neg hsome]
        exact finish_mono hfg _ _ _ _ h
  unfold loadPkg at h ⊢
  split at h
  next hin => rwa [if_pos hin]
  next hin =>
    rw [if_neg hin]
    split at h
    · exact h
    · split at h
      · split at h
        next hne => rwa [if_pos hne]
        next hne =>
          rw [if_neg hne]
          exact hgo h
      · exact hgo h

theorem loadStdPkg_mono {name : String} {line col : Nat} {l : Loader}
    (h : loadStdPkg env f name line col l = some r) : loadStdPkg env g name line col l = some r := by
  have hgo : loadStdPkg.go env f name line col l = some r →
      loadStdPkg.go env g name line col l = some r := by
    intro h
    unfold loadStdPkg.go at h ⊢
    dsimp only at h ⊢
    split at h
    next hnone => rwa [if_pos hnone]
    next hsome =>
      rw [if_neg hsome]
      exact finish_mono hfg _ _ _ _ h
  unfold loadStdPkg at h ⊢
  dsimp only at h ⊢
  split at h
  next hin => rwa [if_pos hin]
  next hin =>
    rw [if_neg hin]
    split at h
    · exact h
    · split at h
      · split at h
        next hne => rwa [if_pos hne]
        next hne =>
          rw [if_neg hne]
          exact hgo h
      · exact hgo h

end

/-- What is loaded within a depth is loaded so within any greater one. -/
theorem load_mono {n m : Nat} (h : n ≤ m) : ∀ t line col l r, load env n t line col l = some r →
    load env m t line col l = some r := by
  induction n generalizing m with
  | zero => exact nofun
  | succ n ih =>
    obtain ⟨m, rfl⟩ : ∃ k, m = k + 1 := ⟨m - 1, by omega⟩
    intro t line col l r hr
    cases t with
    | dir name dir => exact loadPkg_mono (ih (by omega)) hr
    | std name => exact loadStdPkg_mono (ih (by omega)) hr

variable {main : File}

theorem loadMain_mono {n m : Nat} (h : n ≤ m) {entry : String}
    {r : Loader × List (String × Nat)} (hr : loadMain env n entry main = some r) :
    loadMain env m entry main = some r := by
  unfold loadMain at hr ⊢
  dsimp only at hr ⊢
  split at hr
  next herr => rwa [if_pos herr]
  next herr =>
    rw [if_neg herr]
    split at hr
    next herr => rwa [if_pos herr]
    next herr =>
      rw [if_neg herr]
      exact importsOf_mono (load_mono h) _ _ _ _ hr

/-! ### A program -/

/-- Package `pj` is used by package `pi`. -/
def Loader.Imports (env : Env) (l : Loader) (pi pj : Nat) : Prop :=
  ∃ pk pk', l.pkgs[pi]? = some pk ∧ l.pkgs[pj]? = some pk' ∧ pk.Needs env pk'.dir

/-- The packages of a program are in order. -/
structure Ordered (env : Env) (main : File) (l : Loader) : Prop where
  /-- Every package is there, once. -/
  once : l.order.Nodup
  all : ∀ pi, pi ∈ l.order ↔ pi < l.pkgs.length
  /-- What a package uses comes before it. -/
  deps : ∀ pre pi post, l.order = pre ++ pi :: post → ∀ pk, l.pkgs[pi]? = some pk →
    ∀ k, pk.Needs env k → ∃ pj ∈ pre, (l.pkgs[pj]?).map Pkg.dir = some k
  main : ∀ k, main.Needs env k → ∃ pj ∈ l.order, (l.pkgs[pj]?).map Pkg.dir = some k
  /-- No chain of imports comes back. -/
  acyclic : ∀ pi, ¬ Relation.TransGen (l.Imports env) pi pi

/-- Two packages share neither their directory nor their name. -/
def Loader.Distinct (l : Loader) : Prop :=
  ∀ (pi pj : Nat) (pk pk' : Pkg), l.pkgs[pi]? = some pk → l.pkgs[pj]? = some pk' →
    pk.dir = pk'.dir ∨ pk.name = pk'.name → pi = pj

theorem Good.distinct (hg : Good env U l) : l.Distinct := by
  intro pi pj pk pk' hpk hpk' h
  have hdir : pk.dir = pk'.dir := by
    rcases h with h | h
    · exact h
    · have hq := hg.names pi pk hpk
      rw [h, hg.names pj pk' hpk'] at hq
      exact (Option.some.inj hq).symm
  have hpi := (hg.dirs pk.dir pi).mpr ⟨pk, hpk, rfl⟩
  rw [(hg.dirs pk.dir pj).mpr ⟨pk', hpk', hdir.symm⟩] at hpi
  exact (Option.some.inj hpi).symm

/-- In the order a package that is used stands before the one that uses it. -/
theorem Good.imports_lt (hg : Good env U l) (h0 : l.nErrors = 0) (hstack : l.stack = [])
    (h : l.Imports env pi pj) : l.order.idxOf pj < l.order.idxOf pi := by
  obtain ⟨pk, pk', hpk, hpk', hneeds⟩ := h
  have hpi : pi ∈ l.order := (hg.order pi).mpr ⟨pk, hpk, by simp [hstack]⟩
  obtain ⟨pre, post, hsplit⟩ := append_of_mem hpi
  obtain ⟨pj', hpj', pd, hpd, hd⟩ := hg.deps h0 pre pi post hsplit pk hpk pk'.dir hneeds
  obtain rfl : pj' = pj := hg.distinct pj' pj pd pk' hpd hpk' (.inl hd)
  have hnot : pi ∉ pre := by
    have honce := hg.once
    rw [hsplit, nodup_append] at honce
    exact fun hmem => honce.2.2 pi hmem pi mem_cons_self rfl
  rw [hsplit, idxOf_append_of_mem hpj', idxOf_append_of_notMem hnot, idxOf_cons_self]
  exact idxOf_lt_length_of_mem hpj'

theorem Good.ordered (hg : Good env U l) (h0 : l.nErrors = 0) (hstack : l.stack = [])
    (hmain : ∀ k, main.Needs env k → l.Done k) : Ordered env main l := by
  refine ⟨hg.once, fun pi => ?_, fun pre pi post hsplit pk hpk k hk => ?_, fun k hk => ?_, fun pi h => ?_⟩
  · rw [hg.order]
    simp [hstack, List.getElem?_eq_some_iff]
  · obtain ⟨pj, hpj, pk', hpk', hd⟩ := hg.deps h0 pre pi post hsplit pk hpk k hk
    exact ⟨pj, hpj, by rw [hpk', ← hd]; rfl⟩
  · obtain ⟨pj, hpj, pk', hpk', hd⟩ := hmain k hk
    exact ⟨pj, hpj, by rw [hpk', ← hd]; rfl⟩
  · have hlt : ∀ pj, Relation.TransGen (l.Imports env) pi pj → l.order.idxOf pj < l.order.idxOf pi := by
      intro pj h
      induction h with
      | single h => exact hg.imports_lt h0 hstack h
      | tail _ h ih => exact Nat.lt_trans (hg.imports_lt h0 hstack h) ih
    exact absurd (hlt pi h) (Nat.lt_irrefl _)

theorem good_new (env : Env) (U : List String) (entry : String) (diags : List Diag) :
    Good env U { Loader.new entry with diags := diags } := by
  refine ⟨fun k pi => ?_, nofun, nodup_nil, nofun, fun pi => ?_, nodup_nil, ?_⟩
  · simp [Loader.new]
  · simp [Loader.new]
  · intro _ pre pi post hsplit
    simp [Loader.new] at hsplit

/-- A package that is asked for while it is being loaded is reported, whatever was loaded before. -/
theorem load_stacked (fuel : Nat) (t : Target) (line col : Nat) (l : Loader) (h : t.key ∈ l.stack) :
    ∃ msg, load env (fuel + 1) t line col l = some (l.err env line col msg, none) := by
  cases t with
  | dir name dir => exact ⟨_, if_pos h⟩
  | std name => exact ⟨_, if_pos h⟩

/-- When imports name finitely many packages, loading ends: with an error, or with the packages in
order. No two packages have one name, and whatever is imported while it is being loaded is
reported. -/
theorem loads_in_order (hU : ∀ (u : Use) (k : String), u.need env = some k → k ∈ U) (entry : String)
    (main : File) :
    (∃ l deps, (∀ fuel, U.length < fuel → loadMain env fuel entry main = some (l, deps)) ∧
      (l.nErrors = 0 → Ordered env main l) ∧ l.Distinct) ∧
    ∀ fuel t line col l, t.key ∈ l.stack →
      ∃ msg, load env (fuel + 1) t line col l = some (l.err env line col msg, none) := by
  refine ⟨?_, load_stacked⟩
  suffices h : ∃ l deps, loadMain env (U.length + 1) entry main = some (l, deps) ∧
      (l.nErrors = 0 → Ordered env main l) ∧ l.Distinct by
    obtain ⟨l, deps, heq, hl⟩ := h
    exact ⟨l, deps, fun fuel hfuel => loadMain_mono hfuel heq, hl⟩
  unfold loadMain
  dsimp only
  split
  next herr => exact ⟨_, _, rfl, fun h0 => by omega, (good_new env U entry _).distinct⟩
  · split
    next herr => exact ⟨_, _, rfl, fun h0 => by omega, (good_new env U entry _).distinct⟩
    · obtain ⟨l, deps, heq, hall⟩ := importsOf_loads hU (load_works hU (U.length + 1)) main.uses []
        { Loader.new entry with diags := main.errs.map (Diag.raw entry) ++ env.moduleErrors }
        (good_new env U entry _) (by simp [Loader.new])
      exact ⟨l, deps, heq, fun h0 => hall.good.ordered h0 hall.grows.stack (hall.done h0),
        hall.good.distinct⟩

/-- Two std packages, of which one uses the other. -/
def twoStd : Env where
  root := "/p"
  resolve p := if p = "std/a" then .stdsrc "a" else if p = "std/b" then .stdsrc "b" else .bad
  base p := p
  join a b := a ++ "/" ++ b
  rel _ t := t
  listdir _ := none
  isdir _ := false
  read _ := none
  stdFiles n := if n = "a" then [("a.voi", ⟨[⟨"std/b", "", false, 1, 1⟩], []⟩)] else [("b.voi", ⟨[], []⟩)]
  stdDiagnostic p := p
  missingPkg p := p
  moduleErrors := []

theorem loads_in_order_two : ∃ l deps,
    loadMain twoStd 3 "main.voi" ⟨[⟨"std/a", "", false, 1, 1⟩], []⟩ = some (l, deps) ∧
      Ordered twoStd ⟨[⟨"std/a", "", false, 1, 1⟩], []⟩ l := by
  have hU : ∀ (u : Use) (k : String), u.need twoStd = some k → k ∈ ["std/a", "std/b"] := by
    intro u k h
    unfold Use.need twoStd at h
    dsimp only at h
    by_cases ha : u.ipath = "std/a"
    · rw [if_pos ha] at h
      cases h
      decide
    · rw [if_neg ha] at h
      by_cases hb : u.ipath = "std/b"
      · rw [if_pos hb] at h
        cases h
        decide
      · rw [if_neg hb] at h
        cases h
  obtain ⟨⟨l, deps, heq, hord, -⟩, -⟩ := loads_in_order hU "main.voi" ⟨[⟨"std/a", "", false, 1, 1⟩], []⟩
  have heq := heq 3 (by decide)
  have h0 : (loadMain twoStd 3 "main.voi" ⟨[⟨"std/a", "", false, 1, 1⟩], []⟩).map (·.1.nErrors) =
      some 0 := by decide
  rw [heq] at h0
  exact ⟨l, deps, heq, hord (Option.some.inj h0)⟩

end Voila.Load
