import Voila.Chk.Acyclic
import Voila.Lib.Worklist

/-!
# Voila.Chk.AcyclicSound

What the Acyclicity Rule's check rules out.

The sweeps are exact for the edges recorded: nothing is reported just when no type reaches
itself along them (`accepted_iff`). What a type owns is more than that: its type arguments,
and the elements of `?`, `[]`, maps and tuples (`Step`). So in an accepted program every
ownership cycle passes through a position that `own_edge` does not look at, and a cycle
with a `cell` on it can.
-/

open List

namespace Voila.Chk.Acyclic

open Lib Relation

/-! ### Ownership -/

mutual
/-- `t` with the parameters `ps` of a declaration replaced by the arguments `as`. -/
def TypeExpr.subst (ps : List Str) (as : List TypeExpr) : TypeExpr → TypeExpr
  | .named n args => match args, (ps.zip as).lookup n with
    | [], some a => a
    | _, _ => .named n (substAll ps as args)
  | .option t => .option (t.subst ps as)
  | .result t => .result (t.subst ps as)
  | .slice t => .slice (t.subst ps as)
  | .map k v => .map (k.subst ps as) (v.subst ps as)
  | .set t => .set (t.subst ps as)
  | .chan t => .chan (t.subst ps as)
  | .box kind t => .box kind (t.subst ps as)
  | .fn params none => .fn (substAll ps as params) none
  | .fn params (some res) => .fn (substAll ps as params) (some (res.subst ps as))
  | .tuple ts => .tuple (substAll ps as ts)
  | .borrow t => .borrow (t.subst ps as)

def substAll (ps : List Str) (as : List TypeExpr) : List TypeExpr → List TypeExpr
  | [] => []
  | t :: ts => t.subst ps as :: substAll ps as ts
end

/-- What `type name = T` and `type name T` stand for. -/
def targetOf (ds : List Decl) (name : Str) : Option TypeExpr :=
  (ds.filterMap fun d => match d with
    | .type n t => if n = name then some t else none
    | _ => none).getLast?

/-- `own_edge` records nothing for a field of a declaration with the parameters `ps`, or
takes a parameter for a declared type. -/
def hiddenField (ds : List Decl) (d : TypeDecl) (f : FieldDecl) : Bool :=
  match ownEdge ds d.name f with
  | none => true
  | some e => decide (e.dst ∈ d.params)

/-- The element of a `shared` or `cell` that `own_edge` does not look at. -/
def hiddenElem (ds : List Decl) : TypeExpr → Bool
  | .named n _ => !declared ds n
  | _ => true

/-- The first type owns the second: whether through a `cell`, and whether at a position
that `own_edge` does not look at. -/
inductive Step (ds : List Decl) : TypeExpr → Bool → Bool → TypeExpr → Prop
  | option {t : TypeExpr} : Step ds (.option t) false true t
  | slice {t : TypeExpr} : Step ds (.slice t) false true t
  | key {k v : TypeExpr} : Step ds (.map k v) false true k
  | value {k v : TypeExpr} : Step ds (.map k v) false true v
  | elem {ts : List TypeExpr} {t : TypeExpr} : t ∈ ts → Step ds (.tuple ts) false true t
  | arg {n : Str} {args : List TypeExpr} {t : TypeExpr} : t ∈ args →
      Step ds (.named n args) false true t
  | target {n : Str} {args : List TypeExpr} {t : TypeExpr} : targetOf ds n = some t →
      Step ds (.named n args) false true t
  | box {kind : BoxKind} {t : TypeExpr} : kind ≠ .weak →
      Step ds (.box kind t) (decide (kind = .cell)) (hiddenElem ds t) t
  | field {n : Str} {args : List TypeExpr} {d : TypeDecl} {f : FieldDecl} {t : TypeExpr} :
      declOf (structDecls ds) n = some d → f ∈ d.fields → f.type = some t →
      Step ds (.named n args) false (hiddenField ds d f) (t.subst d.params args)
  | payload {n : Str} {args : List TypeExpr} {d : TypeDecl} {f : FieldDecl} {t : TypeExpr} :
      declOf (enumDecls ds) n = some d → f ∈ d.fields → f.type = some t →
      Step ds (.named n args) false (hiddenField ds d f) (t.subst d.params args)

/-- One step or more: whether one of them goes through a `cell`, and whether one is at a
position that `own_edge` does not look at. -/
inductive Path (ds : List Decl) : TypeExpr → Bool → Bool → TypeExpr → Prop
  | single {t u : TypeExpr} {cell hidden : Bool} : Step ds t cell hidden u → Path ds t cell hidden u
  | cons {t u w : TypeExpr} {cell hidden cell' hidden' : Bool} : Step ds t cell hidden u →
      Path ds u cell' hidden' w → Path ds t (cell || cell') (hidden || hidden') w

/-! ### The sweeps are exact -/

/-- An edge from `a` to `b`. -/
def Linked (es : List Edge) (a b : Str) : Prop := ∃ e ∈ es, e.src = a ∧ e.dst = b

/-- As many diagnostics as keys. -/
def Reports.Even (rep : Reports) : Prop := rep.errors.length = rep.keys.length

theorem Reports.Even.keys_nil {rep : Reports} (h : rep.Even) (hnil : rep.errors = []) : rep.keys = [] := by
  rw [Reports.Even, hnil] at h
  exact length_eq_zero_iff.mp h.symm

theorem closing_spec (start : Str) (e : Edge) (rep : Reports) :
    rep.keys ⊆ (closing start e rep).keys ∧ e.key ∈ (closing start e rep).keys ∧
      (rep.Even → (closing start e rep).Even) := by
  unfold closing
  split_ifs with hkey
  · exact ⟨List.Subset.refl _, hkey, id⟩
  · refine ⟨subset_cons_self _ _, mem_cons_self, ?_⟩
    intro h
    simpa [Reports.Even] using h

/-- The edges out of one type: the marks are those of the worklist, and every closing edge
is reported. -/
theorem foldl_sweepEdge (start : Str) (es : List Edge) (s : Sweep) :
    let s' := es.foldl (sweepEdge start) s
    (s'.seen, s'.stack) = (es.map (·.dst)).foldl (push fun p => decide (p = start)) (s.seen, s.stack) ∧
      s.rep.keys ⊆ s'.rep.keys ∧ (∀ e ∈ es, e.dst = start → e.key ∈ s'.rep.keys) ∧
      (s.rep.Even → s'.rep.Even) := by
  induction es generalizing s with
  | nil => exact ⟨rfl, List.Subset.refl _, by simp, id⟩
  | cons e es ih =>
    obtain ⟨hmarks, hkeys, hclosed, heven⟩ := ih (sweepEdge start s e)
    have hpush : ((sweepEdge start s e).seen, (sweepEdge start s e).stack) =
        push (fun p => decide (p = start)) (s.seen, s.stack) e.dst := by
      unfold sweepEdge push
      by_cases hstart : e.dst = start
      · simp [hstart]
      · by_cases hseen : e.dst ∈ s.seen <;> simp [hstart, hseen]
    have hrep : (sweepEdge start s e).rep = if e.dst = start then closing start e s.rep else s.rep := by
      unfold sweepEdge
      split_ifs <;> rfl
    rw [hrep] at hkeys heven
    obtain ⟨hsub, hkey, hkeep⟩ := closing_spec start e s.rep
    simp only [foldl_cons, map_cons]
    refine ⟨by rw [hmarks, hpush], ?_, ?_, ?_⟩
    · split_ifs at hkeys
      · exact List.Subset.trans hsub hkeys
      · exact hkeys
    · intro e' he' hdst
      rcases mem_cons.mp he' with rfl | he'
      · rw [if_pos hdst] at hkeys
        exact hkeys hkey
      · exact hclosed e' he' hdst
    · intro h
      split_ifs at heven
      · exact heven (hkeep h)
      · exact heven h

/-- The types that one type has an edge to. -/
def nexts (es : List Edge) (a : Str) : List Str := (es.filter (·.src = a)).map (·.dst)

variable {es : List Edge} {r : List Str} {start n : Str} {d : TypeDecl} {types : List TypeDecl}
  {ds : List Decl} {e : Edge} {f : FieldDecl}

theorem mem_nexts {a b : Str} : b ∈ nexts es a ↔ Linked es a b := by
  simp [nexts, Linked, and_assoc]

/-- A sweep takes the steps of the worklist, and reports the closing edges out of every type
that it takes. -/
theorem sweep_drain {n : Nat} {s : Sweep}
    (h : drain (nexts es) (fun p => decide (p = start)) n s.seen s.stack = some r) :
    ∃ rep, sweep es start n s = some rep ∧ s.rep.keys ⊆ rep.keys ∧ (s.rep.Even → rep.Even) ∧
      ∀ a, a ∈ s.stack ∨ (a ∈ r ∧ a ∉ s.seen) → ∀ e ∈ es, e.src = a → e.dst = start →
        e.key ∈ rep.keys := by
  induction n generalizing s with
  | zero =>
    obtain ⟨seen, stack, rep⟩ := s
    cases stack with
    | nil =>
      obtain rfl : seen = r := Option.some.inj h
      exact ⟨rep, rfl, List.Subset.refl _, id, fun a ha => by simp at ha⟩
    | cons cur stack => exact absurd h (by simp [drain])
  | succ n ih =>
    obtain ⟨seen, stack, rep⟩ := s
    cases stack with
    | nil =>
      obtain rfl : seen = r := Option.some.inj h
      exact ⟨rep, rfl, List.Subset.refl _, id, fun a ha => by simp at ha⟩
    | cons cur stack =>
      obtain ⟨hmarks, hkeys, hclosed, heven⟩ :=
        foldl_sweepEdge start (es.filter (·.src = cur)) ⟨seen, stack, rep⟩
      obtain ⟨new, hnew, -, -, -⟩ :=
        foldl_push (fun p => decide (p = start)) (nexts es cur) seen stack
      rw [drain] at h
      rw [← nexts] at hmarks
      rw [sweep]
      generalize (es.filter (·.src = cur)).foldl (sweepEdge start) ⟨seen, stack, rep⟩ = s' at *
      rw [← hmarks] at h
      obtain ⟨rep', hrep', hkeys', heven', hall⟩ := ih h
      rw [hnew, Prod.mk.injEq] at hmarks
      refine ⟨rep', hrep', List.Subset.trans hkeys hkeys', fun hev => heven' (heven hev), ?_⟩
      intro a ha e he hsrc hdst
      -- the type taken now, one still in the queue, or one that is marked later
      rcases ha with ha | ⟨har, hseen⟩
      · rcases mem_cons.mp ha with rfl | ha
        · exact hkeys' (hclosed e (by simp [he, hsrc]) hdst)
        · exact hall a (.inl (by rw [hmarks.2]; exact mem_append_right _ ha)) e he hsrc hdst
      · by_cases hnewa : a ∈ new
        · exact hall a (.inl (by rw [hmarks.2]; exact mem_append_left _ hnewa)) e he hsrc hdst
        · refine hall a (.inr ⟨har, ?_⟩) e he hsrc hdst
          rw [hmarks.1]
          simp [hnewa, hseen]

/-- The marks of a sweep: the types that `start` has an edge to, and those that they have. -/
theorem drain_start {n : Nat}
    (h : drain (nexts es) (fun p => decide (p = start)) (n + 1) [] [start] = some r) :
    (∀ b ∈ nexts es start, b ∈ r ∨ b = start) ∧ ∀ a ∈ r, ∀ b ∈ nexts es a, b ∈ r ∨ b = start := by
  obtain ⟨new, hnew, -, -, hall⟩ := foldl_push (fun p => decide (p = start)) (nexts es start) [] []
  rw [drain] at h
  rw [hnew] at h
  simp only [List.append_nil] at h hall
  obtain ⟨hsub, hclosed⟩ := drain_closed (fun x hx => .inl hx) h
  refine ⟨fun b hb => ?_, fun a ha b hb => ?_⟩
  · exact (hall b hb).imp (fun hmem => hsub hmem) of_decide_eq_true
  · exact (hclosed a ha b hb).imp_right of_decide_eq_true

/-- One sweep: it ends, and reports every edge that closes a cycle at `start`. -/
theorem acycCheck_spec (es : List Edge) (rep : Reports) (start : Str) :
    ∃ rep', acycCheck es rep start = some rep' ∧ rep.keys ⊆ rep'.keys ∧ (rep.Even → rep'.Even) ∧
      ∀ e ∈ es, e.dst = start → ReflTransGen (Linked es) start e.src → e.key ∈ rep'.keys := by
  have hnext : ∀ a, ∀ b ∈ nexts es a, b ∈ es.map (·.dst) := by
    intro a b hb
    obtain ⟨e, he, -, rfl⟩ := mem_nexts.mp hb
    exact mem_map_of_mem he
  obtain ⟨r, hr⟩ := @drain_some _ _ (nexts es) (fun p => decide (p = start)) _ hnext (es.length + 1)
    [] [start] nodup_nil (nil_subset _) (by simp; omega)
  obtain ⟨rep', hrep', hkeys, heven, hall⟩ := sweep_drain (s := ⟨[], [start], rep⟩) hr
  obtain ⟨hfirst, hclosed⟩ := drain_start hr
  refine ⟨rep', hrep', hkeys, heven, ?_⟩
  intro e he hdst hsrc
  -- every type reached is marked, until an edge leads back
  have hreach : ∀ {a}, ReflTransGen (Linked es) start a → a = start ∨ a ∈ r := by
    intro a ha
    induction ha with
    | refl => exact .inl rfl
    | tail _ hab ih =>
      have hb := mem_nexts.mpr hab
      rcases ih with rfl | har
      · exact (hfirst _ hb).symm
      · exact (hclosed _ har _ hb).symm
  refine hall e.src ?_ e he rfl hdst
  rcases hreach hsrc with heq | har
  · exact .inl (heq ▸ mem_cons_self)
  · exact .inr ⟨har, by simp⟩

/-- The sweeps from the `names`: every edge into one of them that lies on a cycle is reported. -/
theorem acycCheckAll_spec (es : List Edge) (rep : Reports) (names : List Str) :
    ∃ rep', acycCheckAll es rep names = some rep' ∧ rep.keys ⊆ rep'.keys ∧ (rep.Even → rep'.Even) ∧
      ∀ e ∈ es, e.dst ∈ names → ReflTransGen (Linked es) e.dst e.src → e.key ∈ rep'.keys := by
  induction names generalizing rep with
  | nil => exact ⟨rep, rfl, List.Subset.refl _, id, by simp⟩
  | cons a names ih =>
    obtain ⟨rep₁, h₁, hkeys₁, heven₁, hcycle₁⟩ := acycCheck_spec es rep a
    obtain ⟨rep₂, h₂, hkeys₂, heven₂, hcycle₂⟩ := ih rep₁
    refine ⟨rep₂, ?_, List.Subset.trans hkeys₁ hkeys₂, fun h => heven₂ (heven₁ h), ?_⟩
    · rw [acycCheckAll, h₁]
      exact h₂
    · intro e he hdst hcycle
      rcases mem_cons.mp hdst with hdst | hdst
      · exact hkeys₂ (hcycle₁ e he hdst (hdst ▸ hcycle))
      · exact hcycle₂ e he hdst hcycle

/-! ### Accepted programs -/

/-- The program has no acyclicity error. -/
def Accepted (ds : List Decl) : Prop := (checkAcyclicity ds).map (·.errors) = some []

instance (ds : List Decl) : Decidable (Accepted ds) :=
  inferInstanceAs (Decidable ((checkAcyclicity ds).map (·.errors) = some []))

theorem declOf_name (h : declOf types n = some d) : d.name = n := by
  have hfound := List.find?_some h
  exact of_decide_eq_true hfound

theorem declOf_isSome (h : (declOf types n).isSome = true) : n ∈ declNames types := by
  obtain ⟨d, hd⟩ := Option.isSome_iff_exists.mp h
  have hmem := List.mem_of_find?_eq_some hd
  rw [declNames, mem_eraseDups]
  exact mem_map.mpr ⟨d, mem_reverse.mp hmem, declOf_name hd⟩

/-- An edge leads to a declared type. -/
theorem declared_of_ownEdge {src : Str}
    (h : ownEdge ds src f = some e) : declared ds e.dst = true ∧ e.src = src := by
  unfold ownEdge at h
  split at h
  · exact absurd h (by simp)
  · split_ifs at h with hd
    cases h
    exact ⟨hd, rfl⟩

theorem mem_edgesOf :
    e ∈ edgesOf ds types ↔ ∃ n d, declOf types n = some d ∧ ∃ f ∈ d.fields, ownEdge ds n f = some e := by
  constructor
  · intro h
    obtain ⟨n, -, hn⟩ := mem_flatMap.mp h
    cases hd : declOf types n with
    | none => simp [hd] at hn
    | some d =>
      rw [hd] at hn
      obtain ⟨f, hf, he⟩ := mem_filterMap.mp hn
      exact ⟨n, d, hd, f, hf, he⟩
  · rintro ⟨n, d, hd, f, hf, he⟩
    refine mem_flatMap.mpr ⟨n, declOf_isSome (by simp [hd]), ?_⟩
    rw [hd]
    exact mem_filterMap.mpr ⟨f, hf, he⟩

/-- The types that the check starts a sweep from. -/
def startNames (ds : List Decl) : List Str := declNames (structDecls ds) ++ declNames (enumDecls ds)

/-- Every edge recorded leads to a type that a sweep starts from. -/
theorem dst_mem_startNames (he : e ∈ edges ds) : e.dst ∈ startNames ds := by
  have hdecl : declared ds e.dst = true := by
    rcases mem_append.mp he with he | he
    all_goals
      obtain ⟨n, d, -, f, -, hf⟩ := mem_edgesOf.mp he
      exact (declared_of_ownEdge hf).1
  rw [declared, Bool.or_eq_true] at hdecl
  exact mem_append.mpr (hdecl.imp declOf_isSome declOf_isSome)

/-- No type of an accepted program reaches itself along the edges recorded. -/
theorem Accepted.acyclic (h : Accepted ds) (n : Str) : ¬ TransGen (Linked (edges ds)) n n := by
  intro hcycle
  obtain ⟨rep, hrep, -, heven, hall⟩ := acycCheckAll_spec (edges ds) ⟨[], []⟩ (startNames ds)
  have hnil : rep.errors = [] := by
    unfold Accepted checkAcyclicity at h
    rw [← startNames, hrep] at h
    simpa using h
  obtain ⟨a, ha, e, he, rfl, rfl⟩ := TransGen.tail'_iff.mp hcycle
  have hkey := hall e he (dst_mem_startNames he) ha
  rw [(heven rfl).keys_nil hnil] at hkey
  simp at hkey

/-! ### Paths -/

/-- The declared name that a type is of, or that it is a `shared` or `cell` of. -/
def ownerOf : TypeExpr → Option Str
  | .named n _ => some n
  | .box _ (.named n _) => some n
  | _ => none

def isNamed : TypeExpr → Bool
  | .named _ _ => true
  | _ => false

/-- A name that is no parameter stays through a substitution. -/
theorem subst_named {ps : List Str} {as args : List TypeExpr} (h : n ∉ ps) :
    TypeExpr.subst ps as (.named n args) = .named n (substAll ps as args) := by
  have hnone : (ps.zip as).lookup n = none := by
    rw [lookup_eq_none_iff]
    intro p hp
    have hmem := (of_mem_zip hp).1
    have hne : n ≠ p.1 := fun heq => h (heq ▸ hmem)
    simpa using hne
  unfold TypeExpr.subst
  rw [hnone]
  cases args <;> rfl

/-- A field that is not hidden has the type of the edge recorded, whatever the arguments. -/
theorem ownerOf_field {t : TypeExpr} (hf : f.type = some t) (h : hiddenField ds d f = false) :
    ∃ e, ownEdge ds d.name f = some e ∧ ∀ args, ownerOf (t.subst d.params args) = some e.dst := by
  unfold hiddenField at h
  cases he : ownEdge ds d.name f with
  | none => simp [he] at h
  | some e =>
    rw [he] at h
    have hparam : e.dst ∉ d.params := of_decide_eq_false h
    refine ⟨e, rfl, fun args => ?_⟩
    unfold ownEdge at he
    rw [hf, Option.bind_some] at he
    cases hn : ownName ds t with
    | none => simp [hn] at he
    | some n =>
      simp only [hn] at he
      split_ifs at he
      cases he
      cases t with
      | named m as =>
        rw [ownName] at hn
        split_ifs at hn
        cases hn
        rw [subst_named hparam]
        rfl
      | box kind t =>
        have hkind : kind ≠ .weak := by
          rintro rfl
          simp [ownName] at hn
        cases t with
        | named m as =>
          have hm : m = n := by cases kind <;> simp_all [ownName]
          subst hm
          rw [TypeExpr.subst, subst_named hparam]
          rfl
        | _ => cases kind <;> simp [ownName] at hn
      | _ => simp [ownName] at hn

/-- A step at positions that `own_edge` looks at: along an edge, or into a `shared` or
`cell`. -/
theorem Step.visible {t u : TypeExpr} {cell hidden : Bool}
    (h : Step ds t cell hidden u) (hh : hidden = false) :
    ∃ n m, ownerOf t = some n ∧ ownerOf u = some m ∧
      ((isNamed t = true ∧ Linked (edges ds) n m) ∨
        (n = m ∧ isNamed t = false ∧ isNamed u = true)) := by
  cases h with
  | option | slice | key | value | elem | arg | target => exact absurd hh (by decide)
  | box hkind =>
    cases u with
    | named n args => exact ⟨n, n, rfl, rfl, .inr ⟨rfl, rfl, rfl⟩⟩
    | _ => exact absurd hh (by simp [hiddenElem])
  | @field n args d f t hd hf ht =>
    obtain ⟨e, he, howner⟩ := ownerOf_field ht hh
    rw [declOf_name hd] at he
    refine ⟨n, e.dst, rfl, howner args, .inl ⟨rfl, e, ?_, (declared_of_ownEdge he).2, rfl⟩⟩
    exact mem_append_left _ (mem_edgesOf.mpr ⟨n, d, hd, f, hf, he⟩)
  | @payload n args d f t hd hf ht =>
    obtain ⟨e, he, howner⟩ := ownerOf_field ht hh
    rw [declOf_name hd] at he
    refine ⟨n, e.dst, rfl, howner args, .inl ⟨rfl, e, ?_, (declared_of_ownEdge he).2, rfl⟩⟩
    exact mem_append_right _ (mem_edgesOf.mpr ⟨n, d, hd, f, hf, he⟩)

theorem Path.visible {t u : TypeExpr} {cell hidden : Bool}
    (h : Path ds t cell hidden u) (hh : hidden = false) :
    ∃ n m, ownerOf t = some n ∧ ownerOf u = some m ∧
      (TransGen (Linked (edges ds)) n m ∨ (n = m ∧ isNamed t = false ∧ isNamed u = true)) := by
  induction h with
  | single hs =>
    subst hh
    obtain ⟨n, m, ht, hu, hlink⟩ := hs.visible rfl
    exact ⟨n, m, ht, hu, hlink.imp_left fun hl => .single hl.2⟩
  | cons hs _ ih =>
    obtain ⟨rfl, rfl⟩ := Bool.or_eq_false_iff.mp hh
    obtain ⟨n, m, ht, hu, hlink⟩ := hs.visible rfl
    obtain ⟨m', k, hu', hw, hrest⟩ := ih rfl
    obtain rfl : m = m' := Option.some.inj (hu.symm.trans hu')
    refine ⟨n, k, ht, hw, .inl ?_⟩
    -- into a `shared` or `cell` only once in a row
    rcases hlink with ⟨-, hlink⟩ | ⟨rfl, -, hnamed⟩ <;>
      rcases hrest with hrest | ⟨rfl, hnot, -⟩
    · exact .head hlink hrest
    · exact .single hlink
    · exact hrest
    · exact absurd (hnamed.symm.trans hnot) (by decide)

/-- Every ownership cycle of an accepted program is at a hidden position somewhere. -/
theorem Accepted.hidden {ds : List Decl} (h : Accepted ds) {t : TypeExpr} {cell hidden : Bool}
    (hp : Path ds t cell hidden t) : hidden = true := by
  by_contra hne
  obtain ⟨n, m, hn, hm, hcycle⟩ := hp.visible (by simpa using hne)
  obtain rfl : n = m := Option.some.inj (hn.symm.trans hm)
  rcases hcycle with hcycle | ⟨-, hnot, hnamed⟩
  · exact h.acyclic n hcycle
  · exact absurd (hnamed.symm.trans hnot) (by decide)

/-- An accepted program has no ownership cycle through a `cell` just when it has none that
is at a position `own_edge` does not look at. -/
theorem acyclic_exact {ds : List Decl} (h : Accepted ds) :
    (∀ t hidden, ¬ Path ds t true hidden t) ↔ ∀ t, ¬ Path ds t true true t := by
  constructor
  · intro hnone t
    exact hnone t true
  · intro hnone t hidden hp
    rw [h.hidden hp] at hp
    exact hnone t hp

/-! ### Two programs -/

/-- `struct Leaf { n int }` and `struct Node { c cell[Leaf] }`. -/
def plainDecls : List Decl :=
  [.struct ⟨"Leaf".toList, [], [⟨"n".toList, some (.named "int".toList []), 1⟩]⟩,
    .struct ⟨"Node".toList, [], [⟨"c".toList, some (.box .cell (.named "Leaf".toList [])), 2⟩]⟩]

theorem acyclic_exact_plain :
    (∀ t hidden, ¬ Path plainDecls t true hidden t) ↔ ∀ t, ¬ Path plainDecls t true true t :=
  acyclic_exact (by decide)

/-- `struct Node { next ?cell[Node] }`. -/
def nodeDecl : TypeDecl :=
  ⟨"Node".toList, [], [⟨"next".toList, some (.option (.box .cell (.named "Node".toList []))), 1⟩]⟩

def nodeDecls : List Decl := [.struct nodeDecl]

/-- A node that holds an optional cell of a node is accepted. -/
theorem nodeDecls_cycle :
    ¬ ∀ ds : List Decl, Accepted ds → ∀ t hidden, ¬ Path ds t true hidden t := by
  intro h
  have hfield := @Step.field nodeDecls "Node".toList [] nodeDecl _ _ rfl mem_cons_self rfl
  have hcell : Step nodeDecls (.box .cell (.named "Node".toList [])) true false
      (.named "Node".toList []) := .box (by decide)
  exact h nodeDecls (by decide) _ _ (.cons hfield (.cons .option (.single hcell)))

end Voila.Chk.Acyclic

/-!
Which edges the Acyclicity Rule's check reports: those on a cycle, each field of a type once.

A sweep looks only at types that its start leads to, so an edge it closes lies on a cycle (`Listed`); and every
edge on a cycle leads to a declared type, whose own sweep comes by it. What is reported is remembered as one
text, `owner.field`, which tells two fields apart since no field has a dot in its name.
-/

namespace Voila.Chk.Acyclic

open Relation

/-- The edge lies on a cycle: its end leads back to where it starts. -/
def OnCycle (es : List Edge) (e : Edge) : Prop := e ∈ es ∧ ReflTransGen (Linked es) e.dst e.src

/-- The owner and the field of an edge. -/
def Edge.pair (e : Edge) : Str × Str := (e.src, e.field)

/-- The diagnostic that an edge gets. -/
def Edge.report (e : Edge) : Nat × Str := (e.node, cycleText e.dst e.field)

/-- What was reported so far are the edges `told`, each on a cycle and no key twice. -/
structure Listed (es : List Edge) (rep : Reports) (told : List Edge) : Prop where
  keys : rep.keys = (told.map Edge.key).reverse
  errors : rep.errors = told.map Edge.report
  once : (told.map Edge.key).Nodup
  onCycle : ∀ e ∈ told, OnCycle es e

theorem listed_nil (es : List Edge) : Listed es ⟨[], []⟩ [] :=
  ⟨rfl, rfl, nodup_nil, by simp⟩

theorem Listed.closing {es told : List Edge} {rep : Reports} {e : Edge} (h : Listed es rep told)
    (he : OnCycle es e) : ∃ told', Listed es (closing e.dst e rep) told' := by
  by_cases hkey : e.key ∈ rep.keys
  · rw [Acyclic.closing, if_pos hkey]
    exact ⟨told, h⟩
  · rw [Acyclic.closing, if_neg hkey]
    refine ⟨told ++ [e], ?_, ?_, ?_, ?_⟩
    · simp [h.keys]
    · simp [h.errors, Edge.report]
    · rw [h.keys, mem_reverse] at hkey
      rw [map_append, nodup_append]
      refine ⟨h.once, by simp, ?_⟩
      intro k hk k' hk' heq
      rw [map_singleton, mem_singleton] at hk'
      exact hkey (hk' ▸ heq ▸ hk)
    · intro e' he'
      rcases mem_append.mp he' with he' | he'
      · exact h.onCycle e' he'
      · exact mem_singleton.mp he' ▸ he

variable {s : Sweep} {start : Str} {ds : List Decl}

/-- The edges out of one type that `start` leads to: what is queued, `start` leads to as well. -/
theorem Listed.foldl {es told out : List Edge} (h : Listed es s.rep told)
    (hout : ∀ e ∈ out, e ∈ es ∧ ReflTransGen (Linked es) start e.src)
    (hstack : ∀ a ∈ s.stack, ReflTransGen (Linked es) start a) :
    (∃ told', Listed es (out.foldl (sweepEdge start) s).rep told') ∧
      ∀ a ∈ (out.foldl (sweepEdge start) s).stack, ReflTransGen (Linked es) start a := by
  induction out generalizing s told with
  | nil => exact ⟨⟨told, h⟩, hstack⟩
  | cons e out ih =>
    have hrest : ∀ e' ∈ out, e' ∈ es ∧ ReflTransGen (Linked es) start e'.src :=
      fun e' he' => hout e' (mem_cons_of_mem _ he')
    obtain ⟨he, hreach⟩ := hout e mem_cons_self
    have hdst : ReflTransGen (Linked es) start e.dst := hreach.tail ⟨e, he, rfl, rfl⟩
    rw [foldl_cons]
    by_cases hstart : e.dst = start
    · -- the edge leads back to `start`, which leads to its source
      obtain ⟨told', hlisted⟩ := h.closing ⟨he, hstart ▸ hreach⟩
      rw [hstart] at hlisted
      rw [sweepEdge, if_pos hstart]
      exact ih (s := { s with rep := Acyclic.closing start e s.rep }) hlisted hrest hstack
    · by_cases hseen : e.dst ∈ s.seen
      · rw [sweepEdge, if_neg hstart, if_pos hseen]
        exact ih h hrest hstack
      · rw [sweepEdge, if_neg hstart, if_neg hseen]
        refine ih (s := { s with seen := e.dst :: s.seen, stack := e.dst :: s.stack }) h hrest ?_
        intro a ha
        rcases mem_cons.mp ha with ha | ha
        · exact ha ▸ hdst
        · exact hstack a ha

theorem Listed.sweep {es told : List Edge} {n : Nat} {rep : Reports}
    (h : Listed es s.rep told) (hstack : ∀ a ∈ s.stack, ReflTransGen (Linked es) start a)
    (hrun : sweep es start n s = some rep) : ∃ told', Listed es rep told' := by
  induction n generalizing s told with
  | zero =>
    obtain ⟨seen, stack, rep₀⟩ := s
    cases stack with
    | nil => exact ⟨told, Option.some.inj hrun ▸ h⟩
    | cons cur stack => exact absurd hrun (by simp [Acyclic.sweep])
  | succ n ih =>
    obtain ⟨seen, stack, rep₀⟩ := s
    cases stack with
    | nil => exact ⟨told, Option.some.inj hrun ▸ h⟩
    | cons cur stack =>
      have hcur := hstack cur mem_cons_self
      have hout : ∀ e ∈ es.filter (·.src = cur), e ∈ es ∧ ReflTransGen (Linked es) start e.src := by
        intro e he
        obtain ⟨hmem, hsrc⟩ := mem_filter.mp he
        exact ⟨hmem, of_decide_eq_true hsrc ▸ hcur⟩
      obtain ⟨⟨told', hlisted⟩, hnext⟩ := Listed.foldl (s := ⟨seen, stack, rep₀⟩) h hout
        (fun a ha => hstack a (mem_cons_of_mem _ ha))
      exact ih hlisted hnext hrun

theorem Listed.acycCheckAll {es told : List Edge} {rep rep' : Reports} {names : List Str}
    (h : Listed es rep told) (hrun : acycCheckAll es rep names = some rep') :
    ∃ told', Listed es rep' told' := by
  induction names generalizing rep told with
  | nil => exact ⟨told, Option.some.inj hrun ▸ h⟩
  | cons name names ih =>
    rw [Acyclic.acycCheckAll] at hrun
    cases hone : acycCheck es rep name with
    | none => simp [hone] at hrun
    | some rep₁ =>
      rw [hone] at hrun
      obtain ⟨told', hlisted⟩ := Listed.sweep (s := ⟨[], [name], rep⟩) h
        (fun a ha => mem_singleton.mp ha ▸ .refl) hone
      exact ih hlisted hrun

/-! ### Keys -/

/-- What follows the last dot, and what stands before it. -/
theorem append_dot_inj {a b f g : Str} (hf : '.' ∉ f) (hg : '.' ∉ g) (h : a ++ '.' :: f = b ++ '.' :: g) :
    a = b ∧ f = g := by
  rcases append_eq_append_iff.mp h with ⟨c, hb, hc⟩ | ⟨c, ha, hc⟩
  · cases c with
    | nil => exact ⟨by simpa using hb.symm, by simpa using hc⟩
    | cons x c => exact absurd (by simp [(List.cons.inj hc).2]) hf
  · cases c with
    | nil => exact ⟨by simpa using ha, by simpa using hc.symm⟩
    | cons x c => exact absurd (by simp [(List.cons.inj hc).2]) hg

/-- No field is named with a dot in it: the parser takes a name, or numbers an unnamed field `_0`, `_1` and on. -/
def Dotless (ds : List Decl) : Prop :=
  ∀ d ∈ structDecls ds ++ enumDecls ds, ∀ f ∈ d.fields, '.' ∉ f.name

instance (ds : List Decl) : Decidable (Dotless ds) :=
  inferInstanceAs (Decidable (∀ d ∈ structDecls ds ++ enumDecls ds, ∀ f ∈ d.fields, '.' ∉ f.name))

theorem field_of_ownEdge {src : Str} {f : FieldDecl} {e : Edge}
    (h : ownEdge ds src f = some e) : e.field = f.name := by
  unfold ownEdge at h
  split at h
  · exact absurd h (by simp)
  · split_ifs at h
    cases h
    rfl

theorem declOf_mem {types : List TypeDecl} {n : Str} {d : TypeDecl} (h : declOf types n = some d) :
    d ∈ types :=
  mem_reverse.mp (List.mem_of_find?_eq_some h)

theorem Dotless.field {ds : List Decl} (h : Dotless ds) {e : Edge} (he : e ∈ edges ds) :
    '.' ∉ e.field := by
  rcases mem_append.mp he with he | he
  all_goals
    obtain ⟨n, d, hd, f, hf, hown⟩ := mem_edgesOf.mp he
    rw [field_of_ownEdge hown]
    refine h d ?_ f hf
  · exact mem_append_left _ (declOf_mem hd)
  · exact mem_append_right _ (declOf_mem hd)

theorem Dotless.key_inj (h : Dotless ds) {e e' : Edge} (he : e ∈ edges ds)
    (he' : e' ∈ edges ds) (hkey : e.key = e'.key) : e.pair = e'.pair := by
  obtain ⟨hsrc, hfield⟩ := append_dot_inj (h.field he) (h.field he') hkey
  rw [Edge.pair, Edge.pair, hsrc, hfield]

/-! ### What is reported -/

/-- A graph has a cycle just if one of its edges lies on one. -/
theorem exists_onCycle_iff (es : List Edge) :
    (∃ e, OnCycle es e) ↔ ∃ n, TransGen (Linked es) n n := by
  constructor
  · intro ⟨e, he, hback⟩
    exact ⟨e.dst, TransGen.tail'_iff.mpr ⟨e.src, hback, e, he, rfl, rfl⟩⟩
  · intro ⟨n, hcycle⟩
    obtain ⟨a, ha, e, he, hsrc, hdst⟩ := TransGen.tail'_iff.mp hcycle
    exact ⟨e, he, by rw [hsrc, hdst]; exact ha⟩

/-- The check ends, and reports the fields with an edge that lies on a cycle, each of them once. -/
theorem reports_exact {ds : List Decl} (hds : Dotless ds) :
    ∃ (rep : Reports) (told : List Edge), checkAcyclicity ds = some rep ∧ rep.errors = told.map Edge.report ∧
      (told.map Edge.pair).Nodup ∧ (∀ e ∈ told, OnCycle (edges ds) e) ∧
      (∀ p, p ∈ told.map Edge.pair ↔ ∃ e, OnCycle (edges ds) e ∧ e.pair = p) ∧
      (rep.errors = [] ↔ ∀ n, ¬ TransGen (Linked (edges ds)) n n) := by
  obtain ⟨rep, hrep, -, -, hall⟩ := acycCheckAll_spec (edges ds) ⟨[], []⟩ (startNames ds)
  obtain ⟨told, hlisted⟩ := (listed_nil (edges ds)).acycCheckAll hrep
  -- every edge on a cycle shares its key with one that was reported
  have htold : ∀ e, OnCycle (edges ds) e → ∃ e' ∈ told, e'.pair = e.pair := by
    intro e he
    have hkey := hall e he.1 (dst_mem_startNames he.1) he.2
    rw [hlisted.keys, mem_reverse] at hkey
    obtain ⟨e', he', heq⟩ := mem_map.mp hkey
    exact ⟨e', he', hds.key_inj (hlisted.onCycle e' he').1 he.1 heq⟩
  refine ⟨rep, told, hrep, hlisted.errors, ?_, hlisted.onCycle, ?_, ?_⟩
  · refine List.Nodup.of_map (fun p => p.1 ++ '.' :: p.2) ?_
    rw [List.map_map]
    exact hlisted.once
  · intro p
    constructor
    · intro hp
      obtain ⟨e, he, heq⟩ := mem_map.mp hp
      exact ⟨e, hlisted.onCycle e he, heq⟩
    · intro ⟨e, he, heq⟩
      obtain ⟨e', he', heq'⟩ := htold e he
      exact mem_map.mpr ⟨e', he', heq'.trans heq⟩
  · rw [← not_exists, ← exists_onCycle_iff, hlisted.errors, map_eq_nil_iff]
    constructor
    · intro hnil ⟨e, he⟩
      obtain ⟨e', he', -⟩ := htold e he
      rw [hnil] at he'
      simp at he'
    · intro hnone
      exact eq_nil_iff_forall_not_mem.mpr fun e he => hnone ⟨e, hlisted.onCycle e he⟩

/-- `struct A { b B }` and `enum B { V(a A, b ?B) }`. -/
def mutualDecls : List Decl :=
  [.struct ⟨"A".toList, [], [⟨"b".toList, some (.named "B".toList []), 1⟩]⟩,
    .enum ⟨"B".toList, [], [⟨"a".toList, some (.named "A".toList []), 2⟩,
      ⟨"b".toList, some (.option (.named "B".toList [])), 3⟩]⟩]

theorem reports_exact_mutual :
    ∃ (rep : Reports) (told : List Edge), checkAcyclicity mutualDecls = some rep ∧ rep.errors = told.map Edge.report ∧
      (told.map Edge.pair).Nodup ∧ (∀ e ∈ told, OnCycle (edges mutualDecls) e) ∧
      (∀ p, p ∈ told.map Edge.pair ↔ ∃ e, OnCycle (edges mutualDecls) e ∧ e.pair = p) ∧
      (rep.errors = [] ↔ ∀ n, ¬ TransGen (Linked (edges mutualDecls)) n n) :=
  reports_exact (by decide)

end Voila.Chk.Acyclic
