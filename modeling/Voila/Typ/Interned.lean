import Voila.Typ.Spelling

/-!
# Voila.Typ.Interned

When ids tell types apart.

Every id of a table stands for an expression (`Table.exprs`). In a table made by constructions
the texts are the spellings of the expressions, and every id but `0` is filed under the key of
its own (`Filed`); `mk` keeps that (`filed_mk`). So two constructions answer one id just when their
expressions blur into one, and ids agree just where parts do as long as no two different
expressions of the run blur into one (`interned_iff`).
-/

open List

-- the decision by the list, and not over all characters
attribute [local instance (high)] List.decidableBAll

namespace Voila.Typ

open Table (commas)

namespace Con

variable {α β : Type}

/-- A construction with other parts. -/
def onParts (f : α → β) : Con α → Con β
  | .name g n as => .name g n (as.map f)
  | .option e => .option (f e)
  | .result e => .result (f e)
  | .slice n e => .slice n (f e)
  | .map k v => .map (f k) (f v)
  | .set e => .set (f e)
  | .chan e => .chan (f e)
  | .box b e => .box b (f e)
  | .fn ps r => .fn (ps.map f) (f r)
  | .tuple es => .tuple (es.map f)
  | .borrow e => .borrow (f e)

variable {c : Con α} {f : α → β} {g : β → α}

theorem onParts_congr {f g : α → β} (h : ∀ x ∈ c.parts, f x = g x) : c.onParts f = c.onParts g := by
  cases c <;> simp_all [onParts, parts]

theorem map_cancel {as : List α} (h : ∀ x ∈ as, g (f x) = x) : (as.map f).map g = as := by
  rw [map_map]
  exact (map_congr_left h).trans (map_id as)

theorem onParts_cancel (h : ∀ x ∈ c.parts, g (f x) = x) : (c.onParts f).onParts g = c := by
  cases c <;> simp_all [onParts, parts, map_cancel, -map_map]

/-- Constructions are told apart by what tells their parts apart. -/
theorem onParts_injOn [Nonempty α] {f : α → β} {S : Set α} (inj : S.InjOn f) {c d : Con α}
    (hc : ∀ x ∈ c.parts, x ∈ S) (hd : ∀ x ∈ d.parts, x ∈ S) (h : c.onParts f = d.onParts f) : c = d := by
  have back := inj.leftInvOn_invFunOn
  rw [← onParts_cancel (fun x hx => back (hc x hx)), h, onParts_cancel (fun x hx => back (hd x hx))]

end Con

/-- The expression that a node makes of the expressions of its parts. -/
def Node.ty (es : List Ty) (n : Node) : Ty :=
  let part (id : Nat) : Ty := es.getD id .nil
  let named (f : Found) : Ty := ((Ty.nameOf? n.name).map fun w => Ty.name f w (n.args.map part)).getD .nil
  match n.kind with
  | .named => named .nominal
  | .param => named .param
  | .error => named .unknown
  | .option => .option (part n.elem)
  | .result => .result (part n.elem)
  | .slice => .slice (Ty.extentOf n.name) (part n.elem)
  | .map => .map (part n.key) (part n.elem)
  | .set => .set (part n.elem)
  | .chan => .chan (part n.elem)
  | .box => .box (if n.flag = 1 then .cell else if n.flag = 2 then .weak else .shared) (part n.elem)
  | .fn => .fn (n.args.map part) (part n.res)
  | .tuple => .tuple (n.args.map part)
  | .borrow => .borrow (part n.elem)

theorem extentOf_self (n : Extent) : Ty.extentOf n.text = n := by
  have all : ∀ c ∈ n.text, (c ≠ ']' : Bool) = true := by
    intro c hc
    simpa using fun h : c = ']' => n.plain (h ▸ hc)
  apply Extent.ext
  simp only [Ty.extentOf]
  exact takeWhile_eq_self_iff.mpr (by simpa using all)

theorem Con.node_ty (es : List Ty) (c : Con Nat) : c.node.ty es = .ofCon (c.onParts (es.getD · .nil)) := by
  cases c with
  | name f n as => cases f <;> simp [node, Node.ty, Found.kind, Ty.nameOf?_text, onParts, Ty.ofCon]
  | slice n e => simp [node, Node.ty, onParts, Ty.ofCon, extentOf_self]
  | box b e => cases b <;> simp [node, Node.ty, onParts, Ty.ofCon, flagOf]
  | _ => rfl

namespace Table

/-- The expression of each id: the nodes are unfolded in the order they were appended. -/
def exprs (t : Table) : List Ty := t.types.tail.foldl (fun es n => es ++ [n.ty es]) [.nil]

/-- `mk`, the two ways it can go. -/
theorem mk_cases (t : Table) (n : Node) :
    (∃ id, t.intern.lookup (keyOf n.kind (t.render n)) = some id ∧ t.mk n = (id, t)) ∨
      (t.intern.lookup (keyOf n.kind (t.render n)) = none ∧ t.mk n = (t.types.length,
        ⟨t.types ++ [n], t.texts ++ [t.render n],
          (keyOf n.kind (t.render n), t.types.length) :: t.intern⟩)) := by
  unfold mk
  cases h : t.intern.lookup (keyOf n.kind (t.render n)) with
  | some id => exact .inl ⟨id, rfl, by simp [h]⟩
  | none => exact .inr ⟨rfl, by simp [h]⟩

end Table

/-- The expression of an id. -/
def Table.expr (t : Table) (id : Nat) : Ty := t.exprs.getD id .nil

/-- A table that constructions made. -/
structure Filed (t : Table) : Prop where
  started : t.types ≠ []
  size : t.exprs.length = t.types.length
  nil_iff : ∀ id e, t.exprs[id]? = some e → (e = .nil ↔ id = 0)
  texts : t.texts = t.exprs.map Ty.spell
  nodes : ∀ id, 0 < id → id < t.types.length → ∃ c : Con Nat, t.get id = c.node ∧
    (∀ p ∈ c.parts, p < id) ∧ t.expr id = .ofCon (c.onParts t.expr)
  found : ∀ k id, t.intern.lookup k = some id ↔ 0 < id ∧ ∃ e, t.exprs[id]? = some e ∧ e.key = k

theorem filed_new : Filed .new where
  started := by decide
  size := rfl
  nil_iff id e h := by
    cases id with
    | zero => simp_all [Table.exprs, Table.new]
    | succ id => simp [Table.exprs, Table.new] at h
  texts := by simp [Table.exprs, Table.new, Ty.spell]
  nodes id pos inside := by
    have one : id < 1 := inside
    omega
  found k id := by
    cases id with
    | zero => simp [Table.new]
    | succ id => simp [Table.exprs, Table.new]

/-- The parts of a construction are ids of the table. -/
def Con.Within (c : Con Nat) (t : Table) : Prop := ∀ id ∈ c.parts, id < t.types.length

/-- The expression that a construction makes. -/
def Table.made (t : Table) (c : Con Nat) : Ty := c.node.ty t.exprs

theorem Table.made_eq (t : Table) (c : Con Nat) : t.made c = .ofCon (c.onParts t.expr) := c.node_ty t.exprs

namespace Filed

variable {t : Table}

theorem expr_at (h : Filed t) {id : Nat} (hid : id < t.types.length) : t.exprs[id]? = some (t.expr id) := by
  have inside : id < t.exprs.length := h.size ▸ hid
  simp [Table.expr, getD_eq_getElem?_getD, inside]

theorem text_expr (h : Filed t) {id : Nat} (hid : id < t.types.length) : t.text id = (t.expr id).spell := by
  simp [Table.text, h.texts, getD_eq_getElem?_getD, h.expr_at hid]

theorem expr_eq_nil (h : Filed t) {id : Nat} (hid : id < t.types.length) : t.expr id = .nil ↔ id = 0 :=
  h.nil_iff id _ (h.expr_at hid)

theorem lookup_expr (h : Filed t) {id : Nat} (hid : id < t.types.length) (pos : 0 < id) :
    t.intern.lookup (t.expr id).key = some id :=
  (h.found _ _).mpr ⟨pos, _, h.expr_at hid, rfl⟩

/-- Two ids of a table stand for different expressions, and these have different keys. -/
theorem expr_injOn (h : Filed t) : Set.InjOn t.expr {id | id < t.types.length} := by
  intro a ha b hb same
  by_cases zero : a = 0
  · have nil := (h.expr_eq_nil ha).mpr zero
    rw [zero, (h.expr_eq_nil hb).mp (same ▸ nil)]
  · have other : b ≠ 0 := fun hb' => zero ((h.expr_eq_nil ha).mp (same ▸ (h.expr_eq_nil hb).mpr hb'))
    have at_a := h.lookup_expr ha (Nat.pos_of_ne_zero zero)
    rw [same, h.lookup_expr hb (Nat.pos_of_ne_zero other)] at at_a
    exact (Option.some.inj at_a).symm

variable {c : Con Nat}

/-- `render` spells the expression that a construction makes. -/
theorem render_node (h : Filed t) (hc : c.Within t) : t.render c.node = (t.made c).spell := by
  have texts (as : List Nat) (has : ∀ p ∈ as, p < t.types.length) :
      as.map t.text = (as.map t.expr).map Ty.spell := by
    rw [map_map]
    exact map_congr_left fun p hp => h.text_expr (has p hp)
  rw [Table.made_eq]
  cases c with
  | name f w as =>
    have none : (as.map t.expr).isEmpty = decide (as = []) := by cases as <;> rfl
    cases f <;>
      simp only [Table.render, Con.node, Found.kind, Con.onParts, Ty.ofCon, Ty.spell, texts as hc, none,
        decide_eq_true_eq]
  | fn ps r =>
    have same := texts ps fun p hp => hc p (by simp [Con.parts, hp])
    have hr := hc r (by simp [Con.parts])
    have none : (t.expr r).isNil = decide (r = 0) := by
      rw [Bool.eq_iff_iff, Ty.isNil_iff, h.expr_eq_nil hr, decide_eq_true_eq]
    simp only [Table.render, Con.node, Con.onParts, Ty.ofCon, Ty.spell, same, h.text_expr hr, none,
      decide_eq_true_eq]
  | tuple es => simp only [Table.render, Con.node, Con.onParts, Ty.ofCon, Ty.spell, texts es hc]
  | map k v =>
    have hk := hc k (by simp [Con.parts])
    have hv := hc v (by simp [Con.parts])
    simp only [Table.render, Con.node, Con.onParts, Ty.ofCon, Ty.spell, h.text_expr hk, h.text_expr hv]
  | option e | result e | slice _ e | set e | chan e | box _ e | borrow e =>
    have he := hc e (by simp [Con.parts])
    simp only [Table.render, Con.node, Con.onParts, Ty.ofCon, Ty.spell, h.text_expr he]

theorem key_node (h : Filed t) (hc : c.Within t) :
    keyOf c.node.kind (t.render c.node) = (t.made c).key := by
  rw [h.render_node hc, Ty.key, Table.made_eq]
  cases c with
  | name f w as => cases f <;> rfl
  | _ => rfl

/-- A node appended to a table adds its expression. -/
theorem exprs_append (h : Filed t) (n : Node) (texts : List Str) (intern : List (Str × Nat)) :
    Table.exprs ⟨t.types ++ [n], texts, intern⟩ = t.exprs ++ [n.ty t.exprs] := by
  simp [Table.exprs, tail_append_of_ne_nil h.started, foldl_append]

/-- A table with the expression of a new node filed under a key that nothing was filed under. -/
theorem append (h : Filed t) (hc : c.Within t) (fresh : t.intern.lookup (t.made c).key = none) :
    Filed ⟨t.types ++ [c.node], t.texts ++ [(t.made c).spell],
      ((t.made c).key, t.types.length) :: t.intern⟩ := by
  have grown := h.exprs_append c.node (t.texts ++ [(t.made c).spell])
    (((t.made c).key, t.types.length) :: t.intern)
  have pos : 0 < t.types.length := length_pos_iff.mpr h.started
  have last : (t.exprs ++ [t.made c])[t.types.length]? = some (t.made c) := by simp [← h.size]
  have old {id : Nat} (hid : id < t.types.length) : (t.exprs ++ [t.made c])[id]? = t.exprs[id]? :=
    List.getElem?_append_left (h.size ▸ hid)
  -- an id of the new table is one of the old table, or the last
  have split {id : Nat} {e : Ty} (he : (t.exprs ++ [t.made c])[id]? = some e) :
      id < t.types.length ∨ (id = t.types.length ∧ e = t.made c) := by
    have inside := (List.getElem?_eq_some_iff.mp he).1
    rw [length_append, length_singleton, h.size] at inside
    obtain less | rfl := Nat.lt_succ_iff_lt_or_eq.mp inside
    · exact .inl less
    · exact .inr ⟨rfl, Option.some.inj (he.symm.trans last)⟩
  constructor
  · simp
  · rw [grown]
    simp [h.size]
  · intro id e he
    rw [grown] at he
    obtain less | ⟨rfl, rfl⟩ := split he
    · exact h.nil_iff id e ((old less).symm.trans he)
    · simp [t.made_eq c, Ty.ofCon_ne_nil, pos.ne']
  · rw [grown, map_append, ← h.texts]
    rfl
  · have expr_old {p : Nat} (hp : p < t.types.length) :
        Table.expr ⟨t.types ++ [c.node], t.texts ++ [(t.made c).spell], ((t.made c).key, t.types.length) :: t.intern⟩ p =
          t.expr p := by
      rw [Table.expr, Table.expr, grown, getD_eq_getElem?_getD, getD_eq_getElem?_getD]
      exact congrArg (·.getD Ty.nil) (old hp)
    intro id hpos inside
    rw [length_append, length_singleton] at inside
    obtain less | rfl := Nat.lt_succ_iff_lt_or_eq.mp inside
    · obtain ⟨d, at_id, parts, made⟩ := h.nodes id hpos less
      refine ⟨d, ?_, parts, ?_⟩
      · simpa [Table.get, getD_eq_getElem?_getD, List.getElem?_append_left less] using at_id
      · rw [expr_old less, made, Con.onParts_congr fun p hp => (expr_old ((parts p hp).trans less)).symm]
    · refine ⟨c, by simp [Table.get], hc, ?_⟩
      rw [← Con.onParts_congr fun p hp => (expr_old (hc p hp)).symm, ← t.made_eq, Table.expr, grown]
      simp [← h.size, Table.made]
  · intro k id
    rw [grown, lookup_cons]
    change _ ↔ 0 < id ∧ ∃ e, (t.exprs ++ [t.made c])[id]? = some e ∧ e.key = k
    by_cases same : k = (t.made c).key
    · subst same
      simp only [beq_self_eq_true, Option.some.injEq]
      constructor
      · rintro rfl
        exact ⟨pos, _, last, rfl⟩
      · rintro ⟨hpos, e, he, hk⟩
        obtain less | ⟨rfl, -⟩ := split he
        · have there := (h.found _ id).mpr ⟨hpos, e, (old less).symm.trans he, hk⟩
          rw [fresh] at there
          cases there
        · rfl
    · simp only [beq_eq_false_iff_ne.mpr same, h.found]
      refine and_congr_right fun _ => exists_congr fun e => and_congr_left fun hk => ?_
      constructor
      · intro he
        exact (old (h.size ▸ (List.getElem?_eq_some_iff.mp he).1)).trans he
      · intro he
        obtain less | ⟨-, rfl⟩ := split he
        · exact (old less).symm.trans he
        · exact absurd hk.symm same

end Filed

/-- What `mk` makes of a table: an id that stands for an expression with the key of the construction's. -/
structure Makes (t : Table) (c : Con Nat) (id : Nat) (t' : Table) : Prop where
  filed : Filed t'
  keeps : t.exprs <+: t'.exprs
  pos : 0 < id
  inside : id < t'.types.length
  keyed : (t'.expr id).key = (t.made c).key

/-- **One construction.** -/
theorem makes_mk {t : Table} (h : Filed t) {c : Con Nat} (hc : c.Within t) :
    Makes t c (t.mk c.node).1 (t.mk c.node).2 := by
  have key := h.key_node hc
  obtain ⟨id, found, eq⟩ | ⟨fresh, eq⟩ := t.mk_cases c.node
  · rw [key] at found
    obtain ⟨pos, e, at_id, keyed⟩ := (h.found _ _).mp found
    have inside : id < t.types.length := h.size ▸ (List.getElem?_eq_some_iff.mp at_id).1
    rw [eq]
    refine ⟨h, prefix_rfl, pos, inside, ?_⟩
    rwa [← Option.some.inj ((h.expr_at inside).symm.trans at_id)] at keyed
  · rw [key] at fresh
    rw [eq, key, h.render_node hc]
    have filed := h.append hc fresh
    have grown := h.exprs_append c.node (t.texts ++ [(t.made c).spell])
      (((t.made c).key, t.types.length) :: t.intern)
    refine ⟨filed, ⟨_, grown.symm⟩, length_pos_iff.mpr h.started, by simp, ?_⟩
    rw [Table.expr, grown]
    simp [← h.size, Table.made]

/-! ## Runs -/

/-- A construction, and the table it was made in. -/
structure Call where
  table : Table
  con : Con Nat

namespace Call

/-- The id that `mk` answers. -/
def id (a : Call) : Nat := (a.table.mk a.con.node).1

def expr (a : Call) : Ty := a.table.made a.con

end Call

/-- A run of constructions, from a table on. -/
def calls (t : Table) : List (Con Nat) → List Call
  | [] => []
  | c :: cs => ⟨t, c⟩ :: calls (t.mk c.node).2 cs

/-- The table after a run. -/
def after (t : Table) : List (Con Nat) → Table
  | [] => t
  | c :: cs => after (t.mk c.node).2 cs

/-- The parts of each construction of a run are ids that the table has by then. -/
def Ordered (t : Table) : List (Con Nat) → Prop
  | [] => True
  | c :: cs => c.Within t ∧ Ordered (t.mk c.node).2 cs

instance (c : Con Nat) (t : Table) : Decidable (c.Within t) :=
  inferInstanceAs (Decidable (∀ id ∈ c.parts, id < t.types.length))

instance decidableOrdered (t : Table) : (cs : List (Con Nat)) → Decidable (Ordered t cs)
  | [] => .isTrue trivial
  | c :: cs =>
    have := decidableOrdered (t.mk c.node).2 cs
    inferInstanceAs (Decidable (c.Within t ∧ Ordered (t.mk c.node).2 cs))

/-- What a table at the end of a run says of a call. -/
structure Settled (t : Table) (a : Call) : Prop where
  within : a.con.Within t
  pos : 0 < a.id
  inside : a.id < t.types.length
  keyed : (t.expr a.id).key = a.expr.key
  made : a.expr = .ofCon (a.con.onParts t.expr)

theorem expr_kept {t t' : Table} (h : Filed t) (keeps : t.exprs <+: t'.exprs) {id : Nat}
    (hid : id < t.types.length) : t'.expr id = t.expr id := by
  obtain ⟨more, eq⟩ := keeps
  have inside : id < t.exprs.length := h.size ▸ hid
  rw [Table.expr, Table.expr, ← eq, getD_eq_getElem?_getD, getD_eq_getElem?_getD,
    List.getElem?_append_left inside]

theorem length_kept {t t' : Table} (h : Filed t) (h' : Filed t') (keeps : t.exprs <+: t'.exprs) :
    t.types.length ≤ t'.types.length := by
  rw [← h.size, ← h'.size]
  exact keeps.length_le

/-- A table that goes on to grow says no less of a call. -/
theorem Settled.mono {t t' : Table} {a : Call} (s : Settled t a) (h : Filed t) (h' : Filed t')
    (keeps : t.exprs <+: t'.exprs) : Settled t' a := by
  have longer := length_kept h h' keeps
  have same {id : Nat} (hid : id < t.types.length) := expr_kept h keeps hid
  refine ⟨fun p hp => (s.within p hp).trans_le longer, s.pos, s.inside.trans_le longer, ?_, ?_⟩
  · rw [same s.inside, s.keyed]
  · rw [s.made, Con.onParts_congr fun p hp => same (s.within p hp)]

/-- **A run of constructions** grows the table, and the table at its end accounts for each of them. -/
theorem run_settled {t : Table} (h : Filed t) {cs : List (Con Nat)} (hcs : Ordered t cs) :
    Filed (after t cs) ∧ t.exprs <+: (after t cs).exprs ∧ ∀ a ∈ calls t cs, Settled (after t cs) a := by
  induction cs generalizing t with
  | nil => exact ⟨h, prefix_rfl, by simp [calls]⟩
  | cons c cs ih =>
    have step := makes_mk h hcs.1
    obtain ⟨filed, keeps, settled⟩ := ih step.filed hcs.2
    refine ⟨filed, step.keeps.trans keeps, ?_⟩
    have here : Settled (t.mk c.node).2 ⟨t, c⟩ := by
      refine ⟨fun p hp => (hcs.1 p hp).trans_le (length_kept h step.filed step.keeps), step.pos,
        step.inside, step.keyed, ?_⟩
      change t.made c = _
      rw [t.made_eq, Con.onParts_congr fun p hp => (expr_kept h step.keeps (hcs.1 p hp)).symm]
    intro a ha
    obtain rfl | ha := mem_cons.mp ha
    · exact here.mono step.filed filed keeps
    · exact settled a ha

/-- Two constructions answer one id just when they agree in kind, name, parts and flag. -/
def Interned (cs : List (Con Nat)) : Prop :=
  ∀ a ∈ calls .new cs, ∀ b ∈ calls .new cs, a.id = b.id ↔ a.con.node = b.con.node

/-- No two different expressions of a run blur into one. -/
def Unblurred (cs : List (Con Nat)) : Prop :=
  ∀ a ∈ calls .new cs, ∀ b ∈ calls .new cs, a.expr.blur = b.expr.blur → a.expr = b.expr

/-- Two constructions answer one id just when their expressions blur into one. -/
theorem Settled.id_eq_iff {t : Table} {a b : Call} (h : Filed t) (ha : Settled t a) (hb : Settled t b) :
    a.id = b.id ↔ a.expr.blur = b.expr.blur := by
  rw [← Ty.key_eq_iff, ← ha.keyed, ← hb.keyed]
  constructor
  · intro same
    rw [same]
  · intro same
    have at_a := h.lookup_expr ha.inside ha.pos
    rw [same, h.lookup_expr hb.inside hb.pos] at at_a
    exact (Option.some.inj at_a).symm

/-- The parts of a construction are told by its expression. -/
theorem Settled.node_eq_iff {t : Table} {a b : Call} (h : Filed t) (ha : Settled t a) (hb : Settled t b) :
    a.con.node = b.con.node ↔ a.expr = b.expr := by
  rw [ha.made, hb.made]
  constructor
  · intro same
    rw [Con.node_injective same]
  · intro same
    rw [Con.onParts_injOn h.expr_injOn ha.within hb.within (Ty.ofCon_injective same)]

/-- **Ids agree just where kind, name, parts and flags do**, in a run in which no two different
expressions blur into one. -/
theorem interned_iff {cs : List (Con Nat)} (hcs : Ordered .new cs) : Interned cs ↔ Unblurred cs := by
  obtain ⟨filed, -, settled⟩ := run_settled filed_new hcs
  have eq {a b : Call} (ha : a ∈ calls .new cs) (hb : b ∈ calls .new cs) :
      (a.id = b.id ↔ a.con.node = b.con.node) ↔ (a.expr.blur = b.expr.blur → a.expr = b.expr) := by
    rw [(settled a ha).id_eq_iff filed (settled b hb), (settled a ha).node_eq_iff filed (settled b hb)]
    exact ⟨Iff.mp, fun h => ⟨h, congrArg Ty.blur⟩⟩
  exact forall₂_congr fun a ha => forall₂_congr fun b hb => eq ha hb

def nameT : Name := ⟨['T'], by decide, by decide⟩

theorem interned_slices : Interned [.name .param nameT [], .name .nominal nameT [], .slice ⟨[], by decide⟩ 1] ↔
    Unblurred [.name .param nameT [], .name .nominal nameT [], .slice ⟨[], by decide⟩ 1] :=
  interned_iff (by decide)

/-- A slice of a type parameter `T` and a slice of a type `T`. -/
theorem interned_param : ¬ Interned
    [.name .param nameT [], .name .nominal nameT [], .slice ⟨[], by decide⟩ 1, .slice ⟨[], by decide⟩ 2] := by
  intro h
  have same := (h ⟨_, .slice ⟨[], by decide⟩ 1⟩ (.tail _ (.tail _ (.head _)))
    ⟨_, .slice ⟨[], by decide⟩ 2⟩ (.tail _ (.tail _ (.tail _ (.head _))))).mp (by decide)
  simp [Con.node] at same

end Voila.Typ
