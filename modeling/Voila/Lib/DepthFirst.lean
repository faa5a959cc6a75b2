import Mathlib

/-!
# Voila.Lib.DepthFirst

Depth-first search that visits no node twice, on an explicit stack.

An entry of the stack is a node with a datum that is carried along, such as the way to it. A node
that was visited before is passed over, a goal ends the search with its datum (`Verdict.found`), and
any other node puts what follows it on the stack in its place. A search without a goal leaves the
nodes that it visited (`Verdict.left`).

* `Explores.append`, `Explores.split`: the entries of a stack are searched one after the other.
* `Explores.unique`: a search has one end.
* `Explores.frame`: nodes that a search cannot come to do not matter to it.
* `Explores.sound`, `Explores.closed`: a goal that is found is reached, and where none is found,
  none is reached.
-/

open List

namespace Voila.Lib

/-- How a search ends. -/
inductive Verdict (N C : Type) where
  /-- A goal was found, with this datum. -/
  | found (c : C)
  /-- No goal was found, and these nodes were visited. -/
  | left (visited : Set N)

/-- The same end with more nodes visited. -/
def Verdict.more {N C : Type} (extra : Set N) : Verdict N C → Verdict N C
  | .found c => .found c
  | .left visited => .left (visited ∪ extra)

variable {N C : Type} (goal : N → Prop) (next : N → C → List (N × C))

/-- The search of a stack. -/
inductive Explores : Set N → List (N × C) → Verdict N C → Prop
  /-- An empty stack. -/
  | nil (visited : Set N) : Explores visited [] (.left visited)
  /-- A node that was visited before. -/
  | visited {visited : Set N} {n : N} {c : C} {stack : List (N × C)} {o : Verdict N C} :
      n ∈ visited → Explores visited stack o → Explores visited ((n, c) :: stack) o
  /-- A goal. -/
  | goal {visited : Set N} {n : N} {c : C} (stack : List (N × C)) :
      n ∉ visited → goal n → Explores visited ((n, c) :: stack) (.found c)
  /-- Another node. -/
  | node {visited : Set N} {n : N} {c : C} {stack : List (N × C)} {o : Verdict N C} :
      n ∉ visited → ¬ goal n → Explores (insert n visited) (next n c ++ stack) o →
      Explores visited ((n, c) :: stack) o

variable {goal next}

variable {o : Verdict N C} {stack : List (N × C)} {visited : Set N}

theorem Explores.append (h : Explores goal next visited stack o) (rest : List (N × C)) :
    match o with
    | .found c => Explores goal next visited (stack ++ rest) (.found c)
    | .left visited' => ∀ o', Explores goal next visited' rest o' →
        Explores goal next visited (stack ++ rest) o' := by
  induction h with
  | nil visited => exact fun o' h' => h'
  | visited seen _ ih =>
    rename_i o _
    cases o with
    | found c => exact .visited seen ih
    | left visited' => exact fun o' h' => .visited seen (ih o' h')
  | goal stack unseen isGoal => exact .goal _ unseen isGoal
  | @node visited n c stack o unseen noGoal _ ih =>
    have assoc := append_assoc (next n c) stack rest
    cases o with
    | found c => exact .node unseen noGoal (assoc ▸ ih)
    | left visited' => exact fun o' h' => .node unseen noGoal (assoc ▸ ih o' h')

/-- The entries of a stack are searched one after the other. -/
theorem Explores.split {stack rest : List (N × C)}
    (h : Explores goal next visited (stack ++ rest) o) :
    (∃ c, o = .found c ∧ Explores goal next visited stack (.found c)) ∨
      ∃ visited', Explores goal next visited stack (.left visited') ∧
        Explores goal next visited' rest o := by
  generalize whole : stack ++ rest = both at h
  induction h generalizing stack with
  | nil visited =>
    obtain ⟨rfl, rfl⟩ := append_eq_nil_iff.mp whole
    exact .inr ⟨visited, .nil visited, .nil visited⟩
  | visited seen h ih =>
    cases stack with
    | nil => exact .inr ⟨_, .nil _, by rw [← nil_append rest, whole]; exact .visited seen h⟩
    | cons e stack =>
      obtain ⟨rfl, rfl⟩ := List.cons.inj whole
      obtain ⟨c, rfl, first⟩ | ⟨visited', first, second⟩ := ih rfl
      · exact .inl ⟨c, rfl, .visited seen first⟩
      · exact .inr ⟨visited', .visited seen first, second⟩
  | goal both unseen isGoal =>
    cases stack with
    | nil => exact .inr ⟨_, .nil _, by rw [← nil_append rest, whole]; exact .goal _ unseen isGoal⟩
    | cons e stack =>
      obtain ⟨rfl, rfl⟩ := List.cons.inj whole
      exact .inl ⟨_, rfl, .goal _ unseen isGoal⟩
  | node unseen noGoal h ih =>
    cases stack with
    | nil => exact .inr ⟨_, .nil _, by rw [← nil_append rest, whole]; exact .node unseen noGoal h⟩
    | cons e stack =>
      obtain ⟨rfl, rfl⟩ := List.cons.inj whole
      obtain ⟨c, rfl, first⟩ | ⟨visited', first, second⟩ := ih (append_assoc _ _ _)
      · exact .inl ⟨c, rfl, .node unseen noGoal first⟩
      · exact .inr ⟨visited', .node unseen noGoal first, second⟩

/-- A search has one end. -/
theorem Explores.unique {o o' : Verdict N C}
    (h : Explores goal next visited stack o) (h' : Explores goal next visited stack o') : o = o' := by
  induction h with
  | nil visited => cases h'; rfl
  | visited seen _ ih =>
    cases h' with
    | visited _ h' => exact ih h'
    | goal _ unseen _ => exact absurd seen unseen
    | node unseen _ _ => exact absurd seen unseen
  | goal _ unseen isGoal =>
    cases h' with
    | visited seen _ => exact absurd seen unseen
    | goal _ _ _ => rfl
    | node _ noGoal _ => exact absurd isGoal noGoal
  | node unseen noGoal _ ih =>
    cases h' with
    | visited seen _ => exact absurd seen unseen
    | goal _ _ isGoal => exact absurd isGoal noGoal
    | node _ _ h' => exact ih h'

/-- Nodes that a search cannot come to do not matter to it. -/
theorem Explores.frame {inside : Set N} (stays : ∀ n c, n ∈ inside → ∀ e ∈ next n c, e.1 ∈ inside)
    {extra : Set N} (apart : ∀ n ∈ inside, n ∉ extra)
    (h : Explores goal next visited stack o) (within : ∀ e ∈ stack, e.1 ∈ inside) :
    Explores goal next (visited ∪ extra) stack (o.more extra) := by
  induction h with
  | nil visited => exact .nil _
  | visited seen _ ih =>
    exact .visited (.inl seen) (ih fun e he => within e (mem_cons_of_mem _ he))
  | goal stack unseen isGoal =>
    have here := within _ mem_cons_self
    exact .goal _ (fun h => h.elim unseen (apart _ here)) isGoal
  | node unseen noGoal _ ih =>
    have here := within _ mem_cons_self
    refine .node (fun h => h.elim unseen (apart _ here)) noGoal ?_
    rw [← Set.insert_union]
    refine ih fun e he => ?_
    cases mem_append.mp he with
    | inl he => exact stays _ _ here e he
    | inr he => exact within e (mem_cons_of_mem _ he)

/-- A search stays inside a set that nothing leads out of. -/
theorem Explores.inside {inside : Set N} (stays : ∀ n c, n ∈ inside → ∀ e ∈ next n c, e.1 ∈ inside)
    {visited visited' : Set N} {stack : List (N × C)}
    (h : Explores goal next visited stack (.left visited')) (before : visited ⊆ inside)
    (within : ∀ e ∈ stack, e.1 ∈ inside) : visited' ⊆ inside := by
  generalize left : Verdict.left visited' = o at h
  induction h with
  | nil visited =>
    obtain rfl := Verdict.left.inj left
    exact before
  | visited seen _ ih => exact ih before (fun e he => within e (mem_cons_of_mem _ he)) left
  | goal => cases left
  | @node visited n c stack o unseen noGoal _ ih =>
    have here := within _ mem_cons_self
    refine ih (Set.insert_subset here before) (fun e he => ?_) left
    cases mem_append.mp he with
    | inl he => exact stays n c here e he
    | inr he => exact within e (mem_cons_of_mem _ he)

/-- The entries that an entry leads to. -/
abbrev Leads (next : N → C → List (N × C)) : N × C → N × C → Prop :=
  Relation.ReflTransGen fun e e' => e' ∈ next e.1 e.2

/-- A goal that is found is reached from an entry of the stack. -/
theorem Explores.sound {c : C} (h : Explores goal next visited stack (.found c)) :
    ∃ e ∈ stack, ∃ n, goal n ∧ Leads next e (n, c) := by
  generalize found : Verdict.found c = o at h
  induction h with
  | nil visited => cases found
  | visited seen _ ih =>
    obtain ⟨e, he, reached⟩ := ih found
    exact ⟨e, mem_cons_of_mem _ he, reached⟩
  | @goal visited n c' stack unseen isGoal =>
    obtain rfl := Verdict.found.inj found
    exact ⟨(n, c), mem_cons_self, n, isGoal, .refl⟩
  | @node visited n c' stack o unseen noGoal _ ih =>
    obtain ⟨e, he, m, isGoal, reached⟩ := ih found
    cases mem_append.mp he with
    | inl he => exact ⟨(n, c'), mem_cons_self, m, isGoal, .head he reached⟩
    | inr he => exact ⟨e, mem_cons_of_mem _ he, m, isGoal, reached⟩

/-- A search without a goal has visited its stack, and what follows each node that it visited. -/
theorem Explores.closed {visited visited' : Set N} {stack : List (N × C)}
    (h : Explores goal next visited stack (.left visited')) :
    visited ⊆ visited' ∧ (∀ e ∈ stack, e.1 ∈ visited') ∧
      ∀ n ∈ visited', n ∈ visited ∨ ¬ goal n ∧ ∃ c, ∀ e ∈ next n c, e.1 ∈ visited' := by
  generalize left : Verdict.left visited' = o at h
  induction h with
  | nil visited =>
    obtain rfl := Verdict.left.inj left
    exact ⟨subset_rfl, nofun, fun n hn => .inl hn⟩
  | visited seen _ ih =>
    obtain ⟨grows, all, closed⟩ := ih left
    refine ⟨grows, fun e he => ?_, closed⟩
    cases mem_cons.mp he with
    | inl he => rw [he]; exact grows seen
    | inr he => exact all e he
  | goal => cases left
  | @node visited n c stack o unseen noGoal _ ih =>
    obtain ⟨grows, all, closed⟩ := ih left
    refine ⟨(Set.subset_insert n visited).trans grows, fun e he => ?_, fun m hm => ?_⟩
    · cases mem_cons.mp he with
      | inl he => rw [he]; exact grows (Set.mem_insert n visited)
      | inr he => exact all e (mem_append_right _ he)
    · obtain here | ⟨notGoal, c', follows⟩ := closed m hm
      · obtain rfl | before := Set.mem_insert_iff.mp here
        · exact .inr ⟨noGoal, c, fun e he => all e (mem_append_left _ he)⟩
        · exact .inl before
      · exact .inr ⟨notGoal, c', follows⟩

end Voila.Lib

/-!
What a depth-first search that visits no node twice comes to, told without its marks: the goal at the end of the
first of the ways that come to no node twice (`Explores.first`).

A way is told by the choices that are taken on it, where there is one, and ways are ordered by their choices. A mark
cuts a way off at a node that was left without a goal, or that the way itself has come from. In the first case no
way goes on from there to a goal, unless it goes through where it came from; in the second it comes to a node twice.
-/

namespace Voila.Lib

variable {N C : Type}

/-- The choice of the successor `i` among `k`, in front of later ones. A single successor is no choice. -/
def choose (k i : Nat) (ds : List Nat) : List Nat := if k = 1 then ds else i :: ds

theorem choose_lt {k i j : Nat} (hi : i < k) (hj : j < k) {ds ds' : List Nat} :
    choose k i ds < choose k j ds' ↔ i < j ∨ i = j ∧ ds < ds' := by
  unfold choose
  split
  · have one : i = j := by omega
    simp [one]
  · exact cons_lt_cons_iff

variable (succ : N → List N)

/-- A way between two nodes: its choices, and the nodes on it before the last. -/
inductive Way : N → List Nat → List N → N → Prop
  | here (n : N) : Way n [] [] n
  | step {n m n' : N} {i : Nat} {ds : List Nat} {p : List N} : (succ n)[i]? = some m → Way m ds p n' →
      Way n (choose (succ n).length i ds) (n :: p) n'

variable {succ}

variable {ds : List Nat} {p : List N}

/-- What is left of a way from a node on it. -/
theorem Way.rest {n n' m : N} (h : Way succ n ds p n') (hm : m ∈ p ++ [n']) :
    ∃ ds' p', Way succ m ds' p' n' ∧ (p' ++ [n']) <:+ (p ++ [n']) := by
  induction h with
  | here n =>
    obtain rfl := mem_singleton.mp hm
    exact ⟨[], [], .here _, suffix_rfl⟩
  | step choice h ih =>
    obtain rfl | hm := mem_cons.mp hm
    · exact ⟨_, _, .step choice h, suffix_rfl⟩
    · obtain ⟨ds', p', way, suffix⟩ := ih hm
      exact ⟨ds', p', way, suffix.trans (suffix_cons _ _)⟩

/-- Ways with the same choices go to the same end, if nothing leads on from there. -/
theorem Way.unique {n a b : N} {ds ds' : List Nat} {p p' : List N} (h : Way succ n ds p a)
    (h' : Way succ n ds' p' b) (same : ds = ds') (ha : succ a = []) (hb : succ b = []) : a = b := by
  induction h generalizing ds' p' with
  | here n =>
    cases h' with
    | here => rfl
    | step choice _ => simp [ha] at choice
  | @step n m _ i ds p choice _ ih =>
    cases h' with
    | here => simp [hb] at choice
    | @step _ m' _ j ds' p' choice' h' =>
      obtain ⟨hi, -⟩ := List.getElem?_eq_some_iff.mp choice
      obtain ⟨hj, -⟩ := List.getElem?_eq_some_iff.mp choice'
      have both : i = j ∧ ds = ds' := by
        unfold choose at same
        split at same
        · exact ⟨by omega, same⟩
        · exact List.cons.inj same
      obtain ⟨rfl, rfl⟩ := both
      obtain rfl := Option.some.inj (choice.symm.trans choice')
      exact ih h' rfl ha

variable (succ) (goal : N → Prop) (next : N → C → List (N × C))

/-- A way to a goal that comes to no node twice, and to none of `visited`. -/
structure SimpleWay (visited : Set N) (n : N) (ds : List Nat) (p : List N) (n' : N) : Prop where
  way : Way succ n ds p n'
  ends : goal n'
  simple : (p ++ [n']).Nodup
  avoids : ∀ m ∈ p ++ [n'], m ∉ visited

/-- There is no such way. -/
def NoWay (visited : Set N) (n : N) : Prop := ∀ ds p n', ¬ SimpleWay succ goal visited n ds p n'

/-- The datum that comes along the first such way. -/
def AlongFirst (visited : Set N) (e : N × C) (c : C) : Prop :=
  ∃ ds p n', SimpleWay succ goal visited e.1 ds p n' ∧ Leads next e (n', c) ∧
    ∀ ds' p' n'', SimpleWay succ goal visited e.1 ds' p' n'' → ¬ ds' < ds

/-- The same for the entries of a stack, in their order. -/
def FirstOf (visited : Set N) (stack : List (N × C)) (c : C) : Prop :=
  ∃ before e after, stack = before ++ e :: after ∧ (∀ e' ∈ before, NoWay succ goal visited e'.1) ∧
    AlongFirst succ goal next visited e c

variable {succ goal next}

variable {visited : Set N} {n : N} {e : N × C}

/-- A way from a node that is no goal is a way from a successor. -/
theorem SimpleWay.tail {n n' : N} (h : SimpleWay succ goal visited n ds p n') (notGoal : ¬ goal n) :
    ∃ i m ds' p', (succ n)[i]? = some m ∧ SimpleWay succ goal (insert n visited) m ds' p' n' ∧
      ds = choose (succ n).length i ds' := by
  obtain ⟨way, ends, simple, avoids⟩ := h
  cases way with
  | here => exact absurd ends notGoal
  | @step _ m _ i ds' p' choice way =>
    obtain ⟨fresh, simple⟩ := nodup_cons.mp simple
    refine ⟨i, m, ds', p', choice, ⟨way, ends, simple, fun x hx => ?_⟩, rfl⟩
    intro hv
    obtain rfl | hv := hv
    · exact fresh hx
    · exact avoids x (mem_cons_of_mem _ hx) hv

theorem SimpleWay.cons {visited : Set N} {n m n' : N} {i : Nat} {ds : List Nat} {p : List N}
    (choice : (succ n)[i]? = some m) (unseen : n ∉ visited)
    (h : SimpleWay succ goal (insert n visited) m ds p n') :
    SimpleWay succ goal visited n (choose (succ n).length i ds) (n :: p) n' := by
  refine ⟨.step choice h.way, h.ends, nodup_cons.mpr ⟨fun hn => ?_, h.simple⟩, fun x hx hv => ?_⟩
  · exact h.avoids n hn (Set.mem_insert n visited)
  · obtain rfl | hx := mem_cons.mp hx
    · exact unseen hv
    · exact h.avoids x hx (Set.mem_insert_of_mem n hv)

/-- A node without a way to a goal may as well be visited. -/
theorem SimpleWay.insert_iff (hn : NoWay succ goal visited n) {m n' : N}
    : SimpleWay succ goal (insert n visited) m ds p n' ↔ SimpleWay succ goal visited m ds p n' := by
  constructor
  · exact fun h => ⟨h.way, h.ends, h.simple, fun x hx hv => h.avoids x hx (Set.mem_insert_of_mem n hv)⟩
  · intro h
    refine ⟨h.way, h.ends, h.simple, fun x hx hv => ?_⟩
    obtain rfl | hv := hv
    · obtain ⟨ds', p', way, suffix⟩ := h.way.rest hx
      exact hn ds' p' n' ⟨way, h.ends, h.simple.sublist suffix.sublist, fun y hy => h.avoids y (suffix.subset hy)⟩
    · exact h.avoids x hx hv

theorem NoWay.insert_iff (hn : NoWay succ goal visited n) {m : N} :
    NoWay succ goal (insert n visited) m ↔ NoWay succ goal visited m :=
  ⟨fun h ds p n' way => h ds p n' ((SimpleWay.insert_iff hn).mpr way),
    fun h ds p n' way => h ds p n' ((SimpleWay.insert_iff hn).mp way)⟩

theorem AlongFirst.of_insert (hn : NoWay succ goal visited n) {c : C}
    (h : AlongFirst succ goal next (insert n visited) e c) : AlongFirst succ goal next visited e c := by
  obtain ⟨ds, p, n', way, leads, first⟩ := h
  exact ⟨ds, p, n', (SimpleWay.insert_iff hn).mp way, leads,
    fun ds' p' n'' way' => first ds' p' n'' ((SimpleWay.insert_iff hn).mpr way')⟩

theorem NoWay.of_next (notGoal : ¬ goal n)
    (h : ∀ m ∈ succ n, NoWay succ goal (insert n visited) m) : NoWay succ goal visited n := by
  intro ds p n' way
  obtain ⟨i, m, ds', p', choice, way, -⟩ := way.tail notGoal
  exact h m (List.mem_of_getElem? choice) ds' p' n' way

/-- The first way from a node goes on with the first way from its successors. -/
theorem AlongFirst.of_next {c d : C} (hsucc : (next n c).map Prod.fst = succ n)
    (unseen : n ∉ visited) (notGoal : ¬ goal n) {before after : List (N × C)}
    (hnext : next n c = before ++ e :: after)
    (none : ∀ e' ∈ before, NoWay succ goal (insert n visited) e'.1)
    (h : AlongFirst succ goal next (insert n visited) e d) : AlongFirst succ goal next visited (n, c) d := by
  obtain ⟨ds, p, n', way, leads, first⟩ := h
  have here : (succ n)[before.length]? = some e.1 := by
    rw [← hsucc, hnext, map_append, map_cons,
      List.getElem?_append_right (by rw [length_map]), length_map, Nat.sub_self]
    rfl
  have follows : e ∈ next n c := by
    rw [hnext]
    exact mem_append_right _ mem_cons_self
  refine ⟨_, _, n', way.cons here unseen, .head follows leads, fun ds' p' n'' way' => ?_⟩
  obtain ⟨i, m, ds'', p'', choice, tail, rfl⟩ := way'.tail notGoal
  obtain ⟨hi, -⟩ := List.getElem?_eq_some_iff.mp choice
  obtain ⟨hk, -⟩ := List.getElem?_eq_some_iff.mp here
  rw [choose_lt hi hk]
  rintro (less | ⟨rfl, less⟩)
  · rw [← hsucc, hnext, map_append, List.getElem?_append_left (by rwa [length_map])] at choice
    obtain ⟨e', he', rfl⟩ := mem_map.mp (List.mem_of_getElem? choice)
    exact none e' he' _ _ _ tail
  · obtain rfl := Option.some.inj (here.symm.trans choice)
    exact first _ _ _ tail less

/-- **The first way.** A search finds what comes along the first simple way to a goal, or there is none. -/
theorem Explores.first (hsucc : ∀ n c, (next n c).map Prod.fst = succ n) {visited : Set N} {stack : List (N × C)}
    {o : Verdict N C} (h : Explores goal next visited stack o) :
    match o with
    | .found c => FirstOf succ goal next visited stack c
    | .left _ => ∀ e ∈ stack, NoWay succ goal visited e.1 := by
  induction h with
  | nil visited => exact nofun
  | @visited visited n c stack o seen _ ih =>
    have none : NoWay succ goal visited n := by
      intro ds p n' way
      have first : n ∈ p ++ [n'] := by
        cases way.way with
        | here => exact mem_singleton_self n
        | step => exact mem_cons_self
      exact way.avoids n first seen
    cases o with
    | found d =>
      obtain ⟨before, e, after, rfl, nones, first⟩ := ih
      exact ⟨(n, c) :: before, e, after, rfl, forall_mem_cons.mpr ⟨none, nones⟩, first⟩
    | left visited' => exact forall_mem_cons.mpr ⟨none, ih⟩
  | @goal visited n c stack unseen isGoal =>
    have way : SimpleWay succ goal visited n [] [] n := by
      refine ⟨.here n, isGoal, nodup_singleton n, fun m hm => ?_⟩
      rwa [mem_singleton.mp hm]
    exact ⟨[], (n, c), stack, rfl, nofun, [], [], n, way, .refl, fun _ _ _ _ => not_lt_nil _⟩
  | @node visited n c stack o unseen notGoal _ ih =>
    -- the first of the ways from `n` goes on from one of its successors, unless none of them has a way
    have stuck (nones : ∀ e ∈ next n c, NoWay succ goal (insert n visited) e.1) : NoWay succ goal visited n := by
      refine .of_next notGoal fun m hm => ?_
      rw [← hsucc n c] at hm
      obtain ⟨e, he, rfl⟩ := mem_map.mp hm
      exact nones e he
    cases o with
    | left visited' =>
      have none := stuck fun e he => ih e (mem_append_left _ he)
      exact forall_mem_cons.mpr
        ⟨none, fun e he => (NoWay.insert_iff none).mp (ih e (mem_append_right _ he))⟩
    | found d =>
      obtain ⟨before, e, after, whole, nones, first⟩ := ih
      have later {more : List (N × C)} (hbefore : before = next n c ++ more) (hrest : stack = more ++ e :: after) :
          FirstOf succ goal next visited ((n, c) :: stack) d := by
        have none := stuck fun e' he => nones e' (hbefore ▸ mem_append_left _ he)
        refine ⟨(n, c) :: more, e, after, by rw [hrest]; rfl, forall_mem_cons.mpr ⟨none, fun e' he => ?_⟩,
          first.of_insert none⟩
        exact (NoWay.insert_iff none).mp (nones e' (hbefore ▸ mem_append_right _ he))
      obtain ⟨more, hbefore, hrest⟩ | ⟨more, hnext, hrest⟩ := append_eq_append_iff.mp whole
      · exact later hbefore hrest
      · cases more with
        | nil =>
          have hbefore : before = next n c ++ [] := by rw [hnext, List.append_nil, List.append_nil]
          exact later hbefore hrest.symm
        | cons e' more =>
          obtain ⟨rfl, -⟩ := List.cons.inj hrest
          exact ⟨[], (n, c), stack, rfl, nofun, .of_next (hsucc n c) unseen notGoal hnext nones first⟩

end Voila.Lib
