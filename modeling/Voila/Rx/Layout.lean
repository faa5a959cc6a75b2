import Voila.Rx.Natives

/-!
# Voila.Rx.Layout

The program of a tree, laid out at an address.

`Node.code` says where the instructions of a tree stand and where its jumps go, without a program that is written
and patched. The emitter appends just this code to what it has, if there is room for it (`emitNode_appends`), and
what it compiles is the code of the tree between the slots 0 and 1 (`compile_layout`).
-/

namespace Voila.Rx

open Voila.Rt (Bytes)

/-! ### The layout -/

/-- A split that prefers the body where it is greedy. -/
def fork (greedy : Bool) (body stop : Nat) : Inst := if greedy then .split body stop else .split stop body

/-- A branch of a whole character, which goes on at `stop`. -/
def branchAt (sets : List ByteSet) (stop a : Nat) : Prog :=
  .split (a + 1) (a + sets.length + 2) :: sets.map .cls ++ [.jmp stop]

/-- A whole character. -/
def utf8At (ascii : ByteSet) (a : Nat) : Prog :=
  branchAt [ascii] (a + 16) a ++ branchAt [lead2Set, contSet] (a + 16) (a + 3) ++
    branchAt [lead3Set, contSet, contSet] (a + 16) (a + 7) ++ [lead4Set, contSet, contSet, contSet].map .cls

/-- Copies of a body in a row. -/
def copiesAt (body : Nat → Prog) (size : Nat) : Nat → Nat → Prog
  | 0, _ => []
  | k + 1, a => body a ++ copiesAt body size k (a + size)

/-- A body any number of times. -/
def starAt (body : Nat → Prog) (size : Nat) (greedy : Bool) (a : Nat) : Prog :=
  fork greedy (a + 1) (a + size + 2) :: body (a + 1) ++ [.jmp a]

/-- Optional copies of a body, each of which may go on at `stop` instead. -/
def optionsAt (body : Nat → Prog) (size : Nat) (greedy : Bool) (stop : Nat) : Nat → Nat → Prog
  | 0, _ => []
  | k + 1, a => fork greedy (a + 1) stop :: body (a + 1) ++ optionsAt body size greedy stop k (a + size + 1)

/-- How many instructions a tree takes. -/
def Node.size : Node → Nat
  | .empty bol eol => bol.toNat + eol.toNat
  | .char _ => 1
  | .any => 16
  | .cls _ negated => if negated then 16 else 1
  | .cat l r => l.size + r.size
  | .alt l r => l.size + r.size + 2
  | .rep l lo none _ => lo * l.size + (l.size + 2)
  | .rep l lo (some hi) _ => lo * l.size + (hi - lo) * (l.size + 1)
  | .group l none => l.size
  | .group l (some _) => l.size + 2

/-- The instructions of a tree that stands at `a`. -/
def Node.code : Node → Nat → Prog
  | .empty bol eol, _ => (if bol then [.bol] else []) ++ (if eol then [.eol] else [])
  | .char c, _ => [.char c]
  | .any, a => utf8At anySet a
  | .cls set negated, a => if negated then utf8At (outsideSet set) a else [.cls set]
  | .cat l r, a => l.code a ++ r.code (a + l.size)
  | .alt l r, a =>
    .split (a + 1) (a + l.size + 2) :: l.code (a + 1) ++ .jmp (a + l.size + r.size + 2) :: r.code (a + l.size + 2)
  | .rep l lo none greedy, a => copiesAt l.code l.size lo a ++ starAt l.code l.size greedy (a + lo * l.size)
  | .rep l lo (some hi) greedy, a =>
    copiesAt l.code l.size lo a ++
      optionsAt l.code l.size greedy (a + lo * l.size + (hi - lo) * (l.size + 1)) (hi - lo) (a + lo * l.size)
  | .group l none, a => l.code a
  | .group l (some g), a => .save (2 * g) :: l.code (a + 1) ++ [.save (2 * g + 1)]

variable {body : Nat → Prog} {size : Nat} {code : Prog} {e e' : Emit} {emitBody : Emit → Emit}
  {tree : Node} {pat : Bytes} {r : Regex}

@[simp] theorem copiesAt_length (hbody : ∀ a, (body a).length = size) (k a : Nat) :
    (copiesAt body size k a).length = k * size := by
  induction k generalizing a with
  | zero => simp [copiesAt]
  | succ k ih => rw [copiesAt, List.length_append, hbody, ih, Nat.succ_mul, Nat.add_comm]

@[simp] theorem optionsAt_length (hbody : ∀ a, (body a).length = size)
    (greedy : Bool) (stop k a : Nat) : (optionsAt body size greedy stop k a).length = k * (size + 1) := by
  induction k generalizing a with
  | zero => simp [optionsAt]
  | succ k ih =>
    rw [optionsAt, List.cons_append, List.length_cons, List.length_append, hbody, ih, Nat.succ_mul]
    exact (Nat.add_right_comm _ _ _).trans (Nat.add_comm _ _)

@[simp] theorem starAt_length (hbody : ∀ a, (body a).length = size)
    (greedy : Bool) (a : Nat) : (starAt body size greedy a).length = size + 2 := by
  simp [starAt, hbody]

@[simp] theorem Node.code_length (n : Node) (a : Nat) : (n.code a).length = n.size := by
  induction n generalizing a with
  | empty bol eol => cases bol <;> cases eol <;> rfl
  | char c => rfl
  | any => rfl
  | cls set negated => cases negated <;> rfl
  | cat l r ihl ihr => simp [code, size, ihl, ihr]
  | alt l r ihl ihr =>
    simp only [code, size, List.length_append, List.length_cons, ihl, ihr]
    omega
  | rep l lo hi greedy ih => cases hi <;> simp [code, size, ih]
  | group l g ih => cases g <;> simp [code, size, ih]

/-! ### What the emitter appends -/

@[simp] theorem patch_overflow (e : Emit) (i : Nat) (set : Inst → Inst) :
    (e.patch i set).overflow = e.overflow := rfl

@[simp] theorem patch_prog (e : Emit) (i : Nat) (set : Inst → Inst) :
    (e.patch i set).prog = e.prog.modify i set := rfl

@[simp] theorem patch_n (e : Emit) (i : Nat) (set : Inst → Inst) : (e.patch i set).n = e.n :=
  List.length_modify _ _ _

/-- A place behind what was there before. -/
theorem modify_behind (prog more : Prog) (i : Nat) (set : Inst → Inst) :
    (prog ++ more).modify (prog.length + i) set = prog ++ more.modify i set := by
  induction prog with
  | nil => simp
  | cons x prog ih =>
    rw [List.cons_append, List.length_cons, Nat.add_right_comm, List.modify_succ_cons, ih, List.cons_append]

theorem modify_end (prog more : Prog) (x : Inst) (set : Inst → Inst) :
    (prog ++ x :: more).modify prog.length set = prog ++ set x :: more :=
  modify_behind prog (x :: more) 0 set

theorem modify_n (e : Emit) (more : Prog) (x : Inst) (set : Inst → Inst) :
    (e.prog ++ x :: more).modify e.n set = e.prog ++ set x :: more :=
  modify_end e.prog more x set

/-- What comes out is what was there with `code` behind it, if there was room. -/
def Appends (e e' : Emit) (code : Prog) : Prop :=
  e'.overflow = false → e.overflow = false ∧ e'.prog = e.prog ++ code

theorem Appends.refl (e : Emit) : Appends e e [] := fun h => ⟨h, (List.append_nil _).symm⟩

theorem Appends.trans {e e' e'' : Emit} {code more : Prog} (h : Appends e e' code) (h' : Appends e' e'' more) :
    Appends e e'' (code ++ more) := by
  intro room
  obtain ⟨room', second⟩ := h' room
  obtain ⟨room, first⟩ := h room'
  exact ⟨room, by rw [second, first, List.append_assoc]⟩

theorem Appends.n (h : Appends e e' code) (room : e'.overflow = false) :
    e'.n = e.n + code.length := by
  rw [Emit.n, (h room).2, List.length_append]
  rfl

theorem emit_spec {i : Inst} {place : Nat} (h : e.emit i = (e', place))
    (room : e'.overflow = false) : e.overflow = false ∧ e'.prog = e.prog ++ [i] ∧ place = e.n := by
  unfold Emit.emit at h
  split at h
  · obtain ⟨rfl, -⟩ := Prod.mk.inj h
    exact absurd room (by simp)
  · cases h
    exact ⟨room, rfl, rfl⟩

theorem emit_appends (e : Emit) (i : Inst) : Appends e (e.emit i).1 [i] :=
  fun room => ⟨(emit_spec rfl room).1, (emit_spec rfl room).2.1⟩

theorem emitClasses_appends (sets : List ByteSet) (e : Emit) : Appends e (emitClasses sets e) (sets.map .cls) := by
  induction sets generalizing e with
  | nil => exact .refl e
  | cons set sets ih => exact (emit_appends e (.cls set)).trans (ih _)

/-- The jump at the end of a branch is not patched yet. -/
theorem emitBranch_spec {sets : List ByteSet} {j : Nat} (h : emitBranch sets e = (e', j))
    (room : e'.overflow = false) :
    e.overflow = false ∧ e'.prog = e.prog ++ branchAt sets 0 e.n ∧ j = e.n + (sets.length + 1) := by
  unfold emitBranch at h
  cases h₁ : e.emit (.split 0 0) with
  | mk e₁ sp =>
    rw [h₁] at h
    dsimp only at h
    have row := emitClasses_appends sets (e₁.patch sp (setX e₁.n))
    generalize emitClasses sets (e₁.patch sp (setX e₁.n)) = e₂ at h row
    cases h₂ : e₂.emit (.jmp 0) with
    | mk e₃ j' =>
      rw [h₂] at h
      cases h
      obtain ⟨room₂, last, rfl⟩ := emit_spec h₂ room
      obtain ⟨room₁, middle⟩ := row room₂
      obtain ⟨room₀, first, rfl⟩ := emit_spec h₁ room₁
      have start : (e₁.patch e.n (setX e₁.n)).prog = e.prog ++ [.split (e.n + 1) 0] := by
        rw [patch_prog, first, modify_n, Emit.n, first, List.length_append]
        rfl
      rw [start] at middle
      have n₂ : e₂.n = e.n + (sets.length + 1) := by
        rw [Emit.n, middle, List.length_append, List.length_append, List.length_map]
        exact (Nat.add_assoc _ _ _).trans (congrArg (e.n + ·) (Nat.add_comm _ _))
      have n₃ : e₃.n = e.n + sets.length + 2 := by
        rw [Emit.n, last, List.length_append]
        exact congrArg (· + 1) n₂
      refine ⟨room₀, ?_, n₂⟩
      rw [patch_prog, last, middle, List.append_assoc, List.append_assoc, List.singleton_append, modify_n, n₃]
      rfl

theorem emitUtf8Class_appends (ascii : ByteSet) (e : Emit) :
    Appends e (emitUtf8Class ascii e) (utf8At ascii e.n) := by
  unfold emitUtf8Class
  cases h₀ : emitBranch [ascii] e with
  | mk e₁ j₀ =>
    dsimp only
    cases h₁ : emitBranch [lead2Set, contSet] e₁ with
    | mk e₂ j₁ =>
      dsimp only
      cases h₂ : emitBranch [lead3Set, contSet, contSet] e₂ with
      | mk e₃ j₂ =>
        dsimp only
        have classes := emitClasses_appends [lead4Set, contSet, contSet, contSet] e₃
        generalize emitClasses [lead4Set, contSet, contSet, contSet] e₃ = e₄ at classes ⊢
        intro room
        obtain ⟨room₃, fourth⟩ := classes room
        obtain ⟨room₂, third, rfl⟩ := emitBranch_spec h₂ room₃
        obtain ⟨room₁, second, rfl⟩ := emitBranch_spec h₁ room₂
        obtain ⟨room₀, first, rfl⟩ := emitBranch_spec h₀ room₁
        have n₁ : e₁.n = e.n + 3 := by rw [Emit.n, first, List.length_append]; rfl
        have n₂ : e₂.n = e.n + 7 := by rw [Emit.n, second, List.length_append]; exact congrArg (· + 4) n₁
        have n₃ : e₃.n = e.n + 12 := by rw [Emit.n, third, List.length_append]; exact congrArg (· + 5) n₂
        have n₄ : e₄.n = e.n + 16 := by rw [classes.n room]; exact congrArg (· + 4) n₃
        rw [third, second, first, n₁, n₂, List.append_assoc, List.append_assoc, List.append_assoc] at fourth
        refine ⟨room₀, ?_⟩
        simp only [patch_prog, patch_n]
        rw [fourth, n₁, n₂, n₄, Emit.n, modify_behind, Nat.add_assoc, modify_behind, Nat.add_assoc, modify_behind]
        rfl

theorem emitCopies_appends
    (hemit : ∀ e, Appends e (emitBody e) (body e.n)) (hsize : ∀ a, (body a).length = size) (k : Nat) (e : Emit) :
    Appends e (emitCopies emitBody k e) (copiesAt body size k e.n) := by
  induction k generalizing e with
  | zero => exact .refl e
  | succ k ih =>
    rw [emitCopies]
    cases flag : (emitBody e).overflow with
    | true => exact fun room => absurd (flag.symm.trans room) (by simp)
    | false =>
      rw [if_neg (by simp)]
      have next := ih (emitBody e)
      rw [(hemit e).n flag, hsize] at next
      exact (hemit e).trans next

theorem setX_fork (greedy : Bool) (body : Nat) :
    (if greedy then setX body else setY body) (.split 0 0) = fork greedy body 0 := by
  cases greedy <;> rfl

theorem setY_fork (greedy : Bool) (body stop : Nat) :
    (if greedy then setY stop else setX stop) (fork greedy body 0) = fork greedy body stop := by
  cases greedy <;> rfl

theorem emitStar_appends
    (hemit : ∀ e, Appends e (emitBody e) (body e.n)) (hsize : ∀ a, (body a).length = size) (greedy : Bool) (e : Emit) :
    Appends e (emitStar emitBody greedy e) (starAt body size greedy e.n) := by
  unfold emitStar
  cases h₁ : e.emit (.split 0 0) with
  | mk e₁ sp =>
    dsimp only
    have inner := hemit e₁
    generalize emitBody e₁ = e₂ at inner ⊢
    cases h₂ : e₂.emit (.jmp 0) with
    | mk e₃ jp =>
      dsimp only
      by_cases flag : (e₃.patch jp (setX sp)).overflow = true
      · rw [if_pos flag]
        exact fun room => absurd (flag.symm.trans room) (by simp)
      · rw [if_neg flag]
        obtain ⟨room₂, last, rfl⟩ := emit_spec h₂ (by simpa using flag)
        obtain ⟨room₁, middle⟩ := inner room₂
        obtain ⟨room₀, first, rfl⟩ := emit_spec h₁ room₁
        have n₁ : e₁.n = e.n + 1 := by rw [Emit.n, first, List.length_append]; rfl
        have n₂ : e₂.n = e.n + size + 1 := by
          rw [inner.n room₂, n₁, hsize, Nat.add_right_comm]
        have n₃ : e₃.n = e.n + size + 2 := by rw [Emit.n, last, List.length_append]; exact congrArg (· + 1) n₂
        have jumped : (e₃.patch e₂.n (setX e.n)).prog = e.prog ++ .split 0 0 :: (body (e.n + 1) ++ [.jmp e.n]) := by
          rw [patch_prog, last, modify_n, middle, first, n₁, List.append_assoc, List.append_assoc]
          rfl
        intro _
        refine ⟨room₀, ?_⟩
        cases greedy with
        | true =>
          rw [if_pos rfl, patch_prog, patch_prog, jumped, modify_n, modify_n, patch_n, n₁, n₃]
          rfl
        | false =>
          rw [if_neg (by simp), patch_prog, patch_prog, jumped, modify_n, modify_n, patch_n, n₁, n₃]
          rfl

/-- Where the splits of optional copies stand. -/
def optionPlaces (size : Nat) : Nat → Nat → List Nat
  | 0, _ => []
  | k + 1, a => a :: optionPlaces size k (a + size + 1)

/-- The splits of the optional copies have no other branch yet. -/
theorem emitOptions_spec
    (hemit : ∀ e, Appends e (emitBody e) (body e.n)) (hsize : ∀ a, (body a).length = size) (greedy : Bool) {k : Nat}
    {splits places : List Nat} (h : emitOptions emitBody greedy k splits e = (e', places))
    (room : e'.overflow = false) : e.overflow = false ∧ e'.prog = e.prog ++ optionsAt body size greedy 0 k e.n ∧
      places = splits ++ optionPlaces size k e.n := by
  induction k generalizing splits e with
  | zero =>
    cases h
    exact ⟨room, (List.append_nil _).symm, (List.append_nil _).symm⟩
  | succ k ih =>
    rw [emitOptions] at h
    cases h₁ : e.emit (.split 0 0) with
    | mk e₁ sp =>
      rw [h₁] at h
      dsimp only at h
      have inner := hemit e₁
      generalize emitBody e₁ = e₂ at h inner
      cases flag : e₂.overflow with
      | true =>
        rw [flag, if_pos rfl] at h
        obtain ⟨rfl, -⟩ := Prod.mk.inj h
        exact absurd (flag.symm.trans room) (by simp)
      | false =>
        rw [flag, if_neg (by simp)] at h
        obtain ⟨-, later, rfl⟩ := ih h
        obtain ⟨room₁, middle⟩ := inner flag
        obtain ⟨room₀, first, rfl⟩ := emit_spec h₁ room₁
        have n₁ : e₁.n = e.n + 1 := by rw [Emit.n, first, List.length_append]; rfl
        have n₂ : e₂.n = e.n + size + 1 := by rw [inner.n flag, n₁, hsize, Nat.add_right_comm]
        rw [patch_n, n₂] at later ⊢
        refine ⟨room₀, ?_, by rw [List.append_assoc]; rfl⟩
        rw [later, patch_prog, middle, first, List.append_assoc, List.singleton_append, modify_n, n₁,
          setX_fork, List.append_assoc]
        rfl

theorem foldl_patch_prog (set : Inst → Inst) (splits : List Nat) (e : Emit) :
    (splits.foldl (fun e' sp => e'.patch sp set) e).prog = splits.foldl (fun prog sp => prog.modify sp set) e.prog ∧
      (splits.foldl (fun e' sp => e'.patch sp set) e).overflow = e.overflow := by
  induction splits generalizing e with
  | nil => exact ⟨rfl, rfl⟩
  | cons sp splits ih => exact ih (e.patch sp set)

/-- Every split gets its other branch. -/
theorem optionsAt_patched (hsize : ∀ a, (body a).length = size) (greedy : Bool)
    (stop k : Nat) (prog : Prog) :
    (optionPlaces size k prog.length).foldl
        (fun prog sp => prog.modify sp (if greedy then setY stop else setX stop))
        (prog ++ optionsAt body size greedy 0 k prog.length) =
      prog ++ optionsAt body size greedy stop k prog.length := by
  induction k generalizing prog with
  | zero => rfl
  | succ k ih =>
    have next := ih (prog ++ fork greedy (prog.length + 1) stop :: body (prog.length + 1))
    have more : (prog ++ fork greedy (prog.length + 1) stop :: body (prog.length + 1)).length =
        prog.length + size + 1 := by
      rw [List.length_append, List.length_cons, hsize, Nat.add_assoc]
    rw [more] at next
    simp only [optionPlaces, optionsAt, List.foldl_cons, List.cons_append]
    rw [modify_end, setY_fork]
    simpa only [List.append_assoc, List.cons_append] using next

theorem emitRep_appends
    (hemit : ∀ e, Appends e (emitBody e) (body e.n)) (hsize : ∀ a, (body a).length = size) (lo : Nat)
    (hi : Option Nat) (greedy : Bool) (e : Emit) :
    Appends e (emitRep emitBody lo hi greedy e) (copiesAt body size lo e.n ++
        match hi with
        | none => starAt body size greedy (e.n + lo * size)
        | some hi =>
          optionsAt body size greedy (e.n + lo * size + (hi - lo) * (size + 1)) (hi - lo) (e.n + lo * size)) := by
  unfold emitRep
  have copies := emitCopies_appends hemit hsize lo e
  dsimp only
  generalize emitCopies emitBody lo e = e₁ at copies ⊢
  cases flag : e₁.overflow with
  | true => exact fun room => absurd (flag.symm.trans room) (by simp)
  | false =>
    rw [if_neg (by simp)]
    have n₁ : e₁.n = e.n + lo * size := by rw [copies.n flag, copiesAt_length hsize]
    rw [← n₁]
    cases hi with
    | none => exact copies.trans (emitStar_appends hemit hsize greedy e₁)
    | some hi =>
      dsimp only
      refine copies.trans ?_
      cases h : emitOptions emitBody greedy (hi - lo) [] e₁ with
      | mk e₂ splits =>
        dsimp only
        cases flag₂ : e₂.overflow with
        | true => exact fun room => absurd (flag₂.symm.trans room) (by simp)
        | false =>
          rw [if_neg (by simp)]
          obtain ⟨room₁, options, rfl⟩ := emitOptions_spec hemit hsize greedy h flag₂
          have n₂ : e₂.n = e₁.n + (hi - lo) * (size + 1) := by
            rw [Emit.n, options, List.length_append, optionsAt_length hsize]
            rfl
          intro _
          refine ⟨room₁, ?_⟩
          rw [(foldl_patch_prog _ _ e₂).1, options, List.nil_append, n₂]
          exact optionsAt_patched hsize greedy _ _ e₁.prog

/-- The nodes are emitted where there is room so far. -/
theorem emitNode_of_room {n : Node} (h : e.overflow = false → Appends e (emitNode n e) code) :
    Appends e (emitNode n e) code := by
  cases flag : e.overflow with
  | false => exact h flag
  | true =>
    unfold emitNode
    rw [if_pos flag]
    exact fun room => absurd (flag.symm.trans room) (by simp)

/-- **The emitter.** It appends the code of the tree, if there is room. -/
theorem emitNode_appends (n : Node) (e : Emit) : Appends e (emitNode n e) (n.code e.n) := by
  induction n generalizing e with
  | empty bol eol =>
    refine emitNode_of_room fun flag => ?_
    rw [emitNode, if_neg (by simp [flag])]
    cases bol with
    | false =>
      cases eol with
      | false => exact .refl e
      | true => exact emit_appends e .eol
    | true =>
      cases eol with
      | false => exact emit_appends e .bol
      | true => exact (emit_appends e .bol).trans (emit_appends _ .eol)
  | char c =>
    refine emitNode_of_room fun flag => ?_
    rw [emitNode, if_neg (by simp [flag])]
    exact emit_appends e (.char c)
  | any =>
    refine emitNode_of_room fun flag => ?_
    rw [emitNode, if_neg (by simp [flag])]
    exact emitUtf8Class_appends anySet e
  | cls set negated =>
    refine emitNode_of_room fun flag => ?_
    rw [emitNode, if_neg (by simp [flag])]
    cases negated with
    | true => exact emitUtf8Class_appends (outsideSet set) e
    | false => exact emit_appends e (.cls set)
  | cat l r ihl ihr =>
    refine emitNode_of_room fun flag => ?_
    rw [emitNode, if_neg (by simp [flag])]
    have left := ihl e
    have right := ihr (emitNode l e)
    intro room
    obtain ⟨room₁, second⟩ := right room
    rw [left.n room₁, Node.code_length] at second
    exact ⟨(left room₁).1, by rw [second, (left room₁).2, List.append_assoc]; rfl⟩
  | alt l r ihl ihr =>
    refine emitNode_of_room fun flag => ?_
    rw [emitNode, if_neg (by simp [flag])]
    cases h₁ : e.emit (.split 0 0) with
    | mk e₁ sp =>
      dsimp only
      have left := ihl (e₁.patch sp (setX e₁.n))
      generalize emitNode l (e₁.patch sp (setX e₁.n)) = e₂ at left ⊢
      cases h₂ : e₂.emit (.jmp 0) with
      | mk e₃ jp =>
        dsimp only
        have right := ihr (e₃.patch sp (setY e₃.n))
        generalize emitNode r (e₃.patch sp (setY e₃.n)) = e₄ at right ⊢
        intro room
        obtain ⟨room₃, fourth⟩ := right room
        obtain ⟨room₂, third, rfl⟩ := emit_spec h₂ room₃
        obtain ⟨room₁, second⟩ := left room₂
        obtain ⟨room₀, first, rfl⟩ := emit_spec h₁ room₁
        have n₁ : e₁.n = e.n + 1 := by rw [Emit.n, first, List.length_append]; rfl
        have n₂ : e₂.n = e.n + l.size + 1 := by
          rw [left.n room₂, patch_n, n₁, Node.code_length, Nat.add_right_comm]
        have n₃ : e₃.n = e.n + l.size + 2 := by rw [Emit.n, third, List.length_append]; exact congrArg (· + 1) n₂
        have n₄ : e₄.n = e.n + l.size + r.size + 2 := by
          rw [right.n room, patch_n, n₃, Node.code_length, Nat.add_right_comm]
        refine ⟨room₀, ?_⟩
        rw [patch_prog, fourth, patch_prog, third, second, patch_prog, first, modify_n, patch_n, n₁, n₃, n₄]
        have split : (e.prog ++ [setX (e.n + 1) (.split 0 0)] ++ l.code (e.n + 1) ++ [Inst.jmp 0]).modify e.n
            (setY (e.n + l.size + 2)) =
            e.prog ++ .split (e.n + 1) (e.n + l.size + 2) :: l.code (e.n + 1) ++ [Inst.jmp 0] := by
          simp only [List.append_assoc, List.cons_append]
          rw [modify_n]
          rfl
        have place : e₂.n = (e.prog ++ .split (e.n + 1) (e.n + l.size + 2) :: l.code (e.n + 1)).length := by
          rw [n₂, List.length_append, List.length_cons, Node.code_length]
          rfl
        rw [split, place, List.append_assoc _ [_], List.singleton_append, modify_end, List.append_assoc, patch_n, n₃]
        rfl
  | rep l lo hi greedy ih =>
    refine emitNode_of_room fun flag => ?_
    rw [emitNode, if_neg (by simp [flag])]
    have whole := emitRep_appends ih l.code_length lo hi greedy e
    cases hi <;> exact whole
  | group l g ih =>
    refine emitNode_of_room fun flag => ?_
    cases g with
    | none =>
      rw [emitNode, if_neg (by simp [flag])]
      exact ih e
    | some g =>
      rw [emitNode, if_neg (by simp [flag])]
      cases h₁ : e.emit (.save (2 * g)) with
      | mk e₁ s₁ =>
        dsimp only
        have inner := (ih e₁).trans (emit_appends (emitNode l e₁) (.save (2 * g + 1)))
        intro room
        obtain ⟨room₁, second⟩ := inner room
        obtain ⟨room₀, first, -⟩ := emit_spec h₁ room₁
        have n₁ : e₁.n = e.n + 1 := by rw [Emit.n, first, List.length_append]; rfl
        exact ⟨room₀, by rw [second, first, n₁, List.append_assoc]; rfl⟩

/-- The program of a tree that fits. -/
theorem emitWhole_prog (room : (emitWhole tree).overflow = false) :
    (emitWhole tree).prog = .save 0 :: tree.code 1 ++ [.save 1, .done] := by
  have rest := ((emitNode_appends tree (Emit.emit ⟨[], false⟩ (.save 0)).1).trans (emit_appends _ (.save 1))).trans
    (emit_appends _ .done)
  obtain ⟨-, whole⟩ := rest room
  rw [emitWhole, whole, List.append_assoc]
  rfl

/-- **What is compiled** is the code of the tree between the slots 0 and 1. -/
theorem compile_prog {names : List (Option Bytes)} (h : compile pat = .ok r)
    (hparse : parse pat = .ok (tree, names)) : r.prog = .save 0 :: tree.code 1 ++ [.save 1, .done] := by
  unfold compile at h
  rw [hparse] at h
  dsimp only at h
  cases flag : (emitWhole tree).overflow with
  | true =>
    rw [flag, if_pos rfl] at h
    exact absurd h nofun
  | false =>
    rw [flag, if_neg (by simp)] at h
    cases h
    exact emitWhole_prog flag

theorem compile_layout (h : compile pat = .ok r) :
    ∃ tree : Node, r.prog = .save 0 :: tree.code 1 ++ [.save 1, .done] := by
  cases hparse : parse pat with
  | error why =>
    unfold compile at h
    rw [hparse] at h
    exact absurd h nofun
  | ok parsed => exact ⟨parsed.1, compile_prog h hparse⟩

end Voila.Rx
