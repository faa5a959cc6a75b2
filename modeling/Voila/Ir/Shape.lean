import Voila.Ir.Ir

/-!
# Voila.Ir.Shape

Which arguments of an instruction are operands, destinations and jump targets: the
table behind `cg/instr.voi`, read off the C it emits (`operand`, `dst`, `goto`).

A select statement is spread over several instructions: `SELRECV`, `SELSEND` and
`SELDEF` emit nothing and are buffered (`selCases`); the `SELEND` that follows does
all their reading, writing and jumping. So the shape of a `SELEND` depends on the
function it stands in (`Func.cases`).
-/

namespace Voila.Ir

open Lib List

/-! ### Access paths -/

/-- Where the emitted code finds operands among the arguments `a`. -/
inductive Access
  /-- `a[k]`. -/
  | arg (k : Nat)
  /-- `a[k]`, where `len(a) > k`. -/
  | opt (k : Nat)
  /-- `a[k]` and everything after it. -/
  | rest (k : Nat)
  /-- The registers of the argument list `a[k]` (`emit_argv`, `emit_composite`). -/
  | argv (k : Nat)
  /-- The registers of the destination list `a[k]`, less the discards `_`. -/
  | outs (k : Nat)
  /-- `NEWSLICE`: the length in `[rN]`, else an argument list. -/
  | size
  /-- `NEWRANGE`: the step, unless it is the text `1`. -/
  | step
  /-- `VARREAD`: the variable's register, unless it is a `^name`. -/
  | cell
  /-- `UNIQ`: the threshold, where it is a register. -/
  | thr
  /-- `UNIQ`: the place a copy is written back to (`fld` and `idx`). -/
  | back
  /-- `MKCLOS`: the snapshot registers of `env(...)`. -/
  | env
  deriving DecidableEq, Repr

/-- The registers of an argument list. -/
def argRegs (spec : Str) : List Str := (parseArgs spec).map CallArg.reg

/-- The last argument from the third on that starts with `env(`. -/
def Body.envArg (b : Body) : Option Str :=
  (b.args.drop 2).reverse.find? fun a => a.startsWith ['e', 'n', 'v', '(']

/-- The operand texts at an access path. -/
def Body.resolve (b : Body) : Access → List Str
  | .arg k => [b.arg k]
  | .opt k => if k < b.args.length then [b.arg k] else []
  | .rest k => b.args.drop k
  | .argv k => argRegs (b.arg k)
  | .outs k => (argRegs (b.arg k)).filter (· ≠ ['_'])
  | .size => if (b.arg 1).head? = some '[' then [strip ['[', ']'] (b.arg 1)] else argRegs (b.arg 1)
  | .step => if b.arg 3 = ['1'] then [] else [b.arg 3]
  | .cell => if (b.arg 1).head? = some '^' then [] else [b.arg 1]
  | .thr => if (b.arg 2).head? = some 'r' then [b.arg 2] else []
  | .back =>
    if b.arg 3 = ['f', 'l', 'd'] then [b.arg 4]
    else if b.arg 3 = ['i', 'd', 'x'] then [b.arg 4, b.arg 5]
    else []
  | .env => (b.envArg.map fun a => argRegs (a.drop 3)).getD []

/-- The first argument an access path looks at. -/
def Access.index : Access → Nat
  | .arg k | .opt k | .rest k | .argv k | .outs k => k
  | .size | .cell => 1
  | .thr | .env => 2
  | .step => 3
  | .back => 4

/-! ### The table -/

/-- The operands an instruction reads. -/
def Op.srcs : Op → List Access
  | .add | .sub | .mul | .div | .idiv | .mod | .pow | .cat | .shl | .shr | .band | .bor | .bxor
  | .cmpeq | .cmpne | .cmplt | .cmple | .cmpgt | .cmpge | .cmpin | .index | .slice =>
    [.arg 1, .arg 2]
  | .loadk | .move | .neg | .not | .bnot | .setglb | .upset | .selfty | .rcount | .typeof
  | .untuple | .field | .tostr | .isfail | .tryp | .must | .istype | .spawnr | .recv | .iter
  | .pmatch => [.arg 1]
  | .cksz | .jmpf | .jmpt | .escape | .defer | .rethrow | .parse => [.arg 0]
  | .ret | .grpbeg => [.opt 0]
  | .throw => [.arg 0, .opt 1]
  | .call | .newstruct | .newexc | .newenum | .spawn => [.argv 2]
  | .callr => [.arg 1, .argv 2]
  | .callm | .callt => [.arg 1, .argv 3]
  | .tuple | .interp => [.argv 1]
  | .say => [.argv 0]
  | .conv => [.arg 2, .opt 3]
  | .newchan => [.opt 1]
  | .newslice => [.size]
  | .newrange => [.arg 1, .arg 2, .step]
  | .setidx => [.arg 0, .arg 1, .arg 2]
  | .setfld => [.arg 0, .arg 2]
  | .send => [.arg 0, .arg 1]
  | .recvok | .itnext => [.arg 2]
  | .uniq => [.arg 1, .thr, .back]
  | .varread => [.cell]
  | .mkclos => [.env]
  | .ffi => [.rest 2]
  | _ => []

/-- The registers an instruction writes, besides those a pattern or a template binds. -/
def Op.dsts : Op → List Access
  | .loadk | .move | .zero | .getglb | .loadfn | .add | .sub | .mul | .div | .idiv | .mod | .pow
  | .cat | .shl | .shr | .band | .bor | .bxor | .bnot | .neg | .not | .cmpeq | .cmpne | .cmplt
  | .cmple | .cmpgt | .cmpge | .cmpin | .call | .callr | .callm | .callt | .selfty | .uniq
  | .varread | .sharedthr | .rcount | .typeof | .conv | .newchan | .newslice | .newmap | .newset
  | .newrange | .newstruct | .newexc | .newenum | .tuple | .index | .slice | .field | .interp
  | .tostr | .isfail | .tryp | .must | .catchf | .catch | .istype | .mkclos | .spawn | .spawnr
  | .recv | .iter | .pmatch | .vararg | .ffi => [.arg 0]
  | .recvok | .itnext => [.arg 0, .arg 1]
  | .untuple => [.outs 0]
  | _ => []

/-- The labels an instruction may jump to. -/
def Op.targets : Op → List Access
  | .jump | .ehpush => [.arg 0]
  | .jmpf | .jmpt | .argdef => [.arg 1]
  | .itnext => [.arg 3]
  | _ => []

variable {a : Access} {n k : Nat} {b c : Body} {t : Str} {f : Func}

theorem Op.targets_arg {o : Op} (h : a ∈ o.targets) : ∃ k, a = .arg k := by
  cases o <;> simp_all [Op.targets]

def Body.srcs (b : Body) : List Str := b.op.srcs.flatMap b.resolve

def Body.dsts (b : Body) : List Str :=
  b.op.dsts.flatMap b.resolve ++ if b.op = .pmatch ∨ b.op = .parse then b.patRegs else []

def Body.targets (b : Body) : List Str := b.op.targets.flatMap b.resolve

/-! ### Select -/

/-- The buffered cases of a select. -/
def Op.isCase : Op → Bool
  | .selrecv | .selsend | .seldef => true
  | _ => false

/-- The instructions that touch the buffer. -/
def Op.isSel (o : Op) : Bool := o.isCase || o == .selbeg || o == .selend

/-- The cases buffered when the backend reaches instruction `k`: those since the last
`SELBEG` or `SELEND`, which empty the buffer. -/
def Func.cases (f : Func) (k : Nat) : List Body :=
  ((((f.bodies.take k).filter (·.op.isSel)).reverse).takeWhile (·.op.isCase)).reverse

/-- The operands of a case: its channel, and the value a send sends. -/
def Body.caseSrcs (b : Body) : List Str :=
  match b.op with
  | .selrecv => [b.arg 1]
  | .selsend => [b.arg 1, b.arg 2]
  | _ => []

/-- The registers a receive binds, `v=rN` and `ok=rM` by position. -/
def Body.caseDsts (b : Body) : List Str :=
  match b.op with
  | .selrecv => ((b.args.drop 2).take 2).filterMap afterEq
  | _ => []

def Func.srcsAt (f : Func) (k : Nat) (b : Body) : List Str :=
  if b.op = .selend then (f.cases k).flatMap Body.caseSrcs else b.srcs

def Func.dstsAt (f : Func) (k : Nat) (b : Body) : List Str :=
  if b.op = .selend then (f.cases k).flatMap Body.caseDsts else b.dsts

def Func.targetsAt (f : Func) (k : Nat) (b : Body) : List Str :=
  if b.op = .selend then (f.cases k).map (·.arg 0) else b.targets

/-- `cg.reg_slot`, which takes a bare number too. -/
def cgSlot : Str → Option Nat
  | 'r' :: ds => atoi ds
  | ds => atoi ds

theorem cgSlot_of_regSlot {s : Str} (h : regSlot s = some n) : cgSlot s = some n := by
  unfold regSlot at h
  split at h
  · exact h
  · exact absurd h (by simp)

/-- The registers instruction `b` at `k` reads. -/
def Func.reads (f : Func) (k : Nat) (b : Body) : List Nat := (f.srcsAt k b).filterMap regSlot

/-- The registers instruction `b` at `k` writes. -/
def Func.writes (f : Func) (k : Nat) (b : Body) : List Nat := (f.dstsAt k b).filterMap cgSlot

/-! ### Every operand stands in an argument -/

/-- `t` is an argument from `n` on, or a delimited part of one. -/
def Body.Within (b : Body) (n : Nat) (t : Str) : Prop :=
  ∃ k a, n ≤ k ∧ b.args[k]? = some a ∧ Delimited isPunct a t

theorem Body.within_arg (hn : n ≤ k) (ht : t ≠ [])
    (hd : Delimited isPunct (b.arg k) t) : b.Within n t := by
  unfold Body.arg at hd
  rw [getD_eq_getElem?_getD] at hd
  cases h : b.args[k]? with
  | none =>
    obtain ⟨pre, post, hcut, -, -⟩ := hd
    simp [h, ht] at hcut
  | some a => exact ⟨k, a, hn, h, by simpa [h] using hd⟩

theorem delimited_argRegs {spec t : Str} (h : t ∈ argRegs spec) : Delimited isPunct spec t := by
  obtain ⟨x, hx, rfl⟩ := mem_map.mp h
  exact delimited_parseArgs hx

/-- `env(r1,r2)`: the bracket is part of the argument, not of the name before it. -/
theorem delimited_env {a t : Str} (ha : a.startsWith ['e', 'n', 'v', '('] = true)
    (ht : t ∈ argRegs (a.drop 3)) : Delimited isPunct a t := by
  have hcut := Str.eq_append_of_startsWith ha
  generalize a.drop 4 = s at hcut
  subst hcut
  have hopen : Delimited isPunct (['e', 'n', 'v', '('] ++ s) s :=
    Delimited.right (s := ['e', 'n', 'v']) (by decide)
  obtain ⟨x, hx, rfl⟩ := mem_map.mp ht
  have hx : x ∈ parseArgs ('(' :: s) := hx
  rw [parseArgs_open] at hx
  exact hopen.trans ((delimited_chopEnd (by decide) s).trans (delimited_splitArgs hx))

theorem Body.within_resolve (h : t ∈ b.resolve a) (ht : t ≠ []) : b.Within a.index t := by
  have hopt {c : Prop} [Decidable c] {x : Str} (h : t ∈ if c then [x] else []) : t = x := by
    split at h <;> simp_all
  have hself {k : Nat} (hk : a.index ≤ k) (h : t = b.arg k) : b.Within a.index t :=
    within_arg hk ht (h ▸ Delimited.refl _ _)
  cases a with
  | arg k => exact hself (k := k) (le_refl _) (mem_singleton.mp h)
  | opt k => exact hself (le_refl _) (hopt h)
  | rest k =>
    obtain ⟨j, hj⟩ := mem_iff_getElem?.mp h
    simp only [resolve, List.getElem?_drop] at hj
    exact ⟨k + j, t, by simp [Access.index], hj, Delimited.refl _ _⟩
  | argv k => exact within_arg (le_refl _) ht (delimited_argRegs h)
  | outs k => exact within_arg (le_refl _) ht (delimited_argRegs (mem_of_mem_filter h))
  | size =>
    simp only [resolve] at h
    split at h
    · rw [mem_singleton.mp h] at ht ⊢
      exact within_arg (le_refl _) ht (delimited_strip (by simp [isPunct]) _)
    · exact within_arg (le_refl _) ht (delimited_argRegs h)
  | step =>
    simp only [resolve] at h
    split at h
    · simp at h
    · exact hself (k := 3) (le_refl _) (mem_singleton.mp h)
  | cell =>
    simp only [resolve] at h
    split at h
    · simp at h
    · exact hself (k := 1) (le_refl _) (mem_singleton.mp h)
  | thr => exact hself (le_refl _) (hopt h)
  | back =>
    simp only [resolve] at h
    split at h
    · exact hself (k := 4) (le_refl _) (by simpa using h)
    · split at h
      · rcases mem_pair.mp h with h | h
        · exact hself (k := 4) (le_refl _) h
        · exact hself (k := 5) (by simp [Access.index]) h
      · simp at h
  | env =>
    simp only [resolve, envArg] at h
    cases he : (b.args.drop 2).reverse.find? fun a => a.startsWith ['e', 'n', 'v', '('] with
    | none => simp [he] at h
    | some a =>
      simp only [he, Option.map_some, Option.getD_some] at h
      have hmem : a ∈ b.args.drop 2 := by simpa using mem_of_find?_eq_some he
      obtain ⟨j, hj⟩ := mem_iff_getElem?.mp hmem
      rw [List.getElem?_drop] at hj
      exact ⟨2 + j, a, by simp [Access.index], hj, delimited_env (by simpa using find?_some he) h⟩

/-! ### Every operand is a token the scanners see -/

/-- The register tokens of the arguments from `n` on. -/
def Body.tokens (word : Char → Bool) (n : Nat) (b : Body) : List Nat :=
  (b.args.drop n).flatMap (regTokens word none)

theorem regSlot_ne_nil (h : regSlot t = some n) : t ≠ [] := by
  rintro rfl
  simp [regSlot] at h

section

variable {word : Char → Bool} (hdigit : ∀ c, isDigit c = true → word c = true)
  (hpunct : ∀ c, isPunct c → word c = false)

include hdigit hpunct

variable {b : Body} {t : Str} {n : Nat}

theorem Body.Within.mem_tokens {k n : Nat} (hw : b.Within k t)
    (ht : regSlot t = some n) : n ∈ b.tokens word k := by
  obtain ⟨j, a, hj, ha, hd⟩ := hw
  refine mem_flatMap.mpr ⟨a, mem_of_getElem? (i := j - k) ?_, ?_⟩
  · rw [List.getElem?_drop, Nat.add_sub_cancel' hj, ha]
  · exact mem_regTokens hdigit (hd.mono hpunct) ht

theorem Body.mem_tokens_of_arg {k n : Nat} (ht : regSlot (b.arg k) = some n) :
    n ∈ b.tokens word k :=
  (Body.within_arg (le_refl k) (regSlot_ne_nil ht) (Delimited.refl _ _)).mem_tokens hdigit hpunct ht

theorem Body.mem_tokens_of_resolve {a : Access}
    (h : t ∈ b.resolve a) (ht : regSlot t = some n) : n ∈ b.tokens word a.index :=
  (Body.within_resolve h (regSlot_ne_nil ht)).mem_tokens hdigit hpunct ht

omit hdigit hpunct in
theorem Body.tokens_mono {j k n : Nat} (hjk : j ≤ k) (h : n ∈ b.tokens word k) :
    n ∈ b.tokens word j := by
  obtain ⟨a, ha, hn⟩ := mem_flatMap.mp h
  refine mem_flatMap.mpr ⟨a, ?_, hn⟩
  rw [← Nat.add_sub_cancel' hjk, ← drop_drop] at ha
  exact mem_of_mem_drop ha

theorem Body.mem_tokens_of_srcs (h : t ∈ b.srcs)
    (ht : regSlot t = some n) : n ∈ b.tokens word 0 := by
  obtain ⟨a, -, ha⟩ := mem_flatMap.mp h
  exact Body.tokens_mono (Nat.zero_le _) (Body.mem_tokens_of_resolve hdigit hpunct ha ht)

theorem Body.mem_tokens_of_caseSrcs (h : t ∈ b.caseSrcs)
    (ht : regSlot t = some n) : n ∈ b.tokens word 0 := by
  have harg {k : Nat} (hk : t = b.arg k) : n ∈ b.tokens word 0 :=
    Body.tokens_mono (Nat.zero_le k) (Body.mem_tokens_of_arg hdigit hpunct (hk ▸ ht))
  unfold Body.caseSrcs at h
  split at h
  · exact harg (mem_singleton.mp h)
  · rcases mem_pair.mp h with h | h
    · exact harg h
    · exact harg h
  · simp at h

end

/-- A buffered case is an instruction of the function, before the `SELEND`. -/
theorem Func.mem_cases (h : c ∈ f.cases k) :
    c.op.isCase = true ∧ ∃ j, j < k ∧ f.bodies[j]? = some c := by
  unfold Func.cases at h
  rw [mem_reverse] at h
  have hcase := mem_takeWhile_imp (p := fun b : Body => b.op.isCase) h
  refine ⟨hcase, ?_⟩
  have hmem := (takeWhile_sublist _).mem h
  rw [mem_reverse, mem_filter] at hmem
  obtain ⟨j, hj⟩ := mem_iff_getElem?.mp hmem.1
  rw [List.getElem?_take] at hj
  split at hj
  · rename_i hlt
    exact ⟨j, hlt, hj⟩
  · simp at hj

/-- One more instruction: a case is buffered, any other select instruction empties the
buffer. -/
theorem Func.cases_succ (hb : f.bodies[k]? = some b) :
    f.cases (k + 1) =
      if b.op.isCase = true then f.cases k ++ [b] else if b.op.isSel = true then [] else f.cases k := by
  unfold Func.cases
  rw [take_add_one, hb, Option.toList_some, filter_append]
  by_cases hsel : b.op.isSel = true
  · by_cases hc : b.op.isCase = true <;> simp [hsel, hc]
  · have hc : b.op.isCase = false := by
      by_contra h
      exact hsel (by simp [Op.isSel, h])
    simp [hsel, hc]

/-- No select instruction but cases stands between a buffered case and where it is seen. -/
theorem Func.cases_between (h : c ∈ f.cases k) :
    ∃ j < k, f.bodies[j]? = some c ∧ c.op.isCase = true ∧
      ∀ i, j ≤ i → i < k → ∀ b, f.bodies[i]? = some b → b.op.isSel = true → b.op.isCase = true := by
  induction k with
  | zero => simp [Func.cases] at h
  | succ k ih =>
    have hold (hk : ∀ b, f.bodies[k]? = some b → b.op.isSel = true → b.op.isCase = true)
        (h : c ∈ f.cases k) :
        ∃ j < k + 1, f.bodies[j]? = some c ∧ c.op.isCase = true ∧ ∀ i, j ≤ i → i < k + 1 →
          ∀ b, f.bodies[i]? = some b → b.op.isSel = true → b.op.isCase = true := by
      obtain ⟨j, hj, hbj, hcase, hall⟩ := ih h
      refine ⟨j, Nat.lt_succ_of_lt hj, hbj, hcase, fun i hji hik b hb => ?_⟩
      rcases Nat.lt_succ_iff_lt_or_eq.mp hik with hik | rfl
      · exact hall i hji hik b hb
      · exact hk b hb
    cases hb : f.bodies[k]? with
    | none =>
      refine hold (fun b hb' => by simp [hb] at hb') ?_
      simpa [Func.cases, take_add_one, hb] using h
    | some b =>
      rw [Func.cases_succ hb] at h
      split at h
      · rename_i hcase
        rcases mem_append.mp h with h | h
        · exact hold (fun b' hb' _ => Option.some.inj (hb.symm.trans hb') ▸ hcase) h
        · obtain rfl := mem_singleton.mp h
          refine ⟨k, Nat.lt_succ_self k, hb, hcase, fun i hki hik b' hb' _ => ?_⟩
          obtain rfl : i = k := by omega
          exact Option.some.inj (hb.symm.trans hb') ▸ hcase
      · split at h
        · simp at h
        · rename_i hsel
          refine hold (fun b' hb' hs => ?_) h
          exact absurd (Option.some.inj (hb.symm.trans hb') ▸ hs) hsel

/-- A register an instruction reads is a token of it, or of a case it executes. -/
theorem Func.mem_reads {word : Char → Bool} (hdigit : ∀ c, isDigit c = true → word c = true)
    (hpunct : ∀ c, isPunct c → word c = false) (h : n ∈ f.reads k b) :
    (b.op ≠ .selend ∧ ∃ t ∈ b.srcs, regSlot t = some n) ∨
      (b.op = .selend ∧ ∃ c ∈ f.cases k, n ∈ c.tokens word 0) := by
  obtain ⟨t, ht, hn⟩ := mem_filterMap.mp h
  unfold Func.srcsAt at ht
  split at ht
  · rename_i hop
    obtain ⟨c, hc, htc⟩ := mem_flatMap.mp ht
    exact Or.inr ⟨hop, c, hc, Body.mem_tokens_of_caseSrcs hdigit hpunct htc hn⟩
  · rename_i hop
    exact Or.inl ⟨hop, t, ht, hn⟩

/-! ### How registers and labels are spelled -/

/-- The labels a case names. -/
def Body.caseTargets (b : Body) : List Str := if b.op.isCase then [b.arg 0] else []

/-- The registers the instruction writes and clears are spelled `rN`, and the labels it
names `LN`. -/
structure Body.Spelled (b : Body) : Prop where
  dst : ∀ s ∈ b.dsts ++ b.caseDsts, ∀ n ∈ cgSlot s, s = newReg n
  kill : b.op = .kill → ∀ n ∈ cgSlot (b.arg 0), b.arg 0 = newReg n
  label : ∀ l ∈ b.targets ++ b.caseTargets, isLabel l = true

instance (b : Body) : Decidable b.Spelled :=
  decidable_of_iff
    ((∀ s ∈ b.dsts ++ b.caseDsts, ∀ n ∈ cgSlot s, s = newReg n) ∧
      (b.op = .kill → ∀ n ∈ cgSlot (b.arg 0), b.arg 0 = newReg n) ∧
      (∀ l ∈ b.targets ++ b.caseTargets, isLabel l = true))
    ⟨fun h => ⟨h.1, h.2.1, h.2.2⟩, fun h => ⟨h.dst, h.kill, h.label⟩⟩

/-- What lowering promises about the text of a function: `new_reg` and `new_label` make
every register and every label it writes down. -/
def WellSpelled (f : Func) : Prop := ∀ b ∈ f.bodies, b.Spelled

instance (f : Func) : Decidable (WellSpelled f) := inferInstanceAs (Decidable (∀ b ∈ _, _))

/-- A jump target is an argument of an instruction, spelled as a label. -/
theorem WellSpelled.target (hf : WellSpelled f)
    (hb : f.bodies[k]? = some b) {l : Str} (hl : l ∈ f.targetsAt k b) :
    ∃ c ∈ f.bodies, ∃ j, l = c.arg j ∧ isLabel l = true := by
  have hmem := mem_of_getElem? hb
  unfold Func.targetsAt at hl
  split at hl
  · obtain ⟨c, hc, rfl⟩ := mem_map.mp hl
    obtain ⟨hcase, j, -, hj⟩ := Func.mem_cases hc
    have hcm := mem_of_getElem? hj
    exact ⟨c, hcm, 0, rfl, (hf c hcm).label _ (by simp [Body.caseTargets, hcase])⟩
  · obtain ⟨a, ha, hla⟩ := mem_flatMap.mp hl
    obtain ⟨j, rfl⟩ := Op.targets_arg ha
    exact ⟨b, hmem, j, mem_singleton.mp hla,
      (hf b hmem).label l (mem_append_left _ hl)⟩

end Voila.Ir
