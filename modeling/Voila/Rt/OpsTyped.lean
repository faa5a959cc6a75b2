import Voila.Rt.Ops

/-!
# Voila.Rt.OpsTyped

The kind of value each operation yields on native operands: ints, floats and bools in,
never a foreign value, so the base runtime is not asked; and out comes the kind the
typing pass expects, or a trap.
-/

namespace Voila.Rt

open Ir

variable {F O : Type*} {o : FloatOps F}

/-! ### Native operands -/

variable {v a b : Value F O} {t X Y : RegType} {op : ArithOp}

theorem HasType.int (h : HasType .int v) : ∃ i, v = .int i := by
  cases v <;> simp_all [HasType]

theorem HasType.float (h : HasType .float v) : ∃ x, v = .float x := by
  cases v <;> simp_all [HasType]

theorem HasType.bool (h : HasType .bool v) : ∃ b, v = .bool b := by
  cases v <;> simp_all [HasType]

theorem not_hasType_unseen (h : HasType .unseen v) : False := by
  cases v <;> simp [HasType] at h

/-- A numeric operand. -/
inductive Num : RegType → Value F O → Prop
  | int (i : Int64) : Num .int (.int i)
  | float (x : F) : Num .float (.float x)

theorem HasType.num (h : HasType t v) (ht : t = .int ∨ t = .float) : Num t v := by
  rcases ht with rfl | rfl
  · obtain ⟨i, rfl⟩ := h.int
    exact .int i
  · obtain ⟨x, rfl⟩ := h.float
    exact .float x

/-! ### Arithmetic -/

/-- The result type of `arith` on numeric operands. -/
def resultType (op : ArithOp) (x y : RegType) : RegType :=
  match op with
  | .add | .sub | .mul | .mod | .pow => if x = .int ∧ y = .int then .int else .float
  | .div => .float
  | .idiv => .int
  | .lt | .le | .gt | .ge => .bool

/-- Every value an outcome can yield has the type. -/
def Yields (t : RegType) (r : Except (Trap F O) (Value F O)) : Prop := ∀ v, r = .ok v → HasType t v

theorem yields_ok (h : HasType t v) : Yields t (.ok v : Except (Trap F O) (Value F O)) := by
  intro u hu
  exact Except.ok.inj hu ▸ h

theorem yields_error {e : Trap F O} : Yields t (.error e : Except (Trap F O) (Value F O)) := by
  intro u hu
  exact absurd hu (by simp)

theorem yields_ofNum {A : Type*} {box : A → Value F O}
    (hbox : ∀ a, HasType t (box a)) (r : Except (NumTrap F) A) : Yields t (ofNum r box) := by
  cases r with
  | ok a => exact yields_ok (hbox a)
  | error e => exact yields_error

theorem yields_int (r : Except (NumTrap F) Int64) :
    Yields (O := O) .int (ofNum r .int) := by
  refine yields_ofNum (fun _ => ?_) r
  trivial

theorem yields_float (x : F) : Yields (O := O) .float (.ok (.float x)) := yields_ok trivial

theorem intArith_yields (op : ArithOp) (a b : Int64) :
    Yields (O := O) (resultType op .int .int) (intArith o op a b) := by
  cases op <;> simp only [intArith, resultType, and_self, if_true] <;>
    first
    | refine yields_ofNum (fun _ => ?_) _
      trivial
    | refine yields_ok ?_
      trivial

theorem floatArith_yields (op : ArithOp) (x y : F) :
    Yields (O := O) (resultType op .float .float) (floatArith o op x y) := by
  cases op <;> simp only [floatArith, resultType, and_self, reduceCtorEq, if_false] <;>
    first
    | refine yields_ofNum (fun _ => ?_) _
      trivial
    | refine yields_ok ?_
      trivial

/-- Where a float takes part, the operands widen and the floats are computed with. -/
theorem mixArith_yields (op : ArithOp) (ha : Num X a)
    (hb : Num Y b) : Yields (resultType op .float .float) (mixArith o op a b) := by
  have hwiden {Z : RegType} {c : Value F O} (hc : Num Z c) : ∃ r, widen o c = some r := by
    cases hc with
    | int i => exact ⟨_, rfl⟩
    | float x => exact ⟨_, rfl⟩
  obtain ⟨r, hr⟩ := hwiden ha
  obtain ⟨s, hs⟩ := hwiden hb
  unfold mixArith
  rw [hr, hs]
  cases r with
  | error t => exact yields_error
  | ok x =>
    cases s with
    | error t => exact yields_error
    | ok y => exact floatArith_yields op x y

/-- One float among the operands counts as two. -/
theorem resultType_mix (op : ArithOp) :
    resultType op .int .float = resultType op .float .float ∧
      resultType op .float .int = resultType op .float .float := by
  cases op <;> decide

theorem arith_yields (op : ArithOp) (ha : Num X a)
    (hb : Num Y b) : ∃ r, arith o op a b = some r ∧ Yields (resultType op X Y) r := by
  have hmix := mixArith_yields (o := o) op ha hb
  cases ha with
  | int i =>
    cases hb with
    | int j => exact ⟨intArith o op i j, rfl, intArith_yields op i j⟩
    | float y =>
      rw [(resultType_mix op).1]
      exact ⟨_, rfl, hmix⟩
  | float x =>
    cases hb with
    | int j =>
      rw [(resultType_mix op).2]
      exact ⟨_, rfl, hmix⟩
    | float y => exact ⟨_, rfl, hmix⟩

theorem recheck_yields {T : RegType} {i j : Int64} {t : SzTy}
    {r : Except (Trap F O) (Value F O)} (h : Yields T r) :
    ∃ s, recheck op i j t (some r) = some s ∧ Yields T s := by
  unfold recheck
  split
  · rename_i v hv
    cases hv
    split
    · exact ⟨_, rfl, yields_error⟩
    · exact ⟨_, rfl, h⟩
  · exact ⟨r, rfl, h⟩

theorem resultType_sized (h : op.hasSized = true) : resultType op .int .int = .int := by
  cases op <;> first | rfl | exact absurd h (by decide)

theorem arithSz_yields (hop : op.hasSized = true) (ha : Num X a) (hb : Num Y b) (t : SzTy) :
    ∃ r, arithSz o op a b t = some r ∧ Yields (resultType op X Y) r := by
  obtain ⟨r, hr, hy⟩ := arith_yields (o := o) op ha hb
  have hmix (i j : Int64) : ∃ s, recheck op i j t (arith o op a b) = some s ∧
      Yields (resultType op X Y) s := by
    rw [hr]
    exact recheck_yields hy
  cases ha with
  | int i =>
    cases hb with
    | int j =>
      rw [resultType_sized hop]
      exact ⟨_, rfl, yields_int _⟩
    | float y => exact hmix i 0
  | float x =>
    cases hb with
    | int j => exact hmix 0 j
    | float y => exact hmix 0 0

/-! ### Bits and negation -/

theorem shift_yields (f : Int64 → Int64 → Except (NumTrap F) Int64) (i n : Int64) :
    ∃ r, shift (O := O) f (.int i) (.int n) = some r ∧ Yields .int r := by
  by_cases h : n < 0 ∨ n > 63
  · exact ⟨.error (.num (.shift n)), by simp [shift, wantI, derune, h], yields_error⟩
  · exact ⟨ofNum (f i n) .int, by simp [shift, wantI, derune, h], yields_int _⟩

theorem neg_yields (ha : Num X a) : ∃ r, neg o a = some r ∧ Yields X r := by
  cases ha with
  | int i => exact ⟨_, rfl, yields_int _⟩
  | float x => exact ⟨_, rfl, yields_float _⟩

theorem negSz_yields (ha : Num X a) (t : SzTy) : ∃ r, negSz o a t = some r ∧ Yields X r := by
  cases ha with
  | int i => exact ⟨_, rfl, yields_int _⟩
  | float x => exact neg_yields (.float x)

end Voila.Rt
