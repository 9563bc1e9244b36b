import DeferredArrays.Proofs.Kernel.Offsets
import DeferredArrays.Proofs.Number.Integers
import DeferredArrays.Tensor.Selection
import Mathlib.Tactic.FinCases

/-!
# Proofs/Kernel/Integers — kernels compute small integers, up to the sign of zero

What a body is worth for one row of elements can be said without a machine: integers of any size
where it computes with integers, floats where it computes with floats (`Body.ideal?`).  A kernel has
only floats.  As long as no integer on the way exceeds `2 ^ 53` (`Body.Bounded`), each float that the
code computes is the integer it should be (`image_run`) — but of the integer zero there are two, and
the code may be at the negative one.  The arguments have to be few enough to be found at their
offsets.

Comparisons and the final cast do not tell the zeros apart.  An operator that returns floats may, so
there the negative zero has to be excluded (`Body.KeepsZeros`).
-/

namespace DeferredArrays.Kernel

open Number Binary64

/-! ## Ideal arithmetic -/

/-- **An element as it should be**: an integer, of any size, or a float.  A truth value is one of
the integers zero and one. -/
inductive Ideal where
  | int (n : Int)
  | float (x : Float)
  deriving DecidableEq

namespace Ideal

variable {v w r : Ideal} {x y : Float}

/-- The element that a truth value is. -/
def ofBool (b : Bool) : Ideal := int (boolToInt b).toInt

/-- The element that a scalar is. -/
def ofScalar : Scalar → Ideal
  | .bool b => ofBool b
  | .int i => int i.toInt
  | .float x => float x

/-- Whether an element is a float. -/
def IsFloat : Ideal → Prop
  | int _ => False
  | float _ => True

/-- What operators on floats take for an element. -/
def toFloat : Ideal → Float
  | int n => intToFloat (.ofInt n)
  | float x => x

/-- A unary operator. -/
def unary : UnaryOp → Ideal → Ideal
  | .abs, int n => int n.natAbs
  | .neg, int n => int (-n)
  | op, v => float (onFloat op v.toFloat)

/-- A binary operator — ideal arithmetic has neither powers of integers nor selection. -/
def binary? : BinaryOp → Ideal → Ideal → Option Ideal
  | .add, int m, int n => some (int (m + n))
  | .sub, int m, int n => some (int (m - n))
  | .mul, int m, int n => some (int (m * n))
  | .le, int m, int n => some (ofBool (decide (m ≤ n)))
  | .le, v, w => some (ofBool (decide (v.toFloat ≤ w.toFloat)))
  | .pow, int _, int _ => none
  | op, v, w => (onFloats? op).map fun f => float (f v.toFloat w.toFloat)

/-- The logarithm returns a float, and so does any operator that is given one. -/
theorem unary_floats {op : UnaryOp} (hkind : op = .log ∨ v.IsFloat) :
    v.unary op = float (onFloat op v.toFloat) := by
  cases op with
  | log => cases v <;> rfl
  | abs | neg =>
    cases v with
    | float x => rfl
    | int n => exact (hkind.resolve_left (by decide)).elim

/-- Operators return floats if they divide or are given one … -/
theorem binary?_floats {op : BinaryOp} {f : Float → Float → Float} (hf : onFloats? op = some f)
    (hop : op ≠ .le) (hkind : op = .div ∨ v.IsFloat ∨ w.IsFloat) :
    binary? op v w = some (float (f v.toFloat w.toFloat)) := by
  cases op with
  | le => exact absurd rfl hop
  | getItem => cases hf
  | div => cases hf; cases v <;> cases w <;> rfl
  | add | sub | mul | pow =>
    cases hf
    cases v <;> cases w <;> first | rfl | exact (hkind.resolve_left (by decide)).elim False.elim False.elim

/-- … or compare as floats. -/
theorem binary?_le (hkind : v.IsFloat ∨ w.IsFloat) :
    binary? .le v w = some (ofBool (decide (v.toFloat ≤ w.toFloat))) := by
  cases v <;> cases w <;> first | rfl | exact hkind.elim False.elim False.elim

/-- **An integer that floats hold exactly**, or a float. -/
def Small : Ideal → Prop
  | int n => n.natAbs ≤ 2 ^ 53
  | float _ => True

instance : DecidablePred Small
  | int n => inferInstanceAs (Decidable (n.natAbs ≤ 2 ^ 53))
  | float _ => inferInstanceAs (Decidable True)

/-- **A float is the image of an element**: it is that integer — as either zero, if it is zero — or
that float. -/
def Image : Ideal → Float → Prop
  | int n, x => Exact x n
  | float y, x => x = y

/-! ## Images -/

theorem toInt_ofInt {n : Int} (hn : n.natAbs ≤ 2 ^ 53) : (Int64.ofInt n).toInt = n := by
  rw [Int64.toInt_ofInt]
  exact Int.bmod_eq_of_le (by simp only [Int64.size]; omega) (by simp only [Int64.size]; omega)

theorem exact_ofInt {n : Int} (hn : n.natAbs ≤ 2 ^ 53) : Exact (intToFloat (.ofInt n)) n := by
  have hx := exact_intToFloat (i := .ofInt n) (by rwa [toInt_ofInt hn])
  rwa [toInt_ofInt hn] at hx

theorem small_ofBool (b : Bool) : (ofBool b).Small := by
  cases b <;> decide

theorem image_ofBool (b : Bool) : (ofBool b).Image (boolToFloat b) := by
  rw [← intToFloat_boolToInt]
  exact exact_intToFloat (small_ofBool b)

theorem image_ofScalar {s : Scalar} (hs : (ofScalar s).Small) : (ofScalar s).Image s.toFloat := by
  cases s with
  | bool b => exact image_ofBool b
  | int i => exact exact_intToFloat hs
  | float x => rfl

/-- What operators on floats take for an element is an image of it. -/
theorem image_toFloat (hv : v.Small) : v.Image v.toFloat := by
  cases v with
  | int n => exact exact_ofInt hv
  | float x => rfl

/-- **An image is what operators on floats take**, unless it is the negative zero. -/
theorem Image.eq_toFloat (hx : v.Image x) (hv : v.Small) (hzero : ¬ v.IsFloat → x ≠ -0.0) :
    x = v.toFloat := by
  cases v with
  | int n =>
    have hx : Exact x (Int64.ofInt n).toInt := (toInt_ofInt hv).symm ▸ hx
    exact hx.eq_intToFloat ((toInt_ofInt hv).symm ▸ hv) (hzero id)
  | float y => exact hx

/-- A comparison does not depend on the image. -/
theorem Image.le_iff (hx : v.Image x) (hy : w.Image y) (hv : v.Small) (hw : w.Small) :
    x ≤ y ↔ v.toFloat ≤ w.toFloat := by
  have hleft : ∀ z, x ≤ z ↔ v.toFloat ≤ z := by
    intro z
    cases v with
    | int n => exact Exact.le_congr_left hx (exact_ofInt hv)
    | float y => rw [show x = y from hx]; rfl
  have hright : ∀ z, z ≤ y ↔ z ≤ w.toFloat := by
    intro z
    cases w with
    | int n => exact Exact.le_congr_right hy (exact_ofInt hw)
    | float x => rw [show y = x from hy]; rfl
  exact (hleft y).trans (hright _)

/-- **A unary operator on floats acts on images**, where it keeps the sign of zero if it has to. -/
theorem Image.unary {op : UnaryOp} (hx : v.Image x) (hv : v.Small)
    (hzero : (v.unary op).IsFloat → ¬ v.IsFloat → x ≠ -0.0) :
    (v.unary op).Image (onFloat op x) := by
  cases v with
  | float y => cases op <;> exact congrArg _ hx
  | int n =>
    cases op with
    | abs => exact Exact.abs hx
    | neg => exact Exact.neg hx
    | log => exact congrArg Float.log (hx.eq_toFloat hv (hzero trivial))

/-- **A binary operator on floats acts on images**, where it keeps the sign of zero if it has to. -/
theorem Image.binary {op : BinaryOp} {f : Float → Float → Float} (hf : onFloats? op = some f)
    (hr : binary? op v w = some r) (hx : v.Image x) (hy : w.Image y) (hv : v.Small) (hw : w.Small)
    (hsmall : r.Small)
    (hzero : r.IsFloat → (¬ v.IsFloat → x ≠ -0.0) ∧ (¬ w.IsFloat → y ≠ -0.0)) :
    r.Image (f x y) := by
  -- an operator that returns floats takes its operands for floats
  have hfloat : binary? op v w = some (float (f v.toFloat w.toFloat)) → r.Image (f x y) := by
    intro hr'
    obtain rfl := Option.some.inj (hr.symm.trans hr')
    obtain ⟨hxz, hyz⟩ := hzero trivial
    rw [hx.eq_toFloat hv hxz, hy.eq_toFloat hw hyz]
    rfl
  have hmixed : v.IsFloat ∨ w.IsFloat → r.Image (f x y) := by
    intro hkind
    by_cases hop : op = .le
    · subst hop
      cases hf
      obtain rfl := Option.some.inj (hr.symm.trans (binary?_le hkind))
      rw [← decide_eq_decide.mpr (hx.le_iff hy hv hw)]
      exact image_ofBool _
    · exact hfloat (binary?_floats hf hop (.inr hkind))
  cases v with
  | float x' => exact hmixed (.inl trivial)
  | int m =>
    cases w with
    | float y' => exact hmixed (.inr trivial)
    | int n =>
      cases op with
      | add => cases hf; cases hr; exact Exact.add hx hy hsmall
      | sub => cases hf; cases hr; exact Exact.sub hx hy hsmall
      | mul => cases hf; cases hr; exact Exact.mul hx hy hsmall
      | div => exact hfloat (binary?_floats hf (by decide) (.inl rfl))
      | pow => cases hr
      | getItem => cases hf
      | le =>
        cases hf
        cases hr
        rw [← decide_eq_decide.mpr (Exact.le_iff hx hy)]
        exact image_ofBool _

end Ideal

/-! ## Bodies -/

namespace Body

open Kernel.Ideal

/-- **What a body is worth** in ideal arithmetic, for the elements of its parameters. -/
def ideal? (row : List Ideal) : Body → Option Ideal
  | param i => row[i]?
  | const s => some (ofScalar s)
  | unary op x => (x.ideal? row).map (Ideal.unary op)
  | binary op x y => do binary? op (← x.ideal? row) (← y.ideal? row)

/-- **No integer on the way exceeds what floats hold exactly**: no element, scalar or result. -/
def Bounded (row : List Ideal) : Body → Prop
  | param i => ∀ v ∈ (param i).ideal? row, v.Small
  | const s => (ofScalar s).Small
  | unary op x => x.Bounded row ∧ ∀ v ∈ (unary op x).ideal? row, v.Small
  | binary op x y => x.Bounded row ∧ y.Bounded row ∧ ∀ v ∈ (binary op x y).ideal? row, v.Small

/-- No power is one of integers. -/
def NoIntegerPower (params : List Param) : Body → Prop
  | param _ => True
  | const _ => True
  | unary _ x => x.NoIntegerPower params
  | binary op x y => x.NoIntegerPower params ∧ y.NoIntegerPower params ∧
      (op = .pow → (binary op x y).elemType? params ≠ .ok .int64)

/-- The code of a body is not at the negative zero, unless the body is one of floats. -/
def KeepsZero (params : List Param) (row : List Ideal) (x : Body) : Prop :=
  x.elemType? params ≠ .ok .float64 → ∀ c ∈ x.lower.toOption, c.run (row.map toFloat) ≠ -0.0

instance (params : List Param) (row : List Ideal) (x : Body) : Decidable (x.KeepsZero params row) :=
  inferInstanceAs (Decidable (_ → _))

/-- **No operator that returns floats is given the negative zero for an integer.** -/
def KeepsZeros (params : List Param) (row : List Ideal) : Body → Prop
  | param _ => True
  | const _ => True
  | unary op x => x.KeepsZeros params row ∧
      ((unary op x).elemType? params = .ok .float64 → x.KeepsZero params row)
  | binary op x y => x.KeepsZeros params row ∧ y.KeepsZeros params row ∧
      ((binary op x y).elemType? params = .ok .float64 →
        x.KeepsZero params row ∧ y.KeepsZero params row)

/-- **Only integers and truth values**, added, subtracted, multiplied, negated, compared and made
positive. -/
def IsIntegral (params : List Param) : Body → Prop
  | param i => ∀ p ∈ params[i]?, p.elemType ≠ .float64
  | const s => s.elemType ≠ .float64
  | unary op x => op ≠ .log ∧ x.IsIntegral params
  | binary op x y => op ∈ [.add, .sub, .mul, .le] ∧ x.IsIntegral params ∧ y.IsIntegral params

instance decidableNoIntegerPower (params : List Param) :
    (b : Body) → Decidable (b.NoIntegerPower params)
  | param _ => inferInstanceAs (Decidable True)
  | const _ => inferInstanceAs (Decidable True)
  | unary _ x => decidableNoIntegerPower params x
  | binary op x y =>
    have := decidableNoIntegerPower params x
    have := decidableNoIntegerPower params y
    inferInstanceAs (Decidable (x.NoIntegerPower params ∧ y.NoIntegerPower params ∧
      (op = .pow → (binary op x y).elemType? params ≠ .ok .int64)))

instance decidableIsIntegral (params : List Param) : (b : Body) → Decidable (b.IsIntegral params)
  | param i => inferInstanceAs (Decidable (∀ p ∈ params[i]?, p.elemType ≠ .float64))
  | const s => inferInstanceAs (Decidable (s.elemType ≠ .float64))
  | unary op x =>
    have := decidableIsIntegral params x
    inferInstanceAs (Decidable (op ≠ .log ∧ x.IsIntegral params))
  | binary op x y =>
    have := decidableIsIntegral params x
    have := decidableIsIntegral params y
    inferInstanceAs (Decidable (op ∈ [.add, .sub, .mul, .le] ∧ x.IsIntegral params ∧
      y.IsIntegral params))

instance decidableKeepsZeros (params : List Param) (row : List Ideal) :
    (b : Body) → Decidable (b.KeepsZeros params row)
  | param _ => inferInstanceAs (Decidable True)
  | const _ => inferInstanceAs (Decidable True)
  | unary _ x =>
    have := decidableKeepsZeros params row x
    inferInstanceAs (Decidable (x.KeepsZeros params row ∧ (_ → x.KeepsZero params row)))
  | binary _ x y =>
    have := decidableKeepsZeros params row x
    have := decidableKeepsZeros params row y
    inferInstanceAs (Decidable (x.KeepsZeros params row ∧ y.KeepsZeros params row ∧
      (_ → x.KeepsZero params row ∧ y.KeepsZero params row)))

instance decidableBounded (row : List Ideal) : (b : Body) → Decidable (b.Bounded row)
  | param i => inferInstanceAs (Decidable (∀ v ∈ (param i).ideal? row, v.Small))
  | const s => inferInstanceAs (Decidable (ofScalar s).Small)
  | unary op x =>
    have := decidableBounded row x
    inferInstanceAs (Decidable (x.Bounded row ∧ ∀ v ∈ (unary op x).ideal? row, v.Small))
  | binary op x y =>
    have := decidableBounded row x
    have := decidableBounded row y
    inferInstanceAs (Decidable (x.Bounded row ∧ y.Bounded row ∧
      ∀ v ∈ (binary op x y).ideal? row, v.Small))

variable {params : List Param} {row : List Ideal} {b : Body} {u : ElemType} {v : Ideal}

theorem Bounded.small (hb : b.Bounded row) (hv : b.ideal? row = some v) : v.Small := by
  cases b with
  | param i => exact hb v hv
  | const s => exact Option.some.inj hv ▸ hb
  | unary op x => exact hb.2 v hv
  | binary op x y => exact hb.2.2 v hv

/-! ## Types -/

/-- The elements of a row are floats where their parameters are. -/
def RowTyped (params : List Param) (row : List Ideal) : Prop :=
  List.Forall₂ (fun p v => v.IsFloat ↔ p.elemType = .float64) params row

theorem isFloat_unary {op : UnaryOp} {t : ElemType} (hu : unaryType op t = .ok u)
    (hv : v.IsFloat ↔ t = .float64) : (v.unary op).IsFloat ↔ u = .float64 := by
  cases op with
  | abs =>
    cases hu
    rw [← hv]
    cases v <;> rfl
  | log =>
    cases hu
    cases v <;> exact iff_of_true trivial rfl
  | neg =>
    rw [unaryType] at hu
    split at hu
    next => cases hu
    next =>
      cases hu
      rw [← hv]
      cases v <;> rfl

/-- Arithmetic gives a float if and only if an operand is one. -/
theorem isFloat_arithmetic {op : BinaryOp} {w r : Ideal} (hop : op ∈ [.add, .sub, .mul, .pow])
    (hr : binary? op v w = some r) : r.IsFloat ↔ v.IsFloat ∨ w.IsFloat := by
  fin_cases hop <;> cases v <;> cases w <;> cases hr <;> simp [IsFloat]

theorem isFloat_binary {op : BinaryOp} {n : Bool} {s t : ElemType} {w r : Ideal}
    (hu : binaryType op n s t = .ok u) (hr : binary? op v w = some r)
    (hv : v.IsFloat ↔ s = .float64) (hw : w.IsFloat ↔ t = .float64) :
    r.IsFloat ↔ u = .float64 := by
  have harithmetic : op ∈ [.add, .sub, .mul, .pow] → u = s.arithmetic t →
      (r.IsFloat ↔ u = .float64) := by
    rintro hop rfl
    rw [isFloat_arithmetic hop hr, ElemType.arithmetic_eq_float64_iff, hv, hw]
  cases op with
  | add => exact harithmetic (by decide) (Except.ok.inj hu).symm
  | sub => exact harithmetic (by decide) (Except.ok.inj hu).symm
  | mul => exact harithmetic (by decide) (Except.ok.inj hu).symm
  | pow =>
    simp only [binaryType] at hu
    split at hu
    next => cases hu
    next => exact harithmetic (by decide) (Except.ok.inj hu).symm
  | div =>
    cases hu
    cases v <;> cases w <;> cases hr <;> exact iff_of_true trivial rfl
  | le =>
    cases hu
    cases v <;> cases w <;> cases hr <;> exact iff_of_false id ElemType.noConfusion
  | getItem => cases hu

/-- **A body is worth a float if and only if its type says so.** -/
theorem isFloat_ideal? (hrow : RowTyped params row) (hu : b.elemType? params = .ok u)
    (hv : b.ideal? row = some v) : v.IsFloat ↔ u = .float64 := by
  induction b generalizing u v with
  | param i =>
    rw [elemType?] at hu
    split at hu
    next p hp =>
      cases hu
      have hrow := List.forall₂_iff_get.mp hrow
      obtain ⟨hi, rfl⟩ := List.getElem?_eq_some_iff.mp hp
      obtain ⟨hj, rfl⟩ := List.getElem?_eq_some_iff.mp hv
      exact hrow.2 i hi hj
    next => cases hu
  | const s =>
    cases hu
    cases hv
    cases s <;> simp [ofScalar, ofBool, IsFloat, Scalar.elemType]
  | unary op x ih =>
    obtain ⟨s, hs, hop⟩ := exists_of_bind_eq_ok hu
    obtain ⟨vx, hvx, rfl⟩ := Option.map_eq_some_iff.mp hv
    exact isFloat_unary hop (ih hs hvx)
  | binary op x y ihx ihy =>
    obtain ⟨s, hs, hrest⟩ := exists_of_bind_eq_ok hu
    obtain ⟨t, ht, hop⟩ := exists_of_bind_eq_ok hrest
    obtain ⟨vx, hvx, hrest⟩ := Option.bind_eq_some_iff.mp hv
    obtain ⟨vy, hvy, hr⟩ := Option.bind_eq_some_iff.mp hrest
    exact isFloat_binary hop hr (ihx hs hvx) (ihy ht hvy)

/-- The integral fragment has no floats. -/
theorem IsIntegral.ne_float64 (hb : b.IsIntegral params) (hu : b.elemType? params = .ok u) :
    u ≠ .float64 := by
  induction b generalizing u with
  | param i =>
    rw [elemType?] at hu
    split at hu
    next p hp =>
      cases hu
      exact hb p hp
    next => cases hu
  | const s =>
    cases hu
    exact hb
  | unary op x ih =>
    obtain ⟨s, hs, hop⟩ := exists_of_bind_eq_ok hu
    have hx := ih hb.2 hs
    cases op with
    | abs => cases hop; exact hx
    | log => exact absurd rfl hb.1
    | neg =>
      rw [unaryType] at hop
      split at hop
      next => cases hop
      next => cases hop; exact hx
  | binary op x y ihx ihy =>
    obtain ⟨s, hs, hrest⟩ := exists_of_bind_eq_ok hu
    obtain ⟨t, ht, hop⟩ := exists_of_bind_eq_ok hrest
    obtain ⟨hmem, hx, hy⟩ := hb
    have hne : s.arithmetic t ≠ .float64 := fun h =>
      (ElemType.arithmetic_eq_float64_iff.mp h).elim (ihx hx hs) (ihy hy ht)
    fin_cases hmem <;> cases hop <;> first | exact hne | exact ElemType.noConfusion

theorem IsIntegral.noIntegerPower (hb : b.IsIntegral params) : b.NoIntegerPower params := by
  induction b with
  | param i => trivial
  | const s => trivial
  | unary op x ih => exact ih hb.2
  | binary op x y ihx ihy =>
    refine ⟨ihx hb.2.1, ihy hb.2.2, ?_⟩
    rintro rfl
    exact absurd hb.1 (by decide)

/-- Without operators that return floats, the sign of a zero does not matter. -/
theorem IsIntegral.keepsZeros (hb : b.IsIntegral params) : b.KeepsZeros params row := by
  induction b with
  | param i => trivial
  | const s => trivial
  | unary op x ih => exact ⟨ih hb.2, fun h => absurd rfl (hb.ne_float64 h)⟩
  | binary op x y ihx ihy => exact ⟨ihx hb.2.1, ihy hb.2.2, fun h => absurd rfl (hb.ne_float64 h)⟩

/-! ## Simulation -/

/-- **The code computes an image of what the body is worth**, by induction on the body.  The
arguments are few enough to have offsets of their own. -/
theorem image_run {code : Code} (hlength : row.length ≤ 2 ^ 28) (hrow : RowTyped params row)
    (hu : b.elemType? params = .ok u) (hb : b.Bounded row) (hz : b.KeepsZeros params row)
    (hcode : b.lower = .ok code) (hv : b.ideal? row = some v) :
    v.Image (code.run (row.map toFloat)) := by
  induction b generalizing u v code with
  | param i =>
    cases hcode
    have hv : row[i]? = some v := hv
    have hi : i < row.length := (List.getElem?_eq_some_iff.mp hv).1
    rw [Code.run, Code.argument?_offset_of_lt _ (Nat.lt_of_lt_of_le hi hlength), List.getElem?_map,
      hv]
    exact image_toFloat (hb v hv)
  | const s =>
    cases hcode
    cases hv
    exact image_ofScalar hb
  | unary op x ih =>
    obtain ⟨s, hs, hop⟩ := exists_of_bind_eq_ok hu
    obtain ⟨cx, hcx, hmade⟩ := exists_of_bind_eq_ok hcode
    obtain ⟨vx, hvx, rfl⟩ := Option.map_eq_some_iff.mp hv
    obtain ⟨hzx, hzero⟩ := hz
    cases hmade
    have hkind := isFloat_ideal? hrow hs hvx
    have hroot := isFloat_ideal? hrow hu hv
    refine (ih hs hb.1 hzx hcx hvx).unary (hb.1.small hvx) fun hfloat hint => ?_
    refine hzero (hu.trans (congrArg _ (hroot.mp hfloat))) (fun h => hint ?_) cx (hcx ▸ rfl)
    exact hkind.mpr (Except.ok.inj (hs.symm.trans h))
  | binary op x y ihx ihy =>
    obtain ⟨s, hs, hrest⟩ := exists_of_bind_eq_ok hu
    obtain ⟨t, ht, hop⟩ := exists_of_bind_eq_ok hrest
    obtain ⟨cx, hcx, hrest⟩ := exists_of_bind_eq_ok hcode
    obtain ⟨cy, hcy, hmade⟩ := exists_of_bind_eq_ok hrest
    obtain ⟨vx, hvx, hrest⟩ := Option.bind_eq_some_iff.mp hv
    obtain ⟨vy, hvy, hr⟩ := Option.bind_eq_some_iff.mp hrest
    obtain ⟨hzx, hzy, hzero⟩ := hz
    have hkindx := isFloat_ideal? hrow hs hvx
    have hkindy := isFloat_ideal? hrow ht hvy
    have hroot := isFloat_ideal? hrow hu hv
    split at hmade
    next f hf =>
      cases hmade
      refine Image.binary hf hr (ihx hs hb.1 hzx hcx hvx) (ihy ht hb.2.1 hzy hcy hvy)
        (hb.1.small hvx) (hb.2.1.small hvy) (hb.small hv) fun hfloat => ?_
      obtain ⟨hx, hy⟩ := hzero (hu.trans (congrArg _ (hroot.mp hfloat)))
      refine ⟨fun hint => hx (fun h => hint ?_) cx (hcx ▸ rfl),
        fun hint => hy (fun h => hint ?_) cy (hcy ▸ rfl)⟩
      · exact hkindx.mpr (Except.ok.inj (hs.symm.trans h))
      · exact hkindy.mpr (Except.ok.inj (ht.symm.trans h))
    next => cases hmade

end Body

end DeferredArrays.Kernel
