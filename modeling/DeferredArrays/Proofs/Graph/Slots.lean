import DeferredArrays.Proofs.Graph.Floating
import DeferredArrays.Proofs.Kernel.Integers
import DeferredArrays.Proofs.Tensor.Elements

/-!
# Proofs/Graph/Slots — operators on arrays act on single elements

An elementwise operator computes a slot of its result from what its operands contribute to that slot
(`Tensor.scalarAt`).  For floats that has been said already; here it is said for all types, in ideal
arithmetic: as long as an integer is small it has not wrapped around, so the element of the result is
the ideal one (`idealAt_unary`, `idealAt_binary`).
-/

namespace DeferredArrays

open Kernel Number

theorem ElemType.promote_eq_float64_iff {s t : ElemType} :
    promote s t = float64 ↔ s = float64 ∨ t = float64 := by
  cases s <;> cases t <;> decide

/-- Combining operands that are lined up combines what they contribute. -/
theorem getElem?_zipWith_spread {α β γ : Type} {xs : List α} {ys : List β} {n k : Nat} {x : α} {y : β}
    (f : α → β → γ) (hxs : xs.length = 1 ∨ n ≤ xs.length) (hys : ys.length = 1 ∨ n ≤ ys.length)
    (hk : k < n) (hx : xs[if xs.length = 1 then 0 else k]? = some x)
    (hy : ys[if ys.length = 1 then 0 else k]? = some y) :
    (List.zipWith f (spread xs n) (spread ys n))[k]? = some (f x y) := by
  rw [List.getElem?_zipWith, getElem?_spread hxs hk, getElem?_spread hys hk, hx, hy]

/-- A rule that never refuses combines all pairs. -/
theorem combineInts_ok (f : Int64 → Int64 → Int64) (xs ys : List Int64) :
    Tensor.combineInts (fun x y => .ok (f x y)) xs ys = .ok (List.zipWith f xs ys) :=
  Tensor.combineInts_eq_zipWith fun _ _ => rfl

namespace Tensor

variable {a b c : Tensor} {i : Nat}

/-! ## Elements at a slot -/

/-- Where an array is read for a slot of the result. -/
def sourceSlot (a : Tensor) (i : Nat) : Nat := if a.elements.length = 1 then 0 else i

/-- **The element that an array contributes to a slot of the result.** -/
def scalarAt (a : Tensor) (i : Nat) : Scalar := (a.elements.get? (a.sourceSlot i)).getD default

theorem getElem?_toList (hi : a.Covers i) :
    a.elements.toList[a.sourceSlot i]? = some (a.scalarAt i) := by
  have hlt : a.sourceSlot i < a.elements.toList.length := by
    simpa [sourceSlot] using hi.slot_lt
  rw [scalarAt, ← Elements.toList_getElem?, List.getElem?_eq_getElem hlt]
  rfl

theorem getElem?_toInts (hi : a.Covers i) :
    a.elements.toInts[a.sourceSlot i]? = some (a.scalarAt i).toInt := by
  rw [Elements.toInts_eq, List.getElem?_map, getElem?_toList hi]
  rfl

theorem getElem?_toFloats (hi : a.Covers i) :
    a.elements.toFloats[a.sourceSlot i]? = some (a.scalarAt i).toFloat := by
  rw [Elements.toFloats_eq, List.getElem?_map, getElem?_toList hi]
  rfl

theorem floatAt_eq_toFloat (hi : a.Covers i) : a.floatAt i = (a.scalarAt i).toFloat := by
  have h := getElem?_toFloats hi
  rw [sourceSlot] at h
  rw [floatAt, List.getD_eq_getElem?_getD, h]
  rfl

theorem elemType_scalarAt (hi : a.Covers i) : (a.scalarAt i).elemType = a.elemType := by
  have hmem := List.mem_of_getElem? (getElem?_toList hi)
  obtain ⟨s, e⟩ := a
  cases e <;> (obtain ⟨x, _, hx⟩ := List.mem_map.mp hmem; rw [← hx]; rfl)

/-- An element of an array of integers that is mapped. -/
theorem scalarAt_map_ints {s : Shape} {xs : List Int64} {f : Int64 → Int64}
    (hi : Covers ⟨s, .ints xs⟩ i) :
    scalarAt ⟨s, .ints (xs.map f)⟩ i = .int (f (scalarAt ⟨s, .ints xs⟩ i).toInt) := by
  have hlen : (Elements.ints (xs.map f)).length = (Elements.ints xs).length := List.length_map _
  have hslot : sourceSlot ⟨s, .ints (xs.map f)⟩ i = sourceSlot ⟨s, .ints xs⟩ i := by
    simp only [sourceSlot]
    rw [hlen]
  have hci : Covers ⟨s, .ints (xs.map f)⟩ i := hi.imp hlen.trans (·.trans_eq hlen.symm)
  have hget := getElem?_toList hci
  have hread := getElem?_toInts hi
  simp only [hslot, Elements.toList, Elements.toInts, List.map_map, List.getElem?_map] at hget hread
  rw [hread] at hget
  exact (Option.some.inj hget).symm

/-- **An integer of an array that is combined from two others**, both read in one way. -/
theorem toInt_scalarAt {α : Type} {s : Shape} {e : Elements} {f : α → α → Int64}
    (column : Tensor → List α) (read : Scalar → α)
    (hlen : ∀ a : Tensor, (column a).length = a.elements.length)
    (hread : ∀ a : Tensor, a.Covers i → (column a)[a.sourceSlot i]? = some (read (a.scalarAt i)))
    (ha : Operand s a) (hb : Operand s b)
    (he : e.toInts = List.zipWith f (spread (column a) s.count) (spread (column b) s.count))
    (hi : Covers ⟨s, e⟩ i) :
    (scalarAt ⟨s, e⟩ i).toInt = f (read (a.scalarAt i)) (read (b.scalarAt i)) := by
  have hcount : e.length = s.count := by
    rw [← Elements.length_toInts, he, List.length_zipWith, ha.length_spread (hlen a),
      hb.length_spread (hlen b), Nat.min_self]
  have hget := getElem?_toInts hi
  simp only [sourceSlot, hcount, he] at hget
  rw [Covers, hcount] at hi
  have hk : (if s.count = 1 then 0 else i) < s.count := by split <;> omega
  have hslot : ∀ {d : Tensor}, Operand s d → (column d)[if (column d).length = 1 then 0
      else if s.count = 1 then 0 else i]? = some (read (d.scalarAt i)) := by
    intro d hd
    have hcover : d.Covers i := hi.elim (fun h1 => .inl (hd.length.elim id (·.trans h1))) hd.covers
    rw [← hread d hcover, sourceSlot, hlen]
    congr 1
    have := hd.length
    split_ifs <;> omega
  rw [getElem?_zipWith_spread f (ha.spreads (hlen a)) (hb.spreads (hlen b)) hk (hslot ha)
    (hslot hb)] at hget
  exact (Option.some.inj hget).symm

/-! ## Ideal elements -/

/-- The element that an array contributes to a slot, in ideal arithmetic. -/
def idealAt (a : Tensor) (i : Nat) : Ideal := .ofScalar (a.scalarAt i)

theorem ofScalar_of_ne_float64 {s : Scalar} (hs : s.elemType ≠ .float64) :
    Ideal.ofScalar s = .int s.toInt.toInt := by
  cases s with
  | bool b => rfl
  | int i => rfl
  | float x => exact absurd rfl hs

theorem ofScalar_of_eq_float64 {s : Scalar} (hs : s.elemType = .float64) :
    Ideal.ofScalar s = .float s.toFloat := by
  cases s with
  | bool b => cases hs
  | int i => cases hs
  | float x => rfl

theorem toFloat_ofScalar (s : Scalar) : (Ideal.ofScalar s).toFloat = s.toFloat := by
  cases s with
  | bool b => cases b <;> decide +kernel
  | int i => exact congrArg intToFloat (Int64.ofInt_toInt i)
  | float x => rfl

theorem idealAt_of_ne_float64 (ha : a.elemType ≠ .float64) (hi : a.Covers i) :
    a.idealAt i = .int (a.scalarAt i).toInt.toInt :=
  ofScalar_of_ne_float64 (by rwa [elemType_scalarAt hi])

theorem idealAt_of_eq_float64 (ha : a.elemType = .float64) (hi : a.Covers i) :
    a.idealAt i = .float (a.floatAt i) := by
  rw [floatAt_eq_toFloat hi]
  exact ofScalar_of_eq_float64 (by rwa [elemType_scalarAt hi])

theorem toFloat_idealAt (hi : a.Covers i) : (a.idealAt i).toFloat = a.floatAt i := by
  rw [floatAt_eq_toFloat hi]
  exact toFloat_ofScalar _

theorem isFloat_idealAt (hi : a.Covers i) : (a.idealAt i).IsFloat ↔ a.elemType = .float64 := by
  by_cases ha : a.elemType = .float64
  · rw [idealAt_of_eq_float64 ha hi]
    exact iff_of_true trivial ha
  · rw [idealAt_of_ne_float64 ha hi]
    exact iff_of_false id ha

/-! ## Operators -/

theorem abs_bools (s : Shape) (xs : List Bool) : abs ⟨s, .bools xs⟩ = ⟨s, .bools xs⟩ := rfl

theorem abs_ints (s : Shape) (xs : List Int64) :
    abs ⟨s, .ints xs⟩ = ⟨s, .ints (xs.map absInt)⟩ := rfl

theorem toInt_neg {n : Int64} (hn : n.toInt.natAbs ≤ 2 ^ 53) : (-n).toInt = -n.toInt := by
  rw [Int64.toInt_neg]
  exact Int.bmod_eq_of_le (by omega) (by omega)

theorem toInt_absInt {n : Int64} (hn : n.toInt.natAbs ≤ 2 ^ 53) :
    (absInt n).toInt = n.toInt.natAbs := by
  unfold absInt
  split
  next h =>
    have h : n.toInt < 0 := Int64.lt_iff_toInt_lt.mp h
    rw [toInt_neg hn]
    omega
  next h =>
    have h : ¬ n.toInt < 0 := fun hlt => h (Int64.lt_iff_toInt_lt.mpr hlt)
    omega

/-- Operators return floats because they are the logarithm or because they are given them … -/
theorem unaryType_eq_float64 {op : UnaryOp} {t : ElemType}
    (hu : Body.unaryType op t = .ok .float64) : op = .log ∨ t = .float64 := by
  cases op with
  | log => exact .inl rfl
  | abs => exact .inr (Except.ok.inj hu)
  | neg =>
    rw [Body.unaryType] at hu
    split at hu
    next => cases hu
    next => exact .inr (Except.ok.inj hu)

/-- … and binary ones because they divide or because one operand has them. -/
theorem binaryType_eq_float64 {op : BinaryOp} {n : Bool} {s t : ElemType}
    (hu : Body.binaryType op n s t = .ok .float64) : op = .div ∨ s = .float64 ∨ t = .float64 := by
  cases op with
  | div => exact .inl rfl
  | le | getItem => cases hu
  | add | sub | mul => exact .inr (ElemType.arithmetic_eq_float64_iff.mp (Except.ok.inj hu))
  | pow =>
    simp only [Body.binaryType] at hu
    split at hu
    next => cases hu
    next => exact .inr (ElemType.arithmetic_eq_float64_iff.mp (Except.ok.inj hu))

/-- A power that is no integer is a float. -/
theorem binaryType_pow_eq_float64 {n : Bool} {s t u : ElemType}
    (hu : Body.binaryType .pow n s t = .ok u) (hint : u ≠ .int64) : u = .float64 := by
  simp only [Body.binaryType] at hu
  split at hu
  next => cases hu
  next =>
    obtain rfl := Except.ok.inj hu
    have hbool := ElemType.arithmetic_ne_bool s t
    cases hv : s.arithmetic t with
    | bool => exact absurd hv hbool
    | int64 => exact absurd hv hint
    | float64 => rfl

/-- **A unary operator acts on single elements**: on a small integer it is that of the integers. -/
theorem idealAt_unary {op : UnaryOp} {u : ElemType} (hu : Body.unaryType op a.elemType = .ok u)
    (hc : a.unary op = .ok c) (hai : a.Covers i) (hi : c.Covers i)
    (hsmall : (a.idealAt i).Small) : c.idealAt i = (a.idealAt i).unary op := by
  obtain ⟨c', hc', -, htype⟩ := unary_typed hu
  obtain rfl : c = c' := Except.ok.inj (hc.symm.trans hc')
  by_cases hfloat : u = .float64
  · subst hfloat
    have hkind : op = .log ∨ (a.idealAt i).IsFloat :=
      (unaryType_eq_float64 hu).imp_right (isFloat_idealAt hai).mpr
    rw [idealAt_of_eq_float64 htype hi, floatAt_unary hu hc hai, ← toFloat_idealAt hai,
      Ideal.unary_floats hkind]
  · obtain ⟨s, e⟩ := a
    cases op with
    | log => exact absurd (Except.ok.inj hu).symm hfloat
    | neg =>
      cases e with
      | bools xs => cases hu
      | floats xs => exact absurd (Except.ok.inj hu).symm hfloat
      | ints xs =>
        cases hc
        rw [idealAt_of_ne_float64 ElemType.noConfusion hai] at hsmall ⊢
        rw [idealAt, scalarAt_map_ints hai]
        exact congrArg Ideal.int (toInt_neg hsmall)
    | abs =>
      cases e with
      | floats xs => exact absurd (Except.ok.inj hu).symm hfloat
      | bools xs =>
        cases hc
        rw [abs_bools, idealAt]
        cases hs : scalarAt ⟨s, .bools xs⟩ i with
        | bool b => cases b <;> rfl
        | int n => exact absurd (hs ▸ elemType_scalarAt hai) ElemType.noConfusion
        | float x => exact absurd (hs ▸ elemType_scalarAt hai) ElemType.noConfusion
      | ints xs =>
        cases hc
        rw [idealAt_of_ne_float64 ElemType.noConfusion hai] at hsmall ⊢
        rw [abs_ints, idealAt, scalarAt_map_ints hai]
        exact congrArg Ideal.int (toInt_absInt hsmall)

/-- A small integer of a result is the integer that it should be: it has not wrapped around. -/
theorem bmod_eq_of_small {k : Int} (hk : k.natAbs ≤ 2 ^ 53) : k.bmod (2 ^ 64) = k :=
  Int.bmod_eq_of_le (by omega) (by omega)

/-- Arithmetic on operands that bring it about that it is done in integers. -/
theorem toInt_arithmetic {op : Arithmetic} {f : Int64 → Int64 → Int64}
    (hop : op.int = fun x y => .ok (f x y)) (ht : a.elemType.arithmetic b.elemType ≠ .float64)
    (ha : a.WellFormed) (hb : b.WellFormed) (hc : arithmetic op a b = .ok c) (hi : c.Covers i) :
    (c.scalarAt i).toInt = f (a.scalarAt i).toInt (b.scalarAt i).toInt := by
  obtain ⟨s, hs, ⟨hf, _⟩ | ⟨_, zs, hzs, rfl⟩⟩ := arithmetic_eq_ok hc
  · exact absurd hf ht
  · obtain ⟨hoa, hob⟩ := operands_of_resultShape ha hb hs
    rw [hop, combineInts_ok, Except.ok.injEq] at hzs
    exact toInt_scalarAt (fun a => a.elements.toInts) Scalar.toInt
      (fun a => Elements.length_toInts _) (fun a => getElem?_toInts) hoa hob hzs.symm hi

/-- A comparison, of floats if one operand has them … -/
theorem toInt_le_floats (ht : a.elemType.promote b.elemType = .float64)
    (ha : a.WellFormed) (hb : b.WellFormed) (hc : le a b = .ok c) (hi : c.Covers i) :
    (c.scalarAt i).toInt
      = boolToInt (decide ((a.scalarAt i).toFloat ≤ (b.scalarAt i).toFloat)) := by
  obtain ⟨s, hs, ⟨_, rfl⟩ | ⟨hf, _⟩⟩ := le_eq_ok hc
  · obtain ⟨hoa, hob⟩ := operands_of_resultShape ha hb hs
    exact toInt_scalarAt (f := fun x y => boolToInt (decide (x ≤ y)))
      (fun a => a.elements.toFloats) Scalar.toFloat
      (fun a => Elements.length_toFloats _) (fun a => getElem?_toFloats) hoa hob List.map_zipWith hi
  · exact absurd ht hf

/-- … and of integers otherwise. -/
theorem toInt_le_ints (ht : a.elemType.promote b.elemType ≠ .float64)
    (ha : a.WellFormed) (hb : b.WellFormed) (hc : le a b = .ok c) (hi : c.Covers i) :
    (c.scalarAt i).toInt = boolToInt (decide ((a.scalarAt i).toInt ≤ (b.scalarAt i).toInt)) := by
  obtain ⟨s, hs, ⟨hf, _⟩ | ⟨_, rfl⟩⟩ := le_eq_ok hc
  · exact absurd hf ht
  · obtain ⟨hoa, hob⟩ := operands_of_resultShape ha hb hs
    exact toInt_scalarAt (f := fun x y => boolToInt (decide (x ≤ y)))
      (fun a => a.elements.toInts) Scalar.toInt
      (fun a => Elements.length_toInts _) (fun a => getElem?_toInts) hoa hob List.map_zipWith hi

/-- **An operator that wraps around**: its rule for integers gives what the operator on integers of
any size gives, wrapped around. -/
structure Wrapping (op : BinaryOp) where
  /-- The rule. -/
  rule : Arithmetic
  /-- What it makes of integers. -/
  onInts : Int64 → Int64 → Int64
  /-- What should become of them. -/
  onIntegers : Int → Int → Int
  /-- The rule refuses no integers. -/
  int_eq : rule.int = fun x y => .ok (onInts x y)
  /-- It wraps around. -/
  toInt_onInts : ∀ x y, (onInts x y).toInt = (onIntegers x.toInt y.toInt).bmod (2 ^ 64)
  /-- The ideal operator does not. -/
  binary?_int : ∀ m k, Ideal.binary? op (.int m) (.int k) = some (.int (onIntegers m k))
  /-- In a kernel, the operator follows the rule for floats. -/
  onFloats?_eq : onFloats? op = some rule.float
  /-- It is no comparison. -/
  ne_le : op ≠ .le

namespace Wrapping

/-- Addition wraps around. -/
def add : Wrapping .add :=
  ⟨.add, (· + ·), (· + ·), rfl, Int64.toInt_add, fun _ _ => rfl, rfl, by decide⟩

/-- Subtraction wraps around. -/
def sub : Wrapping .sub :=
  ⟨.sub, (· - ·), (· - ·), rfl, Int64.toInt_sub, fun _ _ => rfl, rfl, by decide⟩

/-- Multiplication wraps around. -/
def mul : Wrapping .mul :=
  ⟨.mul, (· * ·), (· * ·), rfl, Int64.toInt_mul, fun _ _ => rfl, rfl, by decide⟩

end Wrapping

section Binary

variable {op : BinaryOp} {n : Bool} {u : ElemType} (ha : a.WellFormed) (hb : b.WellFormed)
  (hai : a.Covers i) (hbi : b.Covers i) (hi : c.Covers i)

include ha hb hai hbi hi

/-- Operators that return floats are those of floats. -/
theorem idealAt_floats {f : Float → Float → Float} (hf : onFloats? op = some f) (hop : op ≠ .le)
    (hu : Body.binaryType op n a.elemType b.elemType = .ok .float64) (hc : a.binary op b = .ok c)
    (htype : c.elemType = .float64) :
    Ideal.binary? op (a.idealAt i) (b.idealAt i) = some (c.idealAt i) := by
  have hkind : op = .div ∨ (a.idealAt i).IsFloat ∨ (b.idealAt i).IsFloat :=
    (binaryType_eq_float64 hu).imp_right
      (Or.imp (isFloat_idealAt hai).mpr (isFloat_idealAt hbi).mpr)
  rw [Ideal.binary?_floats hf hop hkind, idealAt_of_eq_float64 htype hi,
    floatAt_binary hf (.inl hu) ha hb hc hi, toFloat_idealAt hai, toFloat_idealAt hbi]

/-- Operators on integers that wrap around are those of the integers, if the result is small. -/
theorem idealAt_ints (r : Wrapping op) (hc : arithmetic r.rule a b = .ok c)
    (htype : c.elemType = a.elemType.arithmetic b.elemType) (hfloat : c.elemType ≠ .float64)
    (hsmall : ∀ v ∈ Ideal.binary? op (a.idealAt i) (b.idealAt i), v.Small) :
    Ideal.binary? op (a.idealAt i) (b.idealAt i) = some (c.idealAt i) := by
  have hta : a.elemType ≠ .float64 := fun h =>
    hfloat (htype.trans (ElemType.arithmetic_eq_float64_iff.mpr (.inl h)))
  have htb : b.elemType ≠ .float64 := fun h =>
    hfloat (htype.trans (ElemType.arithmetic_eq_float64_iff.mpr (.inr h)))
  rw [idealAt_of_ne_float64 hta hai, idealAt_of_ne_float64 htb hbi, r.binary?_int] at hsmall ⊢
  rw [idealAt_of_ne_float64 hfloat hi, toInt_arithmetic r.int_eq (htype ▸ hfloat) ha hb hc hi,
    r.toInt_onInts, bmod_eq_of_small (hsmall _ rfl)]

/-- So they are those of their ideal operands, of either kind. -/
theorem idealAt_arithmetic (r : Wrapping op) (hrule : a.binary op b = arithmetic r.rule a b)
    (hu : Body.binaryType op n a.elemType b.elemType = .ok u)
    (harithmetic : u = a.elemType.arithmetic b.elemType) (hc : a.binary op b = .ok c)
    (htype : c.elemType = u)
    (hsmall : ∀ v ∈ Ideal.binary? op (a.idealAt i) (b.idealAt i), v.Small) :
    Ideal.binary? op (a.idealAt i) (b.idealAt i) = some (c.idealAt i) := by
  by_cases hfloat : u = .float64
  · subst hfloat
    exact idealAt_floats ha hb hai hbi hi r.onFloats?_eq r.ne_le hu hc htype
  · exact idealAt_ints ha hb hai hbi hi r (hrule.symm.trans hc) (htype.trans harithmetic)
      (htype ▸ hfloat) hsmall

/-- A comparison is that of floats if one operand has them, and of integers otherwise. -/
theorem idealAt_le (hc : a.le b = .ok c) (hfloat : c.elemType ≠ .float64) :
    Ideal.binary? .le (a.idealAt i) (b.idealAt i) = some (c.idealAt i) := by
  rw [idealAt_of_ne_float64 hfloat hi]
  by_cases hf : a.elemType.promote b.elemType = .float64
  · have hkind : (a.idealAt i).IsFloat ∨ (b.idealAt i).IsFloat := by
      rw [isFloat_idealAt hai, isFloat_idealAt hbi]
      exact ElemType.promote_eq_float64_iff.mp hf
    rw [Ideal.binary?_le hkind, toInt_le_floats hf ha hb hc hi, toFloat_idealAt hai,
      toFloat_idealAt hbi, floatAt_eq_toFloat hai, floatAt_eq_toFloat hbi]
    rfl
  · have hnf := mt ElemType.promote_eq_float64_iff.mpr hf
    rw [idealAt_of_ne_float64 (fun h => hnf (.inl h)) hai,
      idealAt_of_ne_float64 (fun h => hnf (.inr h)) hbi, toInt_le_ints hf ha hb hc hi]
    exact congrArg (fun p => some (Ideal.ofBool p))
      (decide_eq_decide.mpr Int64.le_iff_toInt_le).symm

/-- **A binary operator acts on single elements**: on integers it is that of the integers, if the
result is small. -/
theorem idealAt_binary (hu : Body.binaryType op n a.elemType b.elemType = .ok u)
    (hpow : op = .pow → u ≠ .int64) (hc : a.binary op b = .ok c) (htype : c.elemType = u)
    (hsmall : ∀ r ∈ Ideal.binary? op (a.idealAt i) (b.idealAt i), r.Small) :
    Ideal.binary? op (a.idealAt i) (b.idealAt i) = some (c.idealAt i) := by
  cases op with
  | add =>
    exact idealAt_arithmetic ha hb hai hbi hi .add rfl hu (Except.ok.inj hu).symm hc htype hsmall
  | sub =>
    exact idealAt_arithmetic ha hb hai hbi hi .sub rfl hu (Except.ok.inj hu).symm hc htype hsmall
  | mul =>
    exact idealAt_arithmetic ha hb hai hbi hi .mul rfl hu (Except.ok.inj hu).symm hc htype hsmall
  | div =>
    obtain rfl := Except.ok.inj hu
    exact idealAt_floats ha hb hai hbi hi rfl (by decide) hu hc htype
  | pow =>
    obtain rfl : u = .float64 := binaryType_pow_eq_float64 hu (hpow rfl)
    exact idealAt_floats ha hb hai hbi hi rfl (by decide) hu hc htype
  | le =>
    refine idealAt_le ha hb hai hbi hi hc ?_
    rw [htype, ← Except.ok.inj hu]
    decide
  | getItem => cases hu

end Binary

end Tensor

end DeferredArrays
