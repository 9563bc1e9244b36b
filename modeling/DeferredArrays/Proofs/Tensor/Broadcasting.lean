import DeferredArrays.Proofs.Tensor.Elements

/-!
# Proofs/Tensor/Broadcasting — an operand of rank zero stands for an array filled with its element

An elementwise operator does not look at the shapes of its operands once it has that of the result.
What counts of an operand is its type and its **column**: the element that it contributes to each
element of the result (`column`, `binary_congr`).  An operand with as many elements as the result
contributes each of them once (`spread_of_length`), and one of rank zero contributes its own again
and again (`spread_singleton`), just as an array filled with it does.  So the two give the same
result, or the same error (`exists_expands`).

There is only one error left when the shapes combine: a power of integers with a negative exponent
in the column of exponents (`binary_eq_error_iff`).  An empty result uses no exponent and is fine.
-/

namespace DeferredArrays

/-! ## Lining up -/

section Spread

variable {α β : Type} {xs : List α} {n : Nat}

/-- An operand that has enough elements already contributes them as they are. -/
theorem spread_of_length (h : xs.length = n) : spread xs n = xs := by
  refine List.ext_getElem? fun k => ?_
  by_cases hk : k < n
  · have hslot : (if xs.length = 1 then 0 else k) = k := by
      split <;> omega
    rw [getElem?_spread (.inr (Nat.le_of_eq h.symm)) hk, hslot]
  · have hlen : (spread xs n).length = n := length_spread (.inr (Nat.le_of_eq h.symm))
    rw [List.getElem?_eq_none (by omega), List.getElem?_eq_none (by omega)]

/-- An operand with one element contributes it as often as needed. -/
theorem spread_singleton (x : α) (n : Nat) : spread [x] n = List.replicate n x := by
  refine List.ext_getElem? fun k => ?_
  by_cases hk : k < n
  · rw [getElem?_spread (.inl rfl) hk, List.getElem?_replicate, if_pos hk]
    rfl
  · have hlen : (spread [x] n).length = n := length_spread (.inl rfl)
    rw [List.getElem?_eq_none (by omega), List.getElem?_replicate, if_neg hk]

/-- Lining up commutes with what is done to each element. -/
theorem spread_map (f : α → β) (xs : List α) (n : Nat) :
    spread (xs.map f) n = (spread xs n).map f := by
  rw [spread, spread, pick_map, List.length_map]

end Spread

namespace Tensor

variable {a b c d : Tensor} {s : Shape} {n : Nat}

/-- **What an operand contributes** to each of `n` elements of a result. -/
def column (a : Tensor) (n : Nat) : List Scalar := spread a.elements.toList n

/-- Elements that are taken as integers are lined up as integers … -/
theorem spread_toInts (a : Tensor) (n : Nat) :
    spread a.elements.toInts n = (a.column n).map Scalar.toInt := by
  rw [Elements.toInts_eq, spread_map, column]

/-- … and those taken as floats as floats. -/
theorem spread_toFloats (a : Tensor) (n : Nat) :
    spread a.elements.toFloats n = (a.column n).map Scalar.toFloat := by
  rw [Elements.toFloats_eq, spread_map, column]

/-- A cast operand contributes its elements, cast. -/
theorem column_cast (a : Tensor) (t : ElemType) (n : Nat) :
    (a.cast t).column n = (a.column n).map (·.cast t) := by
  rw [column, cast, Elements.toList_cast, spread_map, column]

/-- A scalar contributes itself, again and again. -/
theorem column_ofScalar (x : Scalar) (n : Nat) : (ofScalar x).column n = List.replicate n x := by
  cases x <;> exact spread_singleton _ n

/-! ## Only the type and the column count -/

/-- **Two operands that contribute the same** to a result with `n` elements. -/
structure SameSpread (n : Nat) (a c : Tensor) : Prop where
  /-- The elements have the same type. -/
  elemType : a.elemType = c.elemType
  /-- Each element of the result meets the same one. -/
  column : a.column n = c.column n

theorem SameSpread.refl (n : Nat) (a : Tensor) : SameSpread n a a := ⟨rfl, rfl⟩

theorem SameSpread.cast (h : SameSpread n a c) (t : ElemType) :
    SameSpread n (a.cast t) (c.cast t) where
  elemType := by rw [elemType_cast, elemType_cast]
  column := by rw [column_cast, column_cast, h.column]

/-- What is contributed is the same whether it is taken as integers … -/
theorem SameSpread.toInts (h : SameSpread n a c) :
    spread a.elements.toInts n = spread c.elements.toInts n := by
  rw [spread_toInts, spread_toInts, h.column]

/-- … or as floats. -/
theorem SameSpread.toFloats (h : SameSpread n a c) :
    spread a.elements.toFloats n = spread c.elements.toFloats n := by
  rw [spread_toFloats, spread_toFloats, h.column]

/-- Arithmetic depends on types and columns only, once the shape is settled … -/
theorem arithmetic_congr (op : Arithmetic) (hab : resultShape a b = .ok s)
    (hcd : resultShape c d = .ok s) (hac : SameSpread s.count a c) (hbd : SameSpread s.count b d) :
    arithmetic op a b = arithmetic op c d := by
  simp only [arithmetic, hab, hcd, bind, Except.bind, hac.elemType, hbd.elemType, hac.toInts,
    hbd.toInts, hac.toFloats, hbd.toFloats]

/-- … and so does the comparison. -/
theorem le_congr (hab : resultShape a b = .ok s) (hcd : resultShape c d = .ok s)
    (hac : SameSpread s.count a c) (hbd : SameSpread s.count b d) : le a b = le c d := by
  simp only [le, hab, hcd, bind, Except.bind, hac.elemType, hbd.elemType, hac.toInts,
    hbd.toInts, hac.toFloats, hbd.toFloats]

/-- **Operands that contribute the same have the same result**, and the same error if there is
one. -/
theorem binary_congr {op : BinaryOp} (hop : op ≠ .getItem) (hab : resultShape a b = .ok s)
    (hcd : resultShape c d = .ok s) (hac : SameSpread s.count a c) (hbd : SameSpread s.count b d) :
    a.binary op b = c.binary op d := by
  cases op with
  | add => exact arithmetic_congr .add hab hcd hac hbd
  | sub => exact arithmetic_congr .sub hab hcd hac hbd
  | mul => exact arithmetic_congr .mul hab hcd hac hbd
  | div => exact arithmetic_congr .div hab hcd (hac.cast .float64) hbd
  | pow => exact arithmetic_congr .pow hab hcd hac hbd
  | le => exact le_congr hab hcd hac hbd
  | getItem => exact absurd rfl hop

/-! ## Errors -/

/-- Powers are refused for a negative exponent only. -/
theorem intPower_eq_error_iff {x y : Int64} {e : TensorError} :
    Arithmetic.intPower x y = .error e ↔ e = .negativeIntegerPower ∧ y < 0 := by
  by_cases hy : y < 0
  · simp [Arithmetic.intPower, Number.boundedPower, hy, eq_comm]
  · simp [Arithmetic.intPower, Number.boundedPower, hy]

/-- Powers of two columns are refused if one of the exponents is negative. -/
theorem combineInts_intPower_eq_error_iff {xs ys : List Int64} (h : xs.length = ys.length)
    {e : TensorError} : combineInts Arithmetic.intPower xs ys = .error e ↔
      e = .negativeIntegerPower ∧ ∃ y ∈ ys, y < 0 := by
  induction xs generalizing ys with
  | nil =>
    obtain rfl := List.length_eq_zero_iff.mp h.symm
    simp [combineInts]
  | cons x xs ih =>
    obtain ⟨y, ys, rfl⟩ := List.exists_cons_of_length_eq_add_one h.symm
    have ih := ih (Nat.succ.inj h)
    cases hp : Arithmetic.intPower x y with
    | error e' =>
      obtain ⟨rfl, hy⟩ := intPower_eq_error_iff.mp hp
      simp [combineInts, hp, bind, Except.bind, hy, eq_comm]
    | ok z =>
      have hy : ¬ y < 0 := by
        intro hy
        have hrefused := intPower_eq_error_iff (x := x).mpr ⟨rfl, hy⟩
        cases hp.symm.trans hrefused
      rw [List.exists_mem_cons_iff, or_iff_right hy, ← ih, combineInts, hp]
      cases combineInts Arithmetic.intPower xs ys with
      | error e' => rfl
      | ok zs => exact iff_of_false (fun h => by cases h) fun h => by cases h

/-- Arithmetic that refuses nothing succeeds wherever the shapes combine. -/
theorem exists_arithmetic_eq_ok {op : Arithmetic} {f : Int64 → Int64 → Int64}
    (hop : ∀ x y, op.int x y = .ok (f x y)) (hs : resultShape a b = .ok s) :
    ∃ c, arithmetic op a b = .ok c := by
  have hcombine (xs ys : List Int64) : combineInts op.int xs ys = .ok (List.zipWith f xs ys) :=
    combineInts_eq_zipWith fun p _ => hop p.1 p.2
  simp only [arithmetic, hs, hcombine, bind, Except.bind]
  split
  · exact ⟨_, rfl⟩
  · exact ⟨_, rfl⟩

/-- A comparison succeeds wherever the shapes combine. -/
theorem exists_le_eq_ok (hs : resultShape a b = .ok s) : ∃ c, le a b = .ok c := by
  simp only [le, hs, bind, Except.bind]
  split
  · exact ⟨_, rfl⟩
  · exact ⟨_, rfl⟩

/-- **When powers of arrays are refused**: they are integers, and an exponent is negative. -/
theorem pow_eq_error_iff (ha : a.WellFormed) (hb : b.WellFormed) (hs : resultShape a b = .ok s)
    {e : TensorError} : a.pow b = .error e ↔ e = .negativeIntegerPower ∧
      a.elemType ≠ .float64 ∧ b.elemType ≠ .float64 ∧ ∃ y ∈ b.column s.count, y.toInt < 0 := by
  obtain ⟨hoa, hob⟩ := operands_of_resultShape ha hb hs
  have hlen : (spread a.elements.toInts s.count).length
      = (spread b.elements.toInts s.count).length := by
    rw [hoa.length_spread (Elements.length_toInts _), hob.length_spread (Elements.length_toInts _)]
  have hrefused := combineInts_intPower_eq_error_iff hlen (e := e)
  have hcolumn : (∃ y ∈ spread b.elements.toInts s.count, y < 0)
      ↔ ∃ y ∈ b.column s.count, y.toInt < 0 := by
    rw [spread_toInts]
    simp
  rw [pow, arithmetic, hs]
  simp only [bind, Except.bind]
  split
  next hfloat =>
    rcases ElemType.arithmetic_eq_float64_iff.mp hfloat with hfloat | hfloat
    · exact iff_of_false (fun h => by cases h) fun h => h.2.1 hfloat
    · exact iff_of_false (fun h => by cases h) fun h => h.2.2.1 hfloat
  next hfloat =>
    have hta : a.elemType ≠ .float64 := fun h =>
      hfloat (ElemType.arithmetic_eq_float64_iff.mpr (.inl h))
    have htb : b.elemType ≠ .float64 := fun h =>
      hfloat (ElemType.arithmetic_eq_float64_iff.mpr (.inr h))
    rw [← hcolumn, and_iff_right hta, and_iff_right htb, ← hrefused]
    change (combineInts Arithmetic.intPower _ _).bind _ = _ ↔ _
    cases combineInts Arithmetic.intPower _ _ with
    | error e' => simp [Except.bind]
    | ok zs => exact iff_of_false (fun h => by cases h) fun h => by cases h

/-- **The one error of an elementwise operator** on operands whose shapes combine: integers are to
be raised to powers, and an exponent that is used is negative. -/
theorem binary_eq_error_iff {op : BinaryOp} (hop : op ≠ .getItem) (ha : a.WellFormed)
    (hb : b.WellFormed) (hs : resultShape a b = .ok s) {e : TensorError} :
    a.binary op b = .error e ↔ e = .negativeIntegerPower ∧ op = .pow ∧
      a.elemType ≠ .float64 ∧ b.elemType ≠ .float64 ∧ ∃ y ∈ b.column s.count, y.toInt < 0 := by
  have hfine (hne : op ≠ .pow) (hok : ∃ c, a.binary op b = .ok c) :
      a.binary op b = .error e ↔ e = .negativeIntegerPower ∧ op = .pow ∧
        a.elemType ≠ .float64 ∧ b.elemType ≠ .float64 ∧ ∃ y ∈ b.column s.count, y.toInt < 0 := by
    obtain ⟨c, hc⟩ := hok
    rw [hc]
    exact iff_of_false nofun fun h => hne h.2.1
  cases op with
  | add => exact hfine nofun (exists_arithmetic_eq_ok (fun _ _ => rfl) hs)
  | sub => exact hfine nofun (exists_arithmetic_eq_ok (fun _ _ => rfl) hs)
  | mul => exact hfine nofun (exists_arithmetic_eq_ok (fun _ _ => rfl) hs)
  | div => exact hfine nofun (exists_arithmetic_eq_ok (a := a.cast .float64) (fun _ _ => rfl) hs)
  | pow => rw [and_iff_right rfl]; exact pow_eq_error_iff ha hb hs
  | le => exact hfine nofun (exists_le_eq_ok hs)
  | getItem => exact absurd rfl hop

/-! ## Filling -/

end Tensor

/-- A scalar, repeated. -/
def Elements.fill (n : Nat) : Scalar → Elements
  | .bool b => .bools (List.replicate n b)
  | .int i => .ints (List.replicate n i)
  | .float x => .floats (List.replicate n x)

namespace Tensor

/-- **The array of a given shape that is filled with a scalar.** -/
def fill (s : Shape) (x : Scalar) : Tensor := ⟨s, .fill s.count x⟩

@[simp] theorem elemType_fill (s : Shape) (x : Scalar) : (fill s x).elemType = x.elemType := by
  cases x <;> rfl

/-- An array that is filled has one element only. -/
theorem toList_fill (s : Shape) (x : Scalar) :
    (fill s x).elements.toList = List.replicate s.count x := by
  cases x <;> exact List.map_replicate

/-- It has as many as its shape counts. -/
theorem wellFormed_fill (s : Shape) (x : Scalar) : (fill s x).WellFormed := by
  rw [WellFormed, ← Elements.length_toList, toList_fill, List.length_replicate]
  rfl

/-- **A scalar contributes what an array filled with it contributes.** -/
theorem sameSpread_fill (s : Shape) (x : Scalar) : SameSpread s.count (ofScalar x) (fill s x) where
  elemType := by rw [elemType_ofScalar, elemType_fill]
  column := by
    have hlen : (fill s x).elements.toList.length = s.count := by
      rw [toList_fill, List.length_replicate]
    rw [column_ofScalar, column, spread_of_length hlen, toList_fill]

/-- With rank zero on the right, the result has the shape of the left operand … -/
theorem resultShape_scalar_right (h : b.shape = .scalar) : resultShape a b = .ok a.shape := by
  rw [resultShape, h, Shape.broadcast?_scalar]

/-- … and the other way round. -/
theorem resultShape_scalar_left (h : b.shape = .scalar) : resultShape b a = .ok a.shape := by
  rw [resultShape, h, Shape.scalar_broadcast?]

/-- Operands of one shape have a result of that shape. -/
theorem resultShape_self (h : a.shape = b.shape) : resultShape a b = .ok a.shape := by
  rw [resultShape, h, Shape.broadcast?_self]

/-- **An operand of rank zero can be expanded**: on either side, with whatever array. -/
structure Expands (op : BinaryOp) (a s : Tensor) (x : Scalar) : Prop where
  /-- The element of the operand of rank zero. -/
  element : s.toScalar? = some x
  /-- An array filled with it is well-formed, and has it in every place. -/
  filled : (fill a.shape x).WellFormed ∧
    (fill a.shape x).elements.toList = List.replicate a.shape.count x
  /-- Behind the other operand, it does what an array of that shape filled with its element does. -/
  right : a.binary op s = a.binary op (fill a.shape x)
  /-- So it does in front of it. -/
  left : s.binary op a = (fill a.shape x).binary op a
  /-- Behind, it is refused only as a negative exponent that some element of the result uses. -/
  refused_right : ∀ e, a.binary op s = .error e ↔ e = .negativeIntegerPower ∧ op = .pow ∧
    a.elemType ≠ .float64 ∧ x.elemType ≠ .float64 ∧ 0 < a.shape.count ∧ x.toInt < 0
  /-- In front, it is refused only where the other operand has a negative exponent. -/
  refused_left : ∀ e, s.binary op a = .error e ↔ e = .negativeIntegerPower ∧ op = .pow ∧
    x.elemType ≠ .float64 ∧ a.elemType ≠ .float64 ∧ ∃ y ∈ a.elements.toList, y.toInt < 0

/-- **An operand of rank zero stands for an array filled with its element**, whatever the
elementwise operator, the types of the operands, and the shape of the other one. -/
theorem exists_expands {op : BinaryOp} (hop : op ≠ .getItem) {s : Tensor} (ha : a.WellFormed)
    (hs : s.WellFormed) (h0 : s.shape.rank = 0) : ∃ x, Expands op a s x := by
  obtain ⟨x, rfl⟩ := exists_eq_ofScalar hs h0
  have hscalar : (ofScalar x).shape = .scalar := Shape.rank_eq_zero_iff.mp h0
  have hright : resultShape a (ofScalar x) = .ok a.shape := resultShape_scalar_right hscalar
  have hleft : resultShape (ofScalar x) a = .ok a.shape := resultShape_scalar_left hscalar
  have hspread := sameSpread_fill a.shape x
  refine ⟨x, toScalar?_ofScalar x, ⟨wellFormed_fill _ x, toList_fill _ x⟩, ?_, ?_, fun e => ?_,
    fun e => ?_⟩
  · exact binary_congr hop hright (resultShape_self rfl) (.refl _ a) hspread
  · exact binary_congr hop hleft (resultShape_self rfl) hspread (.refl _ a)
  · rw [binary_eq_error_iff hop ha hs hright, elemType_ofScalar, column_ofScalar]
    simp [Nat.pos_iff_ne_zero]
  · have hcolumn : a.column a.shape.count = a.elements.toList :=
      spread_of_length (a.elements.length_toList.trans ha)
    rw [binary_eq_error_iff hop hs ha hleft, elemType_ofScalar, hcolumn]

/-- A negative exponent that no element of the result uses: the other operand is empty. -/
theorem exists_expands_empty :
    (ofScalar (.int (-1))).shape.rank = 0 ∧
      (∃ x, Expands .pow ⟨⟨[2, 0]⟩, .ints []⟩ (ofScalar (.int (-1))) x) ∧
      pow ⟨⟨[2, 0]⟩, .ints []⟩ (ofScalar (.int (-1))) = .ok ⟨⟨[2, 0]⟩, .ints []⟩ :=
  ⟨rfl, exists_expands (by decide) (by decide) (wellFormed_ofScalar _) rfl, rfl⟩

end Tensor

end DeferredArrays
