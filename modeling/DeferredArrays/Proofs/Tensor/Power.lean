import DeferredArrays.Proofs.Graph.Slots
import DeferredArrays.Proofs.Number.Power

/-!
# Proofs/Tensor/Power — powers of arrays of integers

The power of two arrays of integers or truth values has one element for each slot, the power of what
the operands contribute to it (`pow_eq`).  That is the exact power, wrapped around, of the base and
the exponent cut off at the largest one that is honoured, so it is the exact power of the base and
the exponent themselves if and only if the exponent is honoured (`pow_wraps`).  Not all are: minus
one raised to an even power can stay minus one (`pow_minusOne`).
-/

namespace DeferredArrays.Tensor

open Number

variable {a b : Tensor} {s : Shape}

/-- **The integers of an operand, lined up with the result**: what it contributes to each slot. -/
theorem Operand.spread_toInts (h : Operand s a) :
    spread a.elements.toInts s.count
      = (List.range s.count).map fun i => (a.scalarAt i).toInt := by
  have hspreads := h.spreads (Elements.length_toInts _)
  refine List.ext_getElem? fun i => ?_
  by_cases hi : i < s.count
  · have hread := getElem?_toInts (h.covers hi)
    rw [sourceSlot, ← Elements.length_toInts] at hread
    rw [getElem?_spread hspreads hi, hread, List.getElem?_map, List.getElem?_range hi]
    rfl
  · have hle : s.count ≤ i := Nat.not_lt.mp hi
    rw [List.getElem?_eq_none ((DeferredArrays.length_spread hspreads).trans_le hle),
      List.getElem?_eq_none (by rwa [List.length_map, List.length_range])]

/-- The power of two elements, with the exponent cut off. -/
def cutPower (x y : Int64) : Int64 := Int64.ofInt (x.toInt ^ min y.toInt.toNat largestExponent)

theorem intPower_eq {x y : Int64} (hy : 0 ≤ y) : Arithmetic.intPower x y = .ok (cutPower x y) := by
  rw [Arithmetic.intPower, boundedPower_eq_ofInt hy]
  rfl

/-- **The power of arrays of integers**, slot by slot.  Only the exponents that are used must not be
negative. -/
theorem pow_eq (ha : a.WellFormed) (hb : b.WellFormed) (hta : a.elemType ≠ .float64)
    (htb : b.elemType ≠ .float64) (hs : a.shape.broadcast? b.shape = some s)
    (hexp : ∀ i < s.count, 0 ≤ (b.scalarAt i).toInt) :
    a.pow b = .ok ⟨s, .ints ((List.range s.count).map fun i =>
      cutPower (a.scalarAt i).toInt (b.scalarAt i).toInt)⟩ := by
  have hshape : resultShape a b = .ok s := by rw [resultShape, hs]
  obtain ⟨hoa, hob⟩ := operands_of_resultShape ha hb hshape
  have hcombine : combineInts Arithmetic.pow.int (spread a.elements.toInts s.count)
      (spread b.elements.toInts s.count) = .ok (List.zipWith cutPower
        (spread a.elements.toInts s.count) (spread b.elements.toInts s.count)) := by
    refine combineInts_eq_zipWith fun p hp => intPower_eq ?_
    have hmem : p.2 ∈ spread b.elements.toInts s.count := (List.of_mem_zip hp).2
    rw [hob.spread_toInts] at hmem
    obtain ⟨i, hi, hpi⟩ := List.mem_map.mp hmem
    exact hpi ▸ hexp i (List.mem_range.mp hi)
  rw [hoa.spread_toInts, hob.spread_toInts, List.zipWith_map, List.zipWith_self] at hcombine
  rw [pow, arithmetic, hshape]
  simp only [bind, Except.bind]
  split
  next hfloat => exact ((ElemType.arithmetic_eq_float64_iff.mp hfloat).elim hta htb).elim
  next =>
    rw [hoa.spread_toInts, hob.spread_toInts, hcombine]
    rfl

/-- **Powers of arrays of integers wrap around, as far as their exponents are honoured.**  Where all
the exponents that are used are nonnegative, the power of two arrays of integers or truth values is
an array of integers.  Each of them is the exact power for the exponent that is honoured, wrapped
around, and it is that for the exponent which was given if and only if that exponent is honoured. -/
theorem pow_wraps (ha : a.WellFormed) (hb : b.WellFormed) (hta : a.elemType ≠ .float64)
    (htb : b.elemType ≠ .float64) (hs : a.shape.broadcast? b.shape = some s)
    (hexp : ∀ i < s.count, 0 ≤ (b.scalarAt i).toInt) :
    ∃ zs, a.pow b = .ok ⟨s, .ints zs⟩ ∧ zs.length = s.count ∧ ∀ i < s.count,
      let x := (a.scalarAt i).toInt
      let y := (b.scalarAt i).toInt
      zs[i]? = some (Int64.ofInt (x.toInt ^ min y.toInt.toNat largestExponent)) ∧
        (zs[i]? = some (Int64.ofInt (x.toInt ^ y.toInt.toNat)) ↔ Honours x y) := by
  refine ⟨_, pow_eq ha hb hta htb hs hexp, ?_, fun i hi => ?_⟩
  · rw [List.length_map, List.length_range]
  · have hget : ((List.range s.count).map fun i =>
        cutPower (a.scalarAt i).toInt (b.scalarAt i).toInt)[i]?
        = some (cutPower (a.scalarAt i).toInt (b.scalarAt i).toInt) := by
      rw [List.getElem?_map, List.getElem?_range hi]
      rfl
    refine ⟨hget, ?_⟩
    rw [hget, Option.some.injEq, cutPower]
    exact ofInt_pow_min_eq_iff (hexp i hi)

/-- Two cubes: the exponent, of rank zero, is used for both slots. -/
theorem pow_wraps_cubes :
    ∃ zs, (ofElements (.ints [-2, 3])).pow (ofScalar (.int 3)) = .ok ⟨.vector 2, .ints zs⟩ ∧
      zs.length = 2 ∧ zs[0]? = some (Int64.ofInt ((-2) ^ 3)) ∧
      zs[1]? = some (Int64.ofInt (3 ^ 3)) := by
  obtain ⟨zs, hpow, hlen, hzs⟩ := pow_wraps (a := ofElements (.ints [-2, 3]))
    (b := ofScalar (.int 3)) (s := .vector 2) (wellFormed_ofElements _) (wellFormed_ofScalar _)
    (by decide) (by decide) (by decide) (by decide)
  exact ⟨zs, hpow, hlen, (hzs 0 (by decide)).1, (hzs 1 (by decide)).1⟩

/-- **An exponent that is not honoured**: minus one to an even power that does not fit in 32 bits is
minus one, although it is one. -/
theorem pow_minusOne :
    (ofElements (.ints [-1])).pow (ofElements (.ints [4294967296]))
      = .ok (ofElements (.ints [-1])) ∧ Int64.ofInt ((-1) ^ 4294967296) = 1 := by
  have hcut : cutPower (-1) 4294967296 = -1 := by
    have hodd : Odd (min (4294967296 : Int64).toInt.toNat largestExponent) := by decide
    rw [cutPower, show (-1 : Int64).toInt = -1 by decide, hodd.neg_one_pow]
    rfl
  have heven : Even 4294967296 := by decide
  rw [pow_eq (s := .vector 1) (wellFormed_ofElements _) (wellFormed_ofElements _) (by decide)
    (by decide) (by decide) (by decide), heven.neg_one_pow]
  refine ⟨?_, rfl⟩
  exact congrArg (fun z => Except.ok (ofElements (.ints [z]))) hcut

end DeferredArrays.Tensor
