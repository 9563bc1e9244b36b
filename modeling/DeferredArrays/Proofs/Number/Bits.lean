import DeferredArrays.Number.Binary64
import Mathlib

/-!
# Proofs/Number/Bits — a float is its sign and its magnitude

The logic knows a float as a bit pattern in which every NaN is the one NaN, so a float is recovered
from its bits (`Float.ofBits_toBits`).  Hence it is recovered from its sign and its magnitude
(`ofMagnitude_magnitude`), and a magnitude beyond the infinities is that of the NaN (`eq_nan`).

The lemmas on bit patterns are those of the library, which has them in no part of its own: this is
the one module that imports all of it.
-/

namespace DeferredArrays.Binary64

open Float.Model Float.Model.UnpackedFloat

/-! ## The three fields of a bit pattern -/

theorem toNat_unpackExponent (b : BitVec 64) :
    (@unpackExponent Format.binary64 b).toNat = b.toNat / 2 ^ 52 % 2 ^ 11 := by
  simp [unpackExponent, Nat.shiftRight_eq_div_pow]

theorem toNat_unpackMantissa (b : BitVec 64) :
    (@unpackMantissa Format.binary64 b).toNat = b.toNat % 2 ^ 52 := by
  simp [unpackMantissa]

/-! ## Sign and magnitude -/

/-- **A float is recovered from its sign and its magnitude.** -/
theorem ofMagnitude_magnitude (x : Float) : ofMagnitude (negative x) (magnitude x) = x := by
  have hlt := x.toBits.toNat_lt
  have hbits : (if negative x then magnitude x + signBit else magnitude x) = x.toBits.toNat := by
    unfold negative magnitude signBit
    by_cases hn : 0x8000000000000000 ≤ x.toBits.toNat
    · simp only [hn, decide_true, if_true]
      omega
    · simp only [hn, decide_false, Bool.false_eq_true, if_false]
      omega
  rw [ofMagnitude, hbits, UInt64.ofNat_toNat, Float.ofBits_toBits]

/-- **Beyond the infinities there is only the NaN.** -/
theorem eq_nan {x : Float} (h : infinite < magnitude x) : x = nan := by
  have hvalid := x.toModel.valid.eq_packedNaN
  have he := toNat_unpackExponent x.toBits.toBitVec
  have hm := toNat_unpackMantissa x.toBits.toBitVec
  have hbits : x.toBits.toBitVec.toNat = x.toBits.toNat := rfl
  simp only [infinite, magnitude, signBit] at h
  have hexp : @unpackExponent Format.binary64 x.toBits.toBitVec = -1#11 := by
    apply BitVec.eq_of_toNat_eq
    rw [he]
    simp only [BitVec.toNat_neg, BitVec.toNat_ofNat]
    omega
  have hman : @unpackMantissa Format.binary64 x.toBits.toBitVec ≠ 0#52 := by
    intro h0
    rw [h0] at hm
    simp only [BitVec.toNat_ofNat] at hm
    omega
  have hpat : x.toBits = 0x7ff8000000000000 := UInt64.toBitVec_inj.mp (hvalid hexp hman)
  rw [← Float.ofBits_toBits x, hpat, nan]

end DeferredArrays.Binary64
