import DeferredArrays.Decimal.Shortest
import Mathlib.Algebra.Order.Field.Rat
import Mathlib.Tactic.FieldSimp
import Mathlib.Tactic.NormNum
import Mathlib.Tactic.Positivity
import Mathlib.Tactic.Ring

/-!
# Proofs/Decimal/Exact — a decimal that equals a float reads as that float

Reading rounds to nearest, so a decimal whose value *is* that of a finite magnitude reads as that
magnitude (`toMagnitude_eq_of_value_eq`): the shift is found from the lengths of numerator and
denominator (`shiftFor_eq`), the division leaves no remainder (`nearestFraction_eq`), and neither of
the two early exits is taken (`exponent_le_of_eq`, `exponent_le_log2_of_eq`).

With that every shortest decimal reads back (`toMagnitude_shortest`), whether it was found on a grid
of digits or written out in full.
-/

namespace DeferredArrays

open Binary64

/-- The number a decimal stands for. -/
def Decimal.value (d : Decimal) : Rat := d.digits * 10 ^ d.exponent

/-- The number a finite magnitude stands for. -/
def Binary64.value (b : Nat) : Rat := significand b * 2 ^ exponent b

/-! ## Significands and shifts of finite magnitudes -/

namespace Binary64

theorem significand_pos {b : Nat} (h : 0 < b) : 0 < significand b := by
  unfold significand hiddenBit
  split <;> omega

theorem significand_lt (b : Nat) : significand b < 2 ^ 53 := by
  unfold significand hiddenBit
  split <;> omega

/-- Only the smallest shift has significands without the hidden bit. -/
theorem shift_eq_zero_or_le_significand (b : Nat) : shift b = 0 ∨ 2 ^ 52 ≤ significand b := by
  unfold shift significand hiddenBit
  split <;> omega

theorem shift_le {b : Nat} (h : b < infinite) : shift b ≤ 2045 := by
  unfold infinite at h
  unfold shift hiddenBit
  omega

end Binary64

namespace Decimal

/-! ## Values -/

theorem value_trim (d : Decimal) : d.trim.value = d.value := by
  fun_induction trim d with
  | case1 d h ih =>
    rw [ih, value, value]
    obtain ⟨k, hk⟩ := Nat.dvd_of_mod_eq_zero h.2
    rw [hk, Nat.mul_div_cancel_left k (by norm_num), zpow_add_one₀ (by norm_num)]
    push_cast
    ring
  | case2 d h => rfl

/-- What is written in full has the value it is written for. -/
theorem value_exact (b : Nat) : (exact b).value = Binary64.value b := by
  unfold exact
  split
  next h =>
    have hcast : ((shift b : Int) - 1074) = ((shift b - 1074 : Nat) : Int) := by omega
    rw [value, Binary64.value, Binary64.exponent, hcast, Nat.pow_eq]
    generalize shift b - 1074 = k
    rw [zpow_natCast]
    push_cast
    simp
  next h =>
    have hcast : ((shift b : Int) - 1074) = -((1074 - shift b : Nat) : Int) := by omega
    rw [value, Binary64.value, Binary64.exponent, hcast, Nat.pow_eq]
    generalize 1074 - shift b = k
    have hten : (10 : Rat) ^ k = 2 ^ k * 5 ^ k := by rw [← mul_pow]; norm_num
    push_cast
    rw [zpow_neg, zpow_neg, zpow_natCast, zpow_natCast, hten]
    field_simp

/-! ## From values to fractions -/

theorem mul_pow_eq_of_cast_eq {n m s k u : Nat}
    (h : (n : Rat) * 10 ^ (k : Int) = m * 2 ^ ((s : Int) - (u : Int))) :
    n * 10 ^ k * 2 ^ u = m * 2 ^ s := by
  rw [zpow_natCast, zpow_sub₀ (by norm_num), zpow_natCast, zpow_natCast, ← mul_div_assoc,
    eq_div_iff (by positivity)] at h
  exact_mod_cast h

theorem mul_eq_of_cast_eq {n m s k u : Nat}
    (h : (n : Rat) * 10 ^ (-(k : Int)) = m * 2 ^ ((s : Int) - (u : Int))) :
    n * 2 ^ u = m * 2 ^ s * 10 ^ k := by
  rw [zpow_neg, zpow_natCast, zpow_sub₀ (by norm_num), zpow_natCast, zpow_natCast,
    ← mul_div_assoc, ← div_eq_mul_inv, div_eq_div_iff (by positivity) (by positivity)] at h
  exact_mod_cast h

/-- A decimal that is a whole number, and the float it equals, as an equation between naturals. -/
theorem mul_pow_eq_of_value_eq {n b k : Nat}
    (h : (⟨n, (k : Int)⟩ : Decimal).value = Binary64.value b) :
    n * 10 ^ k * 2 ^ 1074 = significand b * 2 ^ shift b :=
  mul_pow_eq_of_cast_eq h

/-- A decimal with digits after the point, and the float it equals, as an equation between
naturals. -/
theorem mul_eq_of_value_eq {n b k : Nat}
    (h : (⟨n, -(k : Int)⟩ : Decimal).value = Binary64.value b) :
    n * 2 ^ 1074 = significand b * 2 ^ shift b * 10 ^ k :=
  mul_eq_of_cast_eq h

/-! ## Rounding what needs no rounding -/

/-- The lengths of numerator and denominator leave room for little: at most this much for a
significand of 53 binary digits … -/
theorem log2_lt_of_mul_eq {num den m s u : Nat} (hm : m < 2 ^ 53) (hnum : num ≠ 0)
    (h : num * 2 ^ u = m * 2 ^ s * den) : num.log2 + u < 53 + s + (den.log2 + 1) := by
  have hden := @Nat.lt_log2_self den
  apply (Nat.pow_lt_pow_iff_right (by norm_num : 1 < 2)).mp
  calc 2 ^ (num.log2 + u) = 2 ^ num.log2 * 2 ^ u := pow_add ..
    _ ≤ num * 2 ^ u := Nat.mul_le_mul_right _ (Nat.log2_self_le hnum)
    _ = m * 2 ^ s * den := h
    _ ≤ 2 ^ 53 * 2 ^ s * den := by gcongr
    _ < 2 ^ 53 * 2 ^ s * 2 ^ (den.log2 + 1) := Nat.mul_lt_mul_of_pos_left hden (by positivity)
    _ = 2 ^ (53 + s + (den.log2 + 1)) := by rw [← pow_add, ← pow_add]

/-- … and at least this much for one that has all of them. -/
theorem lt_log2_of_mul_eq {num den m s u : Nat} (hm : 2 ^ 52 ≤ m) (hden : den ≠ 0)
    (h : num * 2 ^ u = m * 2 ^ s * den) : 52 + s + den.log2 < num.log2 + 1 + u := by
  have hnum := @Nat.lt_log2_self num
  have hdenlo := Nat.log2_self_le hden
  apply (Nat.pow_lt_pow_iff_right (by norm_num : 1 < 2)).mp
  calc 2 ^ (52 + s + den.log2) = 2 ^ 52 * 2 ^ s * 2 ^ den.log2 := by rw [pow_add, pow_add]
    _ ≤ m * 2 ^ s * den := by gcongr
    _ = num * 2 ^ u := h.symm
    _ < 2 ^ (num.log2 + 1) * 2 ^ u := Nat.mul_lt_mul_of_pos_right hnum (by positivity)
    _ = 2 ^ (num.log2 + 1 + u) := by rw [← pow_add]

theorem inUnits_eq (num den s : Nat) : inUnits num den s = (num * 2 ^ 1074, den * 2 ^ s) := by
  unfold inUnits
  generalize 1074 = k
  rw [Nat.pow_eq, Nat.pow_eq]

theorem two_mul_hiddenBit : 2 * hiddenBit = 2 ^ 53 := by
  norm_num [hiddenBit]

/-- **The shift is found from the lengths.**  They determine it up to one, and the trial division
settles which of the two it is. -/
theorem shiftFor_eq {num den b : Nat} (hb : 0 < b) (hden : 0 < den)
    (h : num * 2 ^ 1074 = significand b * 2 ^ shift b * den) : shiftFor num den = shift b := by
  have hm := significand_pos hb
  have hlt := significand_lt b
  have hnum : num ≠ 0 := by
    rintro rfl
    have : 0 < significand b * 2 ^ shift b * den := by positivity
    omega
  have hupper := log2_lt_of_mul_eq hlt hnum h
  have hs : shift b = num.log2 + 1074 - (den.log2 + 53) ∨
      shift b = num.log2 + 1074 - (den.log2 + 53) + 1 ∧ 2 ^ 52 ≤ significand b := by
    rcases shift_eq_zero_or_le_significand b with h0 | h52
    · left; omega
    · have hlower := lt_log2_of_mul_eq h52 (Nat.pos_iff_ne_zero.mp hden) h
      omega
  unfold shiftFor
  generalize num.log2 + 1074 - (den.log2 + 53) = s at hs
  simp only [inUnits_eq, two_mul_hiddenBit, h]
  rcases hs with rfl | ⟨hs, h52⟩
  · have hq : significand b * 2 ^ shift b * den / (den * 2 ^ shift b) = significand b := by
      rw [mul_assoc, mul_comm den, Nat.mul_div_cancel _ (by positivity)]
    rw [hq, if_pos hlt]
  · have hq : significand b * 2 ^ shift b * den / (den * 2 ^ s) = 2 * significand b := by
      rw [hs, show significand b * 2 ^ (s + 1) * den = 2 * significand b * (den * 2 ^ s) by ring,
        Nat.mul_div_cancel _ (by positivity)]
    rw [hq, if_neg (by omega), hs]

/-- A division without remainder is not rounded. -/
theorem roundHalfEven_mul {m d : Nat} (hd : 0 < d) : roundHalfEven (m * d) d = m := by
  unfold roundHalfEven
  rw [Nat.mul_div_cancel _ hd, Nat.mul_mod_left]
  exact if_pos hd

/-- **A fraction that equals a float rounds to it.** -/
theorem nearestFraction_eq {num den b : Nat} (hb : 0 < b) (hfin : b < infinite) (hden : 0 < den)
    (h : num * 2 ^ 1074 = significand b * 2 ^ shift b * den) : nearestFraction num den = b := by
  have hround : roundHalfEven (num * 2 ^ 1074) (den * 2 ^ shift b) = significand b := by
    rw [h, mul_assoc, mul_comm _ den]
    exact roundHalfEven_mul (by positivity)
  simp only [nearestFraction, inUnits_eq, shiftFor_eq hb hden h, hround, assemble_significand_shift]
  exact Nat.min_eq_left hfin.le

/-! ## The early exits -/

theorem two_pow_le_ten_pow (k : Nat) : 2 ^ (3 * k) ≤ 10 ^ k := by
  rw [pow_mul]
  exact Nat.pow_le_pow_left (by norm_num) k

/-- A decimal that equals a finite magnitude is not so large as to be settled as infinite. -/
theorem exponent_le_of_eq {n m s k u : Nat} (hn : 0 < n) (hm : m < 2 ^ 53) (hs : s ≤ 971 + u)
    (h : n * 10 ^ k * 2 ^ u = m * 2 ^ s) : k ≤ 400 := by
  have hten := two_pow_le_ten_pow k
  have hpow : 2 ^ (3 * k + u) < 2 ^ (53 + s) := by
    calc 2 ^ (3 * k + u) = 1 * 2 ^ (3 * k) * 2 ^ u := by rw [one_mul, pow_add]
      _ ≤ n * 10 ^ k * 2 ^ u := by
          gcongr
          exact hn
      _ = m * 2 ^ s := h
      _ < 2 ^ 53 * 2 ^ s := Nat.mul_lt_mul_of_pos_right hm (by positivity)
      _ = 2 ^ (53 + s) := by rw [← pow_add]
  have := (Nat.pow_lt_pow_iff_right (by norm_num : 1 < 2)).mp hpow
  omega

/-- A decimal that equals a positive magnitude is not so small as to be settled as zero. -/
theorem exponent_le_log2_of_eq {n m s k u : Nat} (hm : 0 < m) (hu : u ≤ 1199)
    (h : n * 2 ^ u = m * 2 ^ s * 10 ^ k) : k ≤ 400 + n.log2 := by
  have hpow : 2 ^ (3 * k) < 2 ^ (n.log2 + 1 + u) := by
    calc 2 ^ (3 * k) ≤ 10 ^ k := two_pow_le_ten_pow k
      _ = 1 * 10 ^ k := (one_mul _).symm
      _ ≤ m * 2 ^ s * 10 ^ k := Nat.mul_le_mul_right _ (Nat.mul_pos hm (by positivity))
      _ = n * 2 ^ u := h.symm
      _ < 2 ^ (n.log2 + 1) * 2 ^ u := Nat.mul_lt_mul_of_pos_right Nat.lt_log2_self (by positivity)
      _ = 2 ^ (n.log2 + 1 + u) := by rw [← pow_add]
  have := (Nat.pow_lt_pow_iff_right (by norm_num : 1 < 2)).mp hpow
  omega

/-! ## Reading -/

theorem value_pos {b : Nat} (hb : 0 < b) : 0 < Binary64.value b := by
  have hsig : (0 : Rat) < significand b := by exact_mod_cast significand_pos hb
  exact mul_pos hsig (zpow_pos (by norm_num) _)

theorem nearest_eq_of_value_eq {n b : Nat} {e : Int} (hb : 0 < b) (hfin : b < infinite)
    (h : (⟨n, e⟩ : Decimal).value = Binary64.value b) : nearest n e = b := by
  have hn : n ≠ 0 := by
    rintro rfl
    have := value_pos hb
    simp [← h, value] at this
  unfold nearest
  simp only [Nat.pow_eq]
  rw [if_neg hn]
  rcases Int.le_total 0 e with he | he
  · obtain ⟨k, rfl⟩ := Int.eq_ofNat_of_zero_le he
    have heq := mul_pow_eq_of_value_eq h
    have hs := shift_le hfin
    have hk := exponent_le_of_eq (Nat.pos_of_ne_zero hn) (significand_lt b) (by omega) heq
    rw [if_neg (by omega), if_neg (by omega), if_pos he, Int.toNat_natCast]
    exact nearestFraction_eq hb hfin Nat.one_pos (by rw [heq, Nat.mul_one])
  · obtain ⟨k, hk⟩ := Int.eq_ofNat_of_zero_le (Int.neg_nonneg_of_nonpos he)
    obtain rfl : e = -(k : Int) := by omega
    have heq := mul_eq_of_value_eq h
    have hk := exponent_le_log2_of_eq (significand_pos hb) (by omega) heq
    rw [if_neg (by omega), if_neg (by omega)]
    split
    next h0 =>
      obtain rfl : k = 0 := by omega
      show nearestFraction (n * 10 ^ 0) 1 = b
      rw [pow_zero, Nat.mul_one]
      exact nearestFraction_eq hb hfin Nat.one_pos (by rw [heq, pow_zero])
    next h0 =>
      rw [Int.neg_neg, Int.toNat_natCast]
      exact nearestFraction_eq hb hfin (by positivity) heq

/-- **A decimal that equals a float reads as it.** -/
theorem toMagnitude_eq_of_value_eq {d : Decimal} {b : Nat} (hb : 0 < b) (hfin : b < infinite)
    (h : d.value = Binary64.value b) : d.toMagnitude = b :=
  nearest_eq_of_value_eq hb hfin ((value_trim d).trans h)

theorem toMagnitude_zero (e : Int) : (⟨0, e⟩ : Decimal).toMagnitude = 0 := by
  rw [toMagnitude, trim, dif_neg (fun h => h.1 rfl), nearest, if_pos rfl]

/-- **The shortest digits read back.** -/
theorem toMagnitude_shortest {b : Nat} (hfin : b < infinite) : (shortest b).toMagnitude = b := by
  rcases Nat.eq_zero_or_pos b with rfl | hb
  · exact toMagnitude_zero 0
  · rcases shortest_eq_exact_or_toMagnitude (Nat.pos_iff_ne_zero.mp hb) with h | h
    · rw [h]
      exact toMagnitude_eq_of_value_eq hb hfin (value_exact b)
    · exact h

end Decimal

end DeferredArrays
