import DeferredArrays.Number.Power
import Mathlib.NumberTheory.Multiplicity
import Mathlib.RingTheory.Int.Basic
import Mathlib.Tactic.Ring

/-!
# Proofs/Number/Power — powers of wrapping integers, and exponents that are cut off

Wrapping multiplication is multiplication modulo `2 ^ 64`, so the power of a wrapping integer is the
exact power, wrapped around once at the end (`power_eq_ofInt`).  An exponent beyond the largest that
is honoured is cut off, which makes another power of it.  Modulo `2 ^ 64` the two powers may agree
all the same (`ofInt_pow_min_eq_iff`): those of an even base are both zero, and those of an odd base
differ by a factor that lifting the exponent tells from one.
-/

namespace DeferredArrays.Number

/-! ## Powers wrap around once -/

theorem product_eq_ofInt (a : Int64) (n : Nat) : product a n = Int64.ofInt (a.toInt ^ n) := by
  induction n with
  | zero => rw [product, pow_zero]; rfl
  | succ n ih => rw [product, ih, pow_succ', Int64.ofInt_mul, Int64.ofInt_toInt]

/-- **A power of a wrapping integer is the exact power, wrapped around.** -/
theorem power_eq_ofInt (a : Int64) (n : Nat) : power a n = Int64.ofInt (a.toInt ^ n) := by
  rw [power_eq, product_eq_ofInt]

/-- The power of two elements, with the exponent cut off. -/
theorem boundedPower_eq_ofInt {a b : Int64} (hb : 0 ≤ b) :
    boundedPower a b = some (Int64.ofInt (a.toInt ^ min b.toInt.toNat largestExponent)) := by
  rw [boundedPower, if_neg (Int64.not_lt.mpr hb), power_eq_ofInt]

/-- Integers that wrap around to the same are congruent. -/
theorem ofInt_eq_ofInt_iff {m k : Int} : Int64.ofInt m = Int64.ofInt k ↔ 2 ^ 64 ∣ m - k := by
  rw [← Int64.toInt_inj, Int64.toInt_ofInt, Int64.toInt_ofInt,
    Int.bmod_eq_bmod_iff_bmod_sub_eq_zero, ← Int.dvd_iff_bmod_eq_zero]
  rfl

/-! ## Powers modulo a power of two -/

section PowersOfTwo

variable {x : Int} {d k n : Nat}

/-- Powers of an even base with a large exponent are zero. -/
theorem two_pow_dvd_pow (hx : Even x) (hn : k ≤ n) : 2 ^ k ∣ x ^ n :=
  (pow_dvd_pow 2 hn).trans (pow_dvd_pow_of_dvd hx.two_dvd n)

/-- Powers of an odd base can be cancelled. -/
theorem two_pow_dvd_pow_mul_iff (hx : Odd x) {z : Int} : 2 ^ k ∣ x ^ n * z ↔ 2 ^ k ∣ z := by
  have hcoprime : IsCoprime (2 ^ k : Int) (x ^ n) := (Int.isCoprime_two_left.mpr hx).pow
  exact ⟨hcoprime.dvd_of_dvd_mul_left, fun h => h.mul_left _⟩

/-- An odd power of an odd base is as near to one as the base … -/
theorem two_pow_dvd_pow_sub_one_iff_of_odd (hx : Odd x) (hd : Odd d) :
    2 ^ k ∣ x ^ d - 1 ↔ 2 ^ k ∣ x - 1 := by
  have hx1 : (2 : Int) ∣ x - 1 := (hx.sub_odd odd_one).two_dvd
  have hx2 : ¬ (2 : Int) ∣ x := fun h => Int.not_even_iff_odd.mpr hx (even_iff_two_dvd.mpr h)
  have hd2 : ¬ (2 : Int) ∣ d := fun h => Nat.not_even_iff_odd.mpr hd
    (even_iff_two_dvd.mpr (Int.natCast_dvd_natCast.mp h))
  have hlift := emultiplicity_pow_sub_pow_of_prime Int.prime_two hx1 hx2 hd2
  rw [one_pow] at hlift
  rw [pow_dvd_iff_le_emultiplicity, hlift, ← pow_dvd_iff_le_emultiplicity]

/-- … and an even one is nearer, by as much as lifting the exponent says. -/
theorem two_pow_dvd_pow_sub_one_iff_of_even (hx : Odd x) (hd : Even d) :
    2 ^ k ∣ x ^ d - 1 ↔ 2 ^ (k + 1) ∣ (x ^ 2 - 1) * d := by
  have hx1 : (2 : Int) ∣ x - 1 := (hx.sub_odd odd_one).two_dvd
  have hx2 : ¬ (2 : Int) ∣ x := fun h => Int.not_even_iff_odd.mpr hx (even_iff_two_dvd.mpr h)
  have hlift := Int.two_pow_sub_pow hx1 hx2 hd
  rw [one_pow, ← emultiplicity_mul Int.prime_two, ← emultiplicity_mul Int.prime_two] at hlift
  have hsquare : (x ^ 2 - 1) * d = (x + 1) * (x - 1) * d := by ring
  rw [hsquare, pow_dvd_iff_le_emultiplicity, pow_dvd_iff_le_emultiplicity, ← hlift, Nat.cast_succ]
  exact (ENat.add_le_add_iff_right ENat.one_ne_top).symm

end PowersOfTwo

/-! ## Exponents that are cut off -/

/-- **The power that an exponent stands for is not changed by cutting it off**: the exponent is small
enough, the base is even or one, or the two exponents are a multiple of the order of the base
apart. -/
def Honours (x y : Int64) : Prop :=
  y.toInt ≤ largestExponent ∨ Even x.toInt ∨ x = 1 ∨
    Odd y.toInt ∧ 2 ^ 65 ∣ (x.toInt ^ 2 - 1) * (y.toInt - largestExponent)

theorem eq_one_iff_dvd {x : Int64} : x = 1 ↔ 2 ^ 64 ∣ x.toInt - 1 := by
  constructor
  · rintro rfl
    exact ⟨0, rfl⟩
  · intro h
    have hlo := x.le_toInt
    have hhi := x.toInt_lt
    have hone : x.toInt = 1 := by omega
    exact Int64.toInt_inj.mp hone

/-- **When cutting off an exponent shows**: the power is the exact one, wrapped around, if and only
if the exponent is honoured. -/
theorem ofInt_pow_min_eq_iff {x y : Int64} (hy : 0 ≤ y) :
    Int64.ofInt (x.toInt ^ min y.toInt.toNat largestExponent)
      = Int64.ofInt (x.toInt ^ y.toInt.toNat) ↔ Honours x y := by
  have hy0 : 0 ≤ y.toInt := Int64.le_iff_toInt_le.mp hy
  by_cases hsmall : y.toInt ≤ largestExponent
  · rw [Nat.min_eq_left (by omega)]
    exact iff_of_true rfl (.inl hsmall)
  -- what is left over beyond the largest exponent decides
  obtain ⟨d, hd⟩ : ∃ d : Nat, y.toInt = largestExponent + d :=
    ⟨(y.toInt - largestExponent).toNat, by omega⟩
  have hexp : y.toInt.toNat = largestExponent + d := by omega
  have hfactor : x.toInt ^ (largestExponent + d) - x.toInt ^ largestExponent
      = x.toInt ^ largestExponent * (x.toInt ^ d - 1) := by ring
  have hrest : y.toInt - largestExponent = d := by omega
  have hparity : Odd y.toInt ↔ Even d := by
    have hlargest : Odd largestExponent := by decide
    rw [hd, ← Nat.cast_add, Int.odd_coe_nat, Nat.odd_add]
    exact ⟨fun h => h.mp hlargest, iff_of_true hlargest⟩
  rw [eq_comm, ofInt_eq_ofInt_iff, hexp, Nat.min_eq_right (Nat.le_add_right _ _), hfactor, Honours,
    hrest, hparity]
  by_cases hx : Even x.toInt
  · exact iff_of_true ((two_pow_dvd_pow hx (by decide)).mul_right _) (.inr (.inl hx))
  have hodd : Odd x.toInt := Int.not_even_iff_odd.mp hx
  rw [two_pow_dvd_pow_mul_iff hodd]
  by_cases hdeven : Even d
  · rw [two_pow_dvd_pow_sub_one_iff_of_even hodd hdeven]
    refine ⟨fun h => .inr (.inr (.inr ⟨hdeven, h⟩)), ?_⟩
    rintro (h | h | rfl | ⟨-, h⟩)
    · exact absurd h hsmall
    · exact absurd h hx
    · exact (dvd_zero _).trans (dvd_of_eq (zero_mul _).symm)
    · exact h
  · rw [two_pow_dvd_pow_sub_one_iff_of_odd hodd (Nat.not_even_iff_odd.mp hdeven), ← eq_one_iff_dvd]
    simp [hsmall, hx, hdeven]

end DeferredArrays.Number
