import DeferredArrays.Number.Conversion
import DeferredArrays.Proofs.Number.Bits
import Mathlib.Algebra.Order.Field.Power
import Mathlib.Algebra.Order.Field.Rat
import Mathlib.Tactic.FieldSimp
import Mathlib.Tactic.Linarith
import Mathlib.Tactic.NormNum
import Mathlib.Tactic.Positivity
import Mathlib.Tactic.Ring

/-!
# Proofs/Number/Integers — floats hold the integers up to `2 ^ 53`

An unpacked float stands for an integer (`Stands`) when it is a zero, or when its significand has 53
digits and its value is that integer.  Rounding leaves a value alone that such a significand can
hold (`round_eq`), and every integer up to `2 ^ 53` is one (`exists_normal`).  So arithmetic is exact
as long as its result is not larger, comparison is that of the integers, and the way back to them is
the identity.

The sign of a zero is all that an integer leaves open: an integer determines the float that stands
for it, except that zero has two (`Exact.eq_or`).
-/

namespace DeferredArrays.Binary64

open Float.Model Float.Model.UnpackedFloat

/-! ## Rounding what needs no rounding -/

/-- A significand with all its digits, at an exponent that has a field. -/
structure Normal (q : Nat) (t : Int) : Prop where
  /-- The first of the 53 digits is not zero. -/
  le_significand : 2 ^ 52 ≤ q
  /-- There are no more digits. -/
  significand_lt : q < 2 ^ 53
  /-- The exponent is not below the field … -/
  le_exponent : -1074 ≤ t
  /-- … and not above it. -/
  exponent_le : t ≤ 971

variable {q q' m : Nat} {t t' e : Int} {s : Sign}

theorem Normal.pos (h : Normal q t) : 0 < q := Nat.lt_of_lt_of_le (by norm_num) h.le_significand

theorem Normal.log2_eq (h : Normal q t) : q.log2 = 52 :=
  (Nat.log2_eq_iff h.pos.ne').mpr ⟨h.le_significand, h.significand_lt⟩

theorem log2_mul_two_pow (hm : m ≠ 0) (k : Nat) : (m * 2 ^ k).log2 = m.log2 + k := by
  refine (Nat.log2_eq_iff (Nat.mul_ne_zero hm (by positivity))).mpr ⟨?_, ?_⟩
  · rw [pow_add]
    exact Nat.mul_le_mul_right _ (Nat.log2_self_le hm)
  · rw [show m.log2 + k + 1 = m.log2 + 1 + k by omega, pow_add]
    exact Nat.mul_lt_mul_of_pos_right Nat.lt_log2_self (by positivity)

/-- The exponent that rounding aims at, found from the first digit. -/
theorem targetExponent_eq (ht : -1074 ≤ t) (hlog : (m.log2 : Int) + e = 52 + t) :
    Format.binary64.targetExponent (totalExponent m e) = t := by
  simp only [Format.targetExponent, totalExponent, Format.mantissaBits, Format.minExponent]
  omega

/-- **Shifting out zeros loses nothing**, by induction on their number. -/
theorem shiftRight_exact (q k : Nat) :
    ExtendedMantissa.ofMantissaAndAccuracy (q * 2 ^ k) .exact >>> k
      = ExtendedMantissa.ofMantissaAndAccuracy q .exact := by
  induction k generalizing q with
  | zero => rw [pow_zero, mul_one]; rfl
  | succ k ih =>
    have hstep : ∀ em : ExtendedMantissa, em >>> (k + 1) = (em >>> k).shiftRightOne := fun _ => rfl
    rw [hstep, pow_succ', ← mul_assoc, ih]
    simp [ExtendedMantissa.shiftRightOne, ExtendedMantissa.ofMantissaAndAccuracy]

/-- A significand with zeros appended is rounded to itself. -/
theorem roundWithAccuracy_eq (h : Normal q t) (s : Sign) (k : Nat) :
    roundWithAccuracy Format.binary64 s (q * 2 ^ k) (t - k) .exact = .finite s q t h.pos := by
  have hlog : ((q * 2 ^ k).log2 : Int) + (t - k) = 52 + t := by
    rw [log2_mul_two_pow h.pos.ne', h.log2_eq]
    omega
  have hfirst : shiftToTargetExponent Format.binary64 (q * 2 ^ k) (t - k) .exact
      = (ExtendedMantissa.ofMantissaAndAccuracy q .exact, t) := by
    rw [shiftToTargetExponent, targetExponent_eq h.le_exponent hlog, shiftToExponent]
    simp only [show (t - (t - (k : Int))).toNat = k by omega, shiftRight_exact]
    congr 1
    omega
  have hsecond : shiftToTargetExponent Format.binary64 q t .exact
      = (ExtendedMantissa.ofMantissaAndAccuracy q .exact, t) := by
    rw [shiftToTargetExponent, targetExponent_eq h.le_exponent (by rw [h.log2_eq]; rfl),
      shiftToExponent]
    simp only [sub_self, Int.toNat_zero, Nat.cast_zero, add_zero]
    rfl
  have hrounded : (ExtendedMantissa.ofMantissaAndAccuracy q .exact).roundedMantissa = q := rfl
  have hmantissa : (ExtendedMantissa.ofMantissaAndAccuracy q .exact).mantissa = q := rfl
  simp only [roundWithAccuracy, hfirst, hrounded, hsecond, hmantissa, h.pos.ne', dite_false]

/-- Two scaled naturals of one value, the first at the larger exponent. -/
theorem eq_mul_of_value_eq {a b : Nat} {e t : Int} (het : e ≤ t)
    (hval : (a : Rat) * 2 ^ e = b * 2 ^ t) : a = b * 2 ^ (t - e).toNat := by
  have hte : t = e + ((t - e).toNat : Int) := by omega
  rw [hte, zpow_add₀ (by norm_num), mul_left_comm, mul_comm,
    mul_right_inj' (by positivity), zpow_natCast] at hval
  exact_mod_cast hval

/-- Where a significand with its digits stands, the first digit of the same value stands. -/
theorem log2_add_of_value_eq (h : Normal q t) (hval : (m : Rat) * 2 ^ e = q * 2 ^ t) :
    (m.log2 : Int) + e = 52 + t := by
  rcases le_total e t with het | hte
  · rw [eq_mul_of_value_eq het hval, log2_mul_two_pow h.pos.ne', h.log2_eq]
    push_cast
    omega
  · have hq := eq_mul_of_value_eq hte hval.symm
    have hm : m ≠ 0 := by
      rintro rfl
      exact h.pos.ne' (by simpa using hq)
    have hlog := h.log2_eq
    rw [hq, log2_mul_two_pow hm] at hlog
    omega

/-- Rounding from below the exponent keeps a value that a significand can hold. -/
theorem roundWithAccuracy_eq_of_value (h : Normal q t) (het : e ≤ t)
    (hval : (m : Rat) * 2 ^ e = q * 2 ^ t) :
    roundWithAccuracy Format.binary64 s m e .exact = .finite s q t h.pos := by
  rw [eq_mul_of_value_eq het hval, ← roundWithAccuracy_eq h s (t - e).toNat]
  congr 1
  omega

/-- **Rounding keeps a value that a significand can hold.** -/
theorem round_eq (h : Normal q t) (hval : (m : Rat) * 2 ^ e = q * 2 ^ t) :
    UnpackedFloat.round Format.binary64 s m e = .finite s q t h.pos := by
  have htarget := targetExponent_eq h.le_exponent (log2_add_of_value_eq h hval)
  simp only [UnpackedFloat.round, htarget, decreaseExponent]
  rcases le_total e t with het | hte
  · simp only [show (e - t).toNat = 0 by omega, Nat.shiftLeft_zero, Nat.cast_zero, sub_zero]
    exact roundWithAccuracy_eq_of_value h het hval
  · have hq : m <<< (e - t).toNat = q := by
      rw [Nat.shiftLeft_eq, ← eq_mul_of_value_eq hte hval.symm]
    rw [hq, show e - ((e - t).toNat : Int) = t by omega]
    exact roundWithAccuracy_eq_of_value h le_rfl rfl

/-- A value has one significand with all its digits. -/
theorem Normal.eq_of_value_eq (h : Normal q t) (h' : Normal q' t')
    (hval : (q : Rat) * 2 ^ t = q' * 2 ^ t') : q = q' ∧ t = t' := by
  have hround := (round_eq (s := .positive) h rfl).symm.trans (round_eq h' hval)
  simpa using hround

/-- **Every integer up to `2 ^ 53` has a significand.** -/
theorem exists_normal (hm : m ≠ 0) (hle : m ≤ 2 ^ 53) :
    ∃ q t, Normal q t ∧ (q : Rat) * 2 ^ t = m := by
  have hlo := Nat.log2_self_le hm
  have hhi := @Nat.lt_log2_self m
  by_cases hk : m.log2 ≤ 52
  · refine ⟨m * 2 ^ (52 - m.log2), m.log2 - 52, ⟨?_, ?_, by omega, by omega⟩, ?_⟩
    · calc 2 ^ 52 = 2 ^ m.log2 * 2 ^ (52 - m.log2) := by rw [← pow_add]; congr 1; omega
        _ ≤ m * 2 ^ (52 - m.log2) := Nat.mul_le_mul_right _ hlo
    · calc m * 2 ^ (52 - m.log2) < 2 ^ (m.log2 + 1) * 2 ^ (52 - m.log2) :=
            Nat.mul_lt_mul_of_pos_right hhi (by positivity)
        _ = 2 ^ 53 := by rw [← pow_add]; congr 1; omega
    · rw [show (m.log2 : Int) - 52 = -((52 - m.log2 : Nat) : Int) by omega, zpow_neg, zpow_natCast]
      push_cast
      field_simp
  · have h53 : 2 ^ 53 ≤ m := (Nat.pow_le_pow_right (by norm_num) (by omega)).trans hlo
    obtain rfl : m = 2 ^ 53 := le_antisymm hle h53
    exact ⟨2 ^ 52, 1, ⟨by norm_num, by norm_num, by norm_num, by norm_num⟩, by norm_num⟩

/-! ## Standing for an integer -/

/-- **An unpacked float stands for an integer**: it is a zero, or its value is the integer. -/
inductive Stands : UnpackedFloat → Int → Prop
  | zero (s : Sign) : Stands (.zero s) 0
  | finite {s : Sign} {q : Nat} {t n : Int} (h : Normal q t)
      (hn : (s.apply q : Rat) * 2 ^ t = n) : Stands (.finite s q t h.pos) n

namespace Stands

variable {u v : UnpackedFloat} {n k : Int}

theorem apply_eq (s : Sign) (n : Int) : s.apply n = s.apply 1 * n := by
  cases s <;> simp [Sign.apply]

theorem apply_neg (s : Sign) (n : Int) : (-s).apply n = -s.apply n := by
  cases s
  · exact (neg_neg n).symm
  · rfl

theorem apply_mul (s s' : Sign) (m n : Int) : (s * s').apply (m * n) = s.apply m * s'.apply n := by
  cases s <;> cases s'
  · exact (neg_mul_neg m n).symm
  · exact (neg_mul m n).symm
  · exact (mul_neg m n).symm
  · rfl

/-- The magnitude of what a finite float stands for. -/
theorem natAbs_eq (hn : (s.apply q : Rat) * 2 ^ t = n) : (q : Rat) * 2 ^ t = n.natAbs := by
  have hcast : ((n.natAbs : Int) : Rat) = |(n : Rat)| := by rw [Int.natCast_natAbs, Int.cast_abs]
  rw [← Int.cast_natCast (n.natAbs), hcast, ← hn, abs_mul, abs_of_pos (a := (2 : Rat) ^ t)
    (by positivity)]
  cases s <;> simp [Sign.apply]

theorem ne_zero (h : Normal q t) (hn : (s.apply q : Rat) * 2 ^ t = n) : n ≠ 0 := by
  rintro rfl
  have hq : (0 : Rat) < q := by exact_mod_cast h.pos
  have habs : (q : Rat) * 2 ^ t = 0 := by simpa using natAbs_eq hn
  exact (mul_pos hq (by positivity : (0 : Rat) < 2 ^ t)).ne' habs

theorem pos_iff (h : Normal q t) (hn : (s.apply q : Rat) * 2 ^ t = n) : 0 < n ↔ s = .positive := by
  have hq : (0 : Rat) < q * 2 ^ t := mul_pos (by exact_mod_cast h.pos) (by positivity)
  cases s with
  | positive =>
    have hn : (q : Rat) * 2 ^ t = n := by simpa [Sign.apply] using hn
    simp only [iff_true]
    exact_mod_cast hn ▸ hq
  | negative =>
    have hn : -((q : Rat) * 2 ^ t) = n := by simpa [Sign.apply] using hn
    simp only [reduceCtorEq, iff_false, not_lt]
    have : (n : Rat) ≤ 0 := by linarith
    exact_mod_cast this

/-- What stands for an integer that is not zero is determined by it. -/
theorem unique (hu : Stands u n) (hv : Stands v n) (hn : n ≠ 0) : u = v := by
  cases hu with
  | zero => exact absurd rfl hn
  | finite h hval =>
    cases hv with
    | zero => exact absurd rfl hn
    | @finite s' _ _ _ h' hval' =>
      obtain ⟨rfl, rfl⟩ := h.eq_of_value_eq h' ((natAbs_eq hval).trans (natAbs_eq hval').symm)
      have hsign := (pos_iff h hval).symm.trans (pos_iff h' hval')
      congr 1
      revert hsign
      rename_i s _ _
      cases s <;> cases s' <;> simp

theorem eq_zero (hu : Stands u 0) : ∃ s, u = .zero s := by
  cases hu with
  | zero s => exact ⟨s, rfl⟩
  | finite h hval => exact absurd rfl (ne_zero h hval)

/-! ## Arithmetic -/

/-- **A rounded value that is a small integer stands for it.** -/
theorem normalize {a e : Int} (hval : (a : Rat) * 2 ^ e = n) (hn : n.natAbs ≤ 2 ^ 53) (s : Sign) :
    Stands (UnpackedFloat.normalize Format.binary64 a e s) n := by
  have htwo : (0 : Rat) < 2 ^ e := by positivity
  rcases lt_trichotomy a 0 with ha | rfl | ha
  · have hneg : n < 0 := by
      have : (n : Rat) < 0 := hval ▸ mul_neg_of_neg_of_pos (by exact_mod_cast ha) htwo
      exact_mod_cast this
    obtain ⟨q, t, h, hq⟩ := exists_normal (Int.natAbs_ne_zero.mpr hneg.ne) hn
    have hcast : (n.natAbs : Rat) = -n := by
      rw [← Int.cast_natCast, show ((n.natAbs : Nat) : Int) = -n by omega, Int.cast_neg]
    have hround : ((-a).toNat : Rat) * 2 ^ e = q * 2 ^ t := by
      rw [hq, hcast, ← hval, ← Int.cast_natCast, show (((-a).toNat : Nat) : Int) = -a by omega,
        Int.cast_neg, neg_mul]
    rw [UnpackedFloat.normalize, Int.compare_eq_lt.mpr ha]
    simp only [round_eq h hround]
    refine .finite h ?_
    rw [Sign.apply, Int.cast_neg, Int.cast_natCast, neg_mul, hq, hcast, neg_neg]
  · obtain rfl : n = 0 := by
      have : (n : Rat) = 0 := by rw [← hval]; simp
      exact_mod_cast this
    exact .zero s
  · have hpos : 0 < n := by
      have : (0 : Rat) < n := hval ▸ mul_pos (by exact_mod_cast ha) htwo
      exact_mod_cast this
    obtain ⟨q, t, h, hq⟩ := exists_normal (Int.natAbs_ne_zero.mpr hpos.ne') hn
    have hcast : (n.natAbs : Rat) = n := by
      rw [← Int.cast_natCast, show ((n.natAbs : Nat) : Int) = n by omega]
    have hround : (a.toNat : Rat) * 2 ^ e = q * 2 ^ t := by
      rw [hq, hcast, ← hval, ← Int.cast_natCast, show ((a.toNat : Nat) : Int) = a by omega]
    rw [UnpackedFloat.normalize, Int.compare_eq_gt.mpr ha]
    simp only [round_eq h hround]
    refine .finite h ?_
    rw [Sign.apply, Int.cast_natCast, hq, hcast]

/-- An operand of a sum, brought to the smaller exponent. -/
theorem apply_shiftLeft {e' : Int} (he : e' ≤ e) :
    (s.apply ((q <<< (e - e').toNat : Nat) : Int) : Rat) * 2 ^ e' = (s.apply q : Rat) * 2 ^ e := by
  have hexp : e = e' + ((e - e').toNat : Int) := by omega
  rw [apply_eq, apply_eq s q, Nat.shiftLeft_eq]
  conv => rhs; rw [hexp, zpow_add₀ (by norm_num), zpow_natCast]
  push_cast
  ring

theorem add (hu : Stands u n) (hv : Stands v k) (hsum : (n + k).natAbs ≤ 2 ^ 53) :
    Stands (UnpackedFloat.add Format.binary64 u v) (n + k) := by
  cases hu with
  | zero s =>
    cases hv with
    | zero s' => cases s <;> cases s' <;> exact .zero _
    | finite h hval => exact (zero_add k).symm ▸ .finite h hval
  | @finite s q t _ h hval =>
    cases hv with
    | zero => exact (add_zero n).symm ▸ .finite h hval
    | @finite s' q' t' _ h' hval' =>
      refine normalize ?_ hsum .positive
      rw [Int.cast_add, add_mul, apply_shiftLeft (min_le_left t t'),
        apply_shiftLeft (min_le_right t t'), hval, hval', Int.cast_add]

theorem neg (hu : Stands u n) : Stands u.neg (-n) := by
  cases hu with
  | zero s => exact .zero _
  | finite h hval =>
    refine .finite h ?_
    rw [apply_neg, Int.cast_neg, neg_mul, hval, Int.cast_neg]

theorem sub (hu : Stands u n) (hv : Stands v k) (hdiff : (n - k).natAbs ≤ 2 ^ 53) :
    Stands (UnpackedFloat.sub Format.binary64 u v) (n - k) := by
  cases hu with
  | zero s =>
    cases hv with
    | zero s' => cases s <;> cases s' <;> exact .zero _
    | finite h hval => exact (zero_sub k).symm ▸ neg (.finite h hval)
  | @finite s q t _ h hval =>
    cases hv with
    | zero => exact (sub_zero n).symm ▸ .finite h hval
    | @finite s' q' t' _ h' hval' =>
      refine normalize ?_ hdiff .positive
      rw [Int.cast_sub, sub_mul, apply_shiftLeft (min_le_left t t'),
        apply_shiftLeft (min_le_right t t'), hval, hval', Int.cast_sub]

theorem abs (hu : Stands u n) : Stands u.abs (n.natAbs : Int) := by
  cases hu with
  | zero s => exact .zero _
  | finite h hval =>
    refine .finite h ?_
    rw [Sign.apply, Int.cast_natCast, natAbs_eq hval, Int.cast_natCast]

theorem mul (hu : Stands u n) (hv : Stands v k) (hprod : (n * k).natAbs ≤ 2 ^ 53) :
    Stands (UnpackedFloat.mul Format.binary64 u v) (n * k) := by
  cases hu with
  | zero s =>
    rw [zero_mul]
    cases hv with
    | zero s' => exact .zero _
    | finite h hval => exact .zero _
  | @finite s q t _ h hval =>
    cases hv with
    | zero => exact (mul_zero n).symm ▸ .zero _
    | @finite s' q' t' _ h' hval' =>
      obtain ⟨r, w, hr, hrw⟩ := exists_normal
        (Int.natAbs_ne_zero.mpr (mul_ne_zero (ne_zero h hval) (ne_zero h' hval'))) hprod
      have hval2 : ((q * q' : Nat) : Rat) * 2 ^ (t + t') = r * 2 ^ w := by
        rw [hrw, Int.natAbs_mul, Nat.cast_mul, Nat.cast_mul, ← natAbs_eq hval, ← natAbs_eq hval',
          zpow_add₀ (by norm_num)]
        ring
      -- the product of two full significands is longer than one of them
      have hlong : r ≤ q * q' := by
        calc r ≤ 2 ^ 53 := hr.significand_lt.le
          _ ≤ 2 ^ 52 * 2 ^ 52 := by norm_num
          _ ≤ q * q' := Nat.mul_le_mul h.le_significand h'.le_significand
      have hexp : t + t' ≤ w := by
        have hr0 : (0 : Rat) < r := by exact_mod_cast hr.pos
        have hle : (r : Rat) * 2 ^ (t + t') ≤ r * 2 ^ w := by
          rw [← hval2]
          exact mul_le_mul_of_nonneg_right (by exact_mod_cast hlong) (by positivity)
        exact (zpow_le_zpow_iff_right₀ (by norm_num)).mp (le_of_mul_le_mul_left hle hr0)
      rw [UnpackedFloat.mul, roundWithAccuracy_eq_of_value hr hexp hval2]
      refine .finite hr ?_
      have hmul := congrArg (Int.cast (R := Rat)) (apply_mul s s' q q')
      rw [apply_eq] at hmul ⊢
      push_cast at hmul ⊢
      rw [mul_assoc, ← hval2, ← mul_assoc]
      push_cast
      rw [hmul, zpow_add₀ (by norm_num), ← hval, ← hval']
      ring

/-! ## Comparison -/

/-- Exponents first and then significands are smaller if the value is. -/
theorem compare_of_lt (h : Normal q t) (h' : Normal q' t')
    (hlt : (q : Rat) * 2 ^ t < q' * 2 ^ t') : (compare t t').then (compare q q') = .lt := by
  have htwo : (0 : Rat) < 2 ^ t := by positivity
  rcases lt_trichotomy t t' with htt | rfl | htt
  · rw [Int.compare_eq_lt.mpr htt]
    rfl
  · have hqq : q < q' := by exact_mod_cast lt_of_mul_lt_mul_right hlt htwo.le
    rw [Nat.compare_eq_lt.mpr hqq]
    simp
  · refine absurd hlt (not_lt.mpr ?_)
    have hq : (2 : Rat) ^ 52 ≤ q := by exact_mod_cast h.le_significand
    have hq' : (q' : Rat) ≤ 2 ^ 53 := by exact_mod_cast h'.significand_lt.le
    calc (q' : Rat) * 2 ^ t' ≤ 2 ^ 53 * 2 ^ t' := by gcongr
      _ = 2 ^ 52 * 2 ^ (t' + 1) := by rw [zpow_add₀ (by norm_num)]; ring
      _ ≤ q * 2 ^ t := by gcongr <;> [norm_num; omega]

/-- Exponents first and then significands compare as the values do. -/
theorem compare_values (h : Normal q t) (h' : Normal q' t')
    (hn : (q : Rat) * 2 ^ t = n) (hk : (q' : Rat) * 2 ^ t' = k) :
    (compare t t').then (compare q q') = compare n k := by
  rcases lt_trichotomy n k with hlt | rfl | hlt
  · rw [Int.compare_eq_lt.mpr hlt, compare_of_lt h h']
    rw [hn, hk]
    exact_mod_cast hlt
  · obtain ⟨rfl, rfl⟩ := h.eq_of_value_eq h' (hn.trans hk.symm)
    simp
  · have hswap : (compare t' t).then (compare q' q) = .lt := by
      refine compare_of_lt h' h ?_
      rw [hn, hk]
      exact_mod_cast hlt
    rw [Int.compare_eq_gt.mpr hlt, ← Ordering.swap_eq_lt, Ordering.swap_then,
      Int.compare_swap, Nat.compare_swap, hswap]

theorem compare_neg_neg (n k : Int) : compare (-k) (-n) = compare n k := by
  rcases lt_trichotomy n k with hlt | rfl | hlt
  · rw [Int.compare_eq_lt.mpr hlt, Int.compare_eq_lt.mpr (neg_lt_neg hlt)]
  · simp
  · rw [Int.compare_eq_gt.mpr hlt, Int.compare_eq_gt.mpr (neg_lt_neg hlt)]

/-- **Comparison is that of the integers.** -/
theorem compare (hu : Stands u n) (hv : Stands v k) : u.compare v = some (compare n k) := by
  cases hu with
  | zero s =>
    cases hv with
    | zero s' => rfl
    | @finite s' q' t' _ h' hval' =>
      have hpos := pos_iff h' hval'
      have hne := ne_zero h' hval'
      cases s' with
      | positive => rw [Int.compare_eq_lt.mpr (hpos.mpr rfl)]; rfl
      | negative =>
        have : ¬ 0 < k := fun hk => nomatch hpos.mp hk
        rw [Int.compare_eq_gt.mpr (by omega)]
        rfl
  | @finite s q t _ h hval =>
    have hpos := pos_iff h hval
    have hne := ne_zero h hval
    cases hv with
    | zero s' =>
      cases s with
      | positive => rw [Int.compare_eq_gt.mpr (hpos.mpr rfl)]; rfl
      | negative =>
        have : ¬ 0 < n := fun hn => nomatch hpos.mp hn
        rw [Int.compare_eq_lt.mpr (by omega)]
        rfl
    | @finite s' q' t' _ h' hval' =>
      have hpos' := pos_iff h' hval'
      have hne' := ne_zero h' hval'
      cases s with
      | positive =>
        have hn : 0 < n := hpos.mpr rfl
        cases s' with
        | positive =>
          rw [UnpackedFloat.compare, compare_values h h' hval hval']
        | negative =>
          have hk : ¬ 0 < k := fun hk => nomatch hpos'.mp hk
          rw [Int.compare_eq_gt.mpr (by omega)]
          rfl
      | negative =>
        have hn : ¬ 0 < n := fun hn => nomatch hpos.mp hn
        cases s' with
        | positive =>
          have hk : 0 < k := hpos'.mpr rfl
          rw [Int.compare_eq_lt.mpr (by omega)]
          rfl
        | negative =>
          have hval : (q : Rat) * 2 ^ t = (-n : Int) := by
            rw [Int.cast_neg, ← hval, Sign.apply, Int.cast_neg, neg_mul, neg_neg, Int.cast_natCast]
          have hval' : (q' : Rat) * 2 ^ t' = (-k : Int) := by
            rw [Int.cast_neg, ← hval', Sign.apply, Int.cast_neg, neg_mul, neg_neg,
              Int.cast_natCast]
          rw [UnpackedFloat.compare, compare_values h h' hval hval', Int.compare_swap,
            compare_neg_neg]

/-! ## From and to integers -/

theorem ofNat (hm : m ≤ 2 ^ 53) : Stands (UnpackedFloat.ofNat Format.binary64 m) m :=
  normalize (n := m) (by rw [zpow_zero, mul_one]) hm .positive

/-- **Truncation leaves an integer alone.** -/
theorem toInt_eq (hu : Stands u n) (a b : Int) : u.toInt a b = n := by
  cases hu with
  | zero s => rfl
  | @finite s q t _ h hval =>
    have hq := natAbs_eq hval
    have hsign : s.apply n.natAbs = n := by
      have hpos := pos_iff h hval
      cases s with
      | positive =>
        have := hpos.mpr rfl
        rw [Sign.apply]
        omega
      | negative =>
        have : ¬ 0 < n := fun hn => nomatch hpos.mp hn
        rw [Sign.apply]
        omega
    have hq' : (n.natAbs : Rat) * 2 ^ (0 : Int) = q * 2 ^ t := by rw [zpow_zero, mul_one, hq]
    rw [UnpackedFloat.toInt, roundToInt]
    rcases le_total t 0 with ht | ht
    · have hdigits : q = n.natAbs * 2 ^ (0 - t).toNat := eq_mul_of_value_eq ht hq'.symm
      simp only [decreaseExponent, sub_zero, show t.toNat = 0 by omega, Nat.shiftLeft_zero,
        shiftToExponent, Nat.cast_zero]
      rw [hdigits, shiftRight_exact]
      exact hsign
    · have hdigits : n.natAbs = q * 2 ^ (t - 0).toNat := eq_mul_of_value_eq ht hq'
      simp only [decreaseExponent, Nat.shiftLeft_eq, ← hdigits, shiftToExponent,
        show (0 - (t - ((t - 0).toNat : Int))).toNat = 0 by omega]
      exact hsign

/-! ## Packing -/

theorem toNat_hidden (h : Normal q t) : (1#1 ++ BitVec.ofNat 52 q).toNat = q := by
  have hlo := h.le_significand
  have hhi := h.significand_lt
  rw [BitVec.toNat_append, ← Nat.shiftLeft_add_eq_or_of_lt (BitVec.isLt _), BitVec.toNat_ofNat,
    Nat.shiftLeft_eq]
  simp only [BitVec.toNat_ofNat]
  omega

/-- Unpacking undoes packing of a full significand: the hidden bit is dropped and put back. -/
theorem unpack_pack_finite (h : Normal q t) (s : Sign) :
    UnpackedFloat.unpack Format.binary64 (UnpackedFloat.pack Format.binary64 (.finite s q t h.pos))
      = .finite s q t h.pos := by
  have hbias : Format.binary64.exponentBias = 1023 := by decide
  have hlo := h.le_exponent
  have hhi := h.exponent_le
  -- the field of the exponent, and what it is not
  obtain ⟨b, rfl⟩ : ∃ b : Nat, t = b - 1075 := ⟨(t + 1075).toNat, by omega⟩
  have hfield : (((b : Int) - 1075) + (Format.binary64.exponentBias : Int)
      + (Format.binary64.mantissaBitsWithoutImplicit : Int)).toNat = b := by
    have : Format.binary64.mantissaBitsWithoutImplicit = 52 := rfl
    omega
  have hfits : ¬ 2 ^ Format.binary64.exponentBits ≤ b + 1 := by
    rw [show (2 : Nat) ^ Format.binary64.exponentBits = 2048 from rfl]
    omega
  have htoNat : (BitVec.ofNat 11 b).toNat = b := by
    rw [BitVec.toNat_ofNat]
    omega
  have hmax : BitVec.ofNat 11 b ≠ -1#11 := fun he => by
    have := htoNat.symm.trans (congrArg BitVec.toNat he)
    simp at this
    omega
  have hmin : BitVec.ofNat 11 b ≠ 0#11 := fun he => by
    have := htoNat.symm.trans (congrArg BitVec.toNat he)
    simp at this
    omega
  have hlog : q.log2 + 1 = Format.binary64.mantissaBits := by rw [h.log2_eq]; rfl
  rw [UnpackedFloat.pack.eq_def]
  simp only [hfield]
  rw [if_neg hfits, if_pos hlog, UnpackedFloat.unpack]
  simp only [unpackExponent_packComponents, unpackMantissa_packComponents,
    unpackSign_packComponents, Sign.ofBitVec_toBitVec]
  rw [if_neg hmax, if_neg hmin]
  simp only [toNat_hidden h, htoNat, hbias]
  rfl

/-- **Unpacking undoes packing** of what stands for an integer. -/
theorem unpack_pack (hu : Stands u n) :
    UnpackedFloat.unpack Format.binary64 (UnpackedFloat.pack Format.binary64 u) = u := by
  cases hu with
  | zero s => cases s <;> rfl
  | @finite s q t _ h hval => exact unpack_pack_finite h s

end Stands

/-! ## Floats that are integers -/

/-- **A float is an integer** — either zero is the integer zero. -/
def Exact (x : Float) (n : Int) : Prop := Stands x.toModel.unpack n

variable {x y z : Float} {n k : Int}

/-- A float is recovered from its unpacked form. -/
theorem ofModel_pack_unpack (x : Float) : Float.ofModel (.pack x.toModel.unpack) = x :=
  Float.ofBits_toBits x

theorem exact_pack {u : UnpackedFloat} (hu : Stands u n) : Exact (Float.ofModel (.pack u)) n := by
  have hunpack : (Float.Model.pack u).unpack = u := hu.unpack_pack
  rwa [Exact, hunpack]

namespace Exact

theorem add (hx : Exact x n) (hy : Exact y k) (h : (n + k).natAbs ≤ 2 ^ 53) :
    Exact (x + y) (n + k) := exact_pack (Stands.add hx hy h)

theorem sub (hx : Exact x n) (hy : Exact y k) (h : (n - k).natAbs ≤ 2 ^ 53) :
    Exact (x - y) (n - k) := exact_pack (Stands.sub hx hy h)

theorem mul (hx : Exact x n) (hy : Exact y k) (h : (n * k).natAbs ≤ 2 ^ 53) :
    Exact (x * y) (n * k) := exact_pack (Stands.mul hx hy h)

theorem neg (hx : Exact x n) : Exact (-x) (-n) := exact_pack (Stands.neg hx)

theorem abs (hx : Exact x n) : Exact x.abs (n.natAbs : Int) := exact_pack (Stands.abs hx)

/-- **An integer other than zero is one float.** -/
theorem unique (hx : Exact x n) (hy : Exact y n) (hn : n ≠ 0) : x = y := by
  rw [← ofModel_pack_unpack x, ← ofModel_pack_unpack y, Stands.unique hx hy hn]

/-- **Zero is two floats.** -/
theorem eq_zero (hx : Exact x 0) : x = 0.0 ∨ x = -0.0 := by
  obtain ⟨s, hs⟩ := Stands.eq_zero hx
  rw [← ofModel_pack_unpack x, hs]
  cases s with
  | positive => exact .inl (by decide +kernel)
  | negative => exact .inr (by decide +kernel)

end Exact

/-! ## Comparison -/

theorem le_iff_compare :
    x ≤ y ↔ (x.toModel.unpack.compare y.toModel.unpack).any (·.isLE) = true := by
  change Float.le x y = true ↔ _
  rw [Float.le, decide_eq_true_iff]
  rfl

theorem lt_iff_compare :
    x < y ↔ (x.toModel.unpack.compare y.toModel.unpack == some .lt) = true := by
  change Float.lt x y = true ↔ _
  rw [Float.lt, decide_eq_true_iff]
  rfl

namespace Exact

/-- **Integers are compared as such.** -/
theorem le_iff (hx : Exact x n) (hy : Exact y k) : x ≤ y ↔ n ≤ k := by
  rw [le_iff_compare, Stands.compare hx hy]
  exact Int.isLE_compare

theorem lt_iff (hx : Exact x n) (hy : Exact y k) : x < y ↔ n < k := by
  rw [lt_iff_compare, Stands.compare hx hy, beq_iff_eq, Option.some.injEq]
  exact Int.compare_eq_lt

/-- The sign of a zero does not matter to a comparison from the left … -/
theorem le_congr_left (hx : Exact x n) (hy : Exact y n) : x ≤ z ↔ y ≤ z := by
  by_cases hn : n = 0
  · subst hn
    obtain ⟨s, hs⟩ := Stands.eq_zero hx
    obtain ⟨s', hs'⟩ := Stands.eq_zero hy
    rw [le_iff_compare, le_iff_compare, hs, hs']
    cases z.toModel.unpack with
    | finite s => cases s <;> rfl
    | infinity s => cases s <;> rfl
    | zero => rfl
    | notANumber => rfl
  · rw [hx.unique hy hn]

/-- … nor from the right. -/
theorem le_congr_right (hx : Exact x n) (hy : Exact y n) : z ≤ x ↔ z ≤ y := by
  by_cases hn : n = 0
  · subst hn
    obtain ⟨s, hs⟩ := Stands.eq_zero hx
    obtain ⟨s', hs'⟩ := Stands.eq_zero hy
    rw [le_iff_compare, le_iff_compare, hs, hs']
    cases z.toModel.unpack with
    | finite s => cases s <;> rfl
    | infinity s => cases s <;> rfl
    | zero => rfl
    | notANumber => rfl
  · rw [hx.unique hy hn]

end Exact

/-! ## Conversions -/

theorem exact_zero : Exact 0.0 0 := by
  have hzero : (0.0 : Float) = Float.ofModel (.pack (.zero .positive)) := by decide +kernel
  exact hzero ▸ exact_pack (.zero .positive)

theorem exact_toFloat {w : UInt64} (hw : w.toNat ≤ 2 ^ 53) : Exact w.toFloat w.toNat :=
  exact_pack (Stands.ofNat hw)

/-- **Integers up to `2 ^ 53` are converted exactly.** -/
theorem exact_intToFloat {i : Int64} (hi : i.toInt.natAbs ≤ 2 ^ 53) :
    Exact (Number.intToFloat i) i.toInt := by
  unfold Number.intToFloat
  split
  next hneg =>
    have hneg : i.toInt < 0 := Int64.lt_iff_toInt_lt.mp hneg
    have hw : i.toInt.natAbs.toUInt64.toNat = i.toInt.natAbs :=
      Nat.mod_eq_of_lt (Nat.lt_of_le_of_lt hi (by norm_num))
    have hx := (exact_toFloat (w := i.toInt.natAbs.toUInt64) (by rwa [hw])).neg
    rwa [hw, show -((i.toInt.natAbs : Nat) : Int) = i.toInt by omega] at hx
  next hneg =>
    have hpos : 0 ≤ i.toInt := not_lt.mp fun h => hneg (Int64.lt_iff_toInt_lt.mpr h)
    have hw : (i.toUInt64.toNat : Int) = i.toInt := by
      rw [Int64.toNat_toUInt64_of_le (Int64.le_iff_toInt_le.mpr hpos)]
      exact Int.toNat_of_nonneg hpos
    have hx := exact_toFloat (w := i.toUInt64) (by omega)
    rwa [hw] at hx

/-- The unsigned conversion of a float that is an integer. -/
theorem Exact.toNat_toUInt64 (hx : Exact x n) (hn : n < 2 ^ 64) :
    x.toUInt64.toNat = n.toNat := by
  have hclamp : x.toUInt64 = UInt64.ofNatClamp n.toNat := by
    change UInt64.ofNatClamp (x.toModel.unpack.toInt 0 (UInt64.size - 1)).toNat = _
    rw [Stands.toInt_eq hx]
  have hlt : n.toNat < UInt64.size := by
    rw [UInt64.size]
    omega
  rw [hclamp, UInt64.ofNatClamp, dif_pos hlt]
  rfl

/-- **A float that is a 64-bit integer is converted back to it**, whichever zero it is. -/
theorem Exact.floatToInt_eq {i : Int64} (hx : Exact x i.toInt) : Number.floatToInt x = i := by
  have hlo : -2 ^ 63 ≤ i.toInt := i.le_toInt
  have hhi : i.toInt < 2 ^ 63 := i.toInt_lt
  have hneg : x < 0.0 ↔ i.toInt < 0 := hx.lt_iff exact_zero
  unfold Number.floatToInt
  split
  next h =>
    have h := hneg.mp h
    rw [hx.neg.toNat_toUInt64 (by omega), min_eq_left (by omega),
      show -(((-i.toInt).toNat : Nat) : Int) = i.toInt by omega, Int64.ofInt_toInt]
  next h =>
    have h : 0 ≤ i.toInt := not_lt.mp (mt hneg.mpr h)
    rw [hx.toNat_toUInt64 (by omega), min_eq_left (by omega), ← Int64.ofInt_eq_ofNat,
      show ((i.toInt.toNat : Nat) : Int) = i.toInt by omega, Int64.ofInt_toInt]

/-- **A float that is a small integer is its conversion**, unless it is the negative zero. -/
theorem Exact.eq_intToFloat {i : Int64} (hx : Exact x i.toInt) (hi : i.toInt.natAbs ≤ 2 ^ 53)
    (hzero : x ≠ -0.0) : x = Number.intToFloat i := by
  by_cases h0 : i = 0
  · subst h0
    have hconv : Number.intToFloat 0 = 0.0 := by decide +kernel
    exact hconv ▸ (Exact.eq_zero hx).resolve_right hzero
  · exact hx.unique (exact_intToFloat hi) fun h => h0 (Int64.toInt_inj.mp h)

end DeferredArrays.Binary64
