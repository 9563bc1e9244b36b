/-!
# Number/Power — integer powers in wrapping 64-bit arithmetic

`power a n` is the `n`-fold product of `a` with itself, computed by repeated squaring, so that an
exponent of any size costs at most its number of binary digits (`power_eq`: squaring agrees with
multiplying one factor at a time, as wrapping multiplication is associative).  `boundedPower` is the
power of array elements: the exponent is an element too, and is cut off at the largest 32-bit word.
-/

namespace DeferredArrays.Number

/-- The `n`-fold product of `a`, by repeated squaring. -/
def power (a : Int64) (n : Nat) : Int64 :=
  if _h : n = 0 then 1
  else if n % 2 = 0 then power (a * a) (n / 2)
  else a * power (a * a) (n / 2)
termination_by n

/-- The `n`-fold product of `a`, one factor at a time. -/
def product (a : Int64) : Nat → Int64
  | 0 => 1
  | n + 1 => a * product a n

theorem product_mul_self (a : Int64) (n : Nat) : product (a * a) n = product a (n + n) := by
  induction n with
  | zero => rfl
  | succ n ih =>
    rw [product, ih, show n + 1 + (n + 1) = (n + n) + 1 + 1 by omega, product, product,
      Int64.mul_assoc]

/-- **Repeated squaring is repeated multiplication.** -/
theorem power_eq (a : Int64) (n : Nat) : power a n = product a n := by
  fun_induction power a n with
  | case1 a => rfl
  | case2 a n h0 h2 ih => rw [ih, product_mul_self, show n / 2 + n / 2 = n by omega]
  | case3 a n h0 h2 ih =>
    rw [ih, product_mul_self]
    conv => rhs; rw [show n = (n / 2 + n / 2) + 1 by omega]
    rfl

/-- The largest exponent that is honoured: larger ones count as this one. -/
def largestExponent : Nat := 0xffffffff

/-- The power of two array elements — `none` for a negative exponent, since the result would not be
an integer. -/
def boundedPower (a b : Int64) : Option Int64 :=
  if b < 0 then none else some (power a (min b.toInt.toNat largestExponent))

end DeferredArrays.Number
