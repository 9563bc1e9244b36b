/-!
# Decimal/Basic — decimal numbers with a finite expansion

A decimal is a natural number of units of a power of ten.  Many decimals have the same value; the
**trimmed** one has no trailing zero, and whatever is computed from it does not depend on how many
zeros were written (`trim_appendZero`).
-/

namespace DeferredArrays

/-- The decimal `digits * 10 ^ exponent`. -/
structure Decimal where
  /-- The digits, read as one number. -/
  digits : Nat
  /-- The power of ten of the last digit. -/
  exponent : Int
  deriving DecidableEq, Repr

namespace Decimal

/-- The decimal with its trailing zeros moved into the exponent. -/
def trim (d : Decimal) : Decimal :=
  if h : d.digits ≠ 0 ∧ d.digits % 10 = 0 then trim ⟨d.digits / 10, d.exponent + 1⟩ else d
termination_by d.digits
decreasing_by omega

/-- The decimal with one more zero written at the end. -/
def appendZero (d : Decimal) : Decimal := ⟨d.digits * 10, d.exponent - 1⟩

/-- **Trailing zeros do not matter** to the trimmed form. -/
theorem trim_appendZero {d : Decimal} (h : d.digits ≠ 0) : d.appendZero.trim = d.trim := by
  rw [trim, dif_pos ⟨by simp only [appendZero]; omega, by simp only [appendZero]; omega⟩]
  simp [appendZero]

/-- The digits of a number, most significant first. -/
def digitChars (n : Nat) : List Char := Nat.toDigits 10 n

/-- The number of digits of a number. -/
def width (n : Nat) : Nat := (digitChars n).length

end Decimal

end DeferredArrays
