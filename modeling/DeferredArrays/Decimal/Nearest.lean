import DeferredArrays.Decimal.Basic
import DeferredArrays.Number.Binary64

/-!
# Decimal/Nearest — the float nearest to a decimal

`Decimal.toMagnitude` is the magnitude of the float nearest to a decimal, a tie going to the even
significand.  It is computed exactly: the decimal is a fraction of two natural numbers, the exponent
of the result is read off their lengths (`shiftFor`), and one division with remainder gives the
significand (`roundHalfEven`).

The decimal is trimmed first, so zeros at its end make no difference (`toMagnitude_appendZero`).
Exponents so far out that the result is infinite or zero whatever the digits are settled before any
power of ten is formed.

Powers are written `Nat.pow`: what `^` stands for on natural numbers depends on whether Mathlib is
imported.
-/

namespace DeferredArrays.Decimal

open Binary64

/-- The integer nearest to `num / den`, a tie going to the even one. -/
def roundHalfEven (num den : Nat) : Nat :=
  let q := num / den
  let r := num % den
  if 2 * r < den then q else if den < 2 * r then q + 1 else q + q % 2

/-- The fraction `num / den` in units of `2 ^ (shift - 1074)`. -/
def inUnits (num den shift : Nat) : Nat × Nat := (num * Nat.pow 2 1074, den * Nat.pow 2 shift)

/-- The shift at which `num / den` has a significand of 53 binary digits — or zero, where the value
is so small that the significand has fewer.  The lengths of numerator and denominator leave two
candidates, and the smaller one counts unless it leaves too many digits. -/
def shiftFor (num den : Nat) : Nat :=
  let s := num.log2 + 1074 - (den.log2 + 53)
  let (a, b) := inUnits num den s
  if a / b < 2 * hiddenBit then s else s + 1

/-- The magnitude nearest to a fraction. -/
def nearestFraction (num den : Nat) : Nat :=
  let s := shiftFor num den
  let (a, b) := inUnits num den s
  min (assemble (roundHalfEven a b) s) infinite

/-- The magnitude nearest to `n * 10 ^ e`. -/
def nearest (n : Nat) (e : Int) : Nat :=
  if n = 0 then 0
  else if 400 < e then infinite
  else if e < -(400 + n.log2 : Int) then 0
  else if 0 ≤ e then nearestFraction (n * Nat.pow 10 e.toNat) 1
  else nearestFraction n (Nat.pow 10 (-e).toNat)

/-- **The magnitude a decimal reads as.** -/
def toMagnitude (d : Decimal) : Nat := nearest d.trim.digits d.trim.exponent

/-- **A zero at the end of the digits changes no magnitude.** -/
theorem toMagnitude_appendZero (d : Decimal) : d.appendZero.toMagnitude = d.toMagnitude := by
  by_cases h : d.digits = 0
  · have ha : d.appendZero.digits = 0 := by simp [appendZero, h]
    have ht : ∀ e : Decimal, e.digits = 0 → e.toMagnitude = 0 := fun e he => by
      rw [toMagnitude, trim, dif_neg (fun hc => hc.1 he), he, nearest, if_pos rfl]
    rw [ht _ ha, ht _ h]
  · rw [toMagnitude, toMagnitude, trim_appendZero h]

end DeferredArrays.Decimal
