import DeferredArrays.Decimal.Shortest

/-!
# Decimal/Text — the two written forms of a float

Both forms spell the shortest digits that read back.

* The **plain** form is always positional and has no needless point: `2`, `0.1`,
  `100000000000000000000`, `-0`.
* The **literal** form is one that cannot be mistaken for an integer: positional with at least one
  digit after the point for values from `1e-4` up to `1e16`, and with an exponent outside that range:
  `2.0`, `1e16`, `1.5e-7`, `-0.0`.

Infinities and NaN are spelled `inf` and `NaN` in both.
-/

namespace DeferredArrays

namespace Decimal

/-- The position of the point, counted in digits from the left end. -/
def point (d : Decimal) : Int := width d.digits + d.exponent

/-- A run of zeros. -/
def zeros (n : Nat) : List Char := List.replicate n '0'

/-- The positional spelling; `whole` is what follows the digits of an integer. -/
def positional (d : Decimal) (whole : List Char) : List Char :=
  let s := digitChars d.digits
  let p := d.point
  if p ≤ 0 then '0' :: '.' :: zeros (-p).toNat ++ s
  else if s.length ≤ p then s ++ zeros (p - s.length).toNat ++ whole
  else s.take p.toNat ++ '.' :: s.drop p.toNat

/-- A signed number without a plus sign. -/
def intChars (i : Int) : List Char :=
  if i < 0 then '-' :: digitChars i.natAbs else digitChars i.natAbs

/-- The spelling with an exponent: one digit, the others after a point, then the power of ten of the
first. -/
def scientific (d : Decimal) : List Char :=
  let s := digitChars d.digits
  let fraction := s.drop 1
  s.take 1 ++ (if fraction.isEmpty then [] else '.' :: fraction) ++ 'e' :: intChars (d.point - 1)

/-- Whether the literal form of a decimal is positional: it is zero, or its point stands where that
of numbers from `1e-4` to below `1e16` does. -/
def isPositional (d : Decimal) : Bool :=
  d.digits == 0 || (decide (-3 ≤ d.point) && decide (d.point ≤ 16))

/-- The literal form of a decimal. -/
def literalChars (d : Decimal) : List Char :=
  if d.isPositional then d.positional ['.', '0'] else d.scientific

/-- The plain form of a decimal. -/
def plainChars (d : Decimal) : List Char := d.positional []

end Decimal

namespace Binary64

open Decimal

/-- The spelling of a float, with the magnitude of the finite ones spelled by `spell`. -/
def textWith (spell : Decimal → List Char) (x : Float) : String :=
  let b := magnitude x
  if infinite < b then "NaN"
  else
    let digits := if b = infinite then ['i', 'n', 'f'] else spell (shortest b)
    String.ofList (if negative x then '-' :: digits else digits)

/-- The plain form of a float. -/
def plainText (x : Float) : String := textWith plainChars x

/-- The literal form of a float. -/
def literalText (x : Float) : String := textWith literalChars x

end Binary64

end DeferredArrays
