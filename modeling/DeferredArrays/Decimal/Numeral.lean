import DeferredArrays.Decimal.Nearest

/-!
# Decimal/Numeral — reading integers and floats

A numeral is a whole piece of text that spells a number; there is no skipping and no rest.

* An **integer** is a sign or none, then at least one digit, and lies in the 64-bit range.
* A **float** is a sign or none, then `inf`, `infinity` or `nan` in any case, or digits with at most
  one point among or around them and an optional exponent.  It denotes the float nearest to the
  decimal it spells.
-/

namespace DeferredArrays.Numeral

open Binary64

/-! ## Signs and digits -/

/-- Splits off a sign; `true` is minus. -/
def splitSign : List Char → Bool × List Char
  | '-' :: cs => (true, cs)
  | '+' :: cs => (false, cs)
  | cs => (false, cs)

/-- The value of a digit. -/
def digitValue (c : Char) : Nat := c.toNat - '0'.toNat

/-- The number that a run of digits spells. -/
def ofDigits (cs : List Char) : Nat := cs.foldl (fun n c => 10 * n + digitValue c) 0

/-- The number of a text that is all digits and not empty. -/
def natural? (cs : List Char) : Option Nat :=
  if cs ≠ [] ∧ cs.all Char.isDigit then some (ofDigits cs) else none

/-- A number with an optional sign. -/
def signed? (cs : List Char) : Option Int :=
  let (minus, cs) := splitSign cs
  (natural? cs).map fun n => if minus then -(n : Int) else n

/-- **The integer a text spells**, if it is one and is in range. -/
def int64? (cs : List Char) : Option Int64 := do
  let i ← signed? cs
  if Int64.minValue.toInt ≤ i ∧ i ≤ Int64.maxValue.toInt then some (Int64.ofInt i) else none

/-! ## Floats -/

/-- The exponent part of a float: nothing, or `e` and a signed number. -/
def exponent? : List Char → Option Int
  | [] => some 0
  | c :: cs => if c = 'e' ∨ c = 'E' then signed? cs else none

/-- What follows the integer digits: the digits after a point, if there is one, and the rest. -/
def splitFraction : List Char → List Char × List Char
  | '.' :: cs => (cs.takeWhile Char.isDigit, cs.dropWhile Char.isDigit)
  | cs => ([], cs)

/-- The magnitude that an unsigned decimal spells. -/
def decimal? (cs : List Char) : Option Nat := do
  let whole := cs.takeWhile Char.isDigit
  let (fraction, rest) := splitFraction (cs.dropWhile Char.isDigit)
  if whole ++ fraction = [] then none
  else
    let e ← exponent? rest
    some (Decimal.toMagnitude ⟨ofDigits (whole ++ fraction), e - fraction.length⟩)

/-- The named values: infinity and not-a-number. -/
def named? (cs : List Char) : Option Nat :=
  let name := cs.map Char.toLower
  if name = "inf".toList ∨ name = "infinity".toList then some infinite
  else if name = "nan".toList then some (infinite + 1)
  else none

/-- **The float a text spells**, if it is one. -/
def float? (cs : List Char) : Option Float :=
  let (minus, cs) := splitSign cs
  (named? cs <|> decimal? cs).map fun b => if infinite < b then nan else ofMagnitude minus b

end DeferredArrays.Numeral
