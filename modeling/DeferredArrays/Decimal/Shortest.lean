import DeferredArrays.Decimal.Nearest

/-!
# Decimal/Shortest — the fewest digits that read back as a given float

`shortest b` looks for the decimal nearest to the value of magnitude `b` among those that read as `b`
and have the fewest digits: first among the decimals of one digit, then of two, and so on.  On each
such grid only the two neighbours of the value can be nearest, so only they are tried; when both read
back the closer one is taken, and the upper one when they are equally close.

Seventeen digits always suffice, but nothing here relies on it: should no grid have a hit, the value
itself is written out in full (`exact`), which is possible because `2 ^ (-k)` is `5 ^ k` units of
`10 ^ (-k)`.  Whatever is found on a grid reads back by the very test it passed
(`shortest_eq_exact_or_toMagnitude`).
-/

namespace DeferredArrays.Decimal

open Binary64

/-- The value of a finite magnitude, as a fraction. -/
def fraction (b : Nat) : Nat × Nat := (significand b * Nat.pow 2 (shift b), Nat.pow 2 1074)

/-- The power of ten of the leading digit of `num / den`. -/
def leading (num den : Nat) : Int :=
  if den ≤ num then width (num / den) - 1 else -(width (den / num) : Int)

/-- The two neighbours of `num / den` among the multiples of `10 ^ e`, the closer one first. -/
def neighbours (num den : Nat) (e : Int) : List Decimal :=
  let (a, b) := if 0 ≤ e then (num, den * Nat.pow 10 e.toNat) else (num * Nat.pow 10 (-e).toNat, den)
  let below : Decimal := ⟨a / b, e⟩
  let above : Decimal := ⟨a / b + 1, e⟩
  if 2 * (a % b) < b then [below, above] else [above, below]

/-- The candidates of `count` digits for magnitude `b`. -/
def candidates (b : Nat) (count : Nat) : List Decimal :=
  let (num, den) := fraction b
  (neighbours num den (leading num den - (count - 1 : Nat))).map trim

/-- The value of a finite magnitude, written out in full. -/
def exact (b : Nat) : Decimal :=
  if 1074 ≤ shift b then ⟨significand b * Nat.pow 2 (shift b - 1074), 0⟩
  else ⟨significand b * Nat.pow 5 (1074 - shift b), shift b - 1074⟩

/-- The largest number of digits that is tried. -/
def mostDigits : Nat := 17

/-- **The shortest decimal that reads as magnitude `b`.** -/
def shortest (b : Nat) : Decimal :=
  if b = 0 then ⟨0, 0⟩
  else
    let tried := (List.range mostDigits).findSome? fun k =>
      (candidates b (k + 1)).find? fun d => d.toMagnitude = b
    tried.getD (exact b)

/-- What is written reads back, or is the value in full. -/
theorem shortest_eq_exact_or_toMagnitude {b : Nat} (h : b ≠ 0) :
    shortest b = exact b ∨ (shortest b).toMagnitude = b := by
  rw [shortest, if_neg h]
  cases htried : (List.range mostDigits).findSome? fun k =>
      (candidates b (k + 1)).find? fun d => d.toMagnitude = b with
  | none => exact .inl rfl
  | some d =>
    obtain ⟨k, _, hk⟩ := List.exists_of_findSome?_eq_some htried
    exact .inr (by simpa using List.find?_some hk)

end DeferredArrays.Decimal
