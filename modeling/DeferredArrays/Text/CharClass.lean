import DeferredArrays.Text.AlphabeticTable
import DeferredArrays.Text.NumericTable

/-!
# Text/CharClass — white space, letters and digits of kernel text

Kernel text is Unicode text: names may be written in any script and blanks may be any white space.
The three classes here are those of the Unicode properties `White_Space` and `Alphabetic` and the
numeric categories; within ASCII they are what one expects, and are settled without a table
(`isAlphabetic_ascii`, `isNumeric_ascii`).
-/

namespace DeferredArrays.Text

/-- Whether a code point lies in one of the ranges. -/
def inRanges (ranges : List (Nat × Nat)) (n : Nat) : Bool :=
  ranges.any fun r => decide (r.1 ≤ n) && decide (n ≤ r.2)

/-- The white space characters, as ranges of code points. -/
def whiteSpaceRanges : List (Nat × Nat) :=
  [(0x9, 0xd), (0x20, 0x20), (0x85, 0x85), (0xa0, 0xa0), (0x1680, 0x1680), (0x2000, 0x200a),
   (0x2028, 0x2029), (0x202f, 0x202f), (0x205f, 0x205f), (0x3000, 0x3000)]

/-- White space. -/
def isWhiteSpace (c : Char) : Bool := inRanges whiteSpaceRanges c.toNat

/-- Letters, and the marks and numerals that count as alphabetic. -/
def isAlphabetic (c : Char) : Bool :=
  if c.toNat < 128 then c.isAlpha else inRanges alphabeticRanges c.toNat

/-- Digits and other numeric characters. -/
def isNumeric (c : Char) : Bool :=
  if c.toNat < 128 then c.isDigit else inRanges numericRanges c.toNat

/-- Letters and digits. -/
def isAlphanumeric (c : Char) : Bool := isAlphabetic c || isNumeric c

/-- Within ASCII, letters are those of core … -/
theorem isAlphabetic_ascii {c : Char} (h : c.toNat < 128) : isAlphabetic c = c.isAlpha :=
  if_pos h

/-- … and so are digits. -/
theorem isNumeric_ascii {c : Char} (h : c.toNat < 128) : isNumeric c = c.isDigit :=
  if_pos h

end DeferredArrays.Text
