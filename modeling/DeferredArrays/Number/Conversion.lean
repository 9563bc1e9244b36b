/-!
# Number/Conversion — the casts between truth values, 64-bit integers and floats

Arithmetic on mixed operands first brings both to one element type.  Between `bool` and the others
that is `0`/`1` and "differs from zero"; between `Int64` and `Float` it is rounding to nearest one
way and truncation the other.  Both of the latter are built from the unsigned conversions of core,
which are definitions of the logic (the signed ones are not), so the casts can be reasoned about:
rounding to nearest and truncation toward zero are symmetric in the sign.
-/

namespace DeferredArrays.Number

/-- The integer of a truth value. -/
def boolToInt (b : Bool) : Int64 := if b then 1 else 0

/-- The float of a truth value. -/
def boolToFloat (b : Bool) : Float := if b then 1.0 else 0.0

/-- An integer counts as true when it is not zero. -/
def intToBool (i : Int64) : Bool := i != 0

/-- A float counts as true when it is not equal to zero — so both zeros are false and a NaN is
true. -/
def floatToBool (x : Float) : Bool := !(x == 0.0)

/-- The float nearest to an integer, a tie going to the even significand — the magnitude is rounded
and the sign put back. -/
def intToFloat (i : Int64) : Float :=
  if i < 0 then -(i.toInt.natAbs.toUInt64.toFloat) else i.toUInt64.toFloat

/-- The integer part of a float, held within the 64-bit range — a NaN has none and gives `0`. -/
def floatToInt (x : Float) : Int64 :=
  if x < 0.0 then Int64.ofInt (-(min (-x).toUInt64.toNat 0x8000000000000000 : Nat))
  else Int64.ofNat (min x.toUInt64.toNat 0x7fffffffffffffff)

/-- Truth values are recovered from numbers … -/
@[simp] theorem intToBool_boolToInt (b : Bool) : intToBool (boolToInt b) = b := by
  cases b <;> decide

/-- … of either type … -/
@[simp] theorem floatToBool_boolToFloat (b : Bool) : floatToBool (boolToFloat b) = b := by
  cases b <;> decide +kernel

/-- … and it does not matter which type they are cast to first. -/
@[simp] theorem floatToInt_boolToFloat (b : Bool) : floatToInt (boolToFloat b) = boolToInt b := by
  cases b <;> decide +kernel

@[simp] theorem intToFloat_boolToInt (b : Bool) : intToFloat (boolToInt b) = boolToFloat b := by
  cases b <;> decide +kernel

end DeferredArrays.Number
