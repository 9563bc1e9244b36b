/-!
# Number/Binary64 — the bits of a float as a sign and a magnitude

The low 63 bits of a float, read as one number, are its **magnitude**: magnitudes are ordered as the
absolute values they stand for, the finite ones lie below `infinite`, and stepping to the next float
is adding one.  A finite magnitude `b` stands for `significand b * 2 ^ exponent b`.

This is the form in which decimals are rounded to floats (`Decimal.Nearest`) and floats are written
as decimals (`Decimal.Shortest`): a rounded significand is added to the exponent field, and a
significand that overflows carries into it by itself.
-/

namespace DeferredArrays.Binary64

/-- The weight of the sign bit. -/
def signBit : Nat := 0x8000000000000000

/-- The weight of the hidden bit of a significand, and the unit of the exponent field. -/
def hiddenBit : Nat := 0x10000000000000

/-- The magnitude of the infinities — finite magnitudes are below it, NaNs above. -/
def infinite : Nat := 0x7ff0000000000000

/-- The magnitude of a float. -/
def magnitude (x : Float) : Nat := x.toBits.toNat % signBit

/-- Whether the sign bit is set — also for `-0.0`. -/
def negative (x : Float) : Bool := signBit ≤ x.toBits.toNat

/-- The float with a given sign bit and magnitude. -/
def ofMagnitude (negative : Bool) (b : Nat) : Float :=
  Float.ofBits (UInt64.ofNat (if negative then b + signBit else b))

/-- The one NaN. -/
def nan : Float := Float.ofBits 0x7ff8000000000000

/-! ## The number a finite magnitude stands for -/

/-- The integer significand: the low 52 bits, with the hidden bit put back unless the exponent field
is zero. -/
def significand (b : Nat) : Nat :=
  if b / hiddenBit = 0 then b else hiddenBit + b % hiddenBit

/-- How far the significand is scaled down: the value is `significand b / 2 ^ 1074`, scaled up again
by `2 ^ shift b`. -/
def shift (b : Nat) : Nat := b / hiddenBit - 1

/-- The binary exponent of the significand's unit. -/
def exponent (b : Nat) : Int := shift b - 1074

/-- The magnitude of a significand below `2 ^ 53` at a given shift — a significand of `2 ^ 52` or
more carries the hidden bit into the exponent field, and so does one that was rounded up to
`2 ^ 53`. -/
def assemble (m shift : Nat) : Nat := shift * hiddenBit + m

/-- **Taking apart and assembling is the identity.** -/
theorem assemble_significand_shift (b : Nat) : assemble (significand b) (shift b) = b := by
  unfold assemble significand shift hiddenBit
  split <;> omega

end DeferredArrays.Binary64
