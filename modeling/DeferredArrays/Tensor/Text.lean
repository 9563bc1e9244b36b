import DeferredArrays.Tensor.Basic

/-!
# Tensor/Text — how an array is shown

Elements are listed in nested brackets, one level for each dimension, separated by commas.  An array
of rank zero is shown as its element, without brackets.

The text of an axis is built from slots: consecutive entries of an axis are as many slots apart as
the inner dimensions count.  Slots are words of 64 bits, and so is this distance (`stride`), which
is cut off where the dimensions count more: an array without elements may have any dimensions.
-/

namespace DeferredArrays.Tensor

/-- How many slots apart blocks of the given dimensions start. -/
def stride : List Nat → UInt64
  | [] => 1
  | d :: ds => .ofNat d * stride ds

/-- It is their count, cut off to a word. -/
theorem stride_eq (ds : List Nat) : stride ds = .ofNat (Shape.countOf ds) := by
  induction ds with
  | nil => rfl
  | cons d ds ih => rw [stride, ih, Shape.countOf, UInt64.ofNat_mul]

/-- The text of the block with the given dimensions that starts at a slot. -/
def blockText (element : UInt64 → String) : List Nat → UInt64 → String
  | [], slot => element slot
  | d :: ds, slot =>
    let parts := (List.range d).map fun i => blockText element ds (slot + .ofNat i * stride ds)
    "[" ++ ", ".intercalate parts ++ "]"

/-- Entries of an axis are as many slots apart as the inner dimensions count. -/
theorem slot_add (slot i : Nat) (ds : List Nat) :
    .ofNat slot + .ofNat i * stride ds = UInt64.ofNat (slot + i * Shape.countOf ds) := by
  rw [stride_eq, ← UInt64.ofNat_mul, ← UInt64.ofNat_add]

/-- The text of the element at a slot. -/
def elementText (table : Array Scalar) (slot : UInt64) : String :=
  (table[slot.toNat]?.map Scalar.text).getD ""

/-- How an array is shown. -/
def text (a : Tensor) : String :=
  blockText (elementText a.elements.toList.toArray) a.shape.dims 0

end DeferredArrays.Tensor
