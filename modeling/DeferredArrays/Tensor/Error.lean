import DeferredArrays.ElemType
import DeferredArrays.Scalar
import DeferredArrays.Shape

/-!
# Tensor/Error — what can go wrong in an array operation

Each cause carries what its message names.  The wording is in `message` alone.
-/

namespace DeferredArrays

/-- The causes for which an array operation is refused. -/
inductive TensorError where
  /-- Two shapes, or a count of values and a count of slots, do not fit. -/
  | shapeMismatch (expected got : List Nat)
  /-- The number of elements given for a shape is not the shape's. -/
  | lengthMismatch (length : Nat) (dims : List Nat)
  /-- A position lies outside the array. -/
  | indexOutOfBounds (index : Int64) (length : Nat)
  /-- Elements of this type do not select. -/
  | invalidKey (t : ElemType)
  /-- An integer was to be raised to a negative power. -/
  | negativeIntegerPower
  /-- The operation has no meaning for elements of this type. -/
  | unsupported (op : String) (t : ElemType)
  deriving DecidableEq

namespace TensorError

/-- The wording of an error. -/
def message : TensorError → String
  | shapeMismatch expected got =>
    "shape mismatch: expected " ++ Shape.dimsText expected ++ ", got " ++ Shape.dimsText got
  | lengthMismatch length dims =>
    "data length (" ++ length.repr ++ ") does not match shape " ++ Shape.dimsText dims
  | indexOutOfBounds index length =>
    "index " ++ Scalar.intText index ++ " is out of bounds for " ++ length.repr ++ " elements"
  | invalidKey t => "values of dtype " ++ t.name ++ " cannot be used as an index"
  | negativeIntegerPower => "integers to negative integer powers are not allowed"
  | unsupported op t => "operation `" ++ op ++ "` is not supported for dtype " ++ t.name

end TensorError

end DeferredArrays
