import DeferredArrays.ElemType
import DeferredArrays.Number.Conversion
import DeferredArrays.Decimal.Text

/-!
# Scalar — one typed element

A scalar is an element together with its type.  Constants of an expression are scalars, and so is
the result of forcing one whose array has rank zero.

It is written in two ways: `text` is what a reader of a result sees, `literal` is what stands for it
in the text of a kernel, where a float has to keep a point or an exponent so that it is not taken for
an integer.
-/

namespace DeferredArrays

/-- A typed element. -/
inductive Scalar where
  | bool (b : Bool)
  | int (i : Int64)
  | float (x : Float)
  deriving DecidableEq

namespace Scalar

open Number

instance : Inhabited Scalar := ⟨.bool false⟩

/-- The type of a scalar. -/
def elemType : Scalar → ElemType
  | bool _ => .bool
  | int _ => .int64
  | float _ => .float64

@[simp] theorem elemType_bool (b : Bool) : (bool b).elemType = .bool := rfl
@[simp] theorem elemType_int (i : Int64) : (int i).elemType = .int64 := rfl
@[simp] theorem elemType_float (x : Float) : (float x).elemType = .float64 := rfl

/-! ## Casts -/

/-- The scalar as a float. -/
def toFloat : Scalar → Float
  | bool b => boolToFloat b
  | int i => intToFloat i
  | float x => x

/-- The scalar as an integer. -/
def toInt : Scalar → Int64
  | bool b => boolToInt b
  | int i => i
  | float x => floatToInt x

/-- The scalar as a truth value. -/
def toBool : Scalar → Bool
  | bool b => b
  | int i => intToBool i
  | float x => floatToBool x

/-- The scalar as an element of a given type. -/
def cast (s : Scalar) : ElemType → Scalar
  | .bool => bool s.toBool
  | .int64 => int s.toInt
  | .float64 => float s.toFloat

@[simp] theorem elemType_cast (s : Scalar) (t : ElemType) : (s.cast t).elemType = t := by
  cases t <;> rfl

/-- A scalar is unchanged by a cast to its own type. -/
@[simp] theorem cast_elemType (s : Scalar) : s.cast s.elemType = s := by
  cases s <;> rfl

/-! ## Text -/

/-- The spelling of a truth value. -/
def boolText (b : Bool) : String := if b then "true" else "false"

/-- The spelling of an integer. -/
def intText (i : Int64) : String := String.ofList (Decimal.intChars i.toInt)

/-- How a scalar is shown. -/
def text : Scalar → String
  | bool b => boolText b
  | int i => intText i
  | float x => Binary64.plainText x

/-- How a scalar is written in the text of a kernel. -/
def literal : Scalar → String
  | bool b => boolText b
  | int i => intText i
  | float x => Binary64.literalText x

end Scalar

end DeferredArrays
