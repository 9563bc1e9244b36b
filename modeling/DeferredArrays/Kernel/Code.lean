import DeferredArrays.Kernel.Body
import DeferredArrays.Tensor.Elementwise

/-!
# Kernel/Code — a body lowered to arithmetic on floats

Compiled code computes one result from one float per parameter; every operator is the operator on
floats, and a comparison gives `1.0` or `0.0`.  Lowering fails only on an operator that does not act
element by element.

Code is handed the address of its arguments, which are eight bytes apart, and loads each of them at
an offset from there.  An offset is a signed word of 32 bits (`Code.offset`): from the parameter of
index `2 ^ 28` on, the argument is farther away than an offset can say, and what is loaded is not
the argument of the parameter.
-/

namespace DeferredArrays.Kernel

/-- A computation on floats. -/
inductive Code where
  /-- The argument at an offset in bytes. -/
  | load (offset : Int32)
  | const (x : Float)
  | apply1 (f : Float → Float) (x : Code)
  | apply2 (f : Float → Float → Float) (x y : Code)

/-- A unary operator on floats. -/
def onFloat : UnaryOp → Float → Float
  | .abs => Float.abs
  | .log => Float.log
  | .neg => fun x => -x

/-- A binary operator on floats, if it acts element by element. -/
def onFloats? : BinaryOp → Option (Float → Float → Float)
  | .add => some Arithmetic.add.float
  | .sub => some Arithmetic.sub.float
  | .mul => some Arithmetic.mul.float
  | .div => some Arithmetic.div.float
  | .pow => some Arithmetic.pow.float
  | .le => some fun x y => Number.boolToFloat (decide (x ≤ y))
  | .getItem => none

namespace Code

/-- The offset of the argument for a parameter, cut off to 32 bits. -/
def offset (index : Nat) : Int32 := .ofNat (index * 8)

/-- The argument at an offset, if there is one. -/
def argument? (args : List Float) (offset : Int32) : Option Float :=
  if 0 ≤ offset.toInt ∧ offset.toInt % 8 = 0 then args[(offset.toInt / 8).toNat]? else none

/-- The offsets that are loaded from, from left to right. -/
def loads : Code → List Int32
  | load d => [d]
  | const _ => []
  | apply1 _ x => x.loads
  | apply2 _ x y => x.loads ++ y.loads

/-- The result of a computation for given arguments; what is loaded from beside them counts as
zero. -/
def run (args : List Float) : Code → Float
  | load d => (argument? args d).getD 0.0
  | const x => x
  | apply1 f x => f (x.run args)
  | apply2 f x y => f (x.run args) (y.run args)

end Code

/-- **Lowers a body to code.** -/
def Body.lower : Body → Except KernelError Code
  | param i => .ok (.load (Code.offset i))
  | const s => .ok (.const s.toFloat)
  | unary op x => do return .apply1 (onFloat op) (← x.lower)
  | binary op x y => do
    let x ← x.lower
    let y ← y.lower
    match onFloats? op with
    | some f => return .apply2 f x y
    | none => .error (.unsupportedOp op.name)

end DeferredArrays.Kernel
