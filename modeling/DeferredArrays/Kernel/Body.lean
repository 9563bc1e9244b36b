import DeferredArrays.Kernel.Error
import DeferredArrays.Operator
import DeferredArrays.Scalar

/-!
# Kernel/Body — the expression a kernel computes, and its static type

A body refers to parameters by index.  `Body.elemType?` is its type: operators promote as arrays do,
and what arrays would refuse for some values is refused here for all — negating truth values, and
integer powers whose exponent is not known to be free of negative values.
-/

namespace DeferredArrays.Kernel

/-- A parameter: a name and the type its arguments must have. -/
structure Param where
  /-- The name the body refers to it by. -/
  name : String
  /-- The type of its elements. -/
  elemType : ElemType
  deriving DecidableEq

/-- An expression over numbered parameters. -/
inductive Body where
  | param (index : Nat)
  | const (value : Scalar)
  | unary (op : UnaryOp) (x : Body)
  | binary (op : BinaryOp) (x y : Body)
  deriving DecidableEq

namespace Body

/-- The indices of the parameters that occur in a body, from left to right. -/
def paramIndices : Body → List Nat
  | param i => [i]
  | const _ => []
  | unary _ x => x.paramIndices
  | binary _ x y => x.paramIndices ++ y.paramIndices

/-! ## Types -/

/-- Whether an exponent is known to have no negative value: it is an integer constant that is not
negative, or else it holds truth values. -/
def isNonnegative (exponent : Body) (t : ElemType) : Bool :=
  match exponent with
  | const (.int i) => decide (0 ≤ i)
  | _ => t == .bool

/-- The type of a unary operator's result. -/
def unaryType (op : UnaryOp) (t : ElemType) : Except KernelError ElemType :=
  match op with
  | .abs => .ok t
  | .log => .ok .float64
  | .neg => if t = .bool then .error (.unsupportedType op.name t) else .ok t

/-- The type of a binary operator's result; `nonnegative` tells of the right operand whether it is
known to have no negative value. -/
def binaryType (op : BinaryOp) (nonnegative : Bool) (s t : ElemType) :
    Except KernelError ElemType :=
  match op with
  | .add => .ok (s.arithmetic t)
  | .sub => .ok (s.arithmetic t)
  | .mul => .ok (s.arithmetic t)
  | .div => .ok .float64
  | .le => .ok .bool
  | .pow =>
    let u := s.arithmetic t
    if u = .int64 ∧ nonnegative = false then .error (.unsupportedType op.name u) else .ok u
  | .getItem => .error (.unsupportedOp op.name)

/-- **The static type of a body**, or the first reason why it has none — operands before operators,
left before right. -/
def elemType? (params : List Param) : Body → Except KernelError ElemType
  | param i =>
    match params[i]? with
    | some p => .ok p.elemType
    | none => .error (.unknownVariable ("#" ++ i.repr))
  | const s => .ok s.elemType
  | unary op x => do unaryType op (← x.elemType? params)
  | binary op x y => do
    let s ← x.elemType? params
    let t ← y.elemType? params
    binaryType op (y.isNonnegative t) s t

end Body

end DeferredArrays.Kernel
