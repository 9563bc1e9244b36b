import DeferredArrays.Number.Power
import DeferredArrays.Operator
import DeferredArrays.Tensor.Basic

/-!
# Tensor/Elementwise — operators applied element by element

A binary operator pairs up the elements of two arrays of one shape; an operand with a single element
stands for as many as are needed (`spread`).  Which element type it works in follows from the
operands' types, so an operator is given by what it does to two integers and to two floats
(`Arithmetic`).

Integer arithmetic wraps around.  Division is done in floats whatever the operands are, and only a
power of integers can fail.
-/

namespace DeferredArrays

/-! ## Lining up operands -/

/-- The slot that each of `n` result elements is read from, in an operand with `length` elements —
the only slot, if there is just one. -/
def sourceSlots (length n : Nat) : List Nat :=
  (List.range n).map fun i => if length = 1 then 0 else i

/-- The elements of an operand lined up with `n` result elements. -/
def spread {α : Type} (xs : List α) (n : Nat) : List α := pick xs (sourceSlots xs.length n)

/-- An operand with one element, or with enough of them, is read within its bounds. -/
theorem lt_of_mem_sourceSlots {length n i : Nat} (h : length = 1 ∨ n ≤ length)
    (hi : i ∈ sourceSlots length n) : i < length := by
  obtain ⟨k, hk, rfl⟩ := List.mem_map.mp hi
  have hkn : k < n := List.mem_range.mp hk
  rcases h with rfl | h
  · exact Nat.one_pos
  · split
    · next h1 => exact h1 ▸ Nat.one_pos
    · exact Nat.lt_of_lt_of_le hkn h

theorem length_spread {α : Type} {xs : List α} {n : Nat} (h : xs.length = 1 ∨ n ≤ xs.length) :
    (spread xs n).length = n := by
  rw [spread, length_pick fun _ hi => lt_of_mem_sourceSlots h hi]
  simp [sourceSlots]

/-- **Each result element meets its own element of an operand**, or the operand's only one. -/
theorem getElem?_spread {α : Type} {xs : List α} {n k : Nat} (h : xs.length = 1 ∨ n ≤ xs.length)
    (hk : k < n) : (spread xs n)[k]? = xs[if xs.length = 1 then 0 else k]? := by
  rw [spread, getElem?_pick fun _ hi => lt_of_mem_sourceSlots h hi]
  simp [sourceSlots, hk]

/-- A binary arithmetic operator: its rule for integers, which may refuse, and its rule for
floats. -/
structure Arithmetic where
  /-- The result of two integers. -/
  int : Int64 → Int64 → Except TensorError Int64
  /-- The result of two floats. -/
  float : Float → Float → Float

namespace Arithmetic

/-- Addition. -/
def add : Arithmetic := ⟨fun a b => .ok (a + b), fun a b => a + b⟩

/-- Subtraction. -/
def sub : Arithmetic := ⟨fun a b => .ok (a - b), fun a b => a - b⟩

/-- Multiplication. -/
def mul : Arithmetic := ⟨fun a b => .ok (a * b), fun a b => a * b⟩

/-- Division, which is never asked for integers. -/
def div : Arithmetic := ⟨fun _ _ => .ok 0, fun a b => a / b⟩

/-- The power of two integers. -/
def intPower (a b : Int64) : Except TensorError Int64 :=
  match Number.boundedPower a b with
  | some c => .ok c
  | none => .error .negativeIntegerPower

/-- Powers. -/
def pow : Arithmetic := ⟨intPower, Float.pow⟩

end Arithmetic

namespace Tensor

/-- The shape of an elementwise result. -/
def resultShape (a b : Tensor) : Except TensorError Shape :=
  match a.shape.broadcast? b.shape with
  | some s => .ok s
  | none => .error (.shapeMismatch a.shape.dims b.shape.dims)

/-- The results of a partial rule on paired elements — the first refusal is the outcome. -/
def combineInts (rule : Int64 → Int64 → Except TensorError Int64) :
    List Int64 → List Int64 → Except TensorError (List Int64)
  | x :: xs, y :: ys => do
    let z ← rule x y
    return z :: (← combineInts rule xs ys)
  | _, _ => .ok []

/-! ## Binary operators -/

/-- An arithmetic operator, applied in the type that arithmetic on the operands happens in. -/
def arithmetic (op : Arithmetic) (a b : Tensor) : Except TensorError Tensor := do
  let shape ← resultShape a b
  let n := shape.count
  match a.elemType.arithmetic b.elemType with
  | .float64 =>
    let xs := spread a.elements.toFloats n
    let ys := spread b.elements.toFloats n
    return ⟨shape, .floats (List.zipWith op.float xs ys)⟩
  | _ =>
    let xs := spread a.elements.toInts n
    let ys := spread b.elements.toInts n
    return ⟨shape, .ints (← combineInts op.int xs ys)⟩

/-- Elementwise sum. -/
def add (a b : Tensor) : Except TensorError Tensor := arithmetic .add a b

/-- Elementwise difference. -/
def sub (a b : Tensor) : Except TensorError Tensor := arithmetic .sub a b

/-- Elementwise product. -/
def mul (a b : Tensor) : Except TensorError Tensor := arithmetic .mul a b

/-- Elementwise quotient, always of floats. -/
def div (a b : Tensor) : Except TensorError Tensor := arithmetic .div (a.cast .float64) b

/-- Elementwise power. -/
def pow (a b : Tensor) : Except TensorError Tensor := arithmetic .pow a b

/-- Elementwise comparison — of floats if one operand has them, and of integers otherwise. -/
def le (a b : Tensor) : Except TensorError Tensor := do
  let shape ← resultShape a b
  let n := shape.count
  match a.elemType.promote b.elemType with
  | .float64 =>
    let xs := spread a.elements.toFloats n
    let ys := spread b.elements.toFloats n
    return ⟨shape, .bools (List.zipWith (fun x y => decide (x ≤ y)) xs ys)⟩
  | _ =>
    let xs := spread a.elements.toInts n
    let ys := spread b.elements.toInts n
    return ⟨shape, .bools (List.zipWith (fun x y => decide (x ≤ y)) xs ys)⟩

/-! ## Unary operators -/

/-- The absolute value of an integer — that of the least one does not fit and is itself. -/
def absInt (i : Int64) : Int64 := if i < 0 then -i else i

/-- Absolute values; truth values stay as they are. -/
def abs (a : Tensor) : Tensor :=
  match a.elements with
  | .bools xs => ⟨a.shape, .bools xs⟩
  | .ints xs => ⟨a.shape, .ints (xs.map absInt)⟩
  | .floats xs => ⟨a.shape, .floats (xs.map Float.abs)⟩

/-- Natural logarithms, always floats. -/
def log (a : Tensor) : Tensor := ⟨a.shape, .floats (a.elements.toFloats.map Float.log)⟩

/-- Negation, which truth values do not have. -/
def neg (a : Tensor) : Except TensorError Tensor :=
  match a.elements with
  | .bools _ => .error (.unsupported UnaryOp.neg.name .bool)
  | .ints xs => .ok ⟨a.shape, .ints (xs.map (- ·))⟩
  | .floats xs => .ok ⟨a.shape, .floats (xs.map (- ·))⟩

/-- A unary operator applied to an array. -/
def unary (op : UnaryOp) (a : Tensor) : Except TensorError Tensor :=
  match op with
  | .abs => .ok a.abs
  | .log => .ok a.log
  | .neg => a.neg

/-! ## Sum -/

/-- The sum of all elements: of floats from left to right, starting with the neutral `-0.0`; of
integers and truth values in wrapping integers. -/
def sum (a : Tensor) : Scalar :=
  match a.elements with
  | .floats xs => .float (xs.foldl (· + ·) (-0.0))
  | e => .int (e.toInts.foldl (· + ·) 0)

end Tensor

end DeferredArrays
