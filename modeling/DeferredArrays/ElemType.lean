/-!
# ElemType — the three element types and the order arithmetic promotes along

Every array, scalar and kernel parameter has one of three element types, ordered
`bool < int64 < float64`.  Two operands meet at the larger type (`promote`); arithmetic meets one
step higher when both are `bool`, because a sum of truth values is a count (`arithmetic`).

Main facts: `promote` is the join of the order (`promote_comm`, `promote_assoc`, `promote_self`),
`arithmetic` is never `bool` (`arithmetic_ne_bool`), and reading a name back is exact
(`ofName?_name`).
-/

namespace DeferredArrays

/-- The element types. -/
inductive ElemType where
  | bool
  | int64
  | float64
  deriving DecidableEq, Repr, Inhabited

namespace ElemType

/-- The name a type has in kernel signatures and in messages. -/
def name : ElemType → String
  | bool => "bool"
  | int64 => "int64"
  | float64 => "float64"

/-- The types in ascending order. -/
def all : List ElemType := [bool, int64, float64]

/-- The type of a given name. -/
def ofName? (s : String) : Option ElemType := all.find? (·.name == s)

/-- A type is found by its name. -/
@[simp] theorem ofName?_name (t : ElemType) : ofName? t.name = some t := by
  cases t <;> decide

/-! ## Promotion -/

/-- The larger of two types — what a comparison of mixed operands happens in. -/
def promote : ElemType → ElemType → ElemType
  | float64, _ => float64
  | _, float64 => float64
  | int64, _ => int64
  | _, int64 => int64
  | bool, bool => bool

/-- The type arithmetic on two operands happens in — `promote`, with `bool` lifted to `int64`. -/
def arithmetic (s t : ElemType) : ElemType :=
  match promote s t with
  | bool => int64
  | u => u

@[simp] theorem promote_self (t : ElemType) : promote t t = t := by cases t <;> rfl

/-- Types are ordered, and promotion is to the larger one. -/
theorem promote_comm (s t : ElemType) : promote s t = promote t s := by
  cases s <;> cases t <;> rfl

theorem promote_assoc (s t u : ElemType) :
    promote (promote s t) u = promote s (promote t u) := by
  cases s <;> cases t <;> cases u <;> rfl

theorem arithmetic_comm (s t : ElemType) : arithmetic s t = arithmetic t s := by
  rw [arithmetic, arithmetic, promote_comm]

/-- Arithmetic never gives truth values. -/
theorem arithmetic_ne_bool (s t : ElemType) : arithmetic s t ≠ bool := by
  cases s <;> cases t <;> decide

/-- Arithmetic is done in floats exactly when one operand is a float. -/
theorem arithmetic_eq_float64_iff {s t : ElemType} :
    arithmetic s t = float64 ↔ s = float64 ∨ t = float64 := by
  cases s <;> cases t <;> decide

end ElemType

end DeferredArrays
