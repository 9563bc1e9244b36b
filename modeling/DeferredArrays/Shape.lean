/-!
# Shape — dimensions and broadcasting

A shape lists the dimensions of an array, outermost first.  Its `count` is the number of elements;
rank zero has one.

Two shapes combine (`broadcast?`) when they are equal or one of them has rank zero.  There is no
stretching of single dimensions.  The combination is commutative and idempotent, and rank zero is
neutral (`broadcast?_comm`, `broadcast?_self`, `broadcast?_scalar`); it is refused between unequal
shapes of positive rank only (`broadcast?_eq_none_iff`).
-/

namespace DeferredArrays

/-- The dimensions of an array. -/
structure Shape where
  /-- The dimensions, outermost first. -/
  dims : List Nat
  deriving DecidableEq, Repr, Inhabited

namespace Shape

/-- The shape of rank zero. -/
def scalar : Shape := ⟨[]⟩

/-- The shape of a vector. -/
def vector (n : Nat) : Shape := ⟨[n]⟩

/-- The number of dimensions. -/
def rank (s : Shape) : Nat := s.dims.length

/-- The number of elements of an array with these dimensions. -/
def countOf : List Nat → Nat
  | [] => 1
  | d :: ds => d * countOf ds

/-- The number of elements. -/
def count (s : Shape) : Nat := countOf s.dims

@[simp] theorem rank_scalar : scalar.rank = 0 := rfl
@[simp] theorem rank_vector (n : Nat) : (vector n).rank = 1 := rfl
@[simp] theorem count_scalar : scalar.count = 1 := rfl
@[simp] theorem count_vector (n : Nat) : (vector n).count = n := Nat.mul_one n

/-- There is one shape of rank zero. -/
theorem rank_eq_zero_iff {s : Shape} : s.rank = 0 ↔ s = scalar := by
  cases s with
  | mk ds => cases ds <;> simp [rank, scalar]

/-! ## Broadcasting -/

/-- The shape of an elementwise result, if the operands' shapes combine. -/
def broadcast? (s t : Shape) : Option Shape :=
  if s = t ∨ t.rank = 0 then some s else if s.rank = 0 then some t else none

/-- Equal shapes combine. -/
@[simp] theorem broadcast?_self (s : Shape) : s.broadcast? s = some s := by simp [broadcast?]

/-- Rank zero combines with every shape, on the right … -/
@[simp] theorem broadcast?_scalar (s : Shape) : s.broadcast? scalar = some s := by
  simp [broadcast?]

/-- … and on the left. -/
@[simp] theorem scalar_broadcast? (s : Shape) : scalar.broadcast? s = some s := by
  by_cases h : s.rank = 0
  · rw [rank_eq_zero_iff] at h; simp [broadcast?, h]
  · have hs : scalar ≠ s := fun e => h (e ▸ rank_scalar)
    simp [broadcast?, h, hs]

/-- **It does not matter which operand comes first.** -/
theorem broadcast?_comm (s t : Shape) : s.broadcast? t = t.broadcast? s := by
  by_cases hst : s = t
  · rw [hst]
  · by_cases hs : s.rank = 0
    · rw [rank_eq_zero_iff] at hs; subst hs; simp
    · by_cases ht : t.rank = 0
      · rw [rank_eq_zero_iff] at ht; subst ht; simp
      · simp [broadcast?, hst, hs, ht, Ne.symm hst]

/-- Shapes of positive rank combine only if they are equal. -/
theorem broadcast?_eq_none_iff {s t : Shape} :
    s.broadcast? t = none ↔ s ≠ t ∧ s.rank ≠ 0 ∧ t.rank ≠ 0 := by
  by_cases hst : s = t <;> by_cases hs : s.rank = 0 <;> by_cases ht : t.rank = 0 <;>
    simp [broadcast?, hst, hs, ht]

/-! ## Text -/

/-- A list of numbers in brackets, separated by commas. -/
def dimsText (ds : List Nat) : String := "[" ++ ", ".intercalate (ds.map Nat.repr) ++ "]"

/-- How a shape is shown. -/
def text (s : Shape) : String := dimsText s.dims

end Shape

end DeferredArrays
