import DeferredArrays.Tensor.Error

/-!
# Tensor/Basic — arrays: a shape and its elements in row-major order

The elements of an array are a list of one of the three types (`Elements`).  An array is **well
formed** when it has as many elements as its shape counts; every constructor here makes well-formed
ones, and every operation of the library keeps them so.

All reading of elements by slot goes through `pick`, which collects the elements at a list of slots,
and all writing through `place`.  The two are known by what they do to a single entry (`getElem?_pick`,
`place_cons`); slots within bounds are neither dropped nor added (`length_pick`, `length_place`).
-/

namespace DeferredArrays

/-! ## Elements -/

/-- A list of elements of one type. -/
inductive Elements where
  | bools (xs : List Bool)
  | ints (xs : List Int64)
  | floats (xs : List Float)
  deriving DecidableEq

/-- The entries of a list at the given slots, in the order of the slots. -/
def pick {α : Type} (xs : List α) (slots : List Nat) : List α :=
  let table := xs.toArray
  slots.filterMap fun i => table[i]?

/-- The list with the entry at each slot replaced, from left to right — a slot that occurs twice
keeps the later value. -/
def place {α : Type} (xs : List α) (writes : List (Nat × α)) : List α :=
  (writes.foldl (fun table w => table.setIfInBounds w.1 w.2) xs.toArray).toList

/-- The entry at the first slot, if there is one, then those at the others. -/
theorem pick_cons {α : Type} (xs : List α) (i : Nat) (slots : List Nat) :
    pick xs (i :: slots) = xs[i]?.toList ++ pick xs slots := by
  simp only [pick, List.filterMap_cons, List.getElem?_toArray]
  cases xs[i]? <;> rfl

/-- **Slots within bounds are read one for one.** -/
theorem length_pick {α : Type} {xs : List α} {slots : List Nat}
    (h : ∀ i ∈ slots, i < xs.length) : (pick xs slots).length = slots.length := by
  induction slots with
  | nil => rfl
  | cons i slots ih =>
    have hi : i < xs.length := h i List.mem_cons_self
    rw [pick_cons, List.getElem?_eq_getElem hi, List.length_append,
      ih fun j hj => h j (List.mem_cons_of_mem i hj)]
    exact Nat.add_comm 1 slots.length

/-- **What is read for a slot** is the entry there. -/
theorem getElem?_pick {α : Type} {xs : List α} {slots : List Nat}
    (h : ∀ i ∈ slots, i < xs.length) (k : Nat) :
    (pick xs slots)[k]? = slots[k]?.bind (xs[·]?) := by
  induction slots generalizing k with
  | nil => rfl
  | cons i slots ih =>
    have hi : i < xs.length := h i List.mem_cons_self
    rw [pick_cons, List.getElem?_eq_getElem hi]
    cases k with
    | zero => simp [List.getElem?_eq_getElem hi]
    | succ k => simpa using ih (fun j hj => h j (List.mem_cons_of_mem i hj)) k

/-- Writing from left to right: the first entry, then the others. -/
theorem place_cons {α : Type} (xs : List α) (w : Nat × α) (ws : List (Nat × α)) :
    place xs (w :: ws) = place (xs.set w.1 w.2) ws := by
  simp only [place, List.foldl_cons, List.setIfInBounds_toArray]

/-- Writing neither adds entries nor drops any. -/
@[simp] theorem length_place {α : Type} (xs : List α) (ws : List (Nat × α)) :
    (place xs ws).length = xs.length := by
  induction ws generalizing xs with
  | nil => rfl
  | cons w ws ih => rw [place_cons, ih, List.length_set]

namespace Elements

open Number

/-- The type of the elements. -/
def elemType : Elements → ElemType
  | bools _ => .bool
  | ints _ => .int64
  | floats _ => .float64

/-- The number of elements. -/
def length : Elements → Nat
  | bools xs => xs.length
  | ints xs => xs.length
  | floats xs => xs.length

/-- The element at a slot. -/
def get? (e : Elements) (i : Nat) : Option Scalar :=
  match e with
  | bools xs => xs[i]?.map .bool
  | ints xs => xs[i]?.map .int
  | floats xs => xs[i]?.map .float

/-- The elements, each with its type. -/
def toList : Elements → List Scalar
  | bools xs => xs.map .bool
  | ints xs => xs.map .int
  | floats xs => xs.map .float

/-- The elements as floats. -/
def toFloats : Elements → List Float
  | bools xs => xs.map boolToFloat
  | ints xs => xs.map intToFloat
  | floats xs => xs

/-- The elements as integers. -/
def toInts : Elements → List Int64
  | bools xs => xs.map boolToInt
  | ints xs => xs
  | floats xs => xs.map floatToInt

/-- The elements as truth values. -/
def toBools : Elements → List Bool
  | bools xs => xs
  | ints xs => xs.map intToBool
  | floats xs => xs.map floatToBool

/-- The elements as elements of a given type. -/
def cast (e : Elements) : ElemType → Elements
  | .bool => bools e.toBools
  | .int64 => ints e.toInts
  | .float64 => floats e.toFloats

/-- The elements at the given slots. -/
def gather (e : Elements) (slots : List Nat) : Elements :=
  match e with
  | bools xs => bools (pick xs slots)
  | ints xs => ints (pick xs slots)
  | floats xs => floats (pick xs slots)

/-- An element stays one element, whatever it is taken as. -/
@[simp] theorem length_toList (e : Elements) : e.toList.length = e.length := by
  cases e <;> simp [toList, length]

/-- The element at a slot, found by way of the list. -/
theorem toList_getElem? (e : Elements) (i : Nat) : e.toList[i]? = e.get? i := by
  cases e <;> simp [toList, get?]

@[simp] theorem length_toFloats (e : Elements) : e.toFloats.length = e.length := by
  cases e <;> simp [toFloats, length]

@[simp] theorem length_toInts (e : Elements) : e.toInts.length = e.length := by
  cases e <;> simp [toInts, length]

@[simp] theorem length_toBools (e : Elements) : e.toBools.length = e.length := by
  cases e <;> simp [toBools, length]

/-- So a cast keeps the number of elements. -/
@[simp] theorem length_cast (e : Elements) (t : ElemType) : (e.cast t).length = e.length := by
  cases t
  · exact e.length_toBools
  · exact e.length_toInts
  · exact e.length_toFloats

@[simp] theorem elemType_cast (e : Elements) (t : ElemType) : (e.cast t).elemType = t := by
  cases t <;> rfl

/-- Gathering keeps the type. -/
@[simp] theorem elemType_gather (e : Elements) (slots : List Nat) :
    (e.gather slots).elemType = e.elemType := by
  cases e <;> rfl

/-- Elements within bounds are gathered one for one. -/
theorem length_gather {e : Elements} {slots : List Nat} (h : ∀ i ∈ slots, i < e.length) :
    (e.gather slots).length = slots.length := by
  cases e <;> exact length_pick h

/-- Whether two lists of elements have the same type and equal elements — as floats compare, so a
NaN differs from itself and the zeros are equal. -/
def agree : Elements → Elements → Bool
  | bools xs, bools ys => xs == ys
  | ints xs, ints ys => xs == ys
  | floats xs, floats ys => xs == ys
  | _, _ => false

end Elements

/-! ## Arrays -/

/-- An array. -/
structure Tensor where
  /-- The dimensions. -/
  shape : Shape
  /-- The elements in row-major order. -/
  elements : Elements
  deriving DecidableEq

namespace Tensor

/-- An array is well formed when its shape counts its elements. -/
def WellFormed (a : Tensor) : Prop := a.elements.length = a.shape.count

instance (a : Tensor) : Decidable a.WellFormed := inferInstanceAs (Decidable (_ = _))

/-- The type of the elements. -/
def elemType (a : Tensor) : ElemType := a.elements.elemType

/-- The number of elements. -/
def length (a : Tensor) : Nat := a.elements.length

/-- A vector. -/
def ofElements (e : Elements) : Tensor := ⟨.vector e.length, e⟩

/-- An array of a given shape, if there are as many elements as it counts. -/
def ofShape (s : Shape) (e : Elements) : Except TensorError Tensor :=
  if e.length = s.count then .ok ⟨s, e⟩ else .error (.lengthMismatch e.length s.dims)

/-- The array of rank zero with a given element. -/
def ofScalar : Scalar → Tensor
  | .bool b => ⟨.scalar, .bools [b]⟩
  | .int i => ⟨.scalar, .ints [i]⟩
  | .float x => ⟨.scalar, .floats [x]⟩

/-- The integers from `start` up to and without `stop`. -/
def range (start stop : Int64) : Tensor :=
  ofElements (.ints ((List.range (stop.toInt - start.toInt).toNat).map fun (k : Nat) =>
    Int64.ofInt (start.toInt + k)))

/-- The array of float zeros. -/
def zeros (s : Shape) : Tensor := ⟨s, .floats (List.replicate s.count 0.0)⟩

/-- The array with its elements cast. -/
def cast (a : Tensor) (t : ElemType) : Tensor := ⟨a.shape, a.elements.cast t⟩

/-- An array of a given shape and type from float values. -/
def ofFloats (s : Shape) (values : List Float) (t : ElemType) : Except TensorError Tensor :=
  return (← ofShape s (.floats values)).cast t

/-- The one element of an array of rank zero. -/
def toScalar? (a : Tensor) : Option Scalar :=
  if a.shape.rank = 0 then a.elements.get? 0 else none

/-- Whether two arrays have the same shape and type and equal elements, as floats compare. -/
def agree (a b : Tensor) : Bool := a.shape == b.shape && a.elements.agree b.elements

/-! ## Well-formed arrays -/

/-- A vector has as many elements as its dimension says. -/
theorem wellFormed_ofElements (e : Elements) : (ofElements e).WellFormed :=
  (Shape.count_vector _).symm

/-- Rank zero counts one element. -/
theorem wellFormed_ofScalar (s : Scalar) : (ofScalar s).WellFormed := by cases s <;> rfl

theorem wellFormed_zeros (s : Shape) : (zeros s).WellFormed := List.length_replicate

/-- A cast keeps shape and number. -/
theorem wellFormed_cast {a : Tensor} (h : a.WellFormed) (t : ElemType) :
    (a.cast t).WellFormed :=
  (Elements.length_cast _ t).trans h

/-- What has a shape that was checked is well formed. -/
theorem wellFormed_of_ofShape {s : Shape} {e : Elements} {a : Tensor}
    (h : ofShape s e = .ok a) : a.WellFormed := by
  unfold ofShape at h
  split at h
  · cases h; assumption
  · cases h

@[simp] theorem elemType_cast (a : Tensor) (t : ElemType) : (a.cast t).elemType = t :=
  Elements.elemType_cast _ t

/-- The array of an element has the type of the element. -/
@[simp] theorem elemType_ofScalar (s : Scalar) : (ofScalar s).elemType = s.elemType := by
  cases s <;> rfl

/-- **An array of rank zero gives its element back.** -/
@[simp] theorem toScalar?_ofScalar (s : Scalar) : (ofScalar s).toScalar? = some s := by
  cases s <;> rfl

end Tensor

end DeferredArrays
