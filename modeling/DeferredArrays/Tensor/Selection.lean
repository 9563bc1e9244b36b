import DeferredArrays.Tensor.Elementwise

/-!
# Tensor/Selection — reading and writing the elements that a key selects

A selection names slots of an array in row-major order: one position, the true entries of a mask, or
a list of positions.  Positions may be negative and then count from the end.  `slots` resolves a
selection against an array, once for reading (`get`) and for writing (`set`); everything that can go
wrong is checked before the first write, and a selection that fits names slots of the array only
(`lt_of_slots`).
-/

namespace DeferredArrays

/-- A sequence that succeeds does so in both parts. -/
theorem exists_of_bind_eq_ok {ε α β : Type} {m : Except ε α} {f : α → Except ε β} {b : β}
    (h : m >>= f = .ok b) : ∃ a, m = .ok a ∧ f a = .ok b := by
  cases m with
  | error e => cases h
  | ok a => exact ⟨a, rfl, h⟩

/-- A key that selects elements of an array. -/
inductive Selection where
  /-- One element. -/
  | position (index : Int64)
  /-- The elements whose entry is true. -/
  | mask (entries : List Bool)
  /-- The elements at the listed positions, in that order. -/
  | take (indices : List Int64)
  deriving DecidableEq

namespace Selection

/-- A scalar as a key — only an integer is one. -/
def ofScalar : Scalar → Except TensorError Selection
  | .int i => .ok (position i)
  | s => .error (.invalidKey s.elemType)

/-- An array as a key: truth values mask, integers are positions, and rank zero is a scalar. -/
def ofTensor (a : Tensor) : Except TensorError Selection :=
  match a.toScalar? with
  | some s => ofScalar s
  | none =>
    match a.elements with
    | .bools xs => .ok (mask xs)
    | .ints xs => .ok (take xs)
    | .floats _ => .error (.invalidKey .float64)

/-! ## Resolving -/

/-- The slot of a position among `length` elements. -/
def resolve (length : Nat) (index : Int64) : Except TensorError Nat :=
  let i := if index < 0 then index.toInt + length else index.toInt
  if 0 ≤ i ∧ i < length then .ok i.toNat else .error (.indexOutOfBounds index length)

/-- The slots of a list of positions — the first that does not fit is the outcome. -/
def resolveAll (length : Nat) : List Int64 → Except TensorError (List Nat)
  | [] => .ok []
  | i :: is => do
    let slot ← resolve length i
    return slot :: (← resolveAll length is)

/-- The slots of the true entries, in ascending order; `offset` is the slot of the first entry. -/
def trueSlots (offset : Nat) : List Bool → List Nat
  | [] => []
  | b :: bs => if b then offset :: trueSlots (offset + 1) bs else trueSlots (offset + 1) bs

/-- **The slots a selection names** among `length` elements. -/
def slots (length : Nat) : Selection → Except TensorError (List Nat)
  | position i => do return [← resolve length i]
  | mask entries =>
    if entries.length = length then .ok (trueSlots 0 entries)
    else .error (.shapeMismatch [length] [entries.length])
  | take indices => resolveAll length indices

/-! ## Slots lie within bounds -/

/-- An index that is resolved is within bounds … -/
theorem lt_of_resolve {length slot : Nat} {index : Int64} (h : resolve length index = .ok slot) :
    slot < length := by
  simp only [resolve] at h
  generalize (if index < 0 then index.toInt + length else index.toInt) = i at h
  by_cases hb : 0 ≤ i ∧ i < length
  · rw [if_pos hb, Except.ok.injEq] at h
    omega
  · rw [if_neg hb] at h
    cases h

/-- … and so are all of several … -/
theorem lt_of_resolveAll {length : Nat} {indices : List Int64} {slots : List Nat}
    (h : resolveAll length indices = .ok slots) : ∀ i ∈ slots, i < length := by
  induction indices generalizing slots with
  | nil => cases h; exact fun i hi => nomatch hi
  | cons index indices ih =>
    rw [resolveAll] at h
    obtain ⟨slot, hs, h⟩ := exists_of_bind_eq_ok h
    obtain ⟨others, hr, h⟩ := exists_of_bind_eq_ok h
    cases h
    intro i hi
    rcases List.mem_cons.mp hi with rfl | hi
    · exact lt_of_resolve hs
    · exact ih hr i hi

/-- … and the slots of a mask are those of its entries. -/
theorem bounds_of_mem_trueSlots {offset i : Nat} {entries : List Bool}
    (h : i ∈ trueSlots offset entries) : offset ≤ i ∧ i < offset + entries.length := by
  induction entries generalizing offset with
  | nil => cases h
  | cons b entries ih =>
    have hrest : i ∈ trueSlots (offset + 1) entries → offset ≤ i ∧ i < offset + (entries.length + 1) :=
      fun hi => by have := ih hi; omega
    cases b with
    | false => exact hrest h
    | true =>
      rcases List.mem_cons.mp h with rfl | hi
      · exact ⟨Nat.le_refl _, by simp⟩
      · exact hrest hi

/-- **A selection that fits names slots of the array.** -/
theorem lt_of_slots {length : Nat} {key : Selection} {slots : List Nat}
    (h : key.slots length = .ok slots) : ∀ i ∈ slots, i < length := by
  cases key with
  | position index =>
    rw [Selection.slots] at h
    obtain ⟨slot, hs, h⟩ := exists_of_bind_eq_ok h
    cases h
    intro i hi
    rw [List.mem_singleton.mp hi]
    exact lt_of_resolve hs
  | mask entries =>
    simp only [Selection.slots] at h
    by_cases hl : entries.length = length
    · rw [if_pos hl, Except.ok.injEq] at h
      intro i hi
      have := bounds_of_mem_trueSlots (h ▸ hi)
      omega
    · rw [if_neg hl] at h
      cases h
  | take indices => exact lt_of_resolveAll h

/-- The shape of what a selection of `count` slots reads. -/
def readShape (count : Nat) : Selection → Shape
  | position _ => .scalar
  | _ => .vector count

end Selection

/-! ## Reading and writing -/

namespace Elements

/-- The elements with those of `values` written to the slots in order — a single value goes to every
slot.  The values are cast to the type of the elements they replace. -/
def scatter (e : Elements) (slots : List Nat) (values : Elements) : Elements :=
  let sources := (List.range slots.length).map fun n => if values.length = 1 then 0 else n
  match e with
  | bools xs => bools (place xs (slots.zip (pick values.toBools sources)))
  | ints xs => ints (place xs (slots.zip (pick values.toInts sources)))
  | floats xs => floats (place xs (slots.zip (pick values.toFloats sources)))

@[simp] theorem elemType_scatter (e : Elements) (slots : List Nat) (values : Elements) :
    (e.scatter slots values).elemType = e.elemType := by
  cases e <;> rfl

end Elements

namespace Tensor

/-- The elements a selection names — one position gives rank zero, the others a vector. -/
def get (a : Tensor) (key : Selection) : Except TensorError Tensor := do
  let slots ← key.slots a.length
  return ⟨key.readShape slots.length, a.elements.gather slots⟩

/-- The array with `value` written to the elements a selection names.  There must be a single value,
or one for each slot. -/
def set (a : Tensor) (key : Selection) (value : Tensor) : Except TensorError Tensor := do
  let slots ← key.slots a.length
  if value.length ≠ 1 ∧ value.length ≠ slots.length then
    .error (.shapeMismatch [slots.length] value.shape.dims)
  else
    return ⟨a.shape, a.elements.scatter slots value.elements⟩

/-- The elements of an array at the key that another array is. -/
def getItem (a b : Tensor) : Except TensorError Tensor := do a.get (← Selection.ofTensor b)

/-- A binary operator applied to two arrays. -/
def binary (op : BinaryOp) (a b : Tensor) : Except TensorError Tensor :=
  match op with
  | .add => a.add b
  | .sub => a.sub b
  | .mul => a.mul b
  | .div => a.div b
  | .pow => a.pow b
  | .le => a.le b
  | .getItem => a.getItem b

end Tensor

end DeferredArrays
