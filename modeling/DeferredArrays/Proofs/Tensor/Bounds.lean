import DeferredArrays.Proofs.Tensor.Elements
import DeferredArrays.Tensor.Text

/-!
# Proofs/Tensor/Bounds — no element is accessed that is not there

Reading and writing by slot are total here: a slot beyond the elements is passed over.  That no slot
ever is, is said by operations of which every access is **checked** (`Checked`).  They go through
the same slots, one after the other, but come to nothing at all if an element is accessed that is
not there.  The unary operators and casts go from one element to the next and access none by slot.

On well-formed arrays a checked operation comes to the outcome that the operation has, be it a
result or an error (`Checked.Within`).  Operators and comparisons read operands that line up with the
result (`within_binary`), a selection that fits names slots of the array (`within_get`,
`within_set`), rank zero has its one element (`toScalar?_eq`), and the text of an array starts each
block at its place (`text_eq`).
-/

namespace DeferredArrays

/-- **A computation whose accesses to elements are checked.**  It succeeds or fails, or comes to
nothing if it accesses an element that is not there. -/
abbrev Checked (ε α : Type) := ExceptT ε Option α

namespace Checked

/-! ## Staying within bounds -/

section Rules

variable {ε α β : Type}

/-- An outcome without any access. -/
def outcome (r : Except ε α) : Checked ε α := ExceptT.mk (some r)

/-- Accesses, all of which have to be there. -/
def access (x : Option α) : Checked ε α := ExceptT.lift x

/-- **A checked computation stays within bounds**, and comes to an outcome. -/
def Within (m : Checked ε α) (r : Except ε α) : Prop := m.run = some r

theorem within_outcome (r : Except ε α) : (outcome r).Within r := rfl

/-- Accesses stay within bounds if they are there. -/
theorem within_access_iff {x : Option α} {a : α} :
    (access x : Checked ε α).Within (.ok a) ↔ x = some a := by
  rcases x with _ | b
  · exact iff_of_false (by rintro ⟨⟩) (by rintro ⟨⟩)
  · constructor
    · rintro ⟨⟩
      rfl
    · rintro ⟨⟩
      rfl

theorem within_access {x : Option α} {a : α} (hx : x = some a) :
    (access x : Checked ε α).Within (.ok a) := within_access_iff.mpr hx

/-- A sequence stays within bounds if its first part does, and its second part on what that comes
to. -/
theorem Within.bind {m : Checked ε α} {r : Except ε α} {f : α → Checked ε β} {g : α → Except ε β}
    (hm : m.Within r) (hf : ∀ a, r = .ok a → (f a).Within (g a)) : (m >>= f).Within (r >>= g) := by
  unfold Within at hm
  rw [Within, ExceptT.run_bind, hm]
  rcases r with e | a
  · rfl
  · exact hf a rfl

/-- Accesses within bounds may come first. -/
theorem Within.access_bind {x : Option α} {a : α} (hx : x = some a) {f : α → Checked ε β}
    {r : Except ε β} (hf : (f a).Within r) : (access x >>= f).Within r :=
  Within.bind (g := fun _ => r) (within_access hx) fun b hb => by
    obtain rfl := Except.ok.inj hb
    exact hf

/-- What is there for every entry of a list is there for the list. -/
theorem mapM_eq_some {f : α → Option β} {g : α → β} {xs : List α} (h : ∀ x ∈ xs, f x = some (g x)) :
    xs.mapM f = some (xs.map g) := by
  induction xs with
  | nil => rfl
  | cons x xs ih =>
    rw [List.mapM_cons, h x List.mem_cons_self, ih fun y hy => h y (List.mem_cons_of_mem x hy)]
    rfl

end Rules

/-! ## Reading and writing by slot -/

section Slots

variable {ε α β γ : Type}

/-- The slot of an operand with `length` elements that slot `i` of a result is read from. -/
def sourceSlot (length i : Nat) : Nat := if length = 1 then 0 else i

/-- The entries at the given slots. -/
def pick (xs : List α) (slots : List Nat) : Option (List α) := slots.mapM fun i => xs[i]?

/-- The list with the entry at each slot replaced, from the `n`-th value on. -/
def write (values : List α) (n : Nat) : List Nat → List α → Option (List α)
  | [], xs => some xs
  | slot :: slots, xs => do
    let v ← values[sourceSlot values.length n]?
    if slot < xs.length then write values (n + 1) slots (xs.set slot v) else none

/-- The results of a rule on what two operands contribute to each of the given slots. -/
def combine (rule : α → β → Except ε γ) (xs : List α) (ys : List β) (slots : List Nat) :
    Checked ε (List γ) :=
  slots.mapM fun i => do
    let x ← access xs[sourceSlot xs.length i]?
    let y ← access ys[sourceSlot ys.length i]?
    outcome (rule x y)

/-- An operand with one element, or with enough of them, is read within its bounds. -/
theorem sourceSlot_lt {length i : Nat} (h : length = 1 ∨ i < length) :
    sourceSlot length i < length := by
  rw [sourceSlot]
  split
  next h1 => exact h1 ▸ Nat.one_pos
  next h1 => exact h.resolve_left h1

theorem pick_eq {xs : List α} {slots : List Nat} (h : ∀ i ∈ slots, i < xs.length) :
    pick xs slots = some (DeferredArrays.pick xs slots) := by
  induction slots with
  | nil => rfl
  | cons i slots ih =>
    have hi : i < xs.length := h i List.mem_cons_self
    have hrest := ih fun j hj => h j (List.mem_cons_of_mem i hj)
    rw [pick] at hrest ⊢
    rw [List.mapM_cons, List.getElem?_eq_getElem hi, hrest, pick_cons, List.getElem?_eq_getElem hi]
    rfl

/-- **Values are written to slots that are there, from slots that are there.** -/
theorem write_eq {values xs : List α} {slots : List Nat} {n : Nat}
    (hslots : ∀ i ∈ slots, i < xs.length)
    (hvalues : values.length = 1 ∨ n + slots.length ≤ values.length) :
    write values n slots xs = some (place xs (slots.zip (DeferredArrays.pick values
      ((List.range' n slots.length).map (sourceSlot values.length))))) := by
  induction slots generalizing n xs with
  | nil => rfl
  | cons slot slots ih =>
    rw [List.length_cons] at hvalues
    have hslot : slot < xs.length := hslots slot List.mem_cons_self
    have hv : sourceSlot values.length n < values.length := sourceSlot_lt (by omega)
    have hothers : ∀ i ∈ slots, i < (xs.set slot values[sourceSlot values.length n]).length :=
      fun i hi => by
        rw [List.length_set]
        exact hslots i (List.mem_cons_of_mem slot hi)
    have hvalues' : values.length = 1 ∨ n + 1 + slots.length ≤ values.length := by omega
    have hrest := ih hothers hvalues'
    rw [write, List.getElem?_eq_getElem hv, List.length_cons, List.range'_succ, List.map_cons,
      pick_cons, List.getElem?_eq_getElem hv]
    simp only [Option.bind_eq_bind, Option.bind_some, if_pos hslot, hrest]
    rw [Option.toList_some, List.singleton_append, List.zip_cons_cons, place_cons]

/-- A single value is written to every slot, or each slot has its own. -/
theorem write_all_eq {values xs : List α} {slots : List Nat} (hslots : ∀ i ∈ slots, i < xs.length)
    (hvalues : values.length = 1 ∨ values.length = slots.length) :
    write values 0 slots xs = some (place xs (slots.zip (DeferredArrays.pick values
      (sourceSlots values.length slots.length)))) := by
  rw [write_eq hslots (by omega), sourceSlots, List.range_eq_range']
  rfl

/-- **A rule is applied to what is there**, one pair after the other. -/
theorem within_combine {rule : α → β → Except ε γ} {xs : List α} {ys : List β} {slots : List Nat}
    (hxs : ∀ i ∈ slots, xs.length = 1 ∨ i < xs.length)
    (hys : ∀ i ∈ slots, ys.length = 1 ∨ i < ys.length) :
    (combine rule xs ys slots).Within
      (((DeferredArrays.pick xs (slots.map (sourceSlot xs.length))).zip
        (DeferredArrays.pick ys (slots.map (sourceSlot ys.length)))).mapM fun p => rule p.1 p.2) := by
  induction slots with
  | nil => exact within_outcome _
  | cons i slots ih =>
    have hx := List.getElem?_eq_getElem (sourceSlot_lt (hxs i List.mem_cons_self))
    have hy := List.getElem?_eq_getElem (sourceSlot_lt (hys i List.mem_cons_self))
    have hrest := ih (fun j hj => hxs j (List.mem_cons_of_mem i hj))
      (fun j hj => hys j (List.mem_cons_of_mem i hj))
    rw [combine, List.mapM_cons, List.map_cons, List.map_cons, pick_cons, pick_cons, hx, hy,
      Option.toList_some, Option.toList_some, List.singleton_append, List.singleton_append,
      List.zip_cons_cons, List.mapM_cons]
    refine Within.bind ?_ fun z _ => hrest.bind fun zs _ => within_outcome _
    exact Within.access_bind rfl (Within.access_bind rfl (within_outcome _))

end Slots

/-! ## Elements -/

section Elements

variable {e values : Elements} {slots : List Nat}

/-- The elements at the given slots. -/
def gather (e : Elements) (slots : List Nat) : Option Elements :=
  match e with
  | .bools xs => do return .bools (← pick xs slots)
  | .ints xs => do return .ints (← pick xs slots)
  | .floats xs => do return .floats (← pick xs slots)

/-- The elements with those of `values` written to the slots. -/
def scatter (e : Elements) (slots : List Nat) (values : Elements) : Option Elements :=
  match e with
  | .bools xs => do return .bools (← write values.toBools 0 slots xs)
  | .ints xs => do return .ints (← write values.toInts 0 slots xs)
  | .floats xs => do return .floats (← write values.toFloats 0 slots xs)

theorem gather_eq (h : ∀ i ∈ slots, i < e.length) : gather e slots = some (e.gather slots) := by
  rcases e with xs | xs | xs
  all_goals
    rw [gather, pick_eq h]
    rfl

theorem scatter_eq (hslots : ∀ i ∈ slots, i < e.length)
    (hvalues : values.length = 1 ∨ values.length = slots.length) :
    scatter e slots values = some (e.scatter slots values) := by
  rcases e with xs | xs | xs
  · rw [← Elements.length_toBools] at hvalues
    rw [scatter, write_all_eq hslots hvalues, Elements.length_toBools]
    rfl
  · rw [← Elements.length_toInts] at hvalues
    rw [scatter, write_all_eq hslots hvalues, Elements.length_toInts]
    rfl
  · rw [← Elements.length_toFloats] at hvalues
    rw [scatter, write_all_eq hslots hvalues, Elements.length_toFloats]
    rfl

end Elements

/-! ## Operators and comparisons -/

section Operators

variable {a b : Tensor}

/-- An arithmetic operator, applied to one pair of elements after the other. -/
def arithmetic (op : Arithmetic) (a b : Tensor) : Checked TensorError Tensor := do
  let shape ← outcome (Tensor.resultShape a b)
  let slots := List.range shape.count
  match a.elemType.arithmetic b.elemType with
  | .float64 =>
    let rule := fun x y => .ok (op.float x y)
    return ⟨shape, .floats (← combine rule a.elements.toFloats b.elements.toFloats slots)⟩
  | _ => return ⟨shape, .ints (← combine op.int a.elements.toInts b.elements.toInts slots)⟩

/-- A comparison, of one pair of elements after the other. -/
def le (a b : Tensor) : Checked TensorError Tensor := do
  let shape ← outcome (Tensor.resultShape a b)
  let slots := List.range shape.count
  match a.elemType.promote b.elemType with
  | .float64 =>
    let rule := fun x y => .ok (decide (x ≤ y))
    return ⟨shape, .bools (← combine rule a.elements.toFloats b.elements.toFloats slots)⟩
  | _ =>
    let rule := fun x y => .ok (decide (x ≤ y))
    return ⟨shape, .bools (← combine rule a.elements.toInts b.elements.toInts slots)⟩

/-- Integers are combined like the pairs that they make. -/
theorem combineInts_eq_mapM (rule : Int64 → Int64 → Except TensorError Int64)
    (xs ys : List Int64) :
    Tensor.combineInts rule xs ys = (xs.zip ys).mapM fun p => rule p.1 p.2 := by
  induction xs generalizing ys with
  | nil => rfl
  | cons x xs ih =>
    rcases ys with _ | ⟨y, ys⟩
    · rfl
    · rw [Tensor.combineInts, List.zip_cons_cons, List.mapM_cons, ih]

/-- **Operands are read within bounds** wherever a result has a slot. -/
theorem within_combine_operands {α β γ ε : Type} (rule : α → β → Except ε γ) {s : Shape}
    (ha : Tensor.Operand s a) (hb : Tensor.Operand s b) {xs : List α} {ys : List β}
    (hxs : xs.length = a.elements.length) (hys : ys.length = b.elements.length) :
    (combine rule xs ys (List.range s.count)).Within
      (((spread xs s.count).zip (spread ys s.count)).mapM fun p => rule p.1 p.2) :=
  within_combine
    (fun _ hi => (ha.spreads hxs).imp_right (Nat.lt_of_lt_of_le (List.mem_range.mp hi)))
    (fun _ hi => (hb.spreads hys).imp_right (Nat.lt_of_lt_of_le (List.mem_range.mp hi)))

/-- A rule that never refuses gives the list of its results. -/
theorem within_combine_total {α β γ : Type} (ε : Type) (f : α → β → γ) {s : Shape}
    (ha : Tensor.Operand s a) (hb : Tensor.Operand s b) {xs : List α} {ys : List β}
    (hxs : xs.length = a.elements.length) (hys : ys.length = b.elements.length) :
    (combine (fun x y => (.ok (f x y) : Except ε γ)) xs ys (List.range s.count)).Within
      (.ok (List.zipWith f (spread xs s.count) (spread ys s.count))) := by
  have hmap : ((spread xs s.count).zip (spread ys s.count)).mapM (fun p => .ok (f p.1 p.2)) =
      (.ok (List.zipWith f (spread xs s.count) (spread ys s.count)) : Except ε (List γ)) := by
    rw [← List.map_uncurry_zip_eq_zipWith]
    exact List.mapM_pure
  rw [← hmap]
  exact within_combine_operands _ ha hb hxs hys

theorem within_arithmetic (op : Arithmetic) (ha : a.WellFormed) (hb : b.WellFormed) :
    (arithmetic op a b).Within (Tensor.arithmetic op a b) := by
  refine (within_outcome _).bind fun s hs => ?_
  obtain ⟨hoa, hob⟩ := Tensor.operands_of_resultShape ha hb hs
  have hfloats := within_combine_total TensorError op.float hoa hob
    (Elements.length_toFloats _) (Elements.length_toFloats _)
  have hints := within_combine_operands op.int hoa hob (Elements.length_toInts _)
    (Elements.length_toInts _)
  rw [← combineInts_eq_mapM] at hints
  dsimp only
  rcases a.elemType.arithmetic b.elemType with _ | _ | _
  · exact hints.bind fun zs _ => within_outcome _
  · exact hints.bind fun zs _ => within_outcome _
  · exact hfloats.bind fun zs _ => within_outcome _

theorem within_le (ha : a.WellFormed) (hb : b.WellFormed) : (le a b).Within (a.le b) := by
  refine (within_outcome _).bind fun s hs => ?_
  obtain ⟨hoa, hob⟩ := Tensor.operands_of_resultShape ha hb hs
  have hfloats := within_combine_total TensorError (fun x y => decide (x ≤ y)) hoa hob
    (Elements.length_toFloats _) (Elements.length_toFloats _)
  have hints := within_combine_total TensorError (fun x y => decide (x ≤ y)) hoa hob
    (Elements.length_toInts _) (Elements.length_toInts _)
  dsimp only
  rcases a.elemType.promote b.elemType with _ | _ | _
  · exact hints.bind fun zs _ => within_outcome _
  · exact hints.bind fun zs _ => within_outcome _
  · exact hfloats.bind fun zs _ => within_outcome _

end Operators

/-! ## Selections -/

section Selections

variable {a : Tensor}

/-- The one element of an array of rank zero. -/
def toScalar? (a : Tensor) : Option (Option Scalar) :=
  if a.shape.rank = 0 then do return some (← a.elements.get? 0) else some none

/-- An array as a key. -/
def key (a : Tensor) : Checked TensorError Selection := do
  match ← access (toScalar? a) with
  | some s => outcome (Selection.ofScalar s)
  | none =>
    match a.elements with
    | .bools xs => return .mask xs
    | .ints xs => return .take xs
    | .floats _ => outcome (.error (.invalidKey .float64))

/-- The elements a selection names. -/
def get (a : Tensor) (key : Selection) : Checked TensorError Tensor := do
  let slots ← outcome (key.slots a.length)
  return ⟨key.readShape slots.length, ← access (gather a.elements slots)⟩

/-- The array with `value` written to the elements a selection names. -/
def set (a : Tensor) (key : Selection) (value : Tensor) : Checked TensorError Tensor := do
  let slots ← outcome (key.slots a.length)
  if value.length ≠ 1 ∧ value.length ≠ slots.length then
    outcome (.error (.shapeMismatch [slots.length] value.shape.dims))
  else
    return ⟨a.shape, ← access (scatter a.elements slots value.elements)⟩

/-- A binary operator applied to two arrays. -/
def binary (op : BinaryOp) (a b : Tensor) : Checked TensorError Tensor :=
  match op with
  | .add => arithmetic .add a b
  | .sub => arithmetic .sub a b
  | .mul => arithmetic .mul a b
  | .div => arithmetic .div (a.cast .float64) b
  | .pow => arithmetic .pow a b
  | .le => le a b
  | .getItem => do get a (← key b)

/-- **Rank zero has its one element.** -/
theorem toScalar?_eq (ha : a.WellFormed) : toScalar? a = some a.toScalar? := by
  rw [toScalar?, Tensor.toScalar?]
  split
  next hrank =>
    have hone : a.elements.length = 1 := by
      rw [ha, Shape.rank_eq_zero_iff.mp hrank, Shape.count_scalar]
    obtain ⟨s, hs⟩ := Elements.exists_get?_eq (hone ▸ Nat.one_pos)
    rw [hs]
    rfl
  next => rfl

theorem within_key (ha : a.WellFormed) : (key a).Within (Selection.ofTensor a) := by
  refine Within.access_bind (toScalar?_eq ha) ?_
  rw [Selection.ofTensor]
  rcases a.toScalar? with _ | s
  · rcases a.elements with xs | xs | xs <;> exact within_outcome _
  · exact within_outcome _

/-- **A selection that fits reads what is there.** -/
theorem within_get (a : Tensor) (key : Selection) : (get a key).Within (a.get key) := by
  refine (within_outcome _).bind fun slots hslots => ?_
  exact Within.access_bind (gather_eq (Selection.lt_of_slots hslots)) (within_outcome _)

/-- **A selection that fits writes what is there**, whatever the number of values. -/
theorem within_set (a value : Tensor) (key : Selection) :
    (set a key value).Within (a.set key value) := by
  refine (within_outcome _).bind fun slots hslots => ?_
  split
  next => exact within_outcome _
  next hfits =>
    have hvalues : value.length = 1 ∨ value.length = slots.length := by omega
    exact Within.access_bind (scatter_eq (Selection.lt_of_slots hslots) hvalues)
      (within_outcome _)

/-- **Binary operators stay within bounds** on well-formed arrays. -/
theorem within_binary (op : BinaryOp) {a b : Tensor} (ha : a.WellFormed) (hb : b.WellFormed) :
    (binary op a b).Within (a.binary op b) := by
  rcases op with _ | _ | _ | _ | _ | _ | _
  · exact within_arithmetic .add ha hb
  · exact within_arithmetic .sub ha hb
  · exact within_arithmetic .mul ha hb
  · exact within_arithmetic .div (Tensor.wellFormed_cast ha .float64) hb
  · exact within_arithmetic .pow ha hb
  · exact within_le ha hb
  · exact (within_key hb).bind fun key _ => within_get a key

end Selections

/-! ## Text -/

/-- The text of the block with the given dimensions that starts at a slot. -/
def blockText (e : Elements) : List Nat → UInt64 → Option String
  | [], slot => do return (← e.get? slot.toNat).text
  | d :: ds, slot => do
    let parts ← (List.range d).mapM fun i =>
      blockText e ds (slot + .ofNat i * Tensor.stride ds)
    return "[" ++ ", ".intercalate parts ++ "]"

/-- How an array is shown. -/
def text (a : Tensor) : Option String := blockText a.elements a.shape.dims 0

/-- **A block that fits is shown from what is there**, its inner blocks one after the other. -/
theorem blockText_eq {e : Elements} (ds : List Nat) {slot : Nat}
    (h : slot + Shape.countOf ds ≤ e.length) :
    blockText e ds (.ofNat slot) =
      some (Tensor.blockText (Tensor.elementText e.toList.toArray) ds (.ofNat slot)) := by
  induction ds generalizing slot with
  | nil =>
    -- A slot that is cut off is no farther than the slot itself.
    have hslot : (UInt64.ofNat slot).toNat < e.length :=
      Nat.lt_of_le_of_lt (Nat.mod_le slot _) (Nat.lt_of_succ_le h)
    obtain ⟨s, hs⟩ := Elements.exists_get?_eq hslot
    have hs' : e.toList.toArray[(UInt64.ofNat slot).toNat]? = some s := by
      rw [List.getElem?_toArray, Elements.toList_getElem?, hs]
    rw [blockText, Tensor.blockText, Tensor.elementText, hs, hs']
    rfl
  | cons d ds ih =>
    have hparts : ∀ i ∈ List.range d,
        blockText e ds (.ofNat slot + .ofNat i * Tensor.stride ds) =
          some (Tensor.blockText (Tensor.elementText e.toList.toArray) ds
            (.ofNat slot + .ofNat i * Tensor.stride ds)) := fun i hi => by
      rw [Tensor.slot_add]
      refine ih ?_
      have hle := Nat.mul_le_mul_right (Shape.countOf ds) (Nat.succ_le_of_lt (List.mem_range.mp hi))
      rw [Nat.succ_mul] at hle
      rw [Shape.countOf] at h
      omega
    rw [blockText, mapM_eq_some hparts, Tensor.blockText]
    rfl

theorem text_eq {a : Tensor} (ha : a.WellFormed) : text a = some a.text :=
  @blockText_eq a.elements a.shape.dims 0 (by rw [Nat.zero_add]; exact Nat.le_of_eq ha.symm)

end Checked

end DeferredArrays
