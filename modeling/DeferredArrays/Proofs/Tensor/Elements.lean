import DeferredArrays.Proofs.Tensor.WellFormed
import Mathlib.Data.List.Basic

/-!
# Proofs/Tensor/Elements — elements one by one

A list of elements of one type is known by the scalars in it (`eq_of_toList_eq`): casting it casts
each of them (`toList_cast`), and what it has at some slots is what they are there
(`get?_gather`).

Writing to several slots is writing to one after the other (`scatter_eq_putAll`), each time casting
the scalar that is written to the type of the others (`put`).  So what is at a slot afterwards is the
scalar that was written there last (`get?_putAll`), or what was there before
(`get?_putAll_of_forall_ne`).
-/

namespace DeferredArrays

/-- Reading commutes with what is done to each entry. -/
theorem pick_map {α β : Type} (f : α → β) (xs : List α) (slots : List Nat) :
    pick (xs.map f) slots = (pick xs slots).map f := by
  induction slots with
  | nil => rfl
  | cons i slots ih =>
    rw [pick_cons, pick_cons, ih, List.getElem?_map, List.map_append]
    cases xs[i]? <;> rfl

namespace Elements

variable {e values : Elements} {slots sources : List Nat} {slot p j : Nat} {s : Scalar}
  {ws : List (Nat × Scalar)}

/-! ## Casts -/

/-- A cast of the elements is one of each of them: to truth values … -/
theorem toBools_eq (e : Elements) : e.toBools = e.toList.map Scalar.toBool := by
  cases e <;> simp [toBools, toList, Function.comp_def, Scalar.toBool]

/-- … to integers … -/
theorem toInts_eq (e : Elements) : e.toInts = e.toList.map Scalar.toInt := by
  cases e <;> simp [toInts, toList, Function.comp_def, Scalar.toInt]

/-- … to floats … -/
theorem toFloats_eq (e : Elements) : e.toFloats = e.toList.map Scalar.toFloat := by
  cases e <;> simp [toFloats, toList, Function.comp_def, Scalar.toFloat]

/-- … and so to any type. -/
theorem toList_cast (e : Elements) (t : ElemType) :
    (e.cast t).toList = e.toList.map (·.cast t) := by
  cases e <;> cases t <;>
    simp [cast, toList, toBools, toInts, toFloats, Scalar.cast, Scalar.toBool, Scalar.toInt,
      Scalar.toFloat, Function.comp_def]

/-- Elements of one type are known by the list of them. -/
theorem eq_of_toList_eq {e f : Elements} (htype : e.elemType = f.elemType)
    (h : e.toList = f.toList) : e = f := by
  cases e <;> cases f <;> cases htype <;>
    exact congrArg _ (List.map_injective_iff.mpr (fun _ _ hs => by cases hs; rfl) h)

/-- … and so by what they are at each slot. -/
theorem eq_of_get?_eq {e f : Elements} (htype : e.elemType = f.elemType)
    (h : ∀ p, e.get? p = f.get? p) : e = f :=
  eq_of_toList_eq htype <| List.ext_getElem? fun p => by rw [toList_getElem?, toList_getElem?, h]

theorem elemType_of_get?_eq (h : e.get? p = some s) : s.elemType = e.elemType := by
  cases e <;> (obtain ⟨x, _, rfl⟩ := Option.map_eq_some_iff.mp h; rfl)

/-- There is an element at each slot within bounds. -/
theorem exists_get?_eq (h : p < e.length) : ∃ s, e.get? p = some s := by
  rw [← toList_getElem?]
  exact ⟨_, List.getElem?_eq_getElem (by rwa [length_toList])⟩

/-! ## Reading several slots -/

/-- What is gathered are the elements at the slots … -/
theorem toList_gather (e : Elements) (slots : List Nat) :
    (e.gather slots).toList = pick e.toList slots := by
  cases e <;> simp [gather, toList, pick_map]

/-- … one for one, if they are within bounds. -/
theorem get?_gather (h : ∀ p ∈ slots, p < e.length) (j : Nat) :
    (e.gather slots).get? j = slots[j]?.bind e.get? := by
  rw [← toList_getElem?, toList_gather, getElem?_pick (by rwa [length_toList])]
  simp only [toList_getElem?]

/-! ## Writing to one slot after the other -/

/-- The elements with the one at a slot replaced by a scalar, which is cast to their type. -/
def put (e : Elements) (slot : Nat) (s : Scalar) : Elements :=
  match e with
  | bools xs => bools (xs.set slot s.toBool)
  | ints xs => ints (xs.set slot s.toInt)
  | floats xs => floats (xs.set slot s.toFloat)

/-- The elements with several of them replaced, one after the other. -/
def putAll (e : Elements) (writes : List (Nat × Scalar)) : Elements :=
  writes.foldl (fun e w => e.put w.1 w.2) e

@[simp] theorem elemType_put (e : Elements) (slot : Nat) (s : Scalar) :
    (e.put slot s).elemType = e.elemType := by
  cases e <;> rfl

@[simp] theorem length_put (e : Elements) (slot : Nat) (s : Scalar) :
    (e.put slot s).length = e.length := by
  cases e <;> exact List.length_set

/-- A slot that was written to has the scalar, cast to the type of the elements … -/
theorem get?_put_self (h : p < e.length) : (e.put p s).get? p = some (s.cast e.elemType) := by
  cases e <;>
    exact congrArg (Option.map _) (List.getElem?_set_self h)

/-- … and the other slots have what they had. -/
theorem get?_put_of_ne (h : slot ≠ p) : (e.put slot s).get? p = e.get? p := by
  cases e <;>
    exact congrArg (Option.map _) (List.getElem?_set_ne h)

theorem putAll_cons (e : Elements) (w : Nat × Scalar) (ws : List (Nat × Scalar)) :
    e.putAll (w :: ws) = (e.put w.1 w.2).putAll ws := rfl

/-- Slots that are not written to keep their elements. -/
theorem get?_putAll_of_forall_ne (h : ∀ w ∈ ws, w.1 ≠ p) : (e.putAll ws).get? p = e.get? p := by
  induction ws generalizing e with
  | nil => rfl
  | cons w ws ih =>
    rw [putAll_cons, ih fun w' hw' => h w' (List.mem_cons_of_mem w hw'),
      get?_put_of_ne (h w List.mem_cons_self)]

/-- **The last scalar that is written to a slot stays there.** -/
theorem get?_putAll (hp : p < e.length) (hj : ws[j]? = some (p, s))
    (hlast : ∀ k w, j < k → ws[k]? = some w → w.1 ≠ p) :
    (e.putAll ws).get? p = some (s.cast e.elemType) := by
  induction ws generalizing e j with
  | nil => cases hj
  | cons w ws ih =>
    rw [putAll_cons]
    cases j with
    | zero =>
      obtain rfl : w = (p, s) := Option.some.inj hj
      rw [get?_putAll_of_forall_ne, get?_put_self hp]
      intro w' hw'
      obtain ⟨k, hk⟩ := List.mem_iff_getElem?.mp hw'
      exact hlast (k + 1) w' k.succ_pos hk
    | succ j =>
      have hlast' : ∀ k w', j < k → ws[k]? = some w' → w'.1 ≠ p :=
        fun k w' hk => hlast (k + 1) w' (Nat.succ_lt_succ hk)
      rw [ih ((length_put _ _ _).symm ▸ hp) hj hlast', elemType_put]

/-- Elements of one type are replaced by what the scalars are in that type. -/
theorem putAll_eq_place {α : Type} {make : List α → Elements} (convert : Scalar → α)
    (hput : ∀ xs slot s, (make xs).put slot s = make (xs.set slot (convert s))) (xs : List α)
    (ws : List (Nat × Scalar)) :
    (make xs).putAll ws = make (place xs (ws.map (Prod.map id convert))) := by
  induction ws generalizing xs with
  | nil => rfl
  | cons w ws ih => rw [putAll_cons, hput, ih, List.map_cons, place_cons]; rfl

/-- **Writing to several slots is writing to one after the other.** -/
theorem scatter_eq_putAll (e : Elements) (slots : List Nat) (values : Elements) :
    e.scatter slots values = e.putAll (slots.zip (spread values.toList slots.length)) := by
  have hspread : spread values.toList slots.length
      = pick values.toList (sourceSlots values.length slots.length) := by
    rw [spread, length_toList]
  rw [hspread]
  cases e with
  | bools xs =>
    rw [putAll_eq_place Scalar.toBool fun _ _ _ => rfl, ← List.zip_map_right, ← pick_map,
      ← toBools_eq]
    rfl
  | ints xs =>
    rw [putAll_eq_place Scalar.toInt fun _ _ _ => rfl, ← List.zip_map_right, ← pick_map,
      ← toInts_eq]
    rfl
  | floats xs =>
    rw [putAll_eq_place Scalar.toFloat fun _ _ _ => rfl, ← List.zip_map_right,
      ← pick_map, ← toFloats_eq]
    rfl

end Elements

end DeferredArrays
