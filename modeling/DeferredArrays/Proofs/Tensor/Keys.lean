import DeferredArrays.Proofs.Tensor.WellFormed
import Mathlib.Data.List.Forall2
import Mathlib.Data.List.Sort

/-!
# Proofs/Tensor/Keys — which slots a key selects, and when it is refused

A position fits an array if it is less than the number of elements and, counted from the end, not
before the first one; it then names one slot (`Names`).  A key selects a list of slots (`Selects`): a
mask those of its true entries in ascending order, a list of positions one slot for each, in the
order of the list.  It is refused with an error of its own (`Refuses`): a mask that has not as many
entries as the array has elements, and the first position that does not fit.

Resolving a key comes to the slots that it selects, or to the error that it is refused with
(`slots_eq_ok_iff`, `slots_eq_error_iff`).
-/

namespace DeferredArrays.Selection

variable {length offset p : Nat} {index : Int64} {indices : List Int64} {entries : List Bool}
  {ps : List Nat} {key : Selection} {e : TensorError}

/-! ## Positions -/

/-- A position that does not lie outside an array with `length` elements. -/
def Fits (length : Nat) (index : Int64) : Prop :=
  -(length : Int) ≤ index.toInt ∧ index.toInt < length

/-- **The slot that a position names**, counted from the start or from the end. -/
def Names (length : Nat) (index : Int64) (p : Nat) : Prop :=
  p < length ∧ (index.toInt = p ∨ index.toInt + length = p)

theorem lt_zero_iff : index < 0 ↔ index.toInt < 0 := by
  rw [Int64.lt_iff_toInt_lt, Int64.toInt_zero]

theorem resolve_of_names (h : Names length index p) : resolve length index = .ok p := by
  obtain ⟨hp, hstart | hend⟩ := h
  · have hneg : ¬ index < 0 := by rw [lt_zero_iff]; omega
    simp only [resolve, if_neg hneg, hstart]
    rw [if_pos (by omega), Int.toNat_natCast]
  · have hneg : index < 0 := by rw [lt_zero_iff]; omega
    simp only [resolve, if_pos hneg, hend]
    rw [if_pos (by omega), Int.toNat_natCast]

theorem resolve_of_not_fits (h : ¬ Fits length index) :
    resolve length index = .error (.indexOutOfBounds index length) := by
  unfold Fits at h
  have hsign : index < 0 ↔ index.toInt < 0 := lt_zero_iff
  have hout : ¬ (0 ≤ (if index < 0 then index.toInt + length else index.toInt) ∧
      (if index < 0 then index.toInt + length else index.toInt) < length) := by
    split <;> omega
  simp only [resolve, if_neg hout]

/-- A position that fits names a slot. -/
theorem Fits.exists_names (h : Fits length index) : ∃ p, Names length index p := by
  obtain ⟨hlow, hhigh⟩ := h
  by_cases hneg : index.toInt < 0
  · exact ⟨(index.toInt + length).toNat, by omega, .inr (by omega)⟩
  · exact ⟨index.toInt.toNat, by omega, .inl (by omega)⟩

theorem resolveAll_cons_of_names (h : Names length index p) :
    resolveAll length (index :: indices) = (p :: ·) <$> resolveAll length indices := by
  rw [resolveAll, resolve_of_names h]
  rfl

theorem resolveAll_of_names (h : List.Forall₂ (Names length) indices ps) :
    resolveAll length indices = .ok ps := by
  induction h with
  | nil => rfl
  | cons hhead _ ih =>
    rw [resolveAll_cons_of_names hhead, ih]
    rfl

/-- **The first position that does not fit is the outcome.** -/
theorem resolveAll_of_not_fits {before after : List Int64} (hbefore : ∀ i ∈ before, Fits length i)
    (h : ¬ Fits length index) :
    resolveAll length (before ++ index :: after) = .error (.indexOutOfBounds index length) := by
  induction before with
  | nil =>
    rw [List.nil_append, resolveAll, resolve_of_not_fits h]
    rfl
  | cons i before ih =>
    obtain ⟨p, hp⟩ := (hbefore i List.mem_cons_self).exists_names
    rw [List.cons_append, resolveAll_cons_of_names hp,
      ih fun j hj => hbefore j (List.mem_cons_of_mem i hj)]
    rfl

/-- Positions that do not all fit have a first one that does not. -/
theorem forall_fits_or_exists (length : Nat) (indices : List Int64) :
    (∃ ps, List.Forall₂ (Names length) indices ps) ∨
      ∃ before index after, indices = before ++ index :: after ∧
        (∀ i ∈ before, Fits length i) ∧ ¬ Fits length index := by
  induction indices with
  | nil => exact .inl ⟨[], .nil⟩
  | cons i indices ih =>
    by_cases hi : Fits length i
    · obtain ⟨p, hp⟩ := hi.exists_names
      rcases ih with ⟨ps, hps⟩ | ⟨before, index, after, rfl, hbefore, hindex⟩
      · exact .inl ⟨p :: ps, .cons hp hps⟩
      · exact .inr ⟨i :: before, index, after, rfl, List.forall_mem_cons.mpr ⟨hi, hbefore⟩, hindex⟩
    · exact .inr ⟨[], i, indices, rfl, fun _ hj => (nomatch hj), hi⟩

/-! ## Masks -/

theorem mem_trueSlots :
    p ∈ trueSlots offset entries ↔ offset ≤ p ∧ entries[p - offset]? = some true := by
  induction entries generalizing offset with
  | nil => simp [trueSlots]
  | cons b entries ih =>
    have hcons : p ∈ trueSlots offset (b :: entries) ↔
        b = true ∧ p = offset ∨ p ∈ trueSlots (offset + 1) entries := by
      cases b <;> simp [trueSlots]
    rw [hcons, ih]
    rcases Nat.lt_trichotomy p offset with hp | rfl | hp
    · exact iff_of_false (by omega) (by omega)
    · simp
    · have hslot : p - offset = p - (offset + 1) + 1 := by omega
      rw [hslot, List.getElem?_cons_succ]
      exact ⟨fun h => ⟨hp.le, (h.resolve_left fun h => hp.ne' h.2).2⟩, fun h => .inr ⟨hp, h.2⟩⟩

/-- The slots of true entries are listed in ascending order. -/
theorem pairwise_trueSlots (offset : Nat) (entries : List Bool) :
    (trueSlots offset entries).Pairwise (· < ·) := by
  induction entries generalizing offset with
  | nil => exact .nil
  | cons b entries ih =>
    cases b with
    | false => exact ih (offset + 1)
    | true => exact .cons (fun p hp => (bounds_of_mem_trueSlots hp).1) (ih (offset + 1))

/-! ## Keys -/

/-- **The slots that a key selects** among `length` elements, in the order in which they are read and
written. -/
inductive Selects (length : Nat) : Selection → List Nat → Prop where
  /-- A position selects the slot that it names. -/
  | position {index : Int64} {p : Nat} (h : Names length index p) :
      Selects length (position index) [p]
  /-- A mask selects the slots of its true entries, in ascending order. -/
  | mask {entries : List Bool} {ps : List Nat} (hlength : entries.length = length)
      (hascending : ps.Pairwise (· < ·)) (htrue : ∀ p, p ∈ ps ↔ entries[p]? = some true) :
      Selects length (mask entries) ps
  /-- Positions select the slots that they name, one after the other. -/
  | take {indices : List Int64} {ps : List Nat} (h : List.Forall₂ (Names length) indices ps) :
      Selects length (take indices) ps

/-- **The error that a key is refused with** by an array with `length` elements. -/
inductive Refuses (length : Nat) : Selection → TensorError → Prop where
  /-- A position that does not fit. -/
  | position {index : Int64} (h : ¬ Fits length index) :
      Refuses length (position index) (.indexOutOfBounds index length)
  /-- A mask with too few or too many entries. -/
  | mask {entries : List Bool} (h : entries.length ≠ length) :
      Refuses length (mask entries) (.shapeMismatch [length] [entries.length])
  /-- Positions, of which this is the first that does not fit. -/
  | take {before after : List Int64} {index : Int64} (hbefore : ∀ i ∈ before, Fits length i)
      (h : ¬ Fits length index) :
      Refuses length (take (before ++ index :: after)) (.indexOutOfBounds index length)

theorem Selects.slots_eq (h : Selects length key ps) : key.slots length = .ok ps := by
  cases h with
  | position h =>
    rw [slots, resolve_of_names h]
    rfl
  | @mask entries _ hlength hascending htrue =>
    have htrueSlots : trueSlots 0 entries = ps :=
      (pairwise_trueSlots 0 entries).eq_of_mem_iff hascending fun p => by
        rw [mem_trueSlots, htrue, Nat.sub_zero, and_iff_right (Nat.zero_le p)]
    rw [slots, if_pos hlength, htrueSlots]
  | take h => exact resolveAll_of_names h

theorem Refuses.slots_eq (h : Refuses length key e) : key.slots length = .error e := by
  cases h with
  | position h =>
    rw [slots, resolve_of_not_fits h]
    rfl
  | mask h => rw [slots, if_neg h]
  | take hbefore h => exact resolveAll_of_not_fits hbefore h

/-- A key selects slots or is refused. -/
theorem selects_or_refuses (length : Nat) (key : Selection) :
    (∃ ps, Selects length key ps) ∨ ∃ e, Refuses length key e := by
  cases key with
  | position index =>
    by_cases h : Fits length index
    · obtain ⟨p, hp⟩ := h.exists_names
      exact .inl ⟨[p], .position hp⟩
    · exact .inr ⟨_, .position h⟩
  | mask entries =>
    by_cases h : entries.length = length
    · refine .inl ⟨trueSlots 0 entries, .mask h (pairwise_trueSlots 0 entries) fun p => ?_⟩
      rw [mem_trueSlots, Nat.sub_zero, and_iff_right (Nat.zero_le p)]
    · exact .inr ⟨_, .mask h⟩
  | take indices =>
    rcases forall_fits_or_exists length indices with
      ⟨ps, hps⟩ | ⟨before, index, after, rfl, hbefore, hindex⟩
    · exact .inl ⟨ps, .take hps⟩
    · exact .inr ⟨_, .take hbefore hindex⟩

/-- **Resolving a key comes to the slots that it selects** … -/
theorem slots_eq_ok_iff : key.slots length = .ok ps ↔ Selects length key ps := by
  refine ⟨fun h => ?_, Selects.slots_eq⟩
  rcases selects_or_refuses length key with ⟨qs, hqs⟩ | ⟨e, he⟩
  · rw [hqs.slots_eq] at h
    exact Except.ok.inj h ▸ hqs
  · rw [he.slots_eq] at h
    cases h

/-- … **or to the error that it is refused with.** -/
theorem slots_eq_error_iff : key.slots length = .error e ↔ Refuses length key e := by
  refine ⟨fun h => ?_, Refuses.slots_eq⟩
  rcases selects_or_refuses length key with ⟨qs, hqs⟩ | ⟨e, he⟩
  · rw [hqs.slots_eq] at h
    cases h
  · rw [he.slots_eq] at h
    exact Except.error.inj h ▸ he

end DeferredArrays.Selection
