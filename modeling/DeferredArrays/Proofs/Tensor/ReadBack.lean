import DeferredArrays.Proofs.Tensor.Writing

/-!
# Proofs/Tensor/ReadBack — reading and writing by key are consistent

Keys can say the same in different words (`Alike`): positions may count from either end, and a mask
is the list of the positions of its true entries.  Such keys select the same slots or are refused
with the same error (`Alike.slots_eq`), so that nothing tells them apart: neither what is read and
written nor an error nor the effect on a buffer.

What was read can be written back and changes nothing (`set_of_get_eq_ok`), and what was written to
distinct slots is read back (`get_of_set_eq_ok`).  Together these make reading and writing
consistent (`get_set_consistent`).
-/

namespace DeferredArrays

namespace Selection

variable {length : Nat} {index other : Int64} {indices others : List Int64} {ps : List Nat}
  {key key' : Selection}

/-! ## Keys that say the same -/

/-- **A position, counted from the start or as it is.**  One that counts from the end may be replaced
if it does not lie outside the array. -/
def Recounts (length : Nat) (index other : Int64) : Prop :=
  other = index ∨
    -(length : Int) ≤ index.toInt ∧ index.toInt < 0 ∧ other.toInt = index.toInt + length

/-- **Keys that say the same** to an array with `length` elements. -/
inductive Alike (length : Nat) : Selection → Selection → Prop where
  /-- A position, counted in another way. -/
  | position {index other : Int64} (h : Recounts length index other) :
      Alike length (position index) (position other)
  /-- Positions, some of them counted in another way. -/
  | take {indices others : List Int64} (h : List.Forall₂ (Recounts length) indices others) :
      Alike length (take indices) (take others)
  /-- A mask, and the positions of the slots that it selects. -/
  | mask {entries : List Bool} {ps : List Nat} {indices : List Int64}
      (h : Selects length (mask entries) ps)
      (hindices : List.Forall₂ (fun (i : Int64) (p : Nat) => i.toInt = p) indices ps) :
      Alike length (mask entries) (take indices)

/-- Every mask that fits can be said by positions, since these reach all of an array. -/
theorem exists_alike_mask {entries : List Bool} (h : entries.length = length)
    (hlength : length ≤ 0x8000000000000000) :
    ∃ indices, Alike length (mask entries) (take indices) := by
  have hselects : Selects length (mask entries) (trueSlots 0 entries) :=
    slots_eq_ok_iff.mp (if_pos h)
  refine ⟨(trueSlots 0 entries).map fun (p : Nat) => Int64.ofInt p, .mask hselects ?_⟩
  refine List.forall₂_map_left_iff.mpr (List.forall₂_same.mpr fun p hp => ?_)
  have hlt : p < length := lt_of_slots hselects.slots_eq p hp
  exact Int64.toInt_ofInt_of_le (by omega) (by omega)

theorem Recounts.resolve_eq (h : Recounts length index other) :
    resolve length index = resolve length other := by
  rcases h with rfl | ⟨hlow, hneg, hother⟩
  · rfl
  · have hindex : Names length index (index.toInt + length).toNat := ⟨by omega, .inr (by omega)⟩
    have hothers : Names length other (index.toInt + length).toNat := ⟨by omega, .inl (by omega)⟩
    rw [resolve_of_names hindex, resolve_of_names hothers]

/-- **Keys that say the same select the same slots**, or are refused with the same error. -/
theorem Alike.slots_eq (h : Alike length key key') : key.slots length = key'.slots length := by
  cases h with
  | position h => rw [slots, slots, h.resolve_eq]
  | take h =>
    rw [slots, slots]
    induction h with
    | nil => rfl
    | cons hhead _ ih => rw [resolveAll, resolveAll, hhead.resolve_eq, ih]
  | @mask entries ps indices h hindices =>
    have hnames : List.Forall₂ (Names length) indices ps := by
      have hlt := lt_of_slots h.slots_eq
      clear h
      induction hindices with
      | nil => exact .nil
      | cons hhead _ ih =>
        exact .cons ⟨hlt _ List.mem_cons_self, .inl hhead⟩
          (ih fun p hp => hlt p (List.mem_cons_of_mem _ hp))
    rw [h.slots_eq, (Selects.take hnames).slots_eq]

theorem Alike.readShape_eq (h : Alike length key key') (count : Nat) :
    key.readShape count = key'.readShape count := by
  cases h <;> rfl

end Selection

namespace Tensor

open Selection

variable {a c v : Tensor} {key key' : Selection} {ps : List Nat}

theorem get_of_selects (h : key.Selects a.length ps) :
    a.get key = .ok ⟨key.readShape ps.length, a.elements.gather ps⟩ := by
  simp only [get, h.slots_eq, bind, Except.bind, pure, Except.pure]

theorem get_congr (h : Alike a.length key key') : a.get key = a.get key' := by
  simp only [get, h.slots_eq, h.readShape_eq]

theorem set_congr (h : Alike a.length key key') (v : Tensor) : a.set key v = a.set key' v := by
  simp only [set, h.slots_eq]

/-! ## Writing back what was read -/

/-- **What was read can be written back**, and changes nothing. -/
theorem set_of_get_eq_ok (h : a.get key = .ok v) : a.set key v = .ok a := by
  rw [get] at h
  obtain ⟨ps, hslots, h⟩ := exists_of_bind_eq_ok h
  obtain rfl := Except.ok.inj h
  have hlt := lt_of_slots hslots
  have hlength : (a.elements.gather ps).length = ps.length := Elements.length_gather hlt
  refine set_eq_ok_iff.mpr
    ⟨ps, slots_eq_ok_iff.mp hslots, .inr hlength, rfl, rfl, ?_, fun _ _ => rfl⟩
  intro j p hj _
  have hsource : (if (a.elements.gather ps).length = 1 then 0 else j) = j := by
    obtain ⟨hjlt, -⟩ := List.getElem?_eq_some_iff.mp hj
    rw [hlength]
    split <;> omega
  obtain ⟨s, hs⟩ := Elements.exists_get?_eq (hlt p (List.mem_of_getElem? hj))
  refine ⟨s, ?_, ?_⟩
  · rw [length, hsource, Elements.get?_gather hlt, hj]
    exact hs
  · rw [hs, elemType, ← Elements.elemType_of_get?_eq hs, Scalar.cast_elemType]

/-! ## Reading what was written -/

/-- **What was written to distinct slots is read back**, cast to the type of the array. -/
theorem get_of_set_eq_ok (hkey : key.Selects a.length ps) (hdistinct : ps.Nodup)
    (h : a.set key v = .ok c) :
    ∃ w, c.get key = .ok w ∧ w.shape = key.readShape ps.length ∧ w.elemType = a.elemType ∧
      w.length = ps.length ∧ ∀ j < ps.length, w.elements.get? j
        = (v.elements.get? (if v.length = 1 then 0 else j)).map (·.cast a.elemType) := by
  obtain ⟨qs, hqs, hv, hwritten⟩ := set_eq_ok_iff.mp h
  obtain rfl : qs = ps := Except.ok.inj (hqs.slots_eq.symm.trans hkey.slots_eq)
  have hlength : c.length = a.length := by
    obtain ⟨_, _, rfl⟩ := Tensor.set_eq_ok h
    exact length_scatter _ _ _
  have hlt : ∀ p ∈ qs, p < c.elements.length := lt_of_slots (hlength ▸ hkey.slots_eq)
  refine ⟨_, get_of_selects (hlength ▸ hkey), rfl, ?_, Elements.length_gather hlt, fun j hj => ?_⟩
  · exact (Elements.elemType_gather _ _).trans hwritten.elemType
  · have hslot : qs[j]? = some qs[j] := List.getElem?_eq_getElem hj
    have hlast : ∀ k, j < k → qs[k]? ≠ some qs[j] := fun k hk hq =>
      hk.ne (hdistinct.getElem_inj_iff.mp (List.getElem?_eq_some_iff.mp hq).2.symm)
    obtain ⟨s, hs, hget⟩ := hwritten.selected j _ hslot hlast
    rw [Elements.get?_gather hlt, hslot, hs]
    exact hget

/-- **Reading and writing by key are consistent.**  Keys that say the same read and write the same
and fail the same, and have the same effect on an array in place and on a heap; for each mask that
fits there are positions that say the same.  What was read can be written back and changes nothing.
What was written to distinct slots is read back, cast to the type of the array; a single element
that was written is read back from each slot. -/
theorem get_set_consistent (a : Tensor) :
    (∀ key key', Alike a.length key key' → a.get key = a.get key' ∧ ∀ v,
      a.set key v = a.set key' v ∧ InPlace.set key v a = InPlace.set key' v a ∧
        ∀ (h : Heap) (b : BufferId), h.buffer? b = some a →
          Eval.write b key v h = Eval.write b key' v h) ∧
    (∀ entries : List Bool, entries.length = a.length → a.length ≤ 0x8000000000000000 →
      ∃ indices, Alike a.length (mask entries) (take indices)) ∧
    (∀ key v, a.get key = .ok v → a.set key v = .ok a ∧ InPlace.set key v a = .ok () a) ∧
    ∀ key v c ps, key.Selects a.length ps → ps.Nodup → a.set key v = .ok c →
      ∃ w, c.get key = .ok w ∧ w.shape = key.readShape ps.length ∧ w.elemType = a.elemType ∧
        w.length = ps.length ∧ ∀ j < ps.length, w.elements.get? j
          = (v.elements.get? (if v.length = 1 then 0 else j)).map (·.cast a.elemType) := by
  refine ⟨fun key key' halike => ⟨get_congr halike, fun v => ?_⟩,
    fun _ => exists_alike_mask, fun key v hget => ?_, fun _ _ _ _ => get_of_set_eq_ok⟩
  · have hset := set_congr halike v
    refine ⟨hset, ?_, fun h b hb => ?_⟩
    · rw [InPlace.set_eq, InPlace.set_eq, hset]
    · rw [Eval.write_eq_set hb, Eval.write_eq_set hb, hset]
  · have hset := set_of_get_eq_ok hget
    exact ⟨hset, by rw [InPlace.set_eq, hset]⟩

/-- A mask is the list of its true entries; the last position is the position before the first one;
the elements there are written back; and truth values that are written there are read back. -/
theorem get_set_consistent_pair :
    let a := ofElements (.ints [4, 5, 6])
    let mask := Selection.mask [true, false, true]
    a.get mask = a.get (.take [0, 2]) ∧ a.get (.position (-1)) = a.get (.position 2) ∧
      a.set mask (ofElements (.ints [4, 6])) = .ok a ∧
      ∃ w, (ofElements (.ints [1, 5, 0])).get mask = .ok w ∧
        w.elements.get? 0 = some (.int 1) ∧ w.elements.get? 1 = some (.int 0) := by
  intro a mask
  have hmask : mask.Selects a.length [0, 2] := slots_eq_ok_iff.mp rfl
  have htake : Alike a.length mask (.take [0, 2]) := .mask hmask (.cons rfl (.cons rfl .nil))
  have hposition : Alike a.length (.position (-1)) (.position 2) := .position (.inr (by decide))
  have hset : a.set mask (ofElements (.bools [true, false])) = .ok (ofElements (.ints [1, 5, 0])) :=
    rfl
  obtain ⟨halike, -, hback, hread⟩ := get_set_consistent a
  obtain ⟨w, hw, -, -, -, hget⟩ := hread mask _ _ [0, 2] hmask (by decide) hset
  exact ⟨(halike _ _ htake).1, (halike _ _ hposition).1, (hback mask _ rfl).1, w, hw,
    hget 0 (by decide), hget 1 (by decide)⟩

end Tensor

end DeferredArrays
