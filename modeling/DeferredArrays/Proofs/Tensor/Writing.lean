import DeferredArrays.Proofs.Graph.Trace
import DeferredArrays.Proofs.Tensor.Elements
import DeferredArrays.Proofs.Tensor.Keys

/-!
# Proofs/Tensor/Writing — writing by key is exact and all or nothing

A key that is not refused selects slots, and a value supplies them if it has a single element or one
for each (`Supplies`).  The array then has at each of them the element that is written there last,
cast to its own type, and is what it was elsewhere (`Written`).  This says what writing comes to, and
when it comes to an error (`set_eq_ok_iff`, `set_eq_error_iff`).

An array is written to in place, one element after the other, and what was written before an error
would stay.  In a computation that does this (`InPlace`) nothing is ever written before an error,
because everything that can go wrong is checked first (`InPlace.set_eq`).  So an array that an error
comes of is what it was, and the same is true of the buffers of a heap (`set_exact`).
-/

namespace DeferredArrays.Tensor

variable {a c v : Tensor} {key : Selection} {ps : List Nat} {e : TensorError}

/-! ## What is written -/

/-- A value supplies slots if it has a single element or one for each slot. -/
def Supplies (v : Tensor) (ps : List Nat) : Prop := v.length = 1 ∨ v.length = ps.length

/-- **An array with a value written to some of its slots**, one after the other. -/
structure Written (a v : Tensor) (ps : List Nat) (c : Tensor) : Prop where
  /-- The shape is kept. -/
  shape : c.shape = a.shape
  /-- The type is kept. -/
  elemType : c.elemType = a.elemType
  /-- A slot has the element for its last occurrence, cast to the type of the array. -/
  selected : ∀ j p, ps[j]? = some p → (∀ k, j < k → ps[k]? ≠ some p) →
    ∃ s, v.elements.get? (if v.length = 1 then 0 else j) = some s ∧
      c.elements.get? p = some (s.cast a.elemType)
  /-- All other slots keep their elements. -/
  others : ∀ p, p ∉ ps → c.elements.get? p = a.elements.get? p

/-- Each slot that occurs has a last occurrence. -/
theorem exists_last {p : Nat} (h : p ∈ ps) :
    ∃ j : Nat, ps[j]? = some p ∧ ∀ k, j < k → ps[k]? ≠ some p := by
  induction ps with
  | nil => cases h
  | cons q ps ih =>
    by_cases hp : p ∈ ps
    · obtain ⟨j, hj, hlast⟩ := ih hp
      refine ⟨j + 1, hj, fun k hk => ?_⟩
      cases k with
      | zero => exact absurd hk (Nat.not_lt_zero _)
      | succ k => exact hlast k (Nat.lt_of_succ_lt_succ hk)
    · obtain rfl : p = q := (List.mem_cons.mp h).resolve_right hp
      refine ⟨0, rfl, fun k hk hq => hp ?_⟩
      cases k with
      | zero => exact absurd hk (Nat.lt_irrefl 0)
      | succ k => exact List.mem_of_getElem? hq

/-- What is written determines the array. -/
theorem Written.unique {c' : Tensor} (hc : Written a v ps c) (hc' : Written a v ps c') :
    c = c' := by
  have helements : c.elements = c'.elements := by
    refine Elements.eq_of_get?_eq (hc.elemType.trans hc'.elemType.symm) fun p => ?_
    by_cases hp : p ∈ ps
    · obtain ⟨j, hj, hlast⟩ := exists_last hp
      obtain ⟨s, hs, hget⟩ := hc.selected j p hj hlast
      obtain ⟨s', hs', hget'⟩ := hc'.selected j p hj hlast
      obtain rfl : s = s' := Option.some.inj (hs.symm.trans hs')
      rw [hget, hget']
    · rw [hc.others p hp, hc'.others p hp]
  obtain ⟨_, _⟩ := c
  obtain ⟨_, _⟩ := c'
  obtain rfl := helements
  obtain rfl := hc.shape.trans hc'.shape.symm
  rfl

/-- **Scattering the elements of a value writes them.** -/
theorem written_scatter (hps : ∀ p ∈ ps, p < a.length) (hv : Supplies v ps) :
    Written a v ps ⟨a.shape, a.elements.scatter ps v.elements⟩ where
  shape := rfl
  elemType := Elements.elemType_scatter _ _ _
  selected j p hj hlast := by
    obtain ⟨hlt, -⟩ := List.getElem?_eq_some_iff.mp hj
    have hsource : (if v.length = 1 then 0 else j) < v.elements.length := by
      unfold Supplies length at hv
      unfold length
      split <;> omega
    obtain ⟨s, hs⟩ := Elements.exists_get?_eq hsource
    have hspread : (spread v.elements.toList ps.length)[j]? = some s := by
      rw [getElem?_spread ?_ hlt, Elements.length_toList, Elements.toList_getElem?]
      · exact hs
      · rw [Elements.length_toList]
        exact hv.imp_right Eq.ge
    refine ⟨s, hs, ?_⟩
    rw [Elements.scatter_eq_putAll]
    refine Elements.get?_putAll (hps p (List.mem_of_getElem? hj))
      (List.getElem?_zip_eq_some.mpr ⟨hj, hspread⟩) fun k w hk hw hwp => hlast k hk ?_
    rw [(List.getElem?_zip_eq_some.mp hw).1, hwp]
  others p hp := by
    rw [Elements.scatter_eq_putAll, Elements.get?_putAll_of_forall_ne]
    intro w hw hwp
    exact hp (hwp ▸ (List.of_mem_zip hw).1)

/-! ## What writing comes to -/

theorem not_supplies_iff : ¬ Supplies v ps ↔ v.length ≠ 1 ∧ v.length ≠ ps.length := not_or

theorem Supplies.not_ne (hv : Supplies v ps) : ¬ (v.length ≠ 1 ∧ v.length ≠ ps.length) :=
  fun hne => not_supplies_iff.mpr hne hv

theorem set_of_supplies (hkey : key.Selects a.length ps) (hv : Supplies v ps) :
    a.set key v = .ok ⟨a.shape, a.elements.scatter ps v.elements⟩ := by
  simp only [set, hkey.slots_eq, bind, Except.bind, if_neg hv.not_ne, pure, Except.pure]

theorem set_of_not_supplies (hkey : key.Selects a.length ps) (hv : ¬ Supplies v ps) :
    a.set key v = .error (.shapeMismatch [ps.length] v.shape.dims) := by
  simp only [set, hkey.slots_eq, bind, Except.bind, if_pos (not_supplies_iff.mp hv)]

theorem set_of_refuses (hkey : key.Refuses a.length e) : a.set key v = .error e := by
  simp only [set, hkey.slots_eq, bind, Except.bind]

/-- **What writing comes to**, for a key that is refused, a value that does not supply the slots that
the key selects, and a value that does. -/
theorem set_cases (a v : Tensor) (key : Selection) :
    (∃ e, key.Refuses a.length e ∧ a.set key v = .error e) ∨ ∃ ps, key.Selects a.length ps ∧
      (¬ Supplies v ps ∧ a.set key v = .error (.shapeMismatch [ps.length] v.shape.dims) ∨
        Supplies v ps ∧ a.set key v = .ok ⟨a.shape, a.elements.scatter ps v.elements⟩) := by
  rcases key.selects_or_refuses a.length with ⟨ps, hkey⟩ | ⟨e, hkey⟩
  · refine .inr ⟨ps, hkey, ?_⟩
    by_cases hv : Supplies v ps
    · exact .inr ⟨hv, set_of_supplies hkey hv⟩
    · exact .inl ⟨hv, set_of_not_supplies hkey hv⟩
  · exact .inl ⟨e, hkey, set_of_refuses hkey⟩

/-- **Writing succeeds if the key selects slots that the value supplies** … -/
theorem set_eq_ok_iff :
    a.set key v = .ok c ↔ ∃ ps, key.Selects a.length ps ∧ Supplies v ps ∧ Written a v ps c := by
  constructor
  · intro h
    rcases set_cases a v key with ⟨e, -, hset⟩ | ⟨ps, hkey, ⟨-, hset⟩ | ⟨hv, hset⟩⟩
    · cases hset.symm.trans h
    · cases hset.symm.trans h
    · obtain rfl := Except.ok.inj (hset.symm.trans h)
      exact ⟨ps, hkey, hv, written_scatter (Selection.lt_of_slots hkey.slots_eq) hv⟩
  · rintro ⟨ps, hkey, hv, hwritten⟩
    have hscatter := written_scatter (Selection.lt_of_slots hkey.slots_eq) hv
    rw [set_of_supplies hkey hv, hwritten.unique hscatter]

/-- … **and fails if the key is refused, or else if the value does not supply the slots.** -/
theorem set_eq_error_iff :
    a.set key v = .error e ↔ key.Refuses a.length e ∨ ∃ ps, key.Selects a.length ps ∧
      ¬ Supplies v ps ∧ e = .shapeMismatch [ps.length] v.shape.dims := by
  constructor
  · intro h
    rcases set_cases a v key with ⟨e', hkey, hset⟩ | ⟨ps, hkey, ⟨hv, hset⟩ | ⟨-, hset⟩⟩
    · obtain rfl := Except.error.inj (hset.symm.trans h)
      exact .inl hkey
    · exact .inr ⟨ps, hkey, hv, (Except.error.inj (hset.symm.trans h)).symm⟩
    · cases hset.symm.trans h
  · rintro (hkey | ⟨ps, hkey, hv, rfl⟩)
    · exact set_of_refuses hkey
    · exact set_of_not_supplies hkey hv

end Tensor

/-! ## Writing in place -/

/-- What stops a change of an array. -/
inductive Stop where
  /-- The change is refused. -/
  | refused (e : TensorError)
  /-- A slot is accessed that is not there. -/
  | missing (slot : Nat)

/-- **A computation that changes an array in place.**  It may stop, and what it has changed by then
stays changed. -/
abbrev InPlace := EStateM Stop Tensor

namespace InPlace

/-- Writes an element. -/
def put (slot : Nat) (s : Scalar) : InPlace Unit := do
  let a ← get
  if slot < a.length then MonadState.set { a with elements := a.elements.put slot s }
  else throw (.missing slot)

/-- Writes elements of `values` to slots, one after the other.  Each slot comes with the one that its
element is at. -/
def putAll (values : Elements) : List (Nat × Nat) → InPlace Unit
  | [] => pure ()
  | (slot, source) :: ws => do
    match values.get? source with
    | some s => put slot s
    | none => throw (.missing source)
    putAll values ws

/-- Writes a value to the slots that a key was resolved to. -/
def putSlots (value : Tensor) : Except TensorError (List Nat) → InPlace Unit
  | .error e => throw (.refused e)
  | .ok slots =>
    if value.length ≠ 1 ∧ value.length ≠ slots.length then
      throw (.refused (.shapeMismatch [slots.length] value.shape.dims))
    else putAll value.elements (slots.zip (sourceSlots value.length slots.length))

/-- Writes a value to the elements that a key selects. -/
def set (key : Selection) (value : Tensor) : InPlace Unit := do
  putSlots value (key.slots (← get).length)

theorem put_eq {a : Tensor} {slot : Nat} {s : Scalar} (h : slot < a.length) :
    put slot s a = .ok () { a with elements := a.elements.put slot s } := by
  change (if slot < a.length then MonadState.set { a with elements := a.elements.put slot s }
    else throw (.missing slot) : InPlace Unit) a = _
  rw [if_pos h]
  rfl

theorem putAll_eq {a : Tensor} {values : Elements} {slots sources : List Nat}
    (hslots : ∀ p ∈ slots, p < a.length) (hsources : ∀ i ∈ sources, i < values.length) :
    putAll values (slots.zip sources) a = .ok () { a with
      elements := a.elements.putAll (slots.zip (pick values.toList sources)) } := by
  induction slots generalizing a sources with
  | nil => rfl
  | cons slot slots ih =>
    cases sources with
    | nil => rfl
    | cons source sources =>
      obtain ⟨s, hs⟩ := Elements.exists_get?_eq (hsources source List.mem_cons_self)
      have hput := put_eq (s := s) (hslots slot List.mem_cons_self)
      have hrest := ih (a := { a with elements := a.elements.put slot s })
        (fun p hp => (hslots p (List.mem_cons_of_mem slot hp)).trans_eq
          (Elements.length_put _ _ _).symm)
        (fun i hi => hsources i (List.mem_cons_of_mem source hi))
      rw [List.zip_cons_cons, putAll]
      simp only [hs, bind, EStateM.bind, hput, hrest]
      rw [pick_cons, Elements.toList_getElem?, hs]
      rfl

/-- **Nothing is written before an error**, and without one all is written.  No slot is accessed that
is not there. -/
theorem set_eq (a v : Tensor) (key : Selection) :
    set key v a = match a.set key v with
      | .ok c => .ok () c
      | .error e => .error (.refused e) a := by
  change putSlots v (key.slots a.length) a = _
  rcases Tensor.set_cases a v key with ⟨e, hkey, hset⟩ | ⟨ps, hkey, ⟨hv, hset⟩ | ⟨hv, hset⟩⟩
  · rw [hkey.slots_eq, hset]
    rfl
  · rw [hkey.slots_eq, hset, putSlots, if_pos (Tensor.not_supplies_iff.mp hv)]
    rfl
  · have hsources : ∀ i ∈ sourceSlots v.length ps.length, i < v.elements.length :=
      fun i hi => lt_of_mem_sourceSlots (hv.imp_right Eq.ge) hi
    rw [hkey.slots_eq, hset, putSlots, if_neg hv.not_ne, Elements.scatter_eq_putAll, spread,
      Elements.length_toList]
    exact putAll_eq (Selection.lt_of_slots hkey.slots_eq) hsources

end InPlace

/-- Writing to a buffer of a heap changes the buffer, or fails and changes nothing. -/
theorem Eval.write_eq_set {h : Heap} {b : BufferId} {a : Tensor} (hb : h.buffer? b = some a)
    (key : Selection) (v : Tensor) :
    Eval.write b key v h = match a.set key v with
      | .ok c => .ok () (h.setBuffer b c)
      | .error e => .error (.tensor e) h := by
  cases hset : a.set key v with
  | ok c => exact Logged.write_eq hb hset
  | error e => exact Logged.write_eq_error hb hset

namespace Tensor

/-- **Writing by key is exact and all or nothing.**  It comes to an error if and only if the key is
refused, or else the value does not supply the slots that the key selects; otherwise it comes to the
array with the value written to these slots.  In place it does the same, and where it comes to an
error it leaves an array, and a heap, as they were. -/
theorem set_exact (a v : Tensor) (key : Selection) :
    (∀ e, a.set key v = .error e ↔ key.Refuses a.length e ∨ ∃ ps, key.Selects a.length ps ∧
      ¬ Supplies v ps ∧ e = .shapeMismatch [ps.length] v.shape.dims) ∧
    (∀ c, a.set key v = .ok c ↔
      ∃ ps, key.Selects a.length ps ∧ Supplies v ps ∧ Written a v ps c) ∧
    (InPlace.set key v a = match a.set key v with
      | .ok c => .ok () c
      | .error e => .error (.refused e) a) ∧
    ∀ (h : Heap) (b : BufferId), h.buffer? b = some a →
      Eval.write b key v h = match a.set key v with
        | .ok c => .ok () (h.setBuffer b c)
        | .error e => .error (.tensor e) h :=
  ⟨fun _ => set_eq_error_iff, fun _ => set_eq_ok_iff, InPlace.set_eq a v key,
    fun _ _ hb => Eval.write_eq_set hb key v⟩

/-- The first slot is written to twice and keeps the second element. -/
theorem set_exact_twice :
    let h : Heap := ⟨#[ofElements (.ints [1, 2, 3])], #[]⟩
    Eval.write 0 (.take [0, 2, -3]) (ofElements (.ints [7, 8, 9])) h
      = .ok () ⟨#[ofElements (.ints [9, 2, 8])], #[]⟩ :=
  (set_exact (ofElements (.ints [1, 2, 3])) (ofElements (.ints [7, 8, 9]))
    (.take [0, 2, -3])).2.2.2 ⟨#[ofElements (.ints [1, 2, 3])], #[]⟩ 0 rfl

end Tensor

end DeferredArrays
