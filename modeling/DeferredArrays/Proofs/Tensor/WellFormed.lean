import DeferredArrays.Tensor.Selection

/-!
# Proofs/Tensor/WellFormed — operations on well-formed arrays give well-formed arrays

An array is well formed when its shape counts its elements.  The operators keep it so because the
operands of a result line up with it (`Operand`): an operand has the shape of the result, or it has
rank zero and its one element stands for all.
-/

namespace DeferredArrays

/-! ## Arrays of rank zero -/

namespace Tensor

/-- An array of rank zero is recovered from its one element. -/
theorem ofScalar_eq_of_toScalar? {a : Tensor} {s : Scalar} (ha : a.WellFormed)
    (hs : a.toScalar? = some s) : ofScalar s = a := by
  obtain ⟨shape, elements⟩ := a
  unfold toScalar? at hs
  split at hs
  next hrank =>
    obtain rfl := Shape.rank_eq_zero_iff.mp hrank
    have hone : elements.length = 1 := ha
    cases elements with
    | bools xs =>
      obtain ⟨x, rfl⟩ := List.length_eq_one_iff.mp hone
      cases hs
      rfl
    | ints xs =>
      obtain ⟨x, rfl⟩ := List.length_eq_one_iff.mp hone
      cases hs
      rfl
    | floats xs =>
      obtain ⟨x, rfl⟩ := List.length_eq_one_iff.mp hone
      cases hs
      rfl
  next => cases hs

/-- An array of rank zero is a scalar. -/
theorem exists_eq_ofScalar {a : Tensor} (ha : a.WellFormed) (h0 : a.shape.rank = 0) :
    ∃ s, a = ofScalar s := by
  have hlt : 0 < a.elements.toList.length := by
    rw [Elements.length_toList, ha, Shape.rank_eq_zero_iff.mp h0, Shape.count_scalar]
    exact Nat.one_pos
  have hs : a.toScalar? = some a.elements.toList[0] := by
    rw [toScalar?, if_pos h0, ← Elements.toList_getElem?, List.getElem?_eq_getElem hlt]
  exact ⟨_, (ofScalar_eq_of_toScalar? ha hs).symm⟩

end Tensor

/-! ## Operands -/

namespace Shape

/-- An operand of a combined shape has that shape or rank zero. -/
theorem eq_or_scalar_of_broadcast? {s t u : Shape} (h : s.broadcast? t = some u) :
    (s = u ∨ s = scalar) ∧ (t = u ∨ t = scalar) := by
  unfold broadcast? at h
  split at h
  next hst =>
    cases h
    refine ⟨.inl rfl, ?_⟩
    rcases hst with rfl | ht
    · exact .inl rfl
    · exact .inr (rank_eq_zero_iff.mp ht)
  next =>
    split at h
    next hs =>
      cases h
      exact ⟨.inr (rank_eq_zero_iff.mp hs), .inl rfl⟩
    next => cases h

end Shape

namespace Tensor

/-- **An operand of a result of a given shape**: well formed, and of that shape or of rank zero. -/
structure Operand (s : Shape) (a : Tensor) : Prop where
  /-- The operand is well formed. -/
  wellFormed : a.WellFormed
  /-- The operand has the shape of the result, or rank zero. -/
  shape : a.shape = s ∨ a.shape = .scalar

/-- An operand has one element, or as many as the result. -/
theorem Operand.length {s : Shape} {a : Tensor} (h : Operand s a) :
    a.elements.length = 1 ∨ a.elements.length = s.count := by
  rw [h.wellFormed]
  rcases h.shape with hs | hs
  · exact .inr (by rw [hs])
  · exact .inl (by rw [hs, Shape.count_scalar])

/-- An operand's elements can be spread over the result. -/
theorem Operand.spreads {s : Shape} {a : Tensor} (h : Operand s a) {α : Type} {xs : List α}
    (hx : xs.length = a.elements.length) : xs.length = 1 ∨ s.count ≤ xs.length := by
  rcases h.length with h | h <;> omega

theorem Operand.length_spread {s : Shape} {a : Tensor} (h : Operand s a) {α : Type} {xs : List α}
    (hx : xs.length = a.elements.length) : (spread xs s.count).length = s.count :=
  DeferredArrays.length_spread (h.spreads hx)

theorem operands_of_resultShape {a b : Tensor} {s : Shape} (ha : a.WellFormed) (hb : b.WellFormed)
    (h : resultShape a b = .ok s) : Operand s a ∧ Operand s b := by
  unfold resultShape at h
  split at h
  next u hu =>
    cases h
    obtain ⟨hl, hr⟩ := Shape.eq_or_scalar_of_broadcast? hu
    exact ⟨⟨ha, hl⟩, ⟨hb, hr⟩⟩
  next => cases h

/-! ## Elementwise results -/

theorem length_combineInts {rule : Int64 → Int64 → Except TensorError Int64} {xs ys zs : List Int64}
    (h : combineInts rule xs ys = .ok zs) : zs.length = min xs.length ys.length := by
  induction xs generalizing ys zs with
  | nil => cases h; simp
  | cons x xs ih =>
    cases ys with
    | nil => cases h; simp
    | cons y ys =>
      rw [combineInts] at h
      obtain ⟨z, _, h⟩ := exists_of_bind_eq_ok h
      obtain ⟨rest, hrest, h⟩ := exists_of_bind_eq_ok h
      cases h
      simp [ih hrest, Nat.add_min_add_right]

/-- A rule is applied pair by pair where it refuses none of the pairs. -/
theorem combineInts_eq_zipWith {rule : Int64 → Int64 → Except TensorError Int64}
    {f : Int64 → Int64 → Int64} {xs ys : List Int64}
    (h : ∀ p ∈ xs.zip ys, rule p.1 p.2 = .ok (f p.1 p.2)) :
    combineInts rule xs ys = .ok (List.zipWith f xs ys) := by
  induction xs generalizing ys with
  | nil => rfl
  | cons x xs ih =>
    cases ys with
    | nil => rfl
    | cons y ys =>
      have hhead : rule x y = .ok (f x y) := h (x, y) List.mem_cons_self
      have htail := ih fun p hp => h p (List.mem_cons_of_mem _ hp)
      simp only [combineInts, hhead, htail, bind, Except.bind, pure, Except.pure,
        List.zipWith_cons_cons]

/-- **What arithmetic does when it succeeds**: in floats, or in integers by the operator's rule. -/
theorem arithmetic_eq_ok {op : Arithmetic} {a b c : Tensor} (h : arithmetic op a b = .ok c) :
    ∃ s, resultShape a b = .ok s ∧
      ((a.elemType.arithmetic b.elemType = .float64 ∧
          c = ⟨s, .floats (List.zipWith op.float (spread a.elements.toFloats s.count)
            (spread b.elements.toFloats s.count))⟩) ∨
        (a.elemType.arithmetic b.elemType ≠ .float64 ∧
          ∃ zs, combineInts op.int (spread a.elements.toInts s.count)
            (spread b.elements.toInts s.count) = .ok zs ∧ c = ⟨s, .ints zs⟩)) := by
  rw [arithmetic] at h
  obtain ⟨s, hs, h⟩ := exists_of_bind_eq_ok h
  refine ⟨s, hs, ?_⟩
  split at h
  next hf =>
    cases h
    exact .inl ⟨hf, rfl⟩
  next hf =>
    obtain ⟨zs, hzs, h⟩ := exists_of_bind_eq_ok h
    cases h
    exact .inr ⟨hf, zs, hzs, rfl⟩

theorem wellFormed_arithmetic {op : Arithmetic} {a b c : Tensor} (ha : a.WellFormed)
    (hb : b.WellFormed) (h : arithmetic op a b = .ok c) : c.WellFormed := by
  obtain ⟨s, hs, ⟨_, rfl⟩ | ⟨_, zs, hzs, rfl⟩⟩ := arithmetic_eq_ok h
  · obtain ⟨hoa, hob⟩ := operands_of_resultShape ha hb hs
    simp [WellFormed, Elements.length, hoa.length_spread (Elements.length_toFloats _),
      hob.length_spread (Elements.length_toFloats _)]
  · obtain ⟨hoa, hob⟩ := operands_of_resultShape ha hb hs
    simp [WellFormed, Elements.length, length_combineInts hzs,
      hoa.length_spread (Elements.length_toInts _), hob.length_spread (Elements.length_toInts _)]

/-- **What a comparison does when it succeeds.** -/
theorem le_eq_ok {a b c : Tensor} (h : le a b = .ok c) :
    ∃ s, resultShape a b = .ok s ∧
      ((a.elemType.promote b.elemType = .float64 ∧
          c = ⟨s, .bools (List.zipWith (fun x y => decide (x ≤ y))
            (spread a.elements.toFloats s.count) (spread b.elements.toFloats s.count))⟩) ∨
        (a.elemType.promote b.elemType ≠ .float64 ∧
          c = ⟨s, .bools (List.zipWith (fun x y => decide (x ≤ y))
            (spread a.elements.toInts s.count) (spread b.elements.toInts s.count))⟩)) := by
  rw [le] at h
  obtain ⟨s, hs, h⟩ := exists_of_bind_eq_ok h
  refine ⟨s, hs, ?_⟩
  split at h
  next hf =>
    cases h
    exact .inl ⟨hf, rfl⟩
  next hf =>
    cases h
    exact .inr ⟨hf, rfl⟩

theorem wellFormed_le {a b c : Tensor} (ha : a.WellFormed) (hb : b.WellFormed)
    (h : le a b = .ok c) : c.WellFormed := by
  obtain ⟨s, hs, ⟨_, rfl⟩ | ⟨_, rfl⟩⟩ := le_eq_ok h
  · obtain ⟨hoa, hob⟩ := operands_of_resultShape ha hb hs
    simp [WellFormed, Elements.length, hoa.length_spread (Elements.length_toFloats _),
      hob.length_spread (Elements.length_toFloats _)]
  · obtain ⟨hoa, hob⟩ := operands_of_resultShape ha hb hs
    simp [WellFormed, Elements.length, hoa.length_spread (Elements.length_toInts _),
      hob.length_spread (Elements.length_toInts _)]

/-! ## Selections -/

theorem wellFormed_get {a c : Tensor} {key : Selection} (h : a.get key = .ok c) : c.WellFormed := by
  rw [get] at h
  obtain ⟨slots, hs, h⟩ := exists_of_bind_eq_ok h
  cases h
  have hlen := Elements.length_gather (e := a.elements) (Selection.lt_of_slots hs)
  cases key with
  | position i =>
    rw [Selection.slots] at hs
    obtain ⟨slot, _, hs⟩ := exists_of_bind_eq_ok hs
    cases hs
    exact hlen
  | mask entries => rw [WellFormed, hlen]; exact (Shape.count_vector _).symm
  | take indices => rw [WellFormed, hlen]; exact (Shape.count_vector _).symm

theorem length_scatter (e : Elements) (slots : List Nat) (values : Elements) :
    (e.scatter slots values).length = e.length := by
  cases e <;> simp [Elements.scatter, Elements.length]

/-- **What a write changes**: elements only. -/
theorem set_eq_ok {a c v : Tensor} {key : Selection} (h : a.set key v = .ok c) :
    ∃ slots, key.slots a.length = .ok slots ∧
      c = ⟨a.shape, a.elements.scatter slots v.elements⟩ := by
  rw [set] at h
  obtain ⟨slots, hs, h⟩ := exists_of_bind_eq_ok h
  split at h
  next => cases h
  next =>
    cases h
    exact ⟨slots, hs, rfl⟩

theorem wellFormed_set {a c v : Tensor} {key : Selection} (ha : a.WellFormed)
    (h : a.set key v = .ok c) : c.WellFormed := by
  obtain ⟨slots, _, rfl⟩ := set_eq_ok h
  exact (length_scatter _ _ _).trans ha

/-! ## Operators -/

theorem wellFormed_unary {op : UnaryOp} {a c : Tensor} (ha : a.WellFormed)
    (h : a.unary op = .ok c) : c.WellFormed := by
  obtain ⟨s, e⟩ := a
  cases op with
  | abs =>
    cases h
    cases e <;> simpa [WellFormed, abs, Elements.length] using ha
  | log =>
    cases h
    simpa [WellFormed, log, Elements.length] using ha
  | neg =>
    cases e with
    | bools xs => cases h
    | ints xs => cases h; simpa [WellFormed, Elements.length] using ha
    | floats xs => cases h; simpa [WellFormed, Elements.length] using ha

theorem wellFormed_binary {op : BinaryOp} {a b c : Tensor} (ha : a.WellFormed) (hb : b.WellFormed)
    (h : a.binary op b = .ok c) : c.WellFormed := by
  cases op with
  | add => exact wellFormed_arithmetic ha hb h
  | sub => exact wellFormed_arithmetic ha hb h
  | mul => exact wellFormed_arithmetic ha hb h
  | div => exact wellFormed_arithmetic (wellFormed_cast ha _) hb h
  | pow => exact wellFormed_arithmetic ha hb h
  | le => exact wellFormed_le ha hb h
  | getItem =>
    rw [binary, getItem] at h
    obtain ⟨key, _, h⟩ := exists_of_bind_eq_ok h
    exact wellFormed_get h

end Tensor

end DeferredArrays
