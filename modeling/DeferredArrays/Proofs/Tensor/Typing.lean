import DeferredArrays.Error
import DeferredArrays.Kernel.Body
import DeferredArrays.Proofs.Tensor.WellFormed

/-!
# Proofs/Tensor/Typing — the type and the shape of what an operator returns

The static type of an operator says what it returns: once `Body.unaryType` or `Body.binaryType`
accepts the types of the operands, the operator fails only if their shapes do not combine, and
otherwise returns elements of the type found, in the combined shape (`unary_typed`, `binary_typed`).
The one thing types do not tell is the sign of an exponent; that is what the operand is asked for.

Shapes are combined in some order — over a tree of operators, or one input after the other.  What
comes out is the **join** (`Shape.Joins`), which depends on the set of shapes only, and exists if
and only if all of positive rank are equal (`Shape.exists_joins_iff`).
-/

namespace DeferredArrays

/-! ## Joins of shapes -/

namespace Shape

/-- **A shape is the join of others.** -/
structure Joins (shapes : List Shape) (s : Shape) : Prop where
  /-- Each of them is the join, or has rank zero. -/
  covers : ∀ u ∈ shapes, u = s ∨ u = scalar
  /-- The join is one of them, or has rank zero. -/
  attained : s = scalar ∨ s ∈ shapes

variable {L M : List Shape} {r s t u : Shape}

theorem joins_nil : Joins [] scalar := ⟨fun _ hu => (nomatch hu), .inl rfl⟩

theorem joins_singleton (s : Shape) : Joins [s] s :=
  ⟨fun _ hu => .inl (List.mem_singleton.mp hu), .inr (List.mem_singleton.mpr rfl)⟩

/-- Joins depend on the set of shapes only. -/
theorem Joins.congr (hs : Joins L s) (hmem : ∀ u, u ∈ L ↔ u ∈ M) : Joins M s :=
  ⟨fun u hu => hs.covers u ((hmem u).mpr hu), hs.attained.imp_right (hmem s).mp⟩

theorem Joins.unique (hs : Joins L s) (ht : Joins L t) : s = t := by
  rcases hs.attained with rfl | hmem
  · rcases ht.attained with rfl | hmem
    · rfl
    · exact (hs.covers t hmem).elim Eq.symm Eq.symm
  · rcases ht.covers s hmem with heq | rfl
    · exact heq
    · rcases ht.attained with rfl | hmem'
      · rfl
      · exact (hs.covers t hmem').elim Eq.symm Eq.symm

/-- Part of what has a join has one. -/
theorem Joins.of_subset (hs : Joins M s) (hsub : ∀ u ∈ L, u ∈ M) : ∃ r, Joins L r := by
  by_cases hmem : s ∈ L
  · exact ⟨s, fun u hu => hs.covers u (hsub u hu), .inr hmem⟩
  · refine ⟨scalar, fun u hu => .inr ?_, .inl rfl⟩
    rcases hs.covers u (hsub u hu) with rfl | rfl
    · exact absurd hu hmem
    · rfl

/-- **Two joins combine to the join of both lists.** -/
theorem Joins.append (hs : Joins L s) (ht : Joins M t) (hr : s.broadcast? t = some r) :
    Joins (L ++ M) r := by
  obtain ⟨hsr, htr⟩ := eq_or_scalar_of_broadcast? hr
  refine ⟨fun u hu => ?_, ?_⟩
  · rcases List.mem_append.mp hu with hu | hu
    · rcases hs.covers u hu with rfl | rfl
      · exact hsr
      · exact .inr rfl
    · rcases ht.covers u hu with rfl | rfl
      · exact htr
      · exact .inr rfl
  · have hone : r = s ∨ r = t := by
      unfold broadcast? at hr
      split at hr
      next => exact .inl (Option.some.inj hr).symm
      next =>
        split at hr
        next => exact .inr (Option.some.inj hr).symm
        next => cases hr
    rcases hone with rfl | rfl
    · exact hs.attained.imp_right (List.mem_append_left M)
    · exact ht.attained.imp_right (List.mem_append_right L)

/-- Joins that do not combine leave both lists without a join. -/
theorem Joins.not_append (hs : Joins L s) (ht : Joins M t) (hnone : s.broadcast? t = none) :
    ¬ Joins (L ++ M) r := by
  intro hr
  obtain ⟨hne, hs0, ht0⟩ := broadcast?_eq_none_iff.mp hnone
  have hsr : s = r := by
    rcases hs.attained with rfl | hmem
    · exact absurd rank_scalar hs0
    · rcases hr.covers s (List.mem_append_left M hmem) with heq | rfl
      · exact heq
      · exact absurd rank_scalar hs0
  have htr : t = r := by
    rcases ht.attained with rfl | hmem
    · exact absurd rank_scalar ht0
    · rcases hr.covers t (List.mem_append_right L hmem) with heq | rfl
      · exact heq
      · exact absurd rank_scalar ht0
  exact hne (hsr.trans htr.symm)

/-- **There is a join if and only if all shapes of positive rank are equal.** -/
theorem exists_joins_iff :
    (∃ s, Joins L s) ↔ ∀ u ∈ L, ∀ v ∈ L, u.rank ≠ 0 → v.rank ≠ 0 → u = v := by
  constructor
  · rintro ⟨s, hs⟩ u hu v hv hu0 hv0
    have heq : ∀ w ∈ L, w.rank ≠ 0 → w = s := fun w hw hw0 => by
      rcases hs.covers w hw with rfl | rfl
      · rfl
      · exact absurd rank_scalar hw0
    rw [heq u hu hu0, heq v hv hv0]
  · intro hall
    by_cases hex : ∃ u ∈ L, u.rank ≠ 0
    · obtain ⟨u, hu, hu0⟩ := hex
      refine ⟨u, fun v hv => ?_, .inr hu⟩
      by_cases hv0 : v.rank = 0
      · exact .inr (rank_eq_zero_iff.mp hv0)
      · exact .inl (hall v hv u hu hv0 hu0)
    · refine ⟨scalar, fun v hv => .inr (rank_eq_zero_iff.mp ?_), .inl rfl⟩
      exact Decidable.of_not_not fun hv0 => hex ⟨v, hv, hv0⟩

end Shape

/-- **The outcome of combining arrays whose types were checked before**: elements of a given type in
the join of the shapes, or a mismatch when there is no join. -/
def Resolves (shapes : List Shape) (t : ElemType) : Except Error Tensor → Prop
  | .ok a => Shape.Joins shapes a.shape ∧ a.elemType = t
  | .error e => (∃ s u, e = .tensor (.shapeMismatch s u)) ∧ ∀ r, ¬ Shape.Joins shapes r

namespace Resolves

variable {L M : List Shape} {t : ElemType} {r : Except Error Tensor}

theorem of_ok (hr : Resolves L t r) {a : Tensor} (ha : r = .ok a) :
    Shape.Joins L a.shape ∧ a.elemType = t := by
  subst ha
  exact hr

theorem of_error (hr : Resolves L t r) {e : Error} (he : r = .error e) :
    ∃ s u, e = .tensor (.shapeMismatch s u) := by
  subst he
  exact hr.1

theorem ok_iff (hr : Resolves L t r) : (∃ a, r = .ok a) ↔ ∃ s, Shape.Joins L s := by
  cases r with
  | ok a => exact ⟨fun _ => ⟨_, hr.1⟩, fun _ => ⟨a, rfl⟩⟩
  | error e => exact ⟨fun ⟨_, ha⟩ => (nomatch ha), fun ⟨s, hs⟩ => absurd hs (hr.2 s)⟩

/-- Only the set of shapes matters. -/
theorem congr (hr : Resolves L t r) (hmem : ∀ u, u ∈ L ↔ u ∈ M) : Resolves M t r := by
  cases r with
  | ok a => exact ⟨hr.1.congr hmem, hr.2⟩
  | error e => exact ⟨hr.1, fun s hs => hr.2 s (hs.congr fun u => (hmem u).symm)⟩

end Resolves

/-! ## Operators -/

theorem mem_of_mem_spread {α : Type} {xs : List α} {n : Nat} {x : α} (hx : x ∈ spread xs n) :
    x ∈ xs := by
  obtain ⟨i, _, hi⟩ := List.mem_filterMap.mp hx
  exact List.mem_of_getElem? (List.getElem?_toArray.symm.trans hi)

namespace Tensor

open Kernel

variable {a b : Tensor} {t : ElemType}

/-- **The outcome of an operator on accepted types**: elements of a given type in the combined shape
of the operands, or a mismatch of their shapes. -/
def Typed (a b : Tensor) (t : ElemType) (r : Except TensorError Tensor) : Prop :=
  match a.shape.broadcast? b.shape with
  | some s => ∃ c, r = .ok c ∧ c.shape = s ∧ c.elemType = t
  | none => r = .error (.shapeMismatch a.shape.dims b.shape.dims)

theorem Typed.broadcast?_eq {c : Tensor} (h : Typed a b t (.ok c)) :
    a.shape.broadcast? b.shape = some c.shape := by
  unfold Typed at h
  split at h
  next s hs =>
    obtain ⟨c', hc, rfl, _⟩ := h
    cases hc
    exact hs
  next => cases h

/-- Operands that are joins give the join of both lists. -/
theorem Typed.resolves {L M : List Shape} {r : Except TensorError Tensor} (h : Typed a b t r)
    (ha : Shape.Joins L a.shape) (hb : Shape.Joins M b.shape) :
    Resolves (L ++ M) t (r.mapError .tensor) := by
  unfold Typed at h
  split at h
  next s hs =>
    obtain ⟨c, rfl, rfl, hc⟩ := h
    exact ⟨ha.append hb hs, hc⟩
  next hnone =>
    subst h
    exact ⟨⟨_, _, rfl⟩, fun _ => ha.not_append hb hnone⟩

/-- A rule that refuses no pair of elements refuses none of two lists. -/
theorem combineInts_total {rule : Int64 → Int64 → Except TensorError Int64} {xs ys : List Int64}
    (hrule : ∀ x ∈ xs, ∀ y ∈ ys, ∃ z, rule x y = .ok z) :
    ∃ zs, combineInts rule xs ys = .ok zs := by
  induction xs generalizing ys with
  | nil => exact ⟨[], rfl⟩
  | cons x xs ih =>
    cases ys with
    | nil => exact ⟨[], rfl⟩
    | cons y ys =>
      obtain ⟨z, hz⟩ := hrule x List.mem_cons_self y List.mem_cons_self
      obtain ⟨zs, hzs⟩ := ih fun x hx y hy =>
        hrule x (List.mem_cons_of_mem _ hx) y (List.mem_cons_of_mem _ hy)
      refine ⟨z :: zs, ?_⟩
      simp only [combineInts, hz, hzs, bind, Except.bind, pure, Except.pure]

theorem arithmetic_typed {op : Arithmetic}
    (hint : a.elemType.arithmetic b.elemType ≠ .float64 →
      ∀ x ∈ a.elements.toInts, ∀ y ∈ b.elements.toInts, ∃ z, op.int x y = .ok z) :
    Typed a b (a.elemType.arithmetic b.elemType) (arithmetic op a b) := by
  unfold Typed
  split
  next s hs =>
    have hshape : resultShape a b = .ok s := by simp only [resultShape, hs]
    simp only [arithmetic, hshape, bind, Except.bind, pure, Except.pure]
    split
    next hf => exact ⟨_, rfl, rfl, hf.symm⟩
    next hf =>
      have htotal : ∀ x ∈ spread a.elements.toInts s.count, ∀ y ∈ spread b.elements.toInts s.count,
          ∃ z, op.int x y = .ok z := fun x hx y hy =>
        hint hf x (mem_of_mem_spread hx) y (mem_of_mem_spread hy)
      obtain ⟨zs, hzs⟩ := combineInts_total htotal
      refine ⟨⟨s, .ints zs⟩, by rw [hzs], rfl, ?_⟩
      have hb := ElemType.arithmetic_ne_bool a.elemType b.elemType
      cases hu : a.elemType.arithmetic b.elemType with
      | bool => exact absurd hu hb
      | int64 => rfl
      | float64 => exact absurd hu hf
  next hs =>
    have hshape : resultShape a b = .error (.shapeMismatch a.shape.dims b.shape.dims) := by
      simp only [resultShape, hs]
    simp only [arithmetic, hshape, bind, Except.bind]

theorem le_typed : Typed a b .bool (le a b) := by
  unfold Typed
  split
  next s hs =>
    have hshape : resultShape a b = .ok s := by simp only [resultShape, hs]
    simp only [le, hshape, bind, Except.bind, pure, Except.pure]
    split
    next => exact ⟨_, rfl, rfl, rfl⟩
    next => exact ⟨_, rfl, rfl, rfl⟩
  next hs =>
    have hshape : resultShape a b = .error (.shapeMismatch a.shape.dims b.shape.dims) := by
      simp only [resultShape, hs]
    simp only [le, hshape, bind, Except.bind]

theorem intPower_of_nonneg {x y : Int64} (hy : 0 ≤ y) : ∃ z, Arithmetic.intPower x y = .ok z := by
  have hlt : ¬ y < 0 := Int64.not_lt.mpr hy
  exact ⟨_, by rw [Arithmetic.intPower, Number.boundedPower, if_neg hlt]⟩

/-- **A binary operator does what its static type says.** -/
theorem binary_typed {op : BinaryOp} {nonnegative : Bool}
    (hexp : nonnegative = true → b.elemType ≠ .float64 → ∀ y ∈ b.elements.toInts, 0 ≤ y)
    (ht : Body.binaryType op nonnegative a.elemType b.elemType = .ok t) :
    Typed a b t (a.binary op b) := by
  cases op with
  | add => cases ht; exact arithmetic_typed fun _ x _ y _ => ⟨x + y, rfl⟩
  | sub => cases ht; exact arithmetic_typed fun _ x _ y _ => ⟨x - y, rfl⟩
  | mul => cases ht; exact arithmetic_typed fun _ x _ y _ => ⟨x * y, rfl⟩
  | div =>
    cases ht
    have hcast : (a.cast .float64).elemType.arithmetic b.elemType = .float64 :=
      ElemType.arithmetic_eq_float64_iff.mpr (.inl (elemType_cast a .float64))
    have h : Typed (a.cast .float64) b _ (arithmetic .div (a.cast .float64) b) :=
      arithmetic_typed fun hne => absurd hcast hne
    rw [hcast] at h
    exact h
  | pow =>
    simp only [Body.binaryType] at ht
    split at ht
    next => cases ht
    next hok =>
      cases ht
      refine arithmetic_typed fun hf x _ y hy => intPower_of_nonneg ?_
      have hb : b.elemType ≠ .float64 := fun hb =>
        hf (ElemType.arithmetic_eq_float64_iff.mpr (.inr hb))
      refine hexp ?_ hb y hy
      rw [← Bool.not_eq_false]
      refine fun hneg => hok ⟨?_, hneg⟩
      have hbool := ElemType.arithmetic_ne_bool a.elemType b.elemType
      cases hu : a.elemType.arithmetic b.elemType with
      | bool => exact absurd hu hbool
      | int64 => rfl
      | float64 => exact absurd hu hf
  | le => cases ht; exact le_typed
  | getItem => cases ht

/-- **A unary operator does what its static type says**: it cannot fail. -/
theorem unary_typed {op : UnaryOp} (ht : Body.unaryType op a.elemType = .ok t) :
    ∃ c, a.unary op = .ok c ∧ c.shape = a.shape ∧ c.elemType = t := by
  obtain ⟨s, e⟩ := a
  cases op with
  | abs =>
    cases ht
    cases e with
    | bools xs => exact ⟨_, rfl, rfl, rfl⟩
    | ints xs => exact ⟨_, rfl, rfl, rfl⟩
    | floats xs => exact ⟨_, rfl, rfl, rfl⟩
  | log => cases ht; exact ⟨_, rfl, rfl, rfl⟩
  | neg =>
    cases e with
    | bools xs => cases ht
    | ints xs => cases ht; exact ⟨_, rfl, rfl, rfl⟩
    | floats xs => cases ht; exact ⟨_, rfl, rfl, rfl⟩

end Tensor

end DeferredArrays
