import DeferredArrays.Proofs.Tensor.Broadcasting

/-!
# Proofs/Tensor/Selecting — an elementwise operator acts on selected elements as on all

What an elementwise operator makes of some elements does not depend on the others.  Selecting
elements of its result by a key is the same as selecting them of the operands first and then
applying the operator (`binary_restricts`, `unary_gather`).  An operand of rank zero is not selected
from: it has one element, which all those of the result share, unless the result has rank zero as
well (`part`).

The reason is that an operand contributes to the selected elements what it contributes to them
among all (`Restricts`), and that two lists are combined entry by entry (`pick_zipWith`).  For
integers the rule may refuse; a rule that refuses no pair refuses none of those that are selected
(`combineInts_pick`).  With a single slot this says that an element of a result is the operator's
result on the elements of the operands there (`elementwise_of_eq_ok`).
-/

namespace DeferredArrays

/-! ## Selecting from lists -/

section Pick

variable {α β γ : Type} {xs : List α} {ys : List β} {slots : List Nat}

/-- **Selecting from combined lists combines what is selected.** -/
theorem pick_zipWith (f : α → β → γ) (hx : ∀ i ∈ slots, i < xs.length)
    (hy : ∀ i ∈ slots, i < ys.length) :
    pick (List.zipWith f xs ys) slots = List.zipWith f (pick xs slots) (pick ys slots) := by
  induction slots with
  | nil => rfl
  | cons i slots ih =>
    have hix : i < xs.length := hx i List.mem_cons_self
    have hiy : i < ys.length := hy i List.mem_cons_self
    have hrest := ih (fun j hj => hx j (List.mem_cons_of_mem i hj))
      fun j hj => hy j (List.mem_cons_of_mem i hj)
    rw [pick_cons, pick_cons, pick_cons, hrest, List.getElem?_zipWith,
      List.getElem?_eq_getElem hix, List.getElem?_eq_getElem hiy]
    rfl

theorem pick_replicate {n : Nat} (x : α) (h : ∀ i ∈ slots, i < n) :
    pick (List.replicate n x) slots = List.replicate slots.length x := by
  induction slots with
  | nil => rfl
  | cons i slots ih =>
    have hi : i < n := h i List.mem_cons_self
    rw [pick_cons, List.getElem?_replicate, if_pos hi,
      ih fun j hj => h j (List.mem_cons_of_mem i hj)]
    rfl

end Pick

namespace Tensor

variable {a b c d r : Tensor} {s t : Shape} {slots : List Nat} {key : Selection} {i : Nat}

/-- A rule that may refuse has combined two lists if it has combined all pairs. -/
theorem combineInts_eq_ok_iff {rule : Int64 → Int64 → Except TensorError Int64}
    {xs ys zs : List Int64} :
    combineInts rule xs ys = .ok zs ↔ List.zipWith rule xs ys = zs.map Except.ok := by
  induction xs generalizing ys zs with
  | nil => simp [combineInts, eq_comm]
  | cons x xs ih =>
    cases ys with
    | nil => simp [combineInts, eq_comm]
    | cons y ys =>
      rw [List.zipWith_cons_cons, combineInts, eq_comm (b := zs.map Except.ok),
        List.map_eq_cons_iff]
      constructor
      · intro h
        obtain ⟨z, hz, h⟩ := exists_of_bind_eq_ok h
        obtain ⟨rest, hrest, h⟩ := exists_of_bind_eq_ok h
        cases h
        exact ⟨z, rest, rfl, hz.symm, (ih.mp hrest).symm⟩
      · rintro ⟨z, rest, rfl, hz, hrest⟩
        rw [← hz, ih.mpr hrest.symm]
        rfl

/-- **A rule that refuses no pair refuses none of those that are selected.** -/
theorem combineInts_pick {rule : Int64 → Int64 → Except TensorError Int64} {xs ys zs : List Int64}
    (hx : ∀ i ∈ slots, i < xs.length) (hy : ∀ i ∈ slots, i < ys.length)
    (h : combineInts rule xs ys = .ok zs) :
    combineInts rule (pick xs slots) (pick ys slots) = .ok (pick zs slots) := by
  rw [combineInts_eq_ok_iff] at h ⊢
  rw [← pick_zipWith rule hx hy, h, pick_map]

/-! ## Restricting operands -/

/-- **An operand that contributes to the elements at some slots what another contributes there**, in
a result of a given shape. -/
structure Restricts (s : Shape) (slots : List Nat) (a c : Tensor) : Prop where
  /-- The elements have the same type. -/
  elemType : c.elemType = a.elemType
  /-- Each selected element meets the one it met among all. -/
  column : c.column slots.length = pick (a.column s.count) slots

theorem Restricts.cast (h : Restricts s slots a c) (u : ElemType) :
    Restricts s slots (a.cast u) (c.cast u) where
  elemType := by rw [elemType_cast, elemType_cast]
  column := by rw [column_cast, column_cast, h.column, pick_map]

theorem Restricts.toInts (h : Restricts s slots a c) :
    spread c.elements.toInts slots.length = pick (spread a.elements.toInts s.count) slots := by
  rw [spread_toInts, spread_toInts, h.column, pick_map]

theorem Restricts.toFloats (h : Restricts s slots a c) :
    spread c.elements.toFloats slots.length = pick (spread a.elements.toFloats s.count) slots := by
  rw [spread_toFloats, spread_toFloats, h.column, pick_map]

/-- **The operand for the elements at some slots**, in a shape for as many: its elements there, or
the one that all elements of the result share. -/
def restrict (s t : Shape) (slots : List Nat) (a : Tensor) : Tensor :=
  if a.shape.rank = 0 ∧ s.rank ≠ 0 then a else ⟨t, a.elements.gather slots⟩

/-- An operand that is not shared has the shape of the result. -/
theorem Operand.shape_eq (h : Operand s a) (hshared : ¬ (a.shape.rank = 0 ∧ s.rank ≠ 0)) :
    a.shape = s := by
  rcases h.shape with hs | hs
  · exact hs
  · have h0 : s.rank = 0 := by
      by_contra hne
      exact hshared ⟨by rw [hs, Shape.rank_scalar], hne⟩
    rw [hs, Shape.rank_eq_zero_iff.mp h0]

theorem Operand.restricts (h : Operand s a) (hslots : ∀ p ∈ slots, p < s.count) :
    Restricts s slots a (a.restrict s t slots) := by
  by_cases hshared : a.shape.rank = 0 ∧ s.rank ≠ 0
  · obtain ⟨x, rfl⟩ := exists_eq_ofScalar h.wellFormed hshared.1
    rw [restrict, if_pos hshared]
    refine ⟨rfl, ?_⟩
    rw [column_ofScalar, column_ofScalar, pick_replicate x hslots]
  · have hcount : a.elements.toList.length = s.count := by
      rw [Elements.length_toList, h.wellFormed, h.shape_eq hshared]
    have hlen : (pick a.elements.toList slots).length = slots.length :=
      length_pick (by rwa [hcount])
    rw [restrict, if_neg hshared]
    refine ⟨Elements.elemType_gather _ _, ?_⟩
    rw [column, column, Elements.toList_gather, spread_of_length hlen, spread_of_length hcount]

/-- The restricted operands combine to the shape they are restricted to. -/
theorem resultShape_restrict (ha : a.WellFormed) (hb : b.WellFormed)
    (hs : resultShape a b = .ok s) :
    resultShape (a.restrict s t slots) (b.restrict s t slots) = .ok t := by
  obtain ⟨hoa, hob⟩ := operands_of_resultShape ha hb hs
  by_cases hra : a.shape.rank = 0 ∧ s.rank ≠ 0
  · by_cases hrb : b.shape.rank = 0 ∧ s.rank ≠ 0
    · -- two operands of rank zero have a result of rank zero
      rw [resultShape_scalar_right (Shape.rank_eq_zero_iff.mp hrb.1)] at hs
      cases hs
      exact absurd hra.1 hra.2
    · rw [restrict, restrict, if_pos hra, if_neg hrb]
      exact resultShape_scalar_left (Shape.rank_eq_zero_iff.mp hra.1)
  · by_cases hrb : b.shape.rank = 0 ∧ s.rank ≠ 0
    · rw [restrict, restrict, if_neg hra, if_pos hrb]
      exact resultShape_scalar_right (Shape.rank_eq_zero_iff.mp hrb.1)
    · rw [restrict, restrict, if_neg hra, if_neg hrb]
      exact resultShape_self rfl

/-! ## Operators -/

/-- Slots of the result are slots of what an operand contributes to it. -/
theorem Operand.lt_spread {α : Type} {xs : List α} (h : Operand s a)
    (hx : xs.length = a.elements.length) (hslots : ∀ p ∈ slots, p < s.count) :
    ∀ p ∈ slots, p < (spread xs s.count).length := by
  rwa [h.length_spread hx]

section Operators

variable (ha : Operand s a) (hb : Operand s b) (hab : resultShape a b = .ok s)
  (hcd : resultShape c d = .ok t) (ht : t.count = slots.length)
  (hslots : ∀ p ∈ slots, p < s.count) (hac : Restricts s slots a c) (hbd : Restricts s slots b d)

include ha hb hab hcd ht hslots hac hbd

theorem arithmetic_restricts {op : Arithmetic} (h : arithmetic op a b = .ok r) :
    arithmetic op c d = .ok ⟨t, r.elements.gather slots⟩ := by
  obtain ⟨s', hs', hr⟩ := arithmetic_eq_ok h
  obtain rfl : s = s' := Except.ok.inj (hab.symm.trans hs')
  simp only [arithmetic, hcd, bind, Except.bind, hac.elemType, hbd.elemType, ht, hac.toFloats,
    hbd.toFloats, hac.toInts, hbd.toInts]
  rcases hr with ⟨htype, rfl⟩ | ⟨htype, zs, hzs, rfl⟩
  · have hpick := pick_zipWith op.float (ha.lt_spread (Elements.length_toFloats _) hslots)
      (hb.lt_spread (Elements.length_toFloats _) hslots)
    rw [htype, ← hpick]
    rfl
  · have hpick := combineInts_pick (ha.lt_spread (Elements.length_toInts _) hslots)
      (hb.lt_spread (Elements.length_toInts _) hslots) hzs
    rw [hpick]
    split
    next hfloat => exact absurd hfloat htype
    next => rfl

theorem le_restricts (h : le a b = .ok r) : le c d = .ok ⟨t, r.elements.gather slots⟩ := by
  obtain ⟨s', hs', hr⟩ := le_eq_ok h
  obtain rfl : s = s' := Except.ok.inj (hab.symm.trans hs')
  simp only [le, hcd, bind, Except.bind, hac.elemType, hbd.elemType, ht, hac.toFloats,
    hbd.toFloats, hac.toInts, hbd.toInts]
  rcases hr with ⟨htype, rfl⟩ | ⟨htype, rfl⟩
  · have hpick := pick_zipWith (fun x y : Float => decide (x ≤ y))
      (ha.lt_spread (Elements.length_toFloats _) hslots)
      (hb.lt_spread (Elements.length_toFloats _) hslots)
    rw [htype, ← hpick]
    rfl
  · have hpick := pick_zipWith (fun x y : Int64 => decide (x ≤ y))
      (ha.lt_spread (Elements.length_toInts _) hslots)
      (hb.lt_spread (Elements.length_toInts _) hslots)
    rw [← hpick]
    split
    next hfloat => exact absurd hfloat htype
    next => rfl

/-- **An elementwise operator on restricted operands gives the selected elements of its result.** -/
theorem binary_restricts {op : BinaryOp} (hop : op ≠ .getItem) (h : a.binary op b = .ok r) :
    c.binary op d = .ok ⟨t, r.elements.gather slots⟩ := by
  cases op with
  | add => exact arithmetic_restricts ha hb hab hcd ht hslots hac hbd h
  | sub => exact arithmetic_restricts ha hb hab hcd ht hslots hac hbd h
  | mul => exact arithmetic_restricts ha hb hab hcd ht hslots hac hbd h
  | div =>
    have ha' : Operand s (a.cast .float64) := ⟨wellFormed_cast ha.wellFormed _, ha.shape⟩
    have hac' : Restricts s slots (a.cast .float64) (c.cast .float64) := hac.cast .float64
    exact arithmetic_restricts (c := c.cast .float64) ha' hb hab hcd ht hslots hac' hbd h
  | pow => exact arithmetic_restricts ha hb hab hcd ht hslots hac hbd h
  | le => exact le_restricts ha hb hab hcd ht hslots hac hbd h
  | getItem => exact absurd rfl hop

end Operators

theorem shape_unary {op : UnaryOp} (h : a.unary op = .ok r) : r.shape = a.shape := by
  obtain ⟨s, e⟩ := a
  cases op with
  | abs => cases h; cases e <;> rfl
  | log => cases h; rfl
  | neg =>
    cases e with
    | bools xs => cases h
    | ints xs => cases h; rfl
    | floats xs => cases h; rfl

/-- **A unary operator on selected elements gives the selected elements of its result.** -/
theorem unary_gather {op : UnaryOp} (h : a.unary op = .ok r) :
    (⟨t, a.elements.gather slots⟩ : Tensor).unary op = .ok ⟨t, r.elements.gather slots⟩ := by
  obtain ⟨s, e⟩ := a
  cases op with
  | abs =>
    cases h
    cases e with
    | bools xs => rfl
    | ints xs => simp [unary, abs, Elements.gather, pick_map]
    | floats xs => simp [unary, abs, Elements.gather, pick_map]
  | log =>
    cases h
    cases e with
    | bools xs => simp [unary, log, Elements.gather, Elements.toFloats, pick_map]
    | ints xs => simp [unary, log, Elements.gather, Elements.toFloats, pick_map]
    | floats xs => simp [unary, log, Elements.gather, Elements.toFloats, pick_map]
  | neg =>
    cases e with
    | bools xs => cases h
    | ints xs => cases h; simp [unary, neg, Elements.gather, pick_map]
    | floats xs => cases h; simp [unary, neg, Elements.gather, pick_map]

/-! ## Keys and single elements -/

/-- **The part of an operand that a key of the result selects**, in a result of a given shape. -/
def part (s : Shape) (key : Selection) (a : Tensor) : Except TensorError Tensor :=
  if a.shape.rank = 0 ∧ s.rank ≠ 0 then .ok a else a.get key

/-- **The element of an operand that an element of the result is made of.** -/
def elementFor? (s : Shape) (i : Nat) (a : Tensor) : Option Scalar :=
  a.elements.get? (if a.shape.rank = 0 ∧ s.rank ≠ 0 then 0 else i)

theorem get_eq_of_slots (h : key.slots a.length = .ok slots) :
    a.get key = .ok ⟨key.readShape slots.length, a.elements.gather slots⟩ := by
  rw [get, h]
  rfl

/-- The shape of what a key reads counts the slots that it names. -/
theorem count_readShape {n : Nat} (h : key.slots n = .ok slots) :
    (key.readShape slots.length).count = slots.length := by
  cases key with
  | position index =>
    obtain ⟨slot, _, h⟩ := exists_of_bind_eq_ok h
    cases h
    rfl
  | mask entries => exact Shape.count_vector _
  | take indices => exact Shape.count_vector _

theorem Operand.part_eq (h : Operand s a) (hkey : key.slots s.count = .ok slots) :
    a.part s key = .ok (a.restrict s (key.readShape slots.length) slots) := by
  by_cases hshared : a.shape.rank = 0 ∧ s.rank ≠ 0
  · rw [part, restrict, if_pos hshared, if_pos hshared]
  · have hlen : a.length = s.count := by
      rw [← h.shape_eq hshared]
      exact h.wellFormed
    rw [part, restrict, if_neg hshared, if_neg hshared]
    exact get_eq_of_slots (by rwa [hlen])

/-- A single slot, read as an array of rank zero. -/
theorem gather_singleton {e : Elements} {x : Scalar} (h : e.get? i = some x) :
    (⟨.scalar, e.gather [i]⟩ : Tensor) = ofScalar x := by
  cases e with
  | bools xs =>
    obtain ⟨v, hv, rfl⟩ := Option.map_eq_some_iff.mp h
    simp [Elements.gather, hv, pick, ofScalar]
  | ints xs =>
    obtain ⟨v, hv, rfl⟩ := Option.map_eq_some_iff.mp h
    simp [Elements.gather, hv, pick, ofScalar]
  | floats xs =>
    obtain ⟨v, hv, rfl⟩ := Option.map_eq_some_iff.mp h
    simp [Elements.gather, hv, pick, ofScalar]

theorem Operand.exists_elementFor (h : Operand s a) (hi : i < s.count) :
    ∃ x, a.elementFor? s i = some x ∧ a.restrict s .scalar [i] = ofScalar x := by
  by_cases hshared : a.shape.rank = 0 ∧ s.rank ≠ 0
  · obtain ⟨x, rfl⟩ := exists_eq_ofScalar h.wellFormed hshared.1
    rw [elementFor?, restrict, if_pos hshared, if_pos hshared]
    exact ⟨x, by cases x <;> rfl, rfl⟩
  · have hlen : a.elements.length = s.count := by
      rw [h.wellFormed, h.shape_eq hshared]
    obtain ⟨x, hx⟩ := Elements.exists_get?_eq (hlen ▸ hi)
    rw [elementFor?, restrict, if_neg hshared, if_neg hshared]
    exact ⟨x, hx, gather_singleton hx⟩

/-- **An operator on two arrays acts element by element.** -/
structure BinaryActs (op : BinaryOp) (a b r : Tensor) : Prop where
  /-- What a key selects of the result is the result for what it selects of the operands. -/
  selected : ∀ key slots, key.slots r.length = .ok slots → ∃ a' b' c,
    a.part r.shape key = .ok a' ∧ b.part r.shape key = .ok b' ∧ r.get key = .ok c ∧
      a'.binary op b' = .ok c
  /-- An element of the result is the result for the elements of the operands it is made of. -/
  entries : ∀ i < r.length, ∃ x y z,
    a.elementFor? r.shape i = some x ∧ b.elementFor? r.shape i = some y ∧
      r.elements.get? i = some z ∧ (ofScalar x).binary op (ofScalar y) = .ok (ofScalar z)

/-- **An operator on one array acts element by element.** -/
structure UnaryActs (op : UnaryOp) (a r : Tensor) : Prop where
  /-- What a key selects of the result is the result for what it selects of the operand. -/
  selected : ∀ key slots, key.slots r.length = .ok slots → ∃ a' c,
    a.get key = .ok a' ∧ r.get key = .ok c ∧ a'.unary op = .ok c
  /-- An element of the result is the result for the element of the operand there. -/
  entries : ∀ i < r.length, ∃ x z,
    a.elements.get? i = some x ∧ r.elements.get? i = some z ∧
      (ofScalar x).unary op = .ok (ofScalar z)

theorem resultShape_of_binary {op : BinaryOp} (hop : op ≠ .getItem) (h : a.binary op b = .ok r) :
    resultShape a b = .ok r.shape := by
  have harithmetic {op : Arithmetic} {a : Tensor} (h : arithmetic op a b = .ok r) :
      resultShape a b = .ok r.shape := by
    obtain ⟨s, hs, ⟨_, rfl⟩ | ⟨_, zs, _, rfl⟩⟩ := arithmetic_eq_ok h
    · exact hs
    · exact hs
  cases op with
  | add => exact harithmetic h
  | sub => exact harithmetic h
  | mul => exact harithmetic h
  | div => exact harithmetic (a := a.cast .float64) h
  | pow => exact harithmetic h
  | le =>
    obtain ⟨s, hs, ⟨_, rfl⟩ | ⟨_, rfl⟩⟩ := le_eq_ok h
    · exact hs
    · exact hs
  | getItem => exact absurd rfl hop

theorem binaryActs_of_eq_ok {op : BinaryOp} (hop : op ≠ .getItem) (ha : a.WellFormed)
    (hb : b.WellFormed) (h : a.binary op b = .ok r) : BinaryActs op a b r := by
  have hs := resultShape_of_binary hop h
  have hlen : r.length = r.shape.count := wellFormed_binary ha hb h
  obtain ⟨hoa, hob⟩ := operands_of_resultShape ha hb hs
  constructor
  · intro key slots hkey
    have hkey' : key.slots r.shape.count = .ok slots := hlen ▸ hkey
    have hslots := Selection.lt_of_slots hkey'
    exact ⟨_, _, _, hoa.part_eq hkey', hob.part_eq hkey', get_eq_of_slots hkey,
      binary_restricts hoa hob hs (resultShape_restrict ha hb hs) (count_readShape hkey) hslots
        (hoa.restricts hslots) (hob.restricts hslots) hop h⟩
  · intro i hi
    have hslots : ∀ p ∈ [i], p < r.shape.count := fun p hp =>
      List.mem_singleton.mp hp ▸ hlen ▸ hi
    obtain ⟨x, hx, hax⟩ := hoa.exists_elementFor (hlen ▸ hi)
    obtain ⟨y, hy, hby⟩ := hob.exists_elementFor (hlen ▸ hi)
    obtain ⟨z, hz⟩ := Elements.exists_get?_eq hi
    have hact := binary_restricts hoa hob hs (resultShape_restrict (t := .scalar) ha hb hs) rfl
      hslots (hoa.restricts hslots) (hob.restricts hslots) hop h
    rw [hax, hby, gather_singleton hz] at hact
    exact ⟨x, y, z, hx, hy, hz, hact⟩

theorem unaryActs_of_eq_ok {op : UnaryOp} (ha : a.WellFormed) (h : a.unary op = .ok r) :
    UnaryActs op a r := by
  have hlen : r.length = a.length := by
    have hr : r.length = r.shape.count := wellFormed_unary ha h
    rw [hr, shape_unary h]
    exact ha.symm
  constructor
  · intro key slots hkey
    exact ⟨_, _, get_eq_of_slots (hlen ▸ hkey), get_eq_of_slots hkey, unary_gather h⟩
  · intro i hi
    obtain ⟨x, hx⟩ := Elements.exists_get?_eq (e := a.elements) (hlen ▸ hi)
    obtain ⟨z, hz⟩ := Elements.exists_get?_eq hi
    have hact : (⟨.scalar, a.elements.gather [i]⟩ : Tensor).unary op
        = .ok ⟨.scalar, r.elements.gather [i]⟩ := unary_gather h
    rw [gather_singleton hx, gather_singleton hz] at hact
    exact ⟨x, z, hx, hz, hact⟩

/-- **Elementwise operators commute with selection**, and an element of a result depends on nothing
but one element of each operand. -/
theorem elementwise_of_eq_ok :
    (∀ (op : BinaryOp) (a b r : Tensor), op ≠ .getItem → a.WellFormed → b.WellFormed →
      a.binary op b = .ok r → BinaryActs op a b r) ∧
    ∀ (op : UnaryOp) (a r : Tensor), a.WellFormed → a.unary op = .ok r → UnaryActs op a r :=
  ⟨fun _ _ _ _ hop ha hb h => binaryActs_of_eq_ok hop ha hb h,
    fun _ _ _ ha h => unaryActs_of_eq_ok ha h⟩

/-- A base of rank zero that two powers share, and the absolute values of two integers. -/
theorem elementwise_of_eq_ok_powers :
    BinaryActs .pow (ofScalar (.int 2)) (ofElements (.ints [3, 1])) (ofElements (.ints [8, 2])) ∧
      UnaryActs .abs (ofElements (.ints [-3, 1])) (ofElements (.ints [3, 1])) :=
  ⟨elementwise_of_eq_ok.1 .pow _ _ _ (by decide) (wellFormed_ofScalar _) (wellFormed_ofElements _)
      (by decide +kernel),
    elementwise_of_eq_ok.2 .abs _ _ (wellFormed_ofElements _) (by decide)⟩

end Tensor

end DeferredArrays
