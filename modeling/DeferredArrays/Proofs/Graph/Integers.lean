import DeferredArrays.Proofs.Graph.Slots

/-!
# Proofs/Graph/Integers — on small integers, a fused kernel computes what its graph does

A graph computes with wrapping integers where its arrays hold them, a kernel with floats throughout.
Both are compared with ideal arithmetic.  What a term is worth there for a slot is what its array
contributes to the slot (`ideal?_eq_idealAt`), and the code has computed an image of that; at the
end the images are cast back (`WellFormed.cast_images`).

So on integers and truth values alone, run and forced result are equal
(`run_eq_materialize_of_isIntegral`).  Where integers are mixed with floats, they are equal as long
as no operator that returns floats is handed the negative zero for an integer
(`run_eq_materialize_of_keepsZeros`).  This does happen: negating and multiplying integers in floats
gives it, and then a division shows its sign (`run_ne_materialize_reciprocals`).
-/

namespace DeferredArrays

open Kernel Number Tensor

/-! ## Casting images back -/

/-- **An image is cast back to its element**, whichever zero it is. -/
theorem Scalar.cast_image {s : Scalar} {x : Float} (hx : (Ideal.ofScalar s).Image x) :
    (Scalar.float x).cast s.elemType = s := by
  cases s with
  | float y => exact congrArg Scalar.float hx
  | int i => exact congrArg Scalar.int (Binary64.Exact.floatToInt_eq hx)
  | bool b =>
    refine congrArg Scalar.bool ?_
    cases b with
    | true =>
      have hone : Binary64.Exact (boolToFloat true) (boolToInt true).toInt :=
        Ideal.image_ofBool true
      rw [show x = boolToFloat true from hx.unique hone (by decide)]
      decide +kernel
    | false =>
      rcases Binary64.Exact.eq_zero hx with rfl | rfl
      · decide +kernel
      · decide +kernel

namespace Tensor

/-- The elements of a well-formed array are those it contributes to all slots. -/
theorem WellFormed.toList_eq {a : Tensor} (ha : a.WellFormed) :
    a.elements.toList = (List.range a.shape.count).map a.scalarAt := by
  have hlen : a.elements.toList.length = a.shape.count := (Elements.length_toList _).trans ha
  refine List.ext_getElem? fun i => ?_
  by_cases hi : i < a.shape.count
  · have hcover : a.Covers i := .inr (hi.trans_eq ha.symm)
    have hslot : a.sourceSlot i = i := by
      rw [sourceSlot, ha]
      split <;> omega
    rw [← hslot, getElem?_toList hcover, hslot, List.getElem?_map, List.getElem?_range hi]
    rfl
  · rw [List.getElem?_eq_none (by omega), List.getElem?_eq_none (by simp; omega)]

/-- **Images of all elements are cast back to the array.** -/
theorem WellFormed.cast_images {a : Tensor} (ha : a.WellFormed) {g : Nat → Float}
    (hg : ∀ i < a.shape.count, (a.idealAt i).Image (g i)) :
    (Elements.floats ((List.range a.shape.count).map g)).cast a.elemType = a.elements := by
  refine Elements.eq_of_toList_eq (Elements.elemType_cast _ _) ?_
  rw [Elements.toList_cast, ha.toList_eq, Elements.toList, List.map_map, List.map_map]
  refine List.map_congr_left fun i hi => ?_
  have hi : i < a.shape.count := List.mem_range.mp hi
  rw [← elemType_scalarAt (.inr (hi.trans_eq ha.symm))]
  exact Scalar.cast_image (hg i hi)

end Tensor

namespace Heap

variable {h h' : Heap}

/-! ## Simulation -/

/-- What the arrays of leaves contribute to a slot. -/
def idealRow (h : Heap) (order : List Leaf) (i : Nat) : List Ideal :=
  order.map fun l => (h.arrayOf l).idealAt i

/-- **What a term is worth is what its array contributes**, by induction on the term. -/
theorem ideal?_eq_idealAt {order : List Leaf} {t : Term} {a : Tensor} {i : Nat}
    (hc : h.Contributes h' order i t a)
    (hpow : (t.body order).NoIntegerPower ((order.map h.bindingOf).map Binding.param))
    (hbound : (t.body order).Bounded (h'.idealRow order i)) :
    (t.body order).ideal? (h'.idealRow order i) = some (a.idealAt i) := by
  induction t generalizing a with
  | array l =>
    have hl := hc.mem l (List.mem_singleton.mpr rfl)
    have hlt : order.idxOf l < order.length := List.idxOf_lt_length_of_mem hl
    have ha := hc.tensor
    rw [Term.tensor?, (hc.fits l (List.mem_singleton.mpr rfl)).buffer] at ha
    cases ha
    rw [Term.body, Body.ideal?, idealRow, List.getElem?_map, List.getElem?_eq_getElem hlt,
      List.getElem_idxOf]
    rfl
  | scalar s =>
    obtain rfl := Except.ok.inj hc.tensor
    cases s <;> rfl
  | unary op x ih =>
    obtain ⟨ax, hx, hop, hres⟩ := hc.unary
    obtain ⟨hbx, -⟩ := hbound
    have hvalue := ih hx hpow hbx
    rw [Term.body, Body.ideal?, hvalue,
      idealAt_unary hop hres hx.covers hc.covers (hbx.small hvalue)]
    rfl
  | binary op x y ihx ihy =>
    obtain ⟨ax, ay, hx, hy, hop, hres⟩ := hc.binary
    obtain ⟨hbx, hby, hroot⟩ := hbound
    obtain ⟨hpx, hpy, hpow⟩ := hpow
    have hvalue : (Term.binary op x y |>.body order).ideal? (h'.idealRow order i)
        = Ideal.binary? op (ax.idealAt i) (ay.idealAt i) := by
      rw [Term.body, Body.ideal?, ihx hx hpx hbx, ihy hy hpy hby]
      rfl
    rw [hvalue]
    exact idealAt_binary hx.wellFormed hy.wellFormed hx.covers hy.covers hc.covers hop
      (fun hop' hint => hpow hop' (hc.typed.trans (congrArg _ hint))) hres rfl
      fun r hr => hroot r (hvalue.trans hr)

/-- The row of a slot has floats where the parameters say so. -/
theorem rowTyped_idealRow {order : List Leaf} {i : Nat} (hfits : ∀ l ∈ order, h.Fits h' l)
    (hi : ∀ l ∈ order, (h'.arrayOf l).Covers i) :
    Body.RowTyped ((order.map h.bindingOf).map Binding.param) (h'.idealRow order i) := by
  rw [Body.RowTyped, idealRow, List.map_map, List.forall₂_map_left_iff,
    List.forall₂_map_right_iff, List.forall₂_same]
  intro l hl
  rw [isFloat_idealAt (hi l hl), (hfits l hl).elemType]
  rfl

/-! ## Equality -/

/-- The inputs of a run. -/
theorem inputs_eq {id : NodeId} {t : Term} {k : Fused} (hk : k.Compiles h id t)
    (hfits : ∀ l ∈ t.leaves, h.Fits h' l) {inputs : List Tensor}
    (hin : h'.contents k.arguments = .ok inputs) : inputs = t.firstVisits.map h'.arrayOf := by
  rw [hk.arguments, contents_eq fun l hl => (hfits l (Term.mem_firstVisits.mp hl)).buffer] at hin
  exact (Except.ok.inj hin).symm

/-- **A fused kernel returns what forcing its graph does** if it is handed no negative zero for an
integer, and no integer on the way is too large. -/
theorem run_eq_of_bounded (hs : h.Sound) {id : NodeId} {t : Term} {k : Fused}
    (hk : k.Compiles h id t) (hw : h.Written h')
    (hpow : (t.body t.firstVisits).NoIntegerPower (h.paramsOf t)) {a : Tensor}
    (ha : (h.onto h').materialize id = .ok a)
    (hbound : ∀ i < a.shape.count, (t.body t.firstVisits).Bounded (h'.idealRow t.firstVisits i))
    (hzero : ∀ i < a.shape.count,
      (t.body t.firstVisits).KeepsZeros (h.paramsOf t) (h'.idealRow t.firstVisits i)) :
    h'.run k = .ok a := by
  have hfits : ∀ l ∈ t.leaves, h.Fits h' l := fun l hl => hw.fits hs (hk.unfolds.holds l hl)
  have hall : ∀ l ∈ t.leaves, l ∈ t.firstVisits := fun l hl => Term.mem_firstVisits.mpr hl
  rw [hk.unfolds.materialize_onto hs hfits] at ha
  obtain ⟨hjoin, htype⟩ := (resolves_tensor? hall hfits hk.typed).of_ok ha
  have hwf : a.WellFormed := Term.wellFormed_tensor? (grounded_of_fits hfits) ha
  have hleaf : ∀ i < a.shape.count, ∀ l ∈ t.firstVisits, (h'.arrayOf l).Covers i := by
    intro i hi l hl
    have hl := Term.mem_firstVisits.mp hl
    exact Operand.covers ⟨(hfits l hl).wellFormed, hjoin.covers _ (List.mem_map_of_mem hl)⟩ hi
  have himage : ∀ i < a.shape.count, (a.idealAt i).Image
      (k.kernel.code.run ((t.firstVisits.map h'.arrayOf).map (·.floatAt i))) := by
    intro i hi
    have hargs : (t.firstVisits.map h'.arrayOf).map (·.floatAt i)
        = (h'.idealRow t.firstVisits i).map Ideal.toFloat := by
      simp only [idealRow, List.map_map]
      exact List.map_congr_left fun l hl => (toFloat_idealAt (hleaf i hi l hl)).symm
    have hvalue := ideal?_eq_idealAt
      ⟨hall, hfits, htype ▸ hk.typed, ha, .inr (hi.trans_eq hwf.symm)⟩ hpow (hbound i hi)
    have hrow := rowTyped_idealRow (fun l hl => hfits l (Term.mem_firstVisits.mp hl)) (hleaf i hi)
    have hlength : (h'.idealRow t.firstVisits i).length ≤ 2 ^ 28 := by
      rw [idealRow, List.length_map]
      exact hk.length_le
    rw [hargs]
    exact Body.image_run hlength hrow hk.typed (hbound i hi) (hzero i hi) hk.lowered hvalue
  have hcall := Compiled.call_eq (hk.accepts hfits) (wellFormed_inputs hfits)
    (hjoin.congr fun _ => mem_shapes_firstVisits.symm)
  rw [hk.run_eq hfits, hcall, ← htype, hwf.cast_images himage]

/-- **On small integers, a fused kernel returns what forcing its graph does**, whatever was written
since it was fused. -/
theorem run_eq_materialize_of_isIntegral (hs : h.Sound) {compiler : Compiler} {id : NodeId}
    {k : Fused} (hk : h.fuse compiler id = .ok k) {body : Body}
    (hbody : k.source.parse = .ok body) (hint : body.IsIntegral k.source.params)
    (hw : h.Written h') {inputs : List Tensor} (hin : h'.contents k.arguments = .ok inputs)
    {a : Tensor} (ha : (h.onto h').materialize id = .ok a)
    (hbound : ∀ i < a.shape.count, body.Bounded (inputs.map (·.idealAt i))) :
    h'.run k = .ok a := by
  obtain ⟨t, hk⟩ := fuse_eq_ok hs hk
  obtain rfl : t.body t.firstVisits = body := Except.ok.inj (hk.parsed.symm.trans hbody)
  have hfits : ∀ l ∈ t.leaves, h.Fits h' l := fun l hl => hw.fits hs (hk.unfolds.holds l hl)
  obtain rfl := inputs_eq hk hfits hin
  rw [hk.sourceParams] at hint
  simp only [List.map_map] at hbound
  exact run_eq_of_bounded hs hk hw hint.noIntegerPower ha hbound fun _ _ => hint.keepsZeros

/-- `-x * (x <= y)` over integers `x` and truth values `y`. -/
def masked : Heap :=
  ⟨#[.ofElements (.ints [0, 5, -7]), .ofElements (.bools [true, false, true])],
   #[⟨.deferred (.data 0), 1, 0⟩, ⟨.deferred (.data 1), 1, 0⟩, ⟨.deferred (.unary .neg 0), 0, 0⟩,
     ⟨.deferred (.binary .le 0 1), 0, 0⟩, ⟨.deferred (.binary .mul 2 3), 1, 0⟩]⟩

/-- What it unfolds to. -/
def maskedTerm : Term :=
  .binary .mul (.unary .neg (.array ⟨0, 0⟩)) (.binary .le (.array ⟨0, 0⟩) (.array ⟨1, 1⟩))

/-- The same graph after a write to the last element of `x`. -/
def maskedWritten : Heap := masked.setBuffer 0 (.ofElements (.ints [0, 5, -9]))

theorem run_eq_materialize_of_isIntegral_masked :
    ∃ k body inputs a, masked.Sound ∧ masked.fuse (.ofSettings ⟨.speed⟩) 4 = .ok k ∧ k.source.parse = .ok body ∧
      body.IsIntegral k.source.params ∧ masked.Written maskedWritten ∧
      maskedWritten.contents k.arguments = .ok inputs ∧
      (masked.onto maskedWritten).materialize 4 = .ok a ∧
      (∀ i < a.shape.count, body.Bounded (inputs.map (·.idealAt i))) ∧
      maskedWritten.run k = .ok a := by
  have hs : masked.Sound := by decide
  have ht : masked.Unfolds 4 maskedTerm :=
    .binary rfl (.unary rfl (.data rfl)) (.binary rfl (.data rfl) (.data rfl))
  obtain ⟨k, hk, hc, -⟩ := exists_fuse_of_typed hs (.ofSettings ⟨.speed⟩) ht (u := .int64) rfl rfl rfl
  have hint : (maskedTerm.body maskedTerm.firstVisits).IsIntegral k.source.params := by
    rw [hc.sourceParams]
    decide
  have hset : (Tensor.ofElements (.ints [0, 5, -7])).set (.position (-1)) (.ofScalar (.int (-9)))
      = .ok (.ofElements (.ints [0, 5, -9])) := by decide
  have hw : masked.Written maskedWritten := (follows_setBuffer hs (b := 0) rfl hset).later.buffers
  have hin : maskedWritten.contents k.arguments
      = .ok [.ofElements (.ints [0, 5, -9]), .ofElements (.bools [true, false, true])] := by
    rw [hc.arguments]
    rfl
  have ha : (masked.onto maskedWritten).materialize 4
      = .ok (.ofElements (.ints [0, 0, 9])) := by decide +kernel
  have hbound : ∀ i < (Tensor.ofElements (.ints [0, 0, 9])).shape.count,
      (maskedTerm.body maskedTerm.firstVisits).Bounded
        ([.ofElements (.ints [0, 5, -9]), .ofElements (.bools [true, false, true])].map
          (idealAt · i)) := by decide +kernel
  exact ⟨k, _, _, _, hs, hk, hc.parsed, hint, hw, hin, ha, hbound,
    run_eq_materialize_of_isIntegral hs hk hc.parsed hint hw hin ha hbound⟩

/-- **Mixing integers with floats does not change what a fused kernel returns** as long as no
operator that returns floats is handed the negative zero for an integer. -/
theorem run_eq_materialize_of_keepsZeros (hs : h.Sound) {compiler : Compiler} {id : NodeId}
    {k : Fused} (hk : h.fuse compiler id = .ok k) {body : Body}
    (hbody : k.source.parse = .ok body) (hpow : body.NoIntegerPower k.source.params)
    (hw : h.Written h') {inputs : List Tensor} (hin : h'.contents k.arguments = .ok inputs)
    {a : Tensor} (ha : (h.onto h').materialize id = .ok a)
    (hbound : ∀ i < a.shape.count, body.Bounded (inputs.map (·.idealAt i)))
    (hzero : ∀ i < a.shape.count,
      body.KeepsZeros k.source.params (inputs.map (·.idealAt i))) :
    h'.run k = .ok a := by
  obtain ⟨t, hk⟩ := fuse_eq_ok hs hk
  obtain rfl : t.body t.firstVisits = body := Except.ok.inj (hk.parsed.symm.trans hbody)
  have hfits : ∀ l ∈ t.leaves, h.Fits h' l := fun l hl => hw.fits hs (hk.unfolds.holds l hl)
  obtain rfl := inputs_eq hk hfits hin
  rw [hk.sourceParams] at hpow
  simp only [List.map_map, hk.sourceParams] at hbound hzero
  exact run_eq_of_bounded hs hk hw hpow ha hbound hzero

/-- `1.0 / -x` over integers `x`. -/
def reciprocals (xs : List Int64) : Heap :=
  ⟨#[.ofElements (.ints xs)],
   #[⟨.deferred (.data 0), 1, 0⟩, ⟨.deferred (.scalar (.float 1.0)), 0, 0⟩,
     ⟨.deferred (.unary .neg 0), 0, 0⟩, ⟨.deferred (.binary .div 1 2), 1, 0⟩]⟩

/-- What it unfolds to. -/
def reciprocalsTerm : Term :=
  .binary .div (.scalar (.float 1.0)) (.unary .neg (.array ⟨0, 0⟩))

theorem run_eq_materialize_of_keepsZeros_reciprocals :
    ∃ k body inputs a, (reciprocals [1, 2, -4]).Sound ∧
      (reciprocals [1, 2, -4]).fuse (.ofSettings ⟨.speed⟩) 3 = .ok k ∧ k.source.parse = .ok body ∧
      body.NoIntegerPower k.source.params ∧
      (reciprocals [1, 2, -4]).Written (reciprocals [1, 2, -4]) ∧
      (reciprocals [1, 2, -4]).contents k.arguments = .ok inputs ∧
      ((reciprocals [1, 2, -4]).onto (reciprocals [1, 2, -4])).materialize 3 = .ok a ∧
      (∀ i < a.shape.count, body.Bounded (inputs.map (·.idealAt i))) ∧
      (∀ i < a.shape.count, body.KeepsZeros k.source.params (inputs.map (·.idealAt i))) ∧
      (reciprocals [1, 2, -4]).run k = .ok a := by
  have hs : (reciprocals [1, 2, -4]).Sound := by decide
  have ht : (reciprocals [1, 2, -4]).Unfolds 3 reciprocalsTerm :=
    .binary rfl (.scalar rfl) (.unary rfl (.data rfl))
  obtain ⟨k, hk, hc, -⟩ := exists_fuse_of_typed hs (.ofSettings ⟨.speed⟩) ht (u := .float64) rfl rfl rfl
  have hpow : (reciprocalsTerm.body reciprocalsTerm.firstVisits).NoIntegerPower
      k.source.params := by
    rw [hc.sourceParams]
    decide
  have hw : (reciprocals [1, 2, -4]).Written (reciprocals [1, 2, -4]) := fun b a ha => ⟨a, ha, .refl⟩
  have hin : (reciprocals [1, 2, -4]).contents k.arguments
      = .ok [.ofElements (.ints [1, 2, -4])] := by
    rw [hc.arguments]
    rfl
  have ha : ((reciprocals [1, 2, -4]).onto (reciprocals [1, 2, -4])).materialize 3
      = .ok (.ofElements (.floats [-1.0, -0.5, 0.25])) := by decide +kernel
  have hbound : ∀ i < (Tensor.ofElements (.floats [-1.0, -0.5, 0.25])).shape.count,
      (reciprocalsTerm.body reciprocalsTerm.firstVisits).Bounded
        ([.ofElements (.ints [1, 2, -4])].map (idealAt · i)) := by decide +kernel
  have hzero : ∀ i < (Tensor.ofElements (.floats [-1.0, -0.5, 0.25])).shape.count,
      (reciprocalsTerm.body reciprocalsTerm.firstVisits).KeepsZeros k.source.params
        ([.ofElements (.ints [1, 2, -4])].map (idealAt · i)) := by
    rw [hc.sourceParams]
    decide +kernel
  exact ⟨k, _, _, _, hs, hk, hc.parsed, hpow, hw, hin, ha, hbound, hzero,
    run_eq_materialize_of_keepsZeros hs hk hc.parsed hpow hw hin ha hbound hzero⟩

/-- **The sign of zero gets lost**: the graph divides by zero, the kernel by the negative zero. -/
theorem run_ne_materialize_reciprocals :
    ∃ k body inputs a, (reciprocals [0, 1, 2]).Sound ∧
      (reciprocals [0, 1, 2]).fuse (.ofSettings ⟨.speed⟩) 3 = .ok k ∧ k.source.parse = .ok body ∧
      body.NoIntegerPower k.source.params ∧
      (reciprocals [0, 1, 2]).contents k.arguments = .ok inputs ∧
      (reciprocals [0, 1, 2]).materialize 3 = .ok a ∧
      (∀ i < a.shape.count, body.Bounded (inputs.map (·.idealAt i))) ∧
      (reciprocals [0, 1, 2]).run k ≠ .ok a := by
  have hs : (reciprocals [0, 1, 2]).Sound := by decide
  have ht : (reciprocals [0, 1, 2]).Unfolds 3 reciprocalsTerm :=
    .binary rfl (.scalar rfl) (.unary rfl (.data rfl))
  obtain ⟨k, hk, hc, hout⟩ := exists_fuse_of_typed hs (.ofSettings ⟨.speed⟩) ht (u := .float64) rfl rfl rfl
  have hpow : (reciprocalsTerm.body reciprocalsTerm.firstVisits).NoIntegerPower
      k.source.params := by
    rw [hc.sourceParams]
    decide
  have hin : (reciprocals [0, 1, 2]).contents k.arguments
      = .ok [.ofElements (.ints [0, 1, 2])] := by
    rw [hc.arguments]
    rfl
  have ha : (reciprocals [0, 1, 2]).materialize 3
      = .ok (.ofElements (.floats [1.0 / 0.0, -1.0, -0.5])) := by decide +kernel
  have hbound : ∀ i < (Tensor.ofElements (.floats [1.0 / 0.0, -1.0, -0.5])).shape.count,
      (reciprocalsTerm.body reciprocalsTerm.firstVisits).Bounded
        ([.ofElements (.ints [0, 1, 2])].map (idealAt · i)) := by decide +kernel
  have hrun : (reciprocals [0, 1, 2]).run k
      = .ok (.ofElements (.floats [-1.0 / 0.0, -1.0, -0.5])) := by
    rw [run, hin]
    change k.kernel.call _ = _
    obtain ⟨bound, ⟨params, output, code⟩⟩ := k
    cases hc.params
    cases hc.lowered
    cases hout
    dsimp only
    decide +kernel
  refine ⟨k, _, _, _, hs, hk, hc.parsed, hpow, hin, ha, hbound, ?_⟩
  rw [hrun]
  decide +kernel

end Heap

end DeferredArrays
