import DeferredArrays.Proofs.Graph.Agreement

/-!
# Proofs/Graph/Floating — on floats, a fused kernel computes what its graph does

A kernel computes in floats from the first load to the last operator, and casts once at the end.
The graph casts at every operator, and keeps whole arrays between them.  Where every operator works
on floats anyway (`Body.IsFloating`) the two come to the same, bit by bit (`run_eq_materialize`).

The invariant is about one slot of the result.  What an array of the graph contributes to it
(`Tensor.floatAt`) is what the code has computed for it, whatever the type of the array and whether
it has the shape of the result or rank zero (`run_eq_floatAt`).  An array that contributes to a slot
was computed from operands that do (`Heap.Contributes`).
-/

namespace DeferredArrays

open Kernel Number

namespace Tensor

variable {a b c : Tensor} {i : Nat}

/-! ## Operators at a slot -/

/-- What an array with given elements contributes to a slot. -/
theorem floatAt_eq {s : Shape} {e : Elements} {g : Nat → Float}
    (he : e.toFloats = (List.range s.count).map g) (hg : s.count = 1 → g 0 = g i)
    (hi : Covers ⟨s, e⟩ i) : floatAt ⟨s, e⟩ i = g i := by
  have hlen : e.length = s.count := by
    rw [← Elements.length_toFloats, he, List.length_map, List.length_range]
  rw [Covers, hlen] at hi
  rw [floatAt, he, hlen]
  by_cases h1 : s.count = 1
  · simp [h1, hg h1]
  · have hlt : i < s.count := hi.resolve_left h1
    simp [h1, hlt]

/-- The only element of an operand is contributed to every slot. -/
theorem floatAt_of_length_eq_one (h1 : a.elements.length = 1) (j : Nat) :
    a.floatAt i = a.floatAt j := by
  rw [floatAt, floatAt, if_pos h1, if_pos h1]

theorem floatAt_cast (a : Tensor) (i : Nat) : (a.cast .float64).floatAt i = a.floatAt i := by
  simp only [floatAt, cast, Elements.length_cast]
  rfl

/-- **A unary operator that returns floats** acts on floats slot by slot. -/
theorem floatAt_unary {op : UnaryOp} (ht : Body.unaryType op a.elemType = .ok .float64)
    (hc : a.unary op = .ok c) (hi : a.Covers i) : c.floatAt i = onFloat op (a.floatAt i) := by
  have hmap : ∀ f : Float → Float, c.elements.toFloats = a.elements.toFloats.map f →
      c.elements.length = a.elements.length → c.floatAt i = f (a.floatAt i) := by
    intro f hf hlen
    rw [floatAt, floatAt, hf, hlen]
    simp only [List.getD_eq_getElem?_getD, List.getElem?_map, List.getElem?_eq_getElem hi.slot_lt]
    rfl
  obtain ⟨s, e⟩ := a
  cases op with
  | log =>
    cases hc
    exact hmap _ rfl ((List.length_map _).trans (Elements.length_toFloats e))
  | abs =>
    cases hc
    cases e with
    | floats xs => exact hmap _ rfl (List.length_map _)
    | bools xs => cases ht
    | ints xs => cases ht
  | neg =>
    cases e with
    | floats xs =>
      cases hc
      exact hmap _ rfl (List.length_map _)
    | bools xs => cases ht
    | ints xs => cases ht

/-- What a rule for floats, applied to operands, contributes to a slot. -/
theorem floatAt_zipWith {s : Shape} {e : Elements} {f : Float → Float → Float}
    (ha : Operand s a) (hb : Operand s b)
    (he : e.toFloats
      = List.zipWith f (spread a.elements.toFloats s.count) (spread b.elements.toFloats s.count))
    (hi : Covers ⟨s, e⟩ i) : floatAt ⟨s, e⟩ i = f (a.floatAt i) (b.floatAt i) := by
  rw [ha.spread_toFloats, hb.spread_toFloats, List.zipWith_map, List.zipWith_self] at he
  refine floatAt_eq (g := fun i => f (a.floatAt i) (b.floatAt i)) he (fun h1 => ?_) hi
  have ha1 : a.elements.length = 1 := ha.length.elim id fun hlen => hlen.trans h1
  have hb1 : b.elements.length = 1 := hb.length.elim id fun hlen => hlen.trans h1
  rw [floatAt_of_length_eq_one ha1 i, floatAt_of_length_eq_one hb1 i]

/-- Arithmetic on operands that bring it about that it is done in floats. -/
theorem floatAt_arithmetic {rule : Arithmetic}
    (ht : a.elemType.arithmetic b.elemType = .float64) (ha : a.WellFormed) (hb : b.WellFormed)
    (hc : arithmetic rule a b = .ok c) (hi : c.Covers i) :
    c.floatAt i = rule.float (a.floatAt i) (b.floatAt i) := by
  obtain ⟨s, hs, ⟨_, rfl⟩ | ⟨hne, _⟩⟩ := arithmetic_eq_ok hc
  · obtain ⟨hoa, hob⟩ := operands_of_resultShape ha hb hs
    exact floatAt_zipWith hoa hob rfl hi
  · exact absurd ht hne

/-- **A binary operator that returns floats, or compares them**, acts on floats slot by slot. -/
theorem floatAt_binary {op : BinaryOp} {nonnegative : Bool} {f : Float → Float → Float}
    (hf : onFloats? op = some f)
    (ht : Body.binaryType op nonnegative a.elemType b.elemType = .ok .float64 ∨
      op = .le ∧ (a.elemType = .float64 ∨ b.elemType = .float64))
    (ha : a.WellFormed) (hb : b.WellFormed) (hc : a.binary op b = .ok c) (hi : c.Covers i) :
    c.floatAt i = f (a.floatAt i) (b.floatAt i) := by
  cases op with
  | add | sub | mul =>
    cases hf
    rcases ht with ht | ⟨hop, _⟩
    · exact floatAt_arithmetic (Except.ok.inj ht) ha hb hc hi
    · cases hop
  | div =>
    cases hf
    have htype : (a.cast .float64).elemType.arithmetic b.elemType = .float64 :=
      ElemType.arithmetic_eq_float64_iff.mpr (.inl (elemType_cast a .float64))
    have hcast := floatAt_arithmetic htype (wellFormed_cast ha _) hb hc hi
    rw [floatAt_cast] at hcast
    exact hcast
  | pow =>
    cases hf
    rcases ht with ht | ⟨hop, _⟩
    · simp only [Body.binaryType] at ht
      split at ht
      next => cases ht
      next => exact floatAt_arithmetic (Except.ok.inj ht) ha hb hc hi
    · cases hop
  | le =>
    cases hf
    have htype : a.elemType.promote b.elemType = .float64 := by
      rcases ht with ht | ⟨_, ht | ht⟩
      · cases ht
      · rw [ht]; rfl
      · rw [ht, ElemType.promote_comm]; rfl
    obtain ⟨s, hs, ⟨_, rfl⟩ | ⟨hne, _⟩⟩ := le_eq_ok hc
    · obtain ⟨hoa, hob⟩ := operands_of_resultShape ha hb hs
      exact floatAt_zipWith (f := fun x y => boolToFloat (decide (x ≤ y))) hoa hob
        List.map_zipWith hi
    · exact absurd htype hne
  | getItem => cases hf

end Tensor

/-! ## Floating bodies -/

namespace Kernel.Body

/-- **Every operator of a body works on floats**: its result has them, or it compares them. -/
def IsFloating (params : List Param) : Body → Prop
  | param _ => True
  | const _ => True
  | unary op x => x.IsFloating params ∧ (unary op x).elemType? params = .ok .float64
  | binary op x y => x.IsFloating params ∧ y.IsFloating params ∧
      ((binary op x y).elemType? params = .ok .float64 ∨
        op = .le ∧ (x.elemType? params = .ok .float64 ∨ y.elemType? params = .ok .float64))

end Kernel.Body

namespace Heap

open Tensor

variable {h h' : Heap}

/-! ## Operands -/

/-- **The array of a term, at a slot it contributes to**: it is computed from leaves that fit, and of
the type that was inferred. -/
structure Contributes (h h' : Heap) (order : List Leaf) (i : Nat) (t : Term) (a : Tensor) :
    Prop where
  /-- The leaves are parameters. -/
  mem : ∀ l ∈ t.leaves, l ∈ order
  /-- Their buffers are of the types of the parameters. -/
  fits : ∀ l ∈ t.leaves, h.Fits h' l
  /-- The inferred type is that of the array. -/
  typed : (t.body order).elemType? ((order.map h.bindingOf).map Binding.param) = .ok a.elemType
  /-- The array is that of the term. -/
  tensor : t.tensor? h'.buffer? = .ok a
  /-- It contributes to the slot. -/
  covers : a.Covers i

variable {order : List Leaf} {i : Nat} {t x y : Term} {a b c : Tensor}

theorem Contributes.wellFormed (hc : h.Contributes h' order i t a) : a.WellFormed :=
  Term.wellFormed_tensor? (grounded_of_fits hc.fits) hc.tensor

/-- The operand of a unary operator. -/
theorem Contributes.unary {op : UnaryOp} (hc : h.Contributes h' order i (.unary op x) c) :
    ∃ a, h.Contributes h' order i x a ∧ Body.unaryType op a.elemType = .ok c.elemType ∧
      a.unary op = .ok c := by
  obtain ⟨s, hs, hop⟩ := exists_of_bind_eq_ok hc.typed
  obtain ⟨a, ha, hres⟩ := exists_of_bind_eq_ok hc.tensor
  have hres := mapError_eq_ok hres
  have hmem : ∀ l ∈ x.leaves, l ∈ order := hc.mem
  have hfits : ∀ l ∈ x.leaves, h.Fits h' l := hc.fits
  obtain ⟨_, rfl⟩ := (resolves_tensor? hmem hfits hs).of_ok ha
  obtain ⟨d, hd, hshape, _⟩ := unary_typed hop
  obtain rfl : c = d := Except.ok.inj (hres.symm.trans hd)
  have hwf := Term.wellFormed_tensor? (grounded_of_fits hfits) ha
  have hcovers := Operand.covers_of ⟨hwf, .inl hshape.symm⟩ hc.wellFormed hc.covers
  exact ⟨a, ⟨hmem, hfits, hs, ha, hcovers⟩, hop, hres⟩

/-- The operands of a binary operator. -/
theorem Contributes.binary {op : BinaryOp} (hc : h.Contributes h' order i (.binary op x y) c) :
    ∃ a b, h.Contributes h' order i x a ∧ h.Contributes h' order i y b ∧
      Body.binaryType op ((y.body order).isNonnegative b.elemType) a.elemType b.elemType
        = .ok c.elemType ∧ a.binary op b = .ok c := by
  obtain ⟨s, hs, hrest⟩ := exists_of_bind_eq_ok hc.typed
  obtain ⟨v, hv, hop⟩ := exists_of_bind_eq_ok hrest
  obtain ⟨a, ha, hrest⟩ := exists_of_bind_eq_ok hc.tensor
  obtain ⟨b, hb, hres⟩ := exists_of_bind_eq_ok hrest
  have hres := mapError_eq_ok hres
  have hmemx : ∀ l ∈ x.leaves, l ∈ order := fun l hl => hc.mem l (List.mem_append_left _ hl)
  have hmemy : ∀ l ∈ y.leaves, l ∈ order := fun l hl => hc.mem l (List.mem_append_right _ hl)
  have hfitsx : ∀ l ∈ x.leaves, h.Fits h' l := fun l hl => hc.fits l (List.mem_append_left _ hl)
  have hfitsy : ∀ l ∈ y.leaves, h.Fits h' l := fun l hl => hc.fits l (List.mem_append_right _ hl)
  obtain ⟨_, rfl⟩ := (resolves_tensor? hmemx hfitsx hs).of_ok ha
  obtain ⟨_, rfl⟩ := (resolves_tensor? hmemy hfitsy hv).of_ok hb
  have htyped := binary_typed (a := a) (fun hn _ => nonneg_of_isNonnegative hb hn) hop
  rw [hres] at htyped
  obtain ⟨hshapex, hshapey⟩ := Shape.eq_or_scalar_of_broadcast? htyped.broadcast?_eq
  have hwfx := Term.wellFormed_tensor? (grounded_of_fits hfitsx) ha
  have hwfy := Term.wellFormed_tensor? (grounded_of_fits hfitsy) hb
  have hix := Operand.covers_of ⟨hwfx, hshapex⟩ hc.wellFormed hc.covers
  have hiy := Operand.covers_of ⟨hwfy, hshapey⟩ hc.wellFormed hc.covers
  exact ⟨a, b, ⟨hmemx, hfitsx, hs, ha, hix⟩, ⟨hmemy, hfitsy, hv, hb, hiy⟩, hop, hres⟩

/-! ## Simulation -/

/-- **The code has computed what the array of the term contributes to a slot**, by induction on the
term. -/
theorem run_eq_floatAt {code : Code} (hlength : order.length ≤ 2 ^ 28)
    (hc : h.Contributes h' order i t a)
    (hfloat : (t.body order).IsFloating ((order.map h.bindingOf).map Binding.param))
    (hcode : (t.body order).lower = .ok code) :
    code.run ((order.map h'.arrayOf).map (·.floatAt i)) = a.floatAt i := by
  induction t generalizing code a with
  | array l =>
    have hl := hc.mem l (List.mem_singleton.mpr rfl)
    have hlt : order.idxOf l < order.length := List.idxOf_lt_length_of_mem hl
    have ha := hc.tensor
    rw [Term.tensor?, (hc.fits l (List.mem_singleton.mpr rfl)).buffer] at ha
    cases ha
    cases hcode
    rw [Code.run, Code.argument?_offset_of_lt _ (Nat.lt_of_lt_of_le hlt hlength),
      List.getElem?_map, List.getElem?_map, List.getElem?_eq_getElem hlt, List.getElem_idxOf]
    rfl
  | scalar s =>
    cases hcode
    obtain rfl := Except.ok.inj hc.tensor
    cases s <;> rfl
  | unary op x ih =>
    obtain ⟨ax, hx, hop, hres⟩ := hc.unary
    obtain ⟨cx, hcx, hmade⟩ := exists_of_bind_eq_ok hcode
    obtain rfl := Except.ok.inj hmade
    obtain ⟨hfx, hroot⟩ := hfloat
    rw [Except.ok.inj (hc.typed.symm.trans hroot)] at hop
    rw [Code.run, ih hx hfx hcx, floatAt_unary hop hres hx.covers]
  | binary op x y ihx ihy =>
    obtain ⟨ax, ay, hx, hy, hop, hres⟩ := hc.binary
    obtain ⟨cx, hcx, hrest⟩ := exists_of_bind_eq_ok hcode
    obtain ⟨cy, hcy, hmade⟩ := exists_of_bind_eq_ok hrest
    obtain ⟨hfx, hfy, hroot⟩ := hfloat
    have hkind : Body.binaryType op ((y.body order).isNonnegative ay.elemType) ax.elemType
          ay.elemType = .ok .float64 ∨
        op = .le ∧ (ax.elemType = .float64 ∨ ay.elemType = .float64) := by
      rcases hroot with hroot | ⟨rfl, hfloat | hfloat⟩
      · exact .inl (hop.trans (hc.typed.symm.trans hroot))
      · exact .inr ⟨rfl, .inl (Except.ok.inj (hx.typed.symm.trans hfloat))⟩
      · exact .inr ⟨rfl, .inr (Except.ok.inj (hy.typed.symm.trans hfloat))⟩
    split at hmade
    next f hf =>
      obtain rfl := Except.ok.inj hmade
      rw [Code.run, ihx hx hfx hcx, ihy hy hfy hcy,
        floatAt_binary hf hkind hx.wellFormed hy.wellFormed hres hc.covers]
    next => cases hmade

/-! ## Equality -/

/-- Floats and truth values come back from floats as they were. -/
theorem cast_toFloats {a : Tensor} (ha : a.elemType ≠ .int64) :
    (Elements.floats a.elements.toFloats).cast a.elemType = a.elements := by
  obtain ⟨s, e⟩ := a
  cases e with
  | bools xs =>
    have hid : floatToBool ∘ boolToFloat = id := funext floatToBool_boolToFloat
    simp [elemType, Elements.toFloats, Elements.elemType, Elements.cast, Elements.toBools, hid]
  | ints xs => exact absurd rfl ha
  | floats xs => rfl

/-- **On floats, a fused kernel returns what forcing its graph does**, whatever was written since it
was fused. -/
theorem run_eq_materialize (hs : h.Sound) {compiler : Compiler} {id : NodeId} {k : Fused}
    (hk : h.fuse compiler id = .ok k) {body : Body} (hbody : k.source.parse = .ok body)
    (hfloat : body.IsFloating k.source.params) (hroot : k.kernel.output ≠ .int64)
    (hw : h.Written h') {a : Tensor} (ha : (h.onto h').materialize id = .ok a) :
    h'.run k = .ok a := by
  obtain ⟨t, hk⟩ := fuse_eq_ok hs hk
  obtain rfl : t.body t.firstVisits = body := Except.ok.inj (hk.parsed.symm.trans hbody)
  rw [hk.sourceParams] at hfloat
  have hfits : ∀ l ∈ t.leaves, h.Fits h' l := fun l hl => hw.fits hs (hk.unfolds.holds l hl)
  have hall : ∀ l ∈ t.leaves, l ∈ t.firstVisits := fun l hl => Term.mem_firstVisits.mpr hl
  rw [hk.unfolds.materialize_onto hs hfits] at ha
  obtain ⟨hjoin, htype⟩ := (resolves_tensor? hall hfits hk.typed).of_ok ha
  have hwf : a.WellFormed := Term.wellFormed_tensor? (grounded_of_fits hfits) ha
  have hrows : (List.range a.shape.count).map
        (fun i => k.kernel.code.run ((t.firstVisits.map h'.arrayOf).map (·.floatAt i)))
      = a.elements.toFloats := by
    rw [hwf.toFloats_eq]
    refine List.map_congr_left fun i hi => ?_
    have hi : a.Covers i := .inr (Nat.lt_of_lt_of_eq (List.mem_range.mp hi) hwf.symm)
    exact run_eq_floatAt hk.length_le ⟨hall, hfits, htype ▸ hk.typed, ha, hi⟩ hfloat hk.lowered
  have hcall := Compiled.call_eq (hk.accepts hfits) (wellFormed_inputs hfits)
    (hjoin.congr fun _ => mem_shapes_firstVisits.symm)
  rw [hk.run_eq hfits, hcall, hrows, ← htype, cast_toFloats (htype ▸ hroot)]

/-- `(x + y) * x <= y` over floats `x` and truth values `y`, both of which are used twice. -/
def products : Heap :=
  ⟨#[.ofElements (.floats [1.5, -0.0]), .ofElements (.bools [true, false])],
   #[⟨.deferred (.data 0), 1, 0⟩, ⟨.deferred (.data 1), 1, 0⟩, ⟨.deferred (.binary .add 0 1), 0, 0⟩,
     ⟨.deferred (.binary .mul 2 0), 0, 0⟩, ⟨.deferred (.binary .le 3 1), 1, 0⟩]⟩

/-- What it unfolds to. -/
def productsTerm : Term :=
  .binary .le (.binary .mul (.binary .add (.array ⟨0, 0⟩) (.array ⟨1, 1⟩)) (.array ⟨0, 0⟩))
    (.array ⟨1, 1⟩)

/-- The same graph after a write to the first element of `x`. -/
def productsWritten : Heap := products.setBuffer 0 (.ofElements (.floats [0.5, -0.0]))

theorem run_eq_materialize_products :
    ∃ k body a, products.Sound ∧ products.fuse (.ofSettings ⟨.speed⟩) 4 = .ok k ∧ k.source.parse = .ok body ∧
      body.IsFloating k.source.params ∧ k.kernel.output ≠ .int64 ∧
      products.Written productsWritten ∧ (products.onto productsWritten).materialize 4 = .ok a ∧
      productsWritten.run k = .ok a := by
  have hs : products.Sound := by decide
  have ht : products.Unfolds 4 productsTerm :=
    .binary rfl (.binary rfl (.binary rfl (.data rfl) (.data rfl)) (.data rfl)) (.data rfl)
  obtain ⟨k, hk, hc, hbool⟩ := exists_fuse_of_typed hs (.ofSettings ⟨.speed⟩) ht (u := .bool) rfl rfl rfl
  have hfloat : (productsTerm.body productsTerm.firstVisits).IsFloating k.source.params := by
    rw [hc.sourceParams]
    exact ⟨⟨⟨trivial, trivial, .inl rfl⟩, trivial, .inl rfl⟩, trivial, .inr ⟨rfl, .inl rfl⟩⟩
  have hroot : k.kernel.output ≠ .int64 := by rw [hbool]; decide
  have hset : (Tensor.ofElements (.floats [1.5, -0.0])).set (.position 0) (.ofScalar (.float 0.5))
      = .ok (.ofElements (.floats [0.5, -0.0])) := by decide +kernel
  have hw : products.Written productsWritten :=
    (follows_setBuffer hs (b := 0) rfl hset).later.buffers
  have ha : (products.onto productsWritten).materialize 4
      = .ok (.ofElements (.bools [true, true])) := by decide +kernel
  exact ⟨k, _, _, hs, hk, hc.parsed, hfloat, hroot, hw, ha,
    run_eq_materialize hs hk hc.parsed hfloat hroot hw ha⟩

end Heap

end DeferredArrays
