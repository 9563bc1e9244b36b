import DeferredArrays.Proofs.Kernel.Calling
import DeferredArrays.Proofs.Tensor.Bounds
import Mathlib.Algebra.Group.Nat.Defs

/-!
# Proofs/Kernel/Bounds — every array is well formed, and no operation leaves its elements

A call of a kernel reads a column of each input.  Inputs that combine line up with the result, so
that well-formed inputs are read within their elements (`Checked.within_call`).

Arrays come from the constructors by operators, selections, writes and calls (`Tensor.Made`).  All
of them are well formed, and nothing that is done with well-formed arrays accesses an element that
is not there (`Tensor.made_inBounds`).
-/

namespace DeferredArrays

open Kernel Kernel.Compiled

/-! ## Calls -/

namespace Checked

variable {k : Compiled} {inputs : List Tensor}

/-- The arguments for each of `n` elements: one float from every column. -/
def rows (inputs : List Tensor) (n : Nat) : Option (List (List Float)) :=
  let columns := inputs.map (·.elements.toFloats)
  (List.range n).mapM fun i => columns.mapM fun column => column[sourceSlot column.length i]?

/-- A call on arrays, element by element. -/
def call (k : Compiled) (inputs : List Tensor) : Checked Error Tensor :=
  if inputs.length ≠ k.inputCount then
    outcome (.error (.kernel (.inputCount k.inputCount inputs.length)))
  else do
    let shape ← outcome (inputShape .scalar (k.params.zip inputs))
    let results := (← access (rows inputs shape.count)).map k.code.run
    match Tensor.ofFloats shape results k.output with
    | .ok a => return a
    | .error e => outcome (.error (.tensor e))

/-- Inputs that are combined have the types of their parameters. -/
theorem types_of_inputShape {params : List Param} {s r : Shape}
    (hlen : params.length = inputs.length) (hr : inputShape s (params.zip inputs) = .ok r) :
    List.Forall₂ (fun p a => a.elemType = p.elemType) params inputs := by
  induction params generalizing inputs s with
  | nil =>
    obtain rfl := List.eq_nil_of_length_eq_zero hlen.symm
    exact .nil
  | cons p params ih =>
    rcases inputs with _ | ⟨a, inputs⟩
    · exact absurd hlen (Nat.succ_ne_zero _)
    · rw [List.zip_cons_cons, inputShape] at hr
      split at hr
      next => cases hr
      next htype =>
        split at hr
        next => exact .cons (not_not.mp htype) (ih (Nat.succ.inj hlen) hr)
        next => cases hr

/-- **Inputs that combine are operands of the result.** -/
theorem operands_of_inputShape {s : Shape} (hlen : k.params.length = inputs.length)
    (hwf : ∀ a ∈ inputs, a.WellFormed) (hs : inputShape .scalar (k.params.zip inputs) = .ok s) :
    ∀ a ∈ inputs, Tensor.Operand s a := by
  have hjoin := inputShape_join (types_of_inputShape hlen hs) Shape.joins_nil
  rw [hs, List.nil_append] at hjoin
  exact fun a ha => ⟨hwf a ha, hjoin.covers a.shape (List.mem_map_of_mem ha)⟩

/-- The columns of operands are read within bounds. -/
theorem rows_eq {s : Shape} (hinputs : ∀ a ∈ inputs, Tensor.Operand s a) :
    rows inputs s.count = some (Compiled.rows inputs s.count) := by
  rw [Compiled.rows_eq hinputs, rows]
  refine mapM_eq_some fun i hi => ?_
  rw [List.mapM_map]
  refine mapM_eq_some fun a ha => ?_
  have hslot := ((hinputs a ha).covers (List.mem_range.mp hi)).slot_lt
  rw [Function.comp_apply, Elements.length_toFloats, sourceSlot, List.getElem?_eq_getElem hslot,
    Tensor.floatAt, List.getD_eq_getElem?_getD, List.getElem?_eq_getElem hslot, Option.getD_some]

/-- **A call stays within the elements of its inputs**, whether it succeeds or fails. -/
theorem within_call (hwf : ∀ a ∈ inputs, a.WellFormed) : (call k inputs).Within (k.call inputs) := by
  rw [call, Compiled.call]
  split
  next => exact within_outcome _
  next hcount =>
    refine (within_outcome _).bind fun s hs => ?_
    have hoperands := operands_of_inputShape (not_not.mp hcount).symm hwf hs
    refine Within.access_bind (rows_eq hoperands) ?_
    dsimp only
    rcases Tensor.ofFloats s ((Compiled.rows inputs s.count).map k.code.run) k.output with e | a
    · exact within_outcome _
    · exact within_outcome _

end Checked

/-! ## All arrays -/

namespace Tensor

/-- **The arrays there are**: what the constructors make, and what operators, selections, writes and
calls of kernels make of such arrays. -/
inductive Made : Tensor → Prop
  | ofElements (e : Elements) : Made (ofElements e)
  | ofShape {s : Shape} {e : Elements} {a : Tensor} (h : ofShape s e = .ok a) : Made a
  | ofScalar (s : Scalar) : Made (ofScalar s)
  | range (start stop : Int64) : Made (range start stop)
  | zeros (s : Shape) : Made (zeros s)
  | ofFloats {s : Shape} {values : List Float} {t : ElemType} {a : Tensor}
      (h : ofFloats s values t = .ok a) : Made a
  | cast {a : Tensor} (ha : Made a) (t : ElemType) : Made (a.cast t)
  | unary {op : UnaryOp} {a c : Tensor} (ha : Made a) (h : a.unary op = .ok c) : Made c
  | binary {op : BinaryOp} {a b c : Tensor} (ha : Made a) (hb : Made b)
      (h : a.binary op b = .ok c) : Made c
  | get {key : Selection} {a c : Tensor} (ha : Made a) (h : a.get key = .ok c) : Made c
  | set {key : Selection} {a v c : Tensor} (ha : Made a) (hv : Made v)
      (h : a.set key v = .ok c) : Made c
  | call {k : Compiled} {inputs : List Tensor} {c : Tensor} (hinputs : ∀ a ∈ inputs, Made a)
      (h : k.call inputs = .ok c) : Made c

/-- Floats that fill a shape make a well-formed array. -/
theorem wellFormed_of_ofFloats {s : Shape} {values : List Float} {t : ElemType} {a : Tensor}
    (h : ofFloats s values t = .ok a) : a.WellFormed := by
  rw [ofFloats] at h
  obtain ⟨b, hb, h⟩ := exists_of_bind_eq_ok h
  obtain rfl := Except.ok.inj h
  exact wellFormed_cast (wellFormed_of_ofShape hb) t

/-- The result of a call is well formed, whatever the inputs are. -/
theorem wellFormed_of_call {k : Compiled} {inputs : List Tensor} {c : Tensor}
    (h : k.call inputs = .ok c) : c.WellFormed := by
  rw [Compiled.call] at h
  split at h
  next => cases h
  next =>
    obtain ⟨s, _, h⟩ := exists_of_bind_eq_ok h
    dsimp only at h
    split at h
    next a ha =>
      obtain rfl := Except.ok.inj h
      exact wellFormed_of_ofFloats ha
    next => cases h

/-- **All arrays are well formed.** -/
theorem Made.wellFormed {a : Tensor} (h : Made a) : a.WellFormed := by
  induction h with
  | ofElements e => exact wellFormed_ofElements e
  | ofShape h => exact wellFormed_of_ofShape h
  | ofScalar s => exact wellFormed_ofScalar s
  | range start stop => exact wellFormed_ofElements _
  | zeros s => exact wellFormed_zeros s
  | ofFloats h => exact wellFormed_of_ofFloats h
  | cast _ t ih => exact wellFormed_cast ih t
  | unary _ h ih => exact wellFormed_unary ih h
  | binary _ _ h iha ihb => exact wellFormed_binary iha ihb h
  | get _ h _ => exact wellFormed_get h
  | set _ _ h ih _ => exact wellFormed_set ih h
  | call _ h _ => exact wellFormed_of_call h

/-- **What is done with an array stays within elements**, its own and those of the array beside
it. -/
structure InBounds (a : Tensor) : Prop where
  /-- Rank zero is read. -/
  toScalar? : Checked.toScalar? a = some a.toScalar?
  /-- The array is shown. -/
  text : Checked.text a = some a.text
  /-- A selection is read. -/
  get : ∀ key, (Checked.get a key).Within (a.get key)
  /-- A selection is written, with whatever values. -/
  set : ∀ key v, (Checked.set a key v).Within (a.set key v)
  /-- A binary operator is applied. -/
  binary : ∀ op b, b.WellFormed → (Checked.binary op a b).Within (a.binary op b)

theorem WellFormed.inBounds {a : Tensor} (ha : a.WellFormed) : a.InBounds where
  toScalar? := Checked.toScalar?_eq ha
  text := Checked.text_eq ha
  get key := Checked.within_get a key
  set key v := Checked.within_set a v key
  binary op _ hb := Checked.within_binary op ha hb

/-- An array is well formed if its elements are as many as the product of the dimensions. -/
theorem wellFormed_iff_prod {a : Tensor} :
    a.WellFormed ↔ a.elements.length = a.shape.dims.prod := by
  have hcount : ∀ ds : List Nat, Shape.countOf ds = ds.prod := fun ds => by
    induction ds with
    | nil => rfl
    | cons d ds ih => rw [Shape.countOf, List.prod_cons, ih]
  rw [WellFormed, Shape.count, hcount]

/-- **Every array is well formed, and no element is accessed that is not there**: all arrays have as
many elements as the product of their dimensions, and on arrays that have, each operation comes to
its outcome, a result or an error, with all accesses within the elements. -/
theorem made_inBounds :
    (∀ a, Made a → a.elements.length = a.shape.dims.prod) ∧
    (∀ a : Tensor, a.elements.length = a.shape.dims.prod → a.InBounds) ∧
    (∀ (k : Compiled) (inputs : List Tensor),
      (∀ a ∈ inputs, a.elements.length = a.shape.dims.prod) →
        (Checked.call k inputs).Within (k.call inputs)) := by
  refine ⟨fun a ha => ?_, fun a ha => ?_, fun k inputs hinputs => ?_⟩
  · exact wellFormed_iff_prod.mp ha.wellFormed
  · exact (wellFormed_iff_prod.mpr ha).inBounds
  · exact Checked.within_call fun a ha => wellFormed_iff_prod.mpr (hinputs a ha)

/-- A column of two elements beside one of a single element: the sum and a call read both. -/
theorem made_inBounds_pair :
    let pair := ofElements (.floats [0.5, 2.0])
    let one := ofScalar (.float 1.0)
    let k : Compiled := ⟨[⟨"x", .float64⟩, ⟨"y", .float64⟩], .float64,
      .apply2 Arithmetic.add.float (.load 0) (.load 8)⟩
    pair.elements.length = pair.shape.dims.prod ∧
    (Checked.binary .add pair one).Within (pair.binary .add one) ∧
    (Checked.call k [pair, one]).Within (k.call [pair, one]) := by
  intro pair one k
  obtain ⟨hmade, hbounds, hcall⟩ := made_inBounds
  have hpair := hmade pair (.ofElements _)
  have hone := hmade one (.ofScalar _)
  refine ⟨hpair, (hbounds pair hpair).binary .add one (wellFormed_iff_prod.mpr hone), ?_⟩
  refine hcall k [pair, one] fun a ha => ?_
  rcases List.mem_pair.mp ha with rfl | rfl
  · exact hpair
  · exact hone

/-- Rank zero without its element would not be read. -/
example : Checked.toScalar? ⟨.scalar, .ints []⟩ = none := rfl

end Tensor

end DeferredArrays
