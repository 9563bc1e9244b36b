import DeferredArrays.Kernel.Compiled
import DeferredArrays.Proofs.Tensor.Typing
import Mathlib.Data.List.Forall2

/-!
# Proofs/Kernel/Calling — what a call of a kernel returns

On inputs of the types of its parameters, a kernel fails only if the shapes of the inputs have no
join, and otherwise returns its own type in the shape of the join (`call_resolves`).  Each element
is what the code computes from the elements of the inputs at the same slot (`call_eq`), where the
slot is that of the only element if an input has just one (`Tensor.floatAt`).
-/

namespace DeferredArrays

/-! ## Elements as floats -/

namespace Tensor

/-- **The element that an operand contributes to a slot of the result**, as a float. -/
def floatAt (a : Tensor) (i : Nat) : Float :=
  a.elements.toFloats.getD (if a.elements.length = 1 then 0 else i) 0.0

/-- An array contributes to a slot: it has an element there, or only one at all. -/
def Covers (a : Tensor) (i : Nat) : Prop := a.elements.length = 1 ∨ i < a.elements.length

theorem Operand.covers {s : Shape} {a : Tensor} {i : Nat} (h : Operand s a) (hi : i < s.count) :
    a.Covers i := h.length.imp_right (Nat.lt_of_lt_of_eq hi ·.symm)

/-- Where the result contributes, its operands do. -/
theorem Operand.covers_of {a c : Tensor} {i : Nat} (h : Operand c.shape a) (hc : c.WellFormed)
    (hi : c.Covers i) : a.Covers i := by
  rcases hi with h1 | hlt
  · exact .inl (h.length.elim id fun hlen => hlen.trans (hc.symm.trans h1))
  · exact h.covers (Nat.lt_of_lt_of_eq hlt hc)

theorem Covers.slot_lt {a : Tensor} {i : Nat} (h : a.Covers i) :
    (if a.elements.length = 1 then 0 else i) < a.elements.toFloats.length := by
  rw [Elements.length_toFloats]
  split
  next h1 => exact h1 ▸ Nat.one_pos
  next h1 => exact h.resolve_left h1

/-- The elements of an operand, lined up with those of the result. -/
theorem Operand.spread_toFloats {s : Shape} {a : Tensor} (h : Operand s a) :
    spread a.elements.toFloats s.count = (List.range s.count).map a.floatAt := by
  have hlen := h.length_spread (Elements.length_toFloats a.elements)
  have hspread := h.spreads (Elements.length_toFloats a.elements)
  refine List.ext_getElem? fun i => ?_
  by_cases hi : i < s.count
  · have hslot := (h.covers hi).slot_lt
    rw [getElem?_spread hspread hi, List.getElem?_map, List.getElem?_range hi,
      Elements.length_toFloats, List.getElem?_eq_getElem hslot]
    simp [floatAt, List.getD_eq_getElem?_getD, List.getElem?_eq_getElem hslot]
  · rw [List.getElem?_eq_none (by omega), List.getElem?_eq_none (by simp; omega)]

/-- The float elements of a well-formed array are its elements at all slots. -/
theorem WellFormed.toFloats_eq {a : Tensor} (ha : a.WellFormed) :
    a.elements.toFloats = (List.range a.shape.count).map a.floatAt := by
  have hlen : a.elements.length = a.shape.count := ha
  refine List.ext_getElem? fun i => ?_
  by_cases hi : i < a.shape.count
  · have hslot : (if a.elements.length = 1 then 0 else i) = i := by
      split
      next h1 => omega
      next => rfl
    have hi' : i < a.elements.toFloats.length := by rwa [Elements.length_toFloats, hlen]
    rw [List.getElem?_map, List.getElem?_range hi, List.getElem?_eq_getElem hi']
    simp [floatAt, hslot, List.getD_eq_getElem?_getD, List.getElem?_eq_getElem hi']
  · rw [List.getElem?_eq_none (by simp [hlen]; omega), List.getElem?_eq_none (by simp; omega)]

end Tensor

namespace Kernel.Compiled

open Shape Tensor

variable {k : Compiled} {inputs : List Tensor}

/-- The inputs have the types of the parameters. -/
def Accepts (k : Compiled) (inputs : List Tensor) : Prop :=
  List.Forall₂ (fun p a => a.elemType = p.elemType) k.params inputs

/-- What comes of the shapes of the inputs, given the join of those before. -/
theorem inputShape_join {params : List Param} {seen : List Shape} {s : Shape}
    (haccepts : List.Forall₂ (fun p a => a.elemType = p.elemType) params inputs)
    (hs : Joins seen s) :
    match inputShape s (params.zip inputs) with
    | .ok r => Joins (seen ++ inputs.map (·.shape)) r
    | .error e => (∃ u v, e = .tensor (.shapeMismatch u v)) ∧
        ∀ r, ¬ Joins (seen ++ inputs.map (·.shape)) r := by
  induction haccepts generalizing seen s with
  | nil => simpa [inputShape] using hs
  | @cons p a params inputs hpa _ ih =>
    have happend : seen ++ (a :: inputs).map (·.shape)
        = (seen ++ [a.shape]) ++ inputs.map (·.shape) := by simp
    rw [List.zip_cons_cons, inputShape, if_neg (not_not_intro hpa), happend]
    cases hr : s.broadcast? a.shape with
    | some r => exact ih (hs.append (joins_singleton a.shape) hr)
    | none =>
      refine ⟨⟨_, _, rfl⟩, fun r hjoin => ?_⟩
      obtain ⟨r', hr'⟩ := hjoin.of_subset fun u hu => List.mem_append_left _ hu
      exact hs.not_append (joins_singleton a.shape) hr hr'

/-- **The arguments for an element** are what the inputs contribute to its slot. -/
theorem rows_eq {s : Shape} (hinputs : ∀ a ∈ inputs, Operand s a) :
    rows inputs s.count = (List.range s.count).map fun i => inputs.map (·.floatAt i) := by
  simp only [rows, List.map_map]
  refine List.map_congr_left fun i hi => List.map_congr_left fun a ha => ?_
  have hi : i < s.count := List.mem_range.mp hi
  simp [(hinputs a ha).spread_toFloats, hi]

/-- **The outcome of a call**, element by element. -/
theorem call_eq {s : Shape} (haccepts : k.Accepts inputs) (hwf : ∀ a ∈ inputs, a.WellFormed)
    (hs : Joins (inputs.map (·.shape)) s) :
    k.call inputs = .ok ⟨s, (Elements.floats ((List.range s.count).map fun i =>
      k.code.run (inputs.map (·.floatAt i)))).cast k.output⟩ := by
  have hcount : inputs.length = k.inputCount := haccepts.length_eq.symm
  have hoperands : ∀ a ∈ inputs, Operand s a := fun a ha =>
    ⟨hwf a ha, hs.covers _ (List.mem_map_of_mem ha)⟩
  have hjoin := inputShape_join haccepts joins_nil
  rw [List.nil_append] at hjoin
  cases hr : inputShape .scalar (k.params.zip inputs) with
  | error e =>
    rw [hr] at hjoin
    exact absurd hs (hjoin.2 s)
  | ok r =>
    rw [hr] at hjoin
    obtain rfl : r = s := Joins.unique hjoin hs
    simp only [call, hcount, hr, bind, Except.bind, rows_eq hoperands, List.map_map]
    simp [ofFloats, ofShape, Elements.length, Tensor.cast, bind, Except.bind, pure, Except.pure,
      Function.comp_def]

/-- **A call fails only on shapes without a join**, and returns the type of the kernel. -/
theorem call_resolves (haccepts : k.Accepts inputs) (hwf : ∀ a ∈ inputs, a.WellFormed) :
    Resolves (inputs.map (·.shape)) k.output (k.call inputs) := by
  by_cases hex : ∃ s, Joins (inputs.map (·.shape)) s
  · obtain ⟨s, hs⟩ := hex
    rw [call_eq haccepts hwf hs]
    exact ⟨hs, Elements.elemType_cast _ _⟩
  · have hcount : inputs.length = k.inputCount := haccepts.length_eq.symm
    have hjoin := inputShape_join haccepts joins_nil
    rw [List.nil_append] at hjoin
    cases hr : inputShape .scalar (k.params.zip inputs) with
    | ok r =>
      rw [hr] at hjoin
      exact absurd ⟨r, hjoin⟩ hex
    | error e =>
      rw [hr] at hjoin
      rw [call, if_neg (not_not_intro hcount), hr]
      exact hjoin

end Kernel.Compiled

end DeferredArrays
