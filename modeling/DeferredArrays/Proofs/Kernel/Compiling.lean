import DeferredArrays.Kernel.Compiled
import DeferredArrays.Proofs.Kernel.Offsets
import DeferredArrays.Tensor.Selection

/-!
# Proofs/Kernel/Compiling — what compiling makes of a source

A source that compiles was read, typed and lowered, and its code was taken by the code generator
(`compile_eq_ok`).  Lowering keeps the parameters of a body, each as the offset of its argument
(`loads_lower`), and refuses nothing that has a type (`exists_lower`).

A code generator takes no code that loads from more places than it has registers.  So a body that
compiles has parameters beyond the reach of an offset only if it leaves out most of those before
them; if it uses all of them, each argument has an offset of its own (`Compiler.length_le_of_uses`).
-/

namespace DeferredArrays.Kernel

/-! ## From bodies to code -/

section Lowering

variable {params : List Param} {b : Body} {c : Code}

/-- **Lowering keeps the parameters**, in their order. -/
theorem loads_lower (h : b.lower = .ok c) : c.loads = b.paramIndices.map Code.offset := by
  induction b generalizing c with
  | param i =>
    obtain rfl := Except.ok.inj h
    rfl
  | const s =>
    obtain rfl := Except.ok.inj h
    rfl
  | unary op x ih =>
    obtain ⟨cx, hx, h⟩ := exists_of_bind_eq_ok h
    obtain rfl := Except.ok.inj h
    rw [Code.loads, Body.paramIndices, ih hx]
  | binary op x y ihx ihy =>
    obtain ⟨cx, hx, h⟩ := exists_of_bind_eq_ok h
    obtain ⟨cy, hy, h⟩ := exists_of_bind_eq_ok h
    split at h
    next f _ =>
      obtain rfl := Except.ok.inj h
      rw [Code.loads, Body.paramIndices, List.map_append, ihx hx, ihy hy]
    next => cases h

/-- An operator with a type acts on floats. -/
theorem exists_onFloats {op : BinaryOp} {nonnegative : Bool} {s t u : ElemType}
    (h : Body.binaryType op nonnegative s t = .ok u) : ∃ f, onFloats? op = some f := by
  cases op with
  | getItem => cases h
  | _ => exact ⟨_, rfl⟩

/-- **What has a type is lowered** — the operator that lowering refuses is refused by typing. -/
theorem exists_lower {t : ElemType} (h : b.elemType? params = .ok t) : ∃ c, b.lower = .ok c := by
  induction b generalizing t with
  | param i => exact ⟨_, rfl⟩
  | const s => exact ⟨_, rfl⟩
  | unary op x ih =>
    obtain ⟨tx, hx, _⟩ := exists_of_bind_eq_ok h
    obtain ⟨cx, hcx⟩ := ih hx
    exact ⟨.apply1 (onFloat op) cx, by rw [Body.lower, hcx]; rfl⟩
  | binary op x y ihx ihy =>
    obtain ⟨tx, hx, h⟩ := exists_of_bind_eq_ok h
    obtain ⟨ty, hy, hop⟩ := exists_of_bind_eq_ok h
    obtain ⟨cx, hcx⟩ := ihx hx
    obtain ⟨cy, hcy⟩ := ihy hy
    obtain ⟨f, hf⟩ := exists_onFloats hop
    refine ⟨.apply2 f cx cy, ?_⟩
    simp only [Body.lower, hcx, hcy, hf, bind, Except.bind]
    rfl

end Lowering

/-! ## From sources to kernels -/

section Compiling

variable {compiler : Compiler} {s : Source} {b : Body} {c : Code} {k : Compiled}

/-- **A compiled kernel** has the parameters of its source, the type of the body and its code. -/
theorem compile_eq_ok (h : compile compiler s = .ok k) :
    ∃ b, s.parse = .ok b ∧ b.elemType? s.params = .ok k.output ∧ b.lower = .ok k.code ∧
      compiler.refusal? k.code = none ∧ k.params = s.params := by
  obtain ⟨b, hb, h⟩ := exists_of_bind_eq_ok h
  obtain ⟨t, ht, h⟩ := exists_of_bind_eq_ok h
  obtain ⟨c, hc, h⟩ := exists_of_bind_eq_ok h
  split at h
  next => cases h
  next hnone =>
    obtain rfl := Except.ok.inj h
    exact ⟨b, hb, ht, hc, hnone, rfl⟩

/-- **A source compiles** if its body is read and typed, and the code generator takes its code. -/
theorem compile_of_lower {t : ElemType} (hb : s.parse = .ok b) (ht : b.elemType? s.params = .ok t)
    (hc : b.lower = .ok c) (htaken : compiler.refusal? c = none) :
    compile compiler s = .ok ⟨s.params, t, c⟩ := by
  simp only [compile, hb, ht, hc, htaken, bind, Except.bind]
  rfl

/-! ## Registers -/

/-- **A body that uses all of its parameters** has fewer of them than there are offsets, if the code
generator takes its code. -/
theorem Compiler.length_le_of_uses {n : Nat} (hc : b.lower = .ok c)
    (htaken : compiler.refusal? c = none) (huses : ∀ i < n, i ∈ b.paramIndices) : n ≤ 2 ^ 28 := by
  refine Nat.le_of_not_lt fun hn => ?_
  have hnodup := Code.nodup_offsets (show 2 ^ 28 ≤ 2 ^ 29 by decide)
  have hloads : (List.range (2 ^ 28)).map Code.offset ⊆ c.loads := fun d hd => by
    obtain ⟨i, hi, rfl⟩ := List.mem_map.mp hd
    rw [loads_lower hc]
    exact List.mem_map_of_mem (huses i (Nat.lt_trans (List.mem_range.mp hi) hn))
  have hlength := compiler.registers c _ htaken hnodup hloads
  rw [List.length_map, List.length_range, registerCount] at hlength
  omega

end Compiling

end DeferredArrays.Kernel
