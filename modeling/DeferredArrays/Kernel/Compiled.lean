import DeferredArrays.Error
import DeferredArrays.Kernel.Code
import DeferredArrays.Kernel.Settings
import DeferredArrays.Kernel.Source

/-!
# Kernel/Compiled — compiling a kernel and calling it

Compiling reads the body, types it against the parameters and lowers it, and a code generator makes
a function of the code.  The code generator is not part of this library.  It may refuse code for
reasons of its own, in any case code that loads from more places than it can tell apart
(`Compiler`).  The compiled kernel computes in floats whatever the parameters' types are, one
element after the other, and casts each result to the type found for the body.

A call checks the inputs in order: first their number, then for each its type and whether its shape
combines with those before it.
-/

namespace DeferredArrays.Kernel

/-- The registers of a code generator, which it numbers with 21 bits. -/
def registerCount : Nat := 0x200000

/-- **A compiler**: its settings, and what its code generator takes. -/
structure Compiler where
  /-- The settings. -/
  settings : Settings
  /-- Why the code generator refuses code, if it does. -/
  refusal? : Code → Option String
  /-- What is loaded is kept in registers, so code that loads from more places than there are is not
  taken. -/
  registers : ∀ (c : Code) (offsets : List Int32), refusal? c = none → offsets.Nodup →
    offsets ⊆ c.loads → offsets.length ≤ registerCount

namespace Compiler

/-- The compiler that refuses code only if it loads more often than there are registers. -/
def ofSettings (settings : Settings) : Compiler where
  settings := settings
  refusal? c :=
    if registerCount < c.loads.length then
      some "Compilation error: Code for function is too large"
    else none
  registers c offsets hc hnodup hloads := by
    have hlength : ¬ registerCount < c.loads.length := by
      intro h
      rw [if_pos h] at hc
      cases hc
    exact Nat.le_trans (hnodup.length_le_of_subset hloads) (Nat.le_of_not_lt hlength)

end Compiler

/-- A kernel that can be called. -/
structure Compiled where
  /-- The parameters, in the order of the arguments. -/
  params : List Param
  /-- The type of the results. -/
  output : ElemType
  /-- What is computed for each element. -/
  code : Code

/-- **Compiles a kernel.**  The compiler affects no result. -/
def compile (compiler : Compiler) (s : Source) : Except KernelError Compiled := do
  let body ← s.parse
  let output ← body.elemType? s.params
  let code ← body.lower
  match compiler.refusal? code with
  | some reason => .error (.codegen reason)
  | none => return ⟨s.params, output, code⟩

namespace Compiled

/-- The number of inputs of a call. -/
def inputCount (k : Compiled) : Nat := k.params.length

/-- A call on one float for each parameter. -/
def callRow (k : Compiled) (args : List Float) : Except KernelError Float :=
  if args.length ≠ k.inputCount then .error (.inputCount k.inputCount args.length)
  else .ok (k.code.run args)

/-- The combined shape of the inputs of a call, each checked against its parameter. -/
def inputShape (s : Shape) : List (Param × Tensor) → Except Error Shape
  | [] => .ok s
  | (p, a) :: rest =>
    if a.elemType ≠ p.elemType then .error (.kernel (.inputType p.name p.elemType a.elemType))
    else
      match s.broadcast? a.shape with
      | some t => inputShape t rest
      | none => .error (.tensor (.shapeMismatch s.dims a.shape.dims))

/-- The arguments for each of `n` elements: one float from every input. -/
def rows (inputs : List Tensor) (n : Nat) : List (List Float) :=
  let columns := inputs.map fun a => (spread a.elements.toFloats n).toArray
  (List.range n).map fun i => columns.map fun column => column.getD i 0.0

/-- **A call on arrays**, element by element. -/
def call (k : Compiled) (inputs : List Tensor) : Except Error Tensor :=
  if inputs.length ≠ k.inputCount then
    .error (.kernel (.inputCount k.inputCount inputs.length))
  else do
    let shape ← inputShape .scalar (k.params.zip inputs)
    let results := (rows inputs shape.count).map k.code.run
    match Tensor.ofFloats shape results k.output with
    | .ok a => .ok a
    | .error e => .error (.tensor e)

end Compiled

end DeferredArrays.Kernel
