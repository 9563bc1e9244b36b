import DeferredArrays.Kernel.Reading

/-!
# Kernel/Source — a kernel as text

The source of a kernel is its parameters, in the order of the arguments, and the text of its body.
-/

namespace DeferredArrays.Kernel

/-- The text form of a kernel. -/
structure Source where
  /-- The parameters, in the order of the arguments. -/
  params : List Param
  /-- The text of the body. -/
  body : String
  deriving DecidableEq

namespace Source

/-- The parameter types in parentheses. -/
def signature (s : Source) : String :=
  "(" ++ ", ".intercalate (s.params.map (·.elemType.name)) ++ ")"

/-- The body as an expression. -/
def parse (s : Source) : Except KernelError Body := Body.ofText s.params s.body.toList

end Source

end DeferredArrays.Kernel
