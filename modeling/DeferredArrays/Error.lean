import DeferredArrays.Kernel.Error
import DeferredArrays.Tensor.Error

/-!
# Error — everything that can go wrong, by cause

Errors of array operations and of kernels pass through unchanged.  Two more belong to graphs: an
assignment cannot become part of a kernel, and a scalar has nothing to assign into.  A reference to
a node or buffer that a heap does not have is an error too; no heap that was built by the operations
of this library has one.
-/

namespace DeferredArrays

/-- A node of a graph, numbered in order of creation. -/
abbrev NodeId := Nat

/-- A buffer, numbered in order of creation. -/
abbrev BufferId := Nat

/-- Uses of a graph that have no meaning. -/
inductive GraphError where
  /-- An index assignment was to become part of a kernel. -/
  | assignInKernel (node : NodeId)
  /-- The base of an index assignment is a scalar. -/
  | scalarAssignBase (node : NodeId)
  deriving DecidableEq

/-- References into a heap that lead nowhere. -/
inductive Dangling where
  | node (id : NodeId)
  | buffer (id : BufferId)
  deriving DecidableEq

/-- The causes for which an operation fails. -/
inductive Error where
  | tensor (e : TensorError)
  | graph (e : GraphError)
  | kernel (e : KernelError)
  | dangling (d : Dangling)
  deriving DecidableEq

/-- The wording of a misuse. -/
def GraphError.message : GraphError → String
  | assignInKernel node =>
    "node " ++ node.repr ++ " is an index assignment and cannot be compiled into a kernel"
  | scalarAssignBase node =>
    "node " ++ node.repr ++ " evaluated to a scalar and cannot be index-assigned"

/-- The wording of a reference that leads nowhere. -/
def Dangling.message : Dangling → String
  | node id => "node " ++ id.repr ++ " does not exist"
  | buffer id => "buffer " ++ id.repr ++ " does not exist"

/-- The wording of an error. -/
def Error.message : Error → String
  | tensor e => e.message
  | graph e => e.message
  | kernel e => e.message
  | dangling d => d.message

end DeferredArrays
