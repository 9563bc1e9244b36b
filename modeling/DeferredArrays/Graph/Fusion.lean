import DeferredArrays.Graph.Heap
import DeferredArrays.Kernel.Compiled

/-!
# Graph/Fusion — one kernel for a whole graph

A graph without assignments is written as the body of a kernel: operators become calls, scalars
become literals, and every node that holds an array becomes a parameter.  The parameter is named
after the node, so a node that is reached twice is one parameter, and two nodes are two parameters
even when they hold the same buffer.  Parameters are listed in the order in which they first occur.

A fused kernel keeps the buffers its parameters stand for and runs on what is in them at that time.
-/

namespace DeferredArrays

/-- A parameter of a kernel under construction: the node it stands for, and the buffer it reads. -/
structure Binding where
  /-- The node that holds the array. -/
  node : NodeId
  /-- The buffer with the array. -/
  buffer : BufferId
  /-- The type of the elements. -/
  elemType : ElemType
  deriving DecidableEq

namespace Binding

/-- The name of the parameter for a node. -/
def nameOf (id : NodeId) : String := "x" ++ id.repr

/-- The parameter. -/
def param (b : Binding) : Kernel.Param := ⟨nameOf b.node, b.elemType⟩

end Binding

/-- The text of a kernel for a graph, with the buffers to call it on. -/
structure BoundSource where
  /-- The kernel. -/
  source : Kernel.Source
  /-- The buffers, in the order of the parameters. -/
  arguments : List BufferId
  deriving DecidableEq

/-- A kernel for a graph, with the buffers to call it on and its compiled form. -/
structure Fused extends BoundSource where
  /-- The compiled kernel. -/
  kernel : Kernel.Compiled

namespace Heap

/-! ## Writing -/

/-- The bindings with one for a node, new only if the node has none yet. -/
def parameterFor (h : Heap) (id : NodeId) (b : BufferId) (bound : List Binding) :
    Except Error (String × List Binding) :=
  if bound.any (·.node == id) then .ok (Binding.nameOf id, bound)
  else
    match h.buffer? b with
    | some a => .ok (Binding.nameOf id, bound ++ [⟨id, b, a.elemType⟩])
    | none => .error (.dangling (.buffer b))

/-- The body text for a node whose graph is less than `depth` deep, and the parameters so far. -/
def writeBody (h : Heap) : Nat → NodeId → List Binding → Except Error (String × List Binding)
  | 0, id, _ => .error (.dangling (.node id))
  | depth + 1, id, bound =>
    match h.state? id with
    | none => .error (.dangling (.node id))
    | some (.cached (.array b)) => h.parameterFor id b bound
    | some (.cached (.scalar s)) => .ok (s.literal, bound)
    | some (.deferred (.data b)) => h.parameterFor id b bound
    | some (.deferred (.scalar s)) => .ok (s.literal, bound)
    | some (.deferred (.unary op x)) => do
      let (x, bound) ← h.writeBody depth x bound
      return (op.name ++ "(" ++ x ++ ")", bound)
    | some (.deferred (.binary op x y)) => do
      let (x, bound) ← h.writeBody depth x bound
      let (y, bound) ← h.writeBody depth y bound
      return (op.name ++ "(" ++ x ++ ", " ++ y ++ ")", bound)
    | some (.deferred (.assign ..)) => .error (.graph (.assignInKernel id))

/-- **The kernel for the graph of a node**, as text. -/
def kernelFor (h : Heap) (id : NodeId) : Except Error BoundSource := do
  let (body, bound) ← h.writeBody (id + 1) id []
  return ⟨⟨bound.map Binding.param, body⟩, bound.map Binding.buffer⟩

/-! ## Compiling and running -/

/-- **The compiled kernel for the graph of a node.** -/
def fuse (h : Heap) (compiler : Kernel.Compiler) (id : NodeId) : Except Error Fused := do
  let g ← h.kernelFor id
  match Kernel.compile compiler g.source with
  | .ok k => return ⟨g, k⟩
  | .error e => .error (.kernel e)

/-- The contents of a list of buffers. -/
def contents (h : Heap) : List BufferId → Except Error (List Tensor)
  | [] => .ok []
  | b :: bs =>
    match h.buffer? b with
    | some a => do return a :: (← h.contents bs)
    | none => .error (.dangling (.buffer b))

/-- **Runs a fused kernel** on what its buffers hold now. -/
def run (h : Heap) (k : Fused) : Except Error Tensor := do
  k.kernel.call (← h.contents k.arguments)

end Heap

end DeferredArrays
