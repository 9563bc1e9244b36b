import DeferredArrays.Graph.Diagram
import DeferredArrays.Graph.Evaluation
import DeferredArrays.Session.Command
import DeferredArrays.Session.Table

/-!
# Session/Workspace — names, handles and what commands do to them

A workspace is a heap and the tables of a session.  A **handle** is a name in the table of handles:
it is on one node, and that node's owner count is the number of handles on it.  Every function here
that adds, moves or removes a handle acquires or releases the node with it: a handle is acquired
before it has its name, and released once it has lost it.

A command that makes a node for a handle reads its operands first, from right to left where an
operator has two: a handle passed by value is gone as soon as it is read, even if the command fails
later, while a literal becomes a node only when the command makes the node that uses it.  The left
operand of an operator loses its name at once too, but keeps its claim until the operator's node is
there.  An expression that is written out has its operands made into nodes one after the other.  A command on
two nodes is done with the first before it looks for the second.
-/

namespace DeferredArrays

namespace Session

/-- The state of a session. -/
structure Workspace where
  /-- Nodes and buffers. -/
  heap : Heap
  /-- The node each handle is on. -/
  handles : Table NodeId
  /-- The named nodes. -/
  nodes : Table NodeId
  /-- The named buffers. -/
  buffers : Table BufferId
  /-- The fused kernels. -/
  kernels : Table Fused
  /-- Whether a node was ever released that had no owner: its count would have wrapped around. -/
  overdrawn : Bool

/-- The workspace at the start of a session. -/
def Workspace.empty : Workspace := ⟨.empty, .empty, .empty, .empty, .empty, false⟩

instance : Inhabited Workspace := ⟨.empty⟩

/-- A step of a session, which may fail and keeps its effects when it does. -/
abbrev Act := EStateM Failure Workspace

namespace Act

/-! ## The heap -/

/-- A computation on the heap. -/
def onHeap {α : Type} (run : Eval α) : Act α := fun w =>
  match run w.heap with
  | .ok a h => .ok a { w with heap := h }
  | .error e h => .error (.error e) { w with heap := h }

/-- A change of the heap. -/
def updateHeap (f : Heap → Heap) : Act Unit := modify fun w => { w with heap := f w.heap }

/-- The outcome of an operation that leaves the heap alone. -/
def lift {α : Type} (r : Except Error α) : Act α :=
  match r with
  | .ok a => pure a
  | .error e => throw (.error e)

/-- The array of a form. -/
def tensor (f : ArrayForm) : Act Tensor := onHeap (Eval.lift f.toTensor)

/-- A new buffer. -/
def addBuffer (a : Tensor) : Act BufferId := do
  let (b, h) := (← get).heap.addBuffer a
  modify fun w => { w with heap := h }
  pure b

/-- A new node. -/
def addNode (e : Expression) : Act NodeId := do
  let (id, h) := (← get).heap.addNode e
  modify fun w => { w with heap := h }
  pure id

/-! ## Names -/

/-- The value of a name in a table. -/
def named {α : Type} (table : Workspace → Table α) (name : String) : Act α := do
  match (table (← get)).get? name with
  | some a => pure a
  | none => throw (.noSuchName name)

/-- The node a handle is on. -/
def handle (name : String) : Act NodeId := named (·.handles) name

/-- The node of a reference. -/
def ref : Ref → Act NodeId
  | .handle name => handle name
  | .node name => named (·.nodes) name

/-! ## Handles -/

/-- One more claim on a node. -/
def acquire (id : NodeId) : Act Unit := updateHeap (·.acquire id)

/-- One claim less on a node. -/
def release (id : NodeId) : Act Unit := modify fun w =>
  { w with heap := w.heap.release id, overdrawn := w.overdrawn || !w.heap.isOwned id }

/-- Takes the name of a handle away, which keeps its claim. -/
def forget (name : String) : Act Unit :=
  modify fun w => { w with handles := w.handles.erase name }

/-- Ends a handle: its name goes, and its claim on the node with it. -/
def dropHandle (name : String) : Act NodeId := do
  let id ← handle name
  forget name
  release id
  pure id

/-- Puts a handle that already has its claim under a name, and then ends the handle that was
there. -/
def placeHandle (name : String) (id : NodeId) : Act Unit := do
  let old := (← get).handles.get? name
  modify fun w => { w with handles := w.handles.insert name id }
  match old with
  | some old => release old
  | none => pure ()

/-! ## Operands -/

/-- An operand that was read: a node, or a constant that has none yet. -/
inductive Held where
  | node (id : NodeId)
  | literal (s : Scalar)

/-- Reads an operand. -/
def readOperand : Operand → Act Held
  | .ref r => do return .node (← ref r)
  | .own name => do return .node (← dropHandle name)
  | .literal s => pure (.literal s)

/-- The node of an operand that was read. -/
def heldNode : Held → Act NodeId
  | .node id => pure id
  | .literal s => addNode (.scalar s)

/-- The node of an operand. -/
def operandNode (x : Operand) : Act NodeId := do heldNode (← readOperand x)

/-- The key of an assignment. -/
def readKey : KeyOperand → Act AssignKey
  | .position i => pure (.position i)
  | .ref r => do return .node (← ref r)
  | .own name => do return .node (← dropHandle name)

/-- The expression of a form. -/
def expression : ExpressionForm → Act Expression
  | .data a => do return .data (← addBuffer (← tensor a))
  | .buffer name => do return .data (← named (·.buffers) name)
  | .scalar s => pure (.scalar s)
  | .unary op x => do return .unary op (← operandNode x)
  | .binary op x y => do
    let x ← operandNode x
    let y ← operandNode y
    return .binary op x y
  | .assign base key value => do
    let base ← operandNode base
    let key ← readKey key
    let value ← operandNode value
    return .assign base key value

/-! ## Descriptions -/

/-- What is known of a node. -/
def info (id : NodeId) : Act NodeInfo := do
  let s ← onHeap (Eval.state id)
  let h := (← get).heap
  return ⟨id, s.kind, h.owners id, s.isCached, h.reads id⟩

/-- A value, copied out. -/
def content (v : Value) : Act Content :=
  match v with
  | .array _ => do return .array (← onHeap (Eval.view v))
  | .scalar s => pure (.scalar s)

/-- The value of the node of a handle as an array. -/
def forcedTensor (handleName : String) : Act Tensor := do
  let id ← handle handleName
  onHeap (do Eval.view (← Eval.force id))

/-- The entries of a table, each value described. -/
def listing {α β : Type} (describe : α → Act β) : List (String × α) → Act (List (String × β))
  | [] => pure []
  | (name, a) :: rest => do
    let b ← describe a
    return (name, b) :: (← listing describe rest)

/-- All that can be seen. -/
def overview : Act Overview := do
  let w ← get
  let handles ← listing info w.handles.entries
  let nodes ← listing info w.nodes.entries
  let buffers ← listing (fun b => onHeap (Eval.buffer b)) w.buffers.entries
  return ⟨handles, nodes, buffers⟩

/-! ## Commands -/

/-- Keeps a handle that already has its claim under a name.  The node is described before a handle
that had the name ends. -/
def keepHandle (name : String) (id : NodeId) : Act Answer := do
  let i ← info id
  placeHandle name id
  return .info i

/-- A handle on a node, kept under a name. -/
def newHandle (name : String) (id : NodeId) : Act Answer := do
  acquire id
  keepHandle name id

/-- Takes the name of a left operand away, if it is passed by value. -/
def forgetOwn (own : Bool) (name : String) : Act Unit := if own then forget name else pure ()

/-- Gives up the claim of a left operand, if it was passed by value. -/
def releaseOwn (own : Bool) (left : NodeId) : Act Unit := if own then release left else pure ()

/-- A handle on a new node, an operator, kept under a name.  The handle on the left operand, if that
was passed by value, ends once the node is there. -/
def newOperator (name : String) (own : Bool) (left : NodeId) (e : Expression) : Act Answer := do
  let id ← addNode e
  acquire id
  releaseOwn own left
  keepHandle name id

end Act

open Act

/-- **Carries out a command.** -/
def Command.perform : Command → Act Answer
  | newBuffer name a => do
    let a ← Act.tensor a
    let b ← addBuffer a
    modify fun w => { w with buffers := w.buffers.insert name b }
    return .tensor a
  | showBuffer name => do
    let b ← named (·.buffers) name
    return .tensor (← onHeap (Eval.buffer b))
  | writeBuffer name key value => do
    let value ← Act.tensor value
    let b ← named (·.buffers) name
    onHeap (Eval.write b key value)
    return .tensor (← onHeap (Eval.buffer b))
  | newData name a => do
    let a ← Act.tensor a
    newHandle name (← addNode (.data (← addBuffer a)))
  | newShared name buffer => do
    let b ← named (·.buffers) buffer
    newHandle name (← addNode (.data b))
  | newScalar name s => do newHandle name (← addNode (.scalar s))
  | unary name op x own => do
    let left ← handle x
    forgetOwn own x
    newOperator name own left (.unary op left)
  | binary name op x own y => do
    let y ← readOperand y
    let left ← handle x
    forgetOwn own x
    let y ← heldNode y
    newOperator name own left (.binary op left y)
  | indexSet name key value => do
    let key ← readKey key
    let value ← readOperand value
    let base ← handle name
    let value ← heldNode value
    let id ← addNode (.assign base key value)
    acquire id
    placeHandle name id
    return .info (← info id)
  | clone name h => do newHandle name (← handle h)
  | drop h => do
    let _ ← dropHandle h
    return .done
  | nameNode name x => do
    let id ← ref x
    modify fun w => { w with nodes := w.nodes.insert name id }
    return .info (← info id)
  | newNode name e => do
    let id ← addNode (← expression e)
    modify fun w => { w with nodes := w.nodes.insert name id }
    return .info (← info id)
  | wrap name node => do newHandle name (← named (·.nodes) node)
  | evaluate e => do
    let e ← expression e
    return .value (← content (← onHeap (Eval.evaluate e)))
  | read x => do
    let id ← ref x
    return .value (← content (← onHeap (Eval.read id)))
  | force x => do
    let id ← ref x
    return .value (← content (← onHeap (Eval.force id)))
  | toKey h => do
    let id ← handle h
    return .key (← onHeap (do Eval.key (← Eval.force id)))
  | toTensor h => do return .tensor (← forcedTensor h)
  | sum h => do return .scalar (← forcedTensor h).sum
  | diagram x => do
    let id ← ref x
    return .text ((← get).heap.diagram id)
  | generate x => do
    let id ← ref x
    let h := (← get).heap
    let g ← lift (h.kernelFor id)
    return .generated g.source (← lift (h.contents g.arguments))
  | fuse name x compiler => do
    let id ← handle x
    let k ← lift ((← get).heap.fuse compiler id)
    modify fun w => { w with kernels := w.kernels.insert name k }
    return .fused k.source k.kernel.inputCount k.kernel.output
  | run name => do
    let k ← named (·.kernels) name
    return .tensor (← lift ((← get).heap.run k))
  | describe x => do
    let id ← ref x
    return .info (← info id)
  | summarize x => do
    let id ← ref x
    return .text ((← get).heap.summary id)
  | sameBuffer x y => do
    let v ← onHeap (Eval.force (← ref x))
    let w ← onHeap (Eval.force (← ref y))
    match v, w with
    | .array b, .array c => return .same (some (b == c))
    | _, _ => return .same none
  | state => do return .overview (← overview)

/-- **Carries out commands one after the other**; one that fails does not stop those after it. -/
def Workspace.runAll : List Command → Workspace → List (Except Failure Answer) × Workspace
  | [], w => ([], w)
  | c :: cs, w =>
    let (first, w) : Except Failure Answer × Workspace :=
      match c.perform w with
      | .ok a w => (.ok a, w)
      | .error e w => (.error e, w)
    let (others, w) := w.runAll cs
    (first :: others, w)

end Session

end DeferredArrays
