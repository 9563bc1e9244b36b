import DeferredArrays.Error
import DeferredArrays.Tensor.Selection

/-!
# Graph/Heap — nodes, buffers, and the heap that holds them

An **expression** refers to other expressions by node and to arrays by buffer, so that both can be
shared.  A **node** is in one of two states: deferred, holding its expression, or cached, holding the
value its expression had when it was forced.  It also counts the handles that own it and the times
it was read.

A heap lists nodes and buffers in order of creation, and an expression is built from nodes that exist
already.  So the nodes an expression refers to come before its own (`Heap.Ordered`), graphs have no
cycles, and a node's number bounds the depth below it.

Main facts: adding a node or a buffer leaves those before it alone (`cell?_addNode_of_lt`,
`buffer?_addBuffer_of_lt`), and updating one touches no other (`cell?_modifyCell_of_ne`,
`buffer?_setBuffer_of_ne`).
-/

namespace DeferredArrays

/-! ## Expressions and values -/

/-- The key of an index assignment: a position, or a node that evaluates to a key. -/
inductive AssignKey where
  | position (index : Int64)
  | node (id : NodeId)
  deriving DecidableEq

/-- An expression over nodes that exist already. -/
inductive Expression where
  /-- The array in a buffer. -/
  | data (buffer : BufferId)
  /-- A constant. -/
  | scalar (s : Scalar)
  | unary (op : UnaryOp) (x : NodeId)
  | binary (op : BinaryOp) (x y : NodeId)
  /-- The array of `base` with the elements at `key` replaced, in place. -/
  | assign (base : NodeId) (key : AssignKey) (value : NodeId)
  deriving DecidableEq

/-- What an expression evaluates to.  Arrays are shared, scalars are not. -/
inductive Value where
  | array (buffer : BufferId)
  | scalar (s : Scalar)
  deriving DecidableEq

/-- The state of a node. -/
inductive NodeStatus where
  | deferred (e : Expression)
  | cached (v : Value)
  deriving DecidableEq

/-- A node: its state, how many handles own it, and how often it was read by evaluation. -/
structure Cell where
  /-- Expression or value. -/
  state : NodeStatus
  /-- The number of handles on the node. -/
  owners : Nat
  /-- The number of times evaluation visited the node. -/
  reads : Nat
  deriving DecidableEq

namespace AssignKey

/-- The node of a key, if it has one. -/
def children : AssignKey → List NodeId
  | position _ => []
  | node id => [id]

end AssignKey

namespace Expression

/-- The nodes an expression refers to, in the order they are evaluated. -/
def children : Expression → List NodeId
  | data _ => []
  | scalar _ => []
  | unary _ x => [x]
  | binary _ x y => [x, y]
  | assign base key value => base :: key.children ++ [value]

/-- The name of the kind of an expression, with its operator. -/
def kind : Expression → String
  | data _ => "DataLeaf"
  | scalar _ => "ScalarLeaf"
  | unary op _ => "UnaryOp " ++ op.name
  | binary op _ _ => "BinaryOp " ++ op.name
  | assign _ _ _ => "AssignOp"

end Expression

namespace NodeStatus

/-- The nodes below a node — none, once it is cached. -/
def children : NodeStatus → List NodeId
  | deferred e => e.children
  | cached _ => []

/-- Whether the node has been forced. -/
def isCached : NodeStatus → Bool
  | deferred _ => false
  | cached _ => true

/-- The name of the kind of a node. -/
def kind : NodeStatus → String
  | deferred e => e.kind
  | cached (.array _) => "Cached array"
  | cached (.scalar _) => "Cached scalar"

end NodeStatus

/-! ## The heap -/

/-- All nodes and buffers, in order of creation. -/
structure Heap where
  /-- The contents of the buffers. -/
  buffers : Array Tensor
  /-- The nodes. -/
  cells : Array Cell

namespace Heap

/-- The heap without nodes and buffers. -/
def empty : Heap := ⟨#[], #[]⟩

instance : Inhabited Heap := ⟨empty⟩

/-- A node. -/
def cell? (h : Heap) (id : NodeId) : Option Cell := h.cells[id]?

/-- The state of a node. -/
def state? (h : Heap) (id : NodeId) : Option NodeStatus := (h.cell? id).map (·.state)

/-- The contents of a buffer. -/
def buffer? (h : Heap) (b : BufferId) : Option Tensor := h.buffers[b]?

/-- The number of handles on a node. -/
def owners (h : Heap) (id : NodeId) : Nat := ((h.cell? id).map (·.owners)).getD 0

/-- The number of times a node was read. -/
def reads (h : Heap) (id : NodeId) : Nat := ((h.cell? id).map (·.reads)).getD 0

/-- Whether a handle is on a node. -/
def isOwned (h : Heap) (id : NodeId) : Bool := 0 < h.owners id

/-- Every deferred node refers to earlier nodes only. -/
def Ordered (h : Heap) : Prop :=
  ∀ id s, h.state? id = some s → ∀ c ∈ s.children, c < id

/-! ## Updates -/

/-- A new buffer. -/
def addBuffer (h : Heap) (a : Tensor) : BufferId × Heap :=
  (h.buffers.size, { h with buffers := h.buffers.push a })

/-- A new deferred node. -/
def addNode (h : Heap) (e : Expression) : NodeId × Heap :=
  (h.cells.size, { h with cells := h.cells.push ⟨.deferred e, 0, 0⟩ })

/-- The heap with the contents of a buffer replaced. -/
def setBuffer (h : Heap) (b : BufferId) (a : Tensor) : Heap :=
  { h with buffers := h.buffers.setIfInBounds b a }

/-- The heap with a node changed. -/
def modifyCell (h : Heap) (id : NodeId) (f : Cell → Cell) : Heap :=
  { h with cells := h.cells.modify id f }

/-- One more read of a node. -/
def countRead (h : Heap) (id : NodeId) : Heap :=
  h.modifyCell id fun c => { c with reads := c.reads + 1 }

/-- A node with its value in the place of its expression. -/
def cache (h : Heap) (id : NodeId) (v : Value) : Heap :=
  h.modifyCell id fun c => { c with state := .cached v }

/-- One more handle on a node. -/
def acquire (h : Heap) (id : NodeId) : Heap :=
  h.modifyCell id fun c => { c with owners := c.owners + 1 }

/-- One handle less on a node. -/
def release (h : Heap) (id : NodeId) : Heap :=
  h.modifyCell id fun c => { c with owners := c.owners - 1 }

/-! ## What updates change -/

/-- New buffers and nodes are numbered in order. -/
@[simp] theorem fst_addBuffer (h : Heap) (a : Tensor) : (h.addBuffer a).1 = h.buffers.size := rfl
@[simp] theorem fst_addNode (h : Heap) (e : Expression) : (h.addNode e).1 = h.cells.size := rfl

/-- A new buffer changes no node … -/
@[simp] theorem cell?_addBuffer (h : Heap) (a : Tensor) (id : NodeId) :
    (h.addBuffer a).2.cell? id = h.cell? id := rfl

/-- … and a new node no buffer. -/
@[simp] theorem buffer?_addNode (h : Heap) (e : Expression) (b : BufferId) :
    (h.addNode e).2.buffer? b = h.buffer? b := rfl

/-- Nor does a write change nodes … -/
@[simp] theorem cell?_setBuffer (h : Heap) (b : BufferId) (a : Tensor) (id : NodeId) :
    (h.setBuffer b a).cell? id = h.cell? id := rfl

/-- … or a change of a node buffers. -/
@[simp] theorem buffer?_modifyCell (h : Heap) (id : NodeId) (f : Cell → Cell) (b : BufferId) :
    (h.modifyCell id f).buffer? b = h.buffer? b := rfl

/-- A new buffer holds its array, and those before it what they held. -/
theorem buffer?_addBuffer (h : Heap) (a : Tensor) (b : BufferId) :
    (h.addBuffer a).2.buffer? b = if b = h.buffers.size then some a else h.buffer? b := by
  simp [addBuffer, buffer?, Array.getElem?_push]

theorem buffer?_addBuffer_of_lt {h : Heap} {a : Tensor} {b : BufferId} (hb : b < h.buffers.size) :
    (h.addBuffer a).2.buffer? b = h.buffer? b := by
  rw [buffer?_addBuffer, if_neg (Nat.ne_of_lt hb)]

/-- A new node is deferred, unread and without handles; those before it stay as they are. -/
theorem cell?_addNode (h : Heap) (e : Expression) (id : NodeId) :
    (h.addNode e).2.cell? id =
      if id = h.cells.size then some ⟨.deferred e, 0, 0⟩ else h.cell? id := by
  simp [addNode, cell?, Array.getElem?_push]

theorem cell?_addNode_of_lt {h : Heap} {e : Expression} {id : NodeId} (hid : id < h.cells.size) :
    (h.addNode e).2.cell? id = h.cell? id := by
  rw [cell?_addNode, if_neg (Nat.ne_of_lt hid)]

/-- A change of a node is one of no other node. -/
theorem cell?_modifyCell (h : Heap) (id : NodeId) (f : Cell → Cell) (i : NodeId) :
    (h.modifyCell id f).cell? i = if id = i then (h.cell? i).map f else h.cell? i := by
  simp [modifyCell, cell?, Array.getElem?_modify]

/-- So the other nodes stay as they are. -/
theorem cell?_modifyCell_of_ne {h : Heap} {id : NodeId} {f : Cell → Cell} {i : NodeId}
    (hne : id ≠ i) : (h.modifyCell id f).cell? i = h.cell? i := by
  rw [cell?_modifyCell, if_neg hne]

/-- A write to a buffer is one to no other buffer. -/
theorem buffer?_setBuffer (h : Heap) (b : BufferId) (a : Tensor) (i : BufferId) :
    (h.setBuffer b a).buffer? i = if b = i then (h.buffer? i).map fun _ => a else h.buffer? i := by
  simp only [setBuffer, buffer?, Array.getElem?_setIfInBounds]
  split
  · subst_vars
    split
    · simp_all
    · simp_all
  · rfl

theorem buffer?_setBuffer_of_ne {h : Heap} {b : BufferId} {a : Tensor} {i : BufferId}
    (hne : b ≠ i) : (h.setBuffer b a).buffer? i = h.buffer? i := by
  rw [buffer?_setBuffer, if_neg hne]

end Heap

end DeferredArrays
