import DeferredArrays.Graph.Heap

/-!
# Graph/Evaluation — computing the value of a node

A node is visited in one of two ways.  **Reading** it computes its value and leaves it deferred;
**forcing** it also keeps the value, so that it is computed at most once.  Operands, keys and
assigned values are read, while the base of an index assignment is forced: that fixes the one buffer
every later assignment on the same base writes into.

An assignment writes in place and its value is the buffer it wrote to.  Whatever was cached, counted
or written before an error stays so: an evaluation returns the heap it got to, whether it succeeds
or not.

`visit` recurses on a bound for the depth of the graph; nodes refer to earlier nodes, so the node's
own number is one (`Eval.force`, `Eval.read`).
-/

namespace DeferredArrays

/-- A computation on a heap, which may fail and keeps its effects when it does. -/
abbrev Eval := EStateM Error Heap

/-- How a node is visited. -/
inductive Demand where
  | read
  | force
  deriving DecidableEq

namespace Eval

/-- The outcome of an array operation. -/
def lift {α : Type} (r : Except TensorError α) : Eval α :=
  match r with
  | .ok a => pure a
  | .error e => throw (.tensor e)

/-- The state of a node. -/
def state (id : NodeId) : Eval NodeStatus := do
  match (← get).state? id with
  | some s => pure s
  | none => throw (.dangling (.node id))

/-- The contents of a buffer. -/
def buffer (b : BufferId) : Eval Tensor := do
  match (← get).buffer? b with
  | some a => pure a
  | none => throw (.dangling (.buffer b))

/-- A value as an array — a scalar as one of rank zero. -/
def view : Value → Eval Tensor
  | .array b => buffer b
  | .scalar s => pure (.ofScalar s)

/-- An array as a value — one of rank zero as a scalar, any other in a new buffer. -/
def store (a : Tensor) : Eval Value := do
  match a.toScalar? with
  | some s => pure (.scalar s)
  | none => do
    let (b, h) := (← get).addBuffer a
    set h
    pure (.array b)

/-- A value as a key. -/
def key (v : Value) : Eval Selection := do lift (Selection.ofTensor (← view v))

/-- Counts a visit of a node. -/
def countRead (id : NodeId) : Eval Unit := modify (·.countRead id)

/-- Writes to the elements of a buffer that a key selects. -/
def write (b : BufferId) (k : Selection) (a : Tensor) : Eval Unit := do
  let target ← buffer b
  let result ← lift (target.set k a)
  modify (·.setBuffer b result)

/-- The buffer an assignment writes to, given the value of its base. -/
def target (base : NodeId) : Value → Eval BufferId
  | .array b => pure b
  | .scalar _ => throw (.graph (.scalarAssignBase base))

end Eval

open Eval

/-! ## Expressions -/

/-- The key of an assignment, given how nodes are read. -/
def AssignKey.evaluate (read : NodeId → Eval Value) : AssignKey → Eval Selection
  | position i => pure (.position i)
  | node id => do key (← read id)

/-- The value of an expression, given how nodes are visited.  Operands are evaluated from left to
right; an assignment evaluates its base, its key and its value, and then writes. -/
def Expression.evaluate (visit : Demand → NodeId → Eval Value) : Expression → Eval Value
  | data b => pure (.array b)
  | scalar s => pure (.scalar s)
  | unary op x => do
    let x ← visit .read x
    store (← lift ((← view x).unary op))
  | binary op x y => do
    let x ← visit .read x
    let y ← visit .read y
    let a ← view x
    let b ← view y
    store (← lift (a.binary op b))
  | assign base k value => do
    let b ← target base (← visit .force base)
    let k ← k.evaluate (visit .read)
    let a ← view (← visit .read value)
    write b k a
    pure (.array b)

/-! ## Nodes -/

/-- **Visits a node** whose graph is less than `depth` deep.  Forcing a cached node is free, reading
it is counted. -/
def visit : Nat → Demand → NodeId → Eval Value
  | 0, _, id => throw (.dangling (.node id))
  | depth + 1, demand, id => do
    match ← state id with
    | .cached v =>
      match demand with
      | .force => pure v
      | .read => do
        countRead id
        pure v
    | .deferred e => do
      countRead id
      let v ← e.evaluate (visit depth)
      match demand with
      | .force => do
        modify (·.cache id v)
        pure v
      | .read => pure v

namespace Eval

/-- **Forces a node.** -/
def force (id : NodeId) : Eval Value := visit (id + 1) .force id

/-- **Reads a node.** -/
def read (id : NodeId) : Eval Value := visit (id + 1) .read id

/-- The value of an expression that no node holds. -/
def evaluate (e : Expression) : Eval Value := do
  e.evaluate (visit (← get).cells.size)

end Eval

end DeferredArrays
