import DeferredArrays.Graph.Fusion
import DeferredArrays.Tensor.Text

/-!
# Session/Command — what a session can be asked, and what it answers

A session works on names: handles, nodes, buffers and fused kernels each have a table of their own.
A command refers to its operands by name or brings them along as literals.  Passing a handle **by
value** removes its name, so that the handle ends with the command.
-/

namespace DeferredArrays.Session

/-! ## Operands -/

/-- An array as it is written down: its elements, and its dimensions unless it is a vector. -/
structure ArrayForm where
  /-- The dimensions, if given. -/
  dims : Option (List Nat)
  /-- The elements. -/
  elements : Elements
  deriving DecidableEq

/-- The array that a form describes. -/
def ArrayForm.toTensor (f : ArrayForm) : Except TensorError Tensor :=
  match f.dims with
  | none => .ok (Tensor.ofElements f.elements)
  | some ds => Tensor.ofShape ⟨ds⟩ f.elements

/-- A node, by the name of a handle on it or by its own. -/
inductive Ref where
  | handle (name : String)
  | node (name : String)
  deriving DecidableEq

/-- An operand of an expression. -/
inductive Operand where
  /-- A node that exists. -/
  | ref (r : Ref)
  /-- A handle passed by value. -/
  | own (handle : String)
  /-- A constant, which becomes a node of its own. -/
  | literal (s : Scalar)
  deriving DecidableEq

/-- The key of an index assignment. -/
inductive KeyOperand where
  | position (index : Int64)
  | ref (r : Ref)
  /-- A handle passed by value. -/
  | own (handle : String)
  deriving DecidableEq

/-- An expression as it is written down. -/
inductive ExpressionForm where
  /-- An array in a new buffer. -/
  | data (a : ArrayForm)
  /-- The array in a named buffer. -/
  | buffer (name : String)
  | scalar (s : Scalar)
  | unary (op : UnaryOp) (x : Operand)
  | binary (op : BinaryOp) (x y : Operand)
  | assign (base : Operand) (key : KeyOperand) (value : Operand)
  deriving DecidableEq

/-! ## Commands -/

/-- A request to a session.  What it makes is kept under the name `bind`. -/
inductive Command where
  /-- Makes a buffer. -/
  | newBuffer (bind : String) (a : ArrayForm)
  /-- Shows a buffer. -/
  | showBuffer (buffer : String)
  /-- Writes to a buffer. -/
  | writeBuffer (buffer : String) (key : Selection) (value : ArrayForm)
  /-- Makes a handle on a new leaf with a buffer of its own. -/
  | newData (bind : String) (a : ArrayForm)
  /-- Makes a handle on a new leaf over a named buffer. -/
  | newShared (bind : String) (buffer : String)
  /-- Makes a handle on a new constant. -/
  | newScalar (bind : String) (s : Scalar)
  /-- Makes a handle on an operator over the node of a handle, which may be passed by value. -/
  | unary (bind : String) (op : UnaryOp) (x : String) (own : Bool)
  /-- Makes a handle on an operator over the node of a handle, which may be passed by value, and an
  operand. -/
  | binary (bind : String) (op : BinaryOp) (x : String) (own : Bool) (y : Operand)
  /-- Moves a handle to an assignment into what it was on. -/
  | indexSet (handle : String) (key : KeyOperand) (value : Operand)
  /-- Makes a second handle on the node of a handle. -/
  | clone (bind : String) (handle : String)
  /-- Ends a handle. -/
  | drop (handle : String)
  /-- Names a node. -/
  | nameNode (bind : String) (x : Ref)
  /-- Makes a node without a handle. -/
  | newNode (bind : String) (e : ExpressionForm)
  /-- Makes a handle on a named node. -/
  | wrap (bind : String) (node : String)
  /-- Evaluates an expression without a node for it. -/
  | evaluate (e : ExpressionForm)
  /-- Reads a node. -/
  | read (x : Ref)
  /-- Forces a node. -/
  | force (x : Ref)
  /-- Forces the node of a handle and takes its value as a key. -/
  | toKey (handle : String)
  /-- Forces the node of a handle and takes its value as an array. -/
  | toTensor (handle : String)
  /-- Forces the node of a handle and sums the elements. -/
  | sum (handle : String)
  /-- Draws the graph of a node. -/
  | diagram (x : Ref)
  /-- Writes the graph of a node as a kernel. -/
  | generate (x : Ref)
  /-- Compiles the graph of the node of a handle. -/
  | fuse (bind : String) (handle : String) (compiler : Kernel.Compiler)
  /-- Runs a fused kernel. -/
  | run (kernel : String)
  /-- Describes a node. -/
  | describe (x : Ref)
  /-- Describes a node in one line. -/
  | summarize (x : Ref)
  /-- Finds and forces one node, then another, and tells whether they have the same buffer. -/
  | sameBuffer (x y : Ref)
  /-- Lists all handles, nodes and buffers. -/
  | state

/-! ## Answers -/

/-- What is known of a node. -/
structure NodeInfo where
  /-- The number of the node. -/
  id : NodeId
  /-- The kind of expression or value it holds. -/
  kind : String
  /-- The number of handles on it. -/
  owners : Nat
  /-- Whether it has been forced. -/
  cached : Bool
  /-- The number of times it was read. -/
  reads : Nat
  deriving DecidableEq

/-- A value, copied out of the heap. -/
inductive Content where
  | array (a : Tensor)
  | scalar (s : Scalar)
  deriving DecidableEq

namespace Content

/-- The type of a value. -/
def elemType : Content → ElemType
  | array a => a.elemType
  | scalar s => s.elemType

/-- How a value is shown. -/
def text : Content → String
  | array a => a.text
  | scalar s => s.text

end Content

/-- All that can be seen of a session. -/
structure Overview where
  /-- The nodes that handles are on. -/
  handles : List (String × NodeInfo)
  /-- The named nodes. -/
  nodes : List (String × NodeInfo)
  /-- The named buffers. -/
  buffers : List (String × Tensor)
  deriving DecidableEq

/-- The answer to a command. -/
inductive Answer where
  | done
  | tensor (a : Tensor)
  | scalar (s : Scalar)
  | key (k : Selection)
  | value (c : Content)
  | text (s : String)
  | info (i : NodeInfo)
  /-- A kernel as text, with the arrays in its buffers. -/
  | generated (source : Kernel.Source) (arguments : List Tensor)
  /-- A fused kernel as text, with its number of inputs and the type of its results. -/
  | fused (source : Kernel.Source) (inputs : Nat) (output : ElemType)
  /-- Whether two arrays have the same buffer; nothing, unless both are arrays. -/
  | same (b : Option Bool)
  | overview (o : Overview)
  deriving DecidableEq

/-- Why a command fails. -/
inductive Failure where
  /-- A name is not in its table. -/
  | noSuchName (name : String)
  | error (e : Error)
  deriving DecidableEq

end DeferredArrays.Session
