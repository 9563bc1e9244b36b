/-!
# Operator — the operators of expressions and their names

The unary operators and all binary ones but `getItem` act element by element; `getItem` reads the
left operand at the key the right one evaluates to.  Names are what kernel text and diagrams use, and
no two operators share one (`UnaryOp.ofName?_name`, `BinaryOp.ofName?_name`).
-/

namespace DeferredArrays

/-- The operators on one operand. -/
inductive UnaryOp where
  | abs
  | log
  | neg
  deriving DecidableEq, Repr

/-- The operators on two operands. -/
inductive BinaryOp where
  | add
  | sub
  | mul
  | div
  | pow
  | le
  | getItem
  deriving DecidableEq, Repr

namespace UnaryOp

/-- The name of an operator. -/
def name : UnaryOp → String
  | abs => "abs"
  | log => "log"
  | neg => "neg"

/-- All unary operators. -/
def all : List UnaryOp := [abs, log, neg]

/-- The operator of a given name. -/
def ofName? (s : String) : Option UnaryOp := all.find? (·.name == s)

/-- An operator is found by its name. -/
@[simp] theorem ofName?_name (op : UnaryOp) : ofName? op.name = some op := by
  cases op <;> decide

end UnaryOp

namespace BinaryOp

/-- The name of an operator. -/
def name : BinaryOp → String
  | add => "add"
  | sub => "sub"
  | mul => "mul"
  | div => "div"
  | pow => "pow"
  | le => "le"
  | getItem => "getitem"

/-- All binary operators. -/
def all : List BinaryOp := [add, sub, mul, div, pow, le, getItem]

/-- The operator of a given name. -/
def ofName? (s : String) : Option BinaryOp := all.find? (·.name == s)

/-- An operator is found by its name. -/
@[simp] theorem ofName?_name (op : BinaryOp) : ofName? op.name = some op := by
  cases op <;> decide

end BinaryOp

end DeferredArrays
