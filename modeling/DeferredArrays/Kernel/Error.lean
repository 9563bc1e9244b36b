import DeferredArrays.ElemType
import DeferredArrays.Shape

/-!
# Kernel/Error — what can go wrong with a kernel

A kernel is refused while its text is read, while its body is typed, by the code generator, or when
it is called.  A fault of the text itself is reported with the place where it was found, counted in
bytes of UTF-8.
-/

namespace DeferredArrays

/-- The faults of a text that is not a kernel body. -/
inductive TextFault where
  /-- The text ends where an expression should start. -/
  | endOfInput
  /-- No expression starts with this character. -/
  | unexpected (c : Char)
  /-- What looks like a number is not one. -/
  | invalidNumber (literal : List Char)
  /-- An argument is followed by neither a comma nor a closing parenthesis. -/
  | unseparated
  /-- The body is followed by something else. -/
  | trailing
  deriving DecidableEq

namespace TextFault

/-- The wording of a fault. -/
def message : TextFault → String
  | endOfInput => "unexpected end of input"
  | unexpected c => "unexpected character `" ++ String.singleton c ++ "`"
  | invalidNumber literal => "invalid number `" ++ String.ofList literal ++ "`"
  | unseparated => "expected `,` or `)`"
  | trailing => "trailing input"

end TextFault

/-- The causes for which a kernel, or a call of one, is refused. -/
inductive KernelError where
  /-- The text has a fault at a byte offset. -/
  | parse (offset : Nat) (fault : TextFault)
  /-- A name is neither a parameter nor a constant. -/
  | unknownVariable (name : String)
  /-- A called name is no operator. -/
  | unknownOp (name : String)
  /-- An operator is called with the wrong number of arguments. -/
  | arity (op : String) (expected got : Nat)
  /-- The operator does not act element by element. -/
  | unsupportedOp (op : String)
  /-- The operator cannot be compiled at this type. -/
  | unsupportedType (op : String) (t : ElemType)
  /-- The code generator does not take the code. -/
  | codegen (reason : String)
  /-- A call has the wrong number of inputs. -/
  | inputCount (expected got : Nat)
  /-- An input of a call has the wrong type. -/
  | inputType (name : String) (expected got : ElemType)
  deriving DecidableEq

namespace KernelError

/-- The wording of an error. -/
def message : KernelError → String
  | parse offset fault => "parse error at offset " ++ offset.repr ++ ": " ++ fault.message
  | unknownVariable name => "unknown variable `" ++ name ++ "`"
  | unknownOp name => "unknown operation `" ++ name ++ "`"
  | arity op expected got =>
    "`" ++ op ++ "` takes " ++ expected.repr ++ " argument(s), got " ++ got.repr
  | unsupportedOp op => "operation `" ++ op ++ "` cannot be compiled"
  | unsupportedType op t => "operation `" ++ op ++ "` on " ++ t.name ++ " cannot be compiled"
  | codegen reason => "code generation failed: " ++ reason
  | inputCount expected got => "expected " ++ expected.repr ++ " inputs, got " ++ got.repr
  | inputType name expected got =>
    "input `" ++ name ++ "` must be " ++ expected.name ++ ", got " ++ got.name

end KernelError

end DeferredArrays
