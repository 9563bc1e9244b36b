/-!
# Kernel/Settings — the settings of a compiler

How much a compiler optimises does not change any result; the level is read, kept and written.
-/

namespace DeferredArrays.Kernel

/-- How much a compiler optimises. -/
inductive Optimization where
  | none
  | speed
  | speedAndSize
  deriving DecidableEq, Repr

namespace Optimization

/-- The name of a level. -/
def name : Optimization → String
  | none => "none"
  | speed => "speed"
  | speedAndSize => "speed_and_size"

/-- All levels. -/
def all : List Optimization := [none, speed, speedAndSize]

/-- The level of a given name. -/
def ofName? (s : String) : Option Optimization := all.find? (·.name == s)

@[simp] theorem ofName?_name (l : Optimization) : ofName? l.name = some l := by
  cases l <;> decide

end Optimization

/-- The settings of a compiler. -/
structure Settings where
  /-- How much it optimises. -/
  optimization : Optimization := .speed
  deriving DecidableEq, Repr

instance : Inhabited Settings := ⟨⟨.speed⟩⟩

end DeferredArrays.Kernel
