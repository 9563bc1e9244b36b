import DeferredArrays.Json.Reading
import DeferredArrays.Json.Writing
import DeferredArrays.Kernel.Settings
import DeferredArrays.Kernel.Source

/-!
# Kernel/Json — kernels and settings as JSON

A source is a record of its parameters and its body, a parameter a record of its name and its type;
settings are a record whose one field may be left out.  Types and levels are choices, written by
name.
-/

namespace DeferredArrays.Kernel

/-! ## Writing -/

/-- A string of JSON. -/
def jsonText (s : String) : Json := .text (some s)

/-- A parameter as a document. -/
def Param.toJson (p : Param) : Json :=
  .object [(some "name", jsonText p.name), (some "dtype", jsonText p.elemType.name)]

/-- A source as a document. -/
def Source.toJson (s : Source) : Json :=
  .object [(some "params", .array (s.params.map Param.toJson)), (some "body", jsonText s.body)]

/-- Settings as a document. -/
def Settings.toJson (s : Settings) : Json :=
  .object [(some "opt_level", jsonText s.optimization.name)]

/-- The text of a source in JSON. -/
def Source.toJsonText (s : Source) : String := s.toJson.toText

/-- The text of settings in JSON. -/
def Settings.toJsonText (s : Settings) : String := s.toJson.toText

/-! ## Reading -/

/-- The parameter of a document. -/
def Param.ofJson? (x : Json) : Option Param := do
  match ← x.record? ["name", "dtype"] with
  | [some name, some type] =>
    return ⟨← name.text?, ← ElemType.ofName? (← type.choice?)⟩
  | _ => none

/-- The source of a document. -/
def Source.ofJson? (x : Json) : Option Source := do
  match ← x.record? ["params", "body"] with
  | [some params, some body] =>
    return ⟨← (← params.items?).mapM Param.ofJson?, ← body.text?⟩
  | _ => none

/-- The settings of a document — a missing level is the default one. -/
def Settings.ofJson? (x : Json) : Option Settings := do
  match ← x.record? ["opt_level"] with
  | [some level] => return ⟨← Optimization.ofName? (← level.choice?)⟩
  | [none] => return default
  | _ => none

/-- The source that a JSON text spells. -/
def Source.ofJsonText? (s : String) : Option Source := do Source.ofJson? (← Json.ofText? s.toList)

/-- The settings that a JSON text spells. -/
def Settings.ofJsonText? (s : String) : Option Settings := do
  Settings.ofJson? (← Json.ofText? s.toList)

end DeferredArrays.Kernel
