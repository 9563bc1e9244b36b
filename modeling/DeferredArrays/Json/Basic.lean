/-!
# Json/Basic — JSON documents, and records within them

A document keeps what a reader may need and nothing else: numbers keep their spelling, objects the
order and multiplicity of their members.  A string is a text, or — where escapes leave a surrogate
without its partner — no text at all: such a string is well formed and may be skipped, but it cannot
be read (`none`).

Records are read by rules of their own (`record?`): a record is an object with known members, or a
list of their values in order; an unknown member is skipped and a repeated one refused.
-/

namespace DeferredArrays

/-- A JSON document. -/
inductive Json where
  | null
  | bool (b : Bool)
  | number (spelling : List Char)
  | text (s : Option String)
  | array (items : List Json)
  | object (members : List (Option String × Json))

namespace Json

/-- The text of a string. -/
def text? : Json → Option String
  | text s => s
  | _ => none

/-- The items of a list. -/
def items? : Json → Option (List Json)
  | array xs => some xs
  | _ => none

/-- The member of a name that occurs at most once — `none` if it is repeated, `some none` if it is
missing. -/
def atMostOnce? (name : String) : List (Option String × Json) → Option (Option Json)
  | [] => some none
  | (key, value) :: rest => do
    let later ← atMostOnce? name rest
    if key = some name then
      match later with
      | none => some (some value)
      | some _ => none
    else some later

/-- The values of a record, one for each of its field names, where missing fields have none. -/
def record? (names : List String) : Json → Option (List (Option Json))
  | object members =>
    if members.all fun m => m.1.isSome then names.mapM fun name => atMostOnce? name members
    else none
  | array items =>
    if items.length ≤ names.length then
      some (items.map some ++ List.replicate (names.length - items.length) none)
    else none
  | _ => none

/-- The name of a choice without content: a string, or an object whose one member holds `null`. -/
def choice? : Json → Option String
  | text s => s
  | object [(key, null)] => key
  | _ => none

end Json

end DeferredArrays
