import DeferredArrays.Json.Basic
import DeferredArrays.Json.Token

/-!
# Json/Reading — from tokens to a document

A document is read off the front of a sequence of tokens; the whole text must be used up.  Lists and
objects may nest to any depth.  Reading a value, an item or a member is one step, and there are no
more than two steps for each token, which bounds the recursion.
-/

namespace DeferredArrays.Json

mutual

/-- Reads one value from the front, in at most `limit` nested steps. -/
def readValue : Nat → List Token → Option (Json × List Token)
  | _, .null :: ts => some (null, ts)
  | _, .bool b :: ts => some (bool b, ts)
  | _, .number n :: ts => some (number n, ts)
  | _, .text s :: ts => some (text s, ts)
  | _, .openBracket :: .closeBracket :: ts => some (array [], ts)
  | limit + 1, .openBracket :: ts => do
    let (xs, left) ← readItems limit ts
    return (array xs, left)
  | _, .openBrace :: .closeBrace :: ts => some (object [], ts)
  | limit + 1, .openBrace :: ts => do
    let (ms, left) ← readMembers limit ts
    return (object ms, left)
  | _, _ => none

/-- Reads one or more items and the closing bracket. -/
def readItems : Nat → List Token → Option (List Json × List Token)
  | 0, _ => none
  | limit + 1, ts => do
    let (x, left) ← readValue limit ts
    match left with
    | .comma :: left => do
      let (xs, left) ← readItems limit left
      return (x :: xs, left)
    | .closeBracket :: left => return ([x], left)
    | _ => none

/-- Reads one or more members and the closing brace. -/
def readMembers : Nat → List Token → Option (List (Option String × Json) × List Token)
  | limit + 1, .text key :: .colon :: ts => do
    let (x, left) ← readValue limit ts
    match left with
    | .comma :: left => do
      let (ms, left) ← readMembers limit left
      return ((key, x) :: ms, left)
    | .closeBrace :: left => return ([(key, x)], left)
    | _ => none
  | _, _ => none

end

/-- The document of a sequence of tokens, if they are exactly one. -/
def ofTokens? (ts : List Token) : Option Json :=
  match readValue (2 * ts.length) ts with
  | some (x, []) => some x
  | _ => none

/-- **The document of a text**, if it is one. -/
def ofText? (cs : List Char) : Option Json := do ofTokens? (← Token.ofText? cs)

end DeferredArrays.Json
