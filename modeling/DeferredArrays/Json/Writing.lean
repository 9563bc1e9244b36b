import DeferredArrays.Json.Basic
import DeferredArrays.Json.Token

/-!
# Json/Writing — the compact text of a document

A document is written as its tokens, without white space between them.
-/

namespace DeferredArrays.Json

mutual

/-- The tokens of a document. -/
def tokens : Json → List Token
  | null => [.null]
  | bool b => [.bool b]
  | number n => [.number n]
  | text s => [.text s]
  | array xs => .openBracket :: itemTokens xs
  | object ms => .openBrace :: memberTokens ms

/-- The tokens of the items of a list, with the closing bracket. -/
def itemTokens : List Json → List Token
  | [] => [.closeBracket]
  | x :: xs => tokens x ++ moreItemTokens xs

/-- The tokens of the items after the first, with the closing bracket. -/
def moreItemTokens : List Json → List Token
  | [] => [.closeBracket]
  | x :: xs => .comma :: (tokens x ++ moreItemTokens xs)

/-- The tokens of the members of an object, with the closing brace. -/
def memberTokens : List (Option String × Json) → List Token
  | [] => [.closeBrace]
  | (key, x) :: ms => .text key :: .colon :: (tokens x ++ moreMemberTokens ms)

/-- The tokens of the members after the first, with the closing brace. -/
def moreMemberTokens : List (Option String × Json) → List Token
  | [] => [.closeBrace]
  | (key, x) :: ms => .comma :: .text key :: .colon :: (tokens x ++ moreMemberTokens ms)

end

/-- The characters of a sequence of tokens. -/
def spellAll (ts : List Token) : List Char := ts.flatMap Token.spell

/-- **The text of a document.** -/
def toText (x : Json) : String := String.ofList (spellAll x.tokens)

end DeferredArrays.Json
