/-!
# Json/Token — the tokens of JSON text and how they are spelled

A JSON text is a sequence of tokens with white space between them.  `Token.spell` writes a token and
`Token.ofText?` splits a text into its tokens.

Strings take two steps.  Their characters and escapes are first read as **pieces**, a piece being a
character or a 16-bit unit given by number; then units that are surrogates are paired up
(`joinUnits`).
-/

namespace DeferredArrays.Json

/-- A token of JSON text.  A string without a text has an unpaired surrogate. -/
inductive Token where
  | openBrace
  | closeBrace
  | openBracket
  | closeBracket
  | comma
  | colon
  | null
  | bool (b : Bool)
  | number (spelling : List Char)
  | text (s : Option String)
  deriving DecidableEq

namespace Token

/-! ## Strings -/

/-- A piece of a string: a character, or a 16-bit unit given by its number. -/
inductive Piece where
  | char (c : Char)
  | unit (n : Nat)
  deriving DecidableEq

/-- The value of a hexadecimal digit. -/
def hexValue? (c : Char) : Option Nat :=
  if c.isDigit then some (c.toNat - '0'.toNat)
  else if 'a' ≤ c ∧ c ≤ 'f' then some (c.toNat - 'a'.toNat + 10)
  else if 'A' ≤ c ∧ c ≤ 'F' then some (c.toNat - 'A'.toNat + 10)
  else none

/-- The number that four hexadecimal digits spell. -/
def unit? (a b c d : Char) : Option Nat := do
  let a ← hexValue? a
  let b ← hexValue? b
  let c ← hexValue? c
  let d ← hexValue? d
  return ((a * 16 + b) * 16 + c) * 16 + d

/-- The character that a one-letter escape stands for. -/
def escaped? : Char → Option Char
  | '"' => some '"'
  | '\\' => some '\\'
  | '/' => some '/'
  | 'b' => some '\x08'
  | 'f' => some '\x0c'
  | 'n' => some '\n'
  | 'r' => some '\r'
  | 't' => some '\t'
  | _ => none

/-- The pieces of a string, from behind the opening quote, and what follows the closing one. -/
def pieces? : List Char → Option (List Piece × List Char)
  | [] => none
  | '"' :: rest => some ([], rest)
  | '\\' :: 'u' :: a :: b :: c :: d :: rest => do
    let n ← unit? a b c d
    let (ps, left) ← pieces? rest
    return (.unit n :: ps, left)
  | '\\' :: e :: rest => do
    let c ← escaped? e
    let (ps, left) ← pieces? rest
    return (.char c :: ps, left)
  | c :: rest =>
    if c = '\\' ∨ c.toNat < 0x20 then none
    else do
      let (ps, left) ← pieces? rest
      return (.char c :: ps, left)

/-- Whether a unit is the first half of a pair. -/
def isHighSurrogate (n : Nat) : Bool := 0xd800 ≤ n && n < 0xdc00

/-- Whether a unit is the second half of a pair. -/
def isLowSurrogate (n : Nat) : Bool := 0xdc00 ≤ n && n < 0xe000

/-- The text that pieces make up — none if a surrogate is left without its partner. -/
def joinUnits : List Piece → Option (List Char)
  | [] => some []
  | .char c :: ps => (joinUnits ps).map (c :: ·)
  | .unit n :: .unit m :: ps =>
    if isHighSurrogate n then
      if isLowSurrogate m then
        (joinUnits ps).map (Char.ofNat (0x10000 + (n - 0xd800) * 0x400 + (m - 0xdc00)) :: ·)
      else none
    else if isLowSurrogate n then none
    else (joinUnits (.unit m :: ps)).map (Char.ofNat n :: ·)
  | .unit n :: ps =>
    if isHighSurrogate n || isLowSurrogate n then none
    else (joinUnits ps).map (Char.ofNat n :: ·)

/-! ## Numbers -/

/-- Splits off at least one digit. -/
def digits? (cs : List Char) : Option (List Char × List Char) :=
  match cs.takeWhile Char.isDigit with
  | [] => none
  | ds => some (ds, cs.dropWhile Char.isDigit)

/-- Splits off the whole part of a number — a leading zero stands alone. -/
def whole? : List Char → Option (List Char × List Char)
  | '0' :: rest => some (['0'], rest)
  | cs => digits? cs

/-- Splits off the digits after a point, if there is one. -/
def fraction? : List Char → Option (List Char × List Char)
  | '.' :: rest => do
    let (ds, left) ← digits? rest
    return ('.' :: ds, left)
  | cs => some ([], cs)

/-- Splits off an exponent, if there is one. -/
def exponent? : List Char → Option (List Char × List Char)
  | c :: rest =>
    if c = 'e' ∨ c = 'E' then
      match rest with
      | s :: rest' =>
        if s = '+' ∨ s = '-' then do
          let (ds, left) ← digits? rest'
          return (c :: s :: ds, left)
        else do
          let (ds, left) ← digits? rest
          return (c :: ds, left)
      | [] => none
    else some ([], c :: rest)
  | [] => some ([], [])

/-- Splits off a number without its sign. -/
def unsigned? (cs : List Char) : Option (List Char × List Char) := do
  let (w, cs) ← whole? cs
  let (f, cs) ← fraction? cs
  let (e, cs) ← exponent? cs
  return (w ++ f ++ e, cs)

/-- Splits off a number. -/
def number? : List Char → Option (List Char × List Char)
  | '-' :: rest => do
    let (n, left) ← unsigned? rest
    return ('-' :: n, left)
  | cs => unsigned? cs

/-! ## Tokens -/

/-- White space between tokens. -/
def isBlank (c : Char) : Bool := c == ' ' || c == '\t' || c == '\n' || c == '\r'

/-- Splits off the token at the front of a text. -/
def next? : List Char → Option (Token × List Char)
  | '{' :: rest => some (openBrace, rest)
  | '}' :: rest => some (closeBrace, rest)
  | '[' :: rest => some (openBracket, rest)
  | ']' :: rest => some (closeBracket, rest)
  | ',' :: rest => some (comma, rest)
  | ':' :: rest => some (colon, rest)
  | 'n' :: 'u' :: 'l' :: 'l' :: rest => some (null, rest)
  | 't' :: 'r' :: 'u' :: 'e' :: rest => some (bool true, rest)
  | 'f' :: 'a' :: 'l' :: 's' :: 'e' :: rest => some (bool false, rest)
  | '"' :: rest => do
    let (ps, left) ← pieces? rest
    return (text ((joinUnits ps).map String.ofList), left)
  | cs => do
    let (n, left) ← number? cs
    return (number n, left)

/-- **The tokens of a text.**  Every token takes at least one character, so there are no more tokens
than characters: `limit` bounds their number. -/
def split? : Nat → List Char → Option (List Token)
  | _, [] => some []
  | 0, _ :: _ => none
  | limit + 1, c :: cs =>
    if isBlank c then split? limit cs
    else do
      let (t, left) ← next? (c :: cs)
      return t :: (← split? limit left)

/-- The tokens of a text. -/
def ofText? (cs : List Char) : Option (List Token) := split? cs.length cs

/-! ## Spelling -/

/-- The hexadecimal digit of a value below 16. -/
def hexDigit (n : Nat) : Char := if n < 10 then Char.ofNat (48 + n) else Char.ofNat (87 + n)

/-- How a character is written within a string: quotes, backslashes and control characters are
escaped, and every other character stands for itself. -/
def escape (c : Char) : List Char :=
  if c = '"' then ['\\', '"']
  else if c = '\\' then ['\\', '\\']
  else if c = '\x08' then ['\\', 'b']
  else if c = '\x0c' then ['\\', 'f']
  else if c = '\n' then ['\\', 'n']
  else if c = '\r' then ['\\', 'r']
  else if c = '\t' then ['\\', 't']
  else if c.toNat < 0x20 then
    ['\\', 'u', '0', '0', hexDigit (c.toNat / 16), hexDigit (c.toNat % 16)]
  else [c]

/-- A text as a JSON string. -/
def quote (cs : List Char) : List Char := '"' :: cs.flatMap escape ++ ['"']

/-- The spelling of a token.  A string without a text is spelled as an unpaired surrogate. -/
def spell : Token → List Char
  | openBrace => ['{']
  | closeBrace => ['}']
  | openBracket => ['[']
  | closeBracket => [']']
  | comma => [',']
  | colon => [':']
  | null => ['n', 'u', 'l', 'l']
  | bool true => ['t', 'r', 'u', 'e']
  | bool false => ['f', 'a', 'l', 's', 'e']
  | number n => n
  | text (some s) => quote s.toList
  | text none => ['"', '\\', 'u', 'd', '8', '0', '0', '"']

end Token

end DeferredArrays.Json
