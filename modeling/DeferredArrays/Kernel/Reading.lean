import DeferredArrays.Decimal.Numeral
import DeferredArrays.Kernel.Body
import DeferredArrays.Text.CharClass

/-!
# Kernel/Reading — from the text of a body to its expression

A body is a number, a name, or a called name with its arguments in parentheses; white space may
stand around every token.  Numbers and names are taken as long as possible, and what a number
denotes is decided only then.

Reading consumes the text from the left.  Each step returns what it read together with the rest, and
a proof that the rest is shorter — which is why reading ends, and why an argument list that never
closes is an error instead of a loop.  A fault is reported with the rest at which it was found;
`offsetOf` turns that into a byte offset.
-/

namespace DeferredArrays.Kernel

open Text

/-! ## Tokens -/

/-- The text without its leading white space. -/
def skipBlank (cs : List Char) : List Char := cs.dropWhile isWhiteSpace

/-- Whether a number starts with this character. -/
def startsNumber (c : Char) : Bool := c.isDigit || c == '-' || c == '+' || c == '.'

/-- Whether a name starts with this character. -/
def startsName (c : Char) : Bool := isAlphabetic c || c == '_'

/-- Whether a name continues with this character. -/
def continuesName (c : Char) : Bool := isAlphanumeric c || c == '_'

/-- Whether a number continues with `c` after `prev` — a sign only at the start and after the mark of
an exponent. -/
def continuesNumber (prev : Option Char) (c : Char) : Bool :=
  c.isAlphanum || c == '.' ||
    ((c == '-' || c == '+') && (prev == none || prev == some 'e' || prev == some 'E'))

/-- The longest number at the front of a text, and the rest. -/
def splitNumber (prev : Option Char) : List Char → List Char × List Char
  | [] => ([], [])
  | c :: cs =>
    if continuesNumber prev c then
      let (number, rest) := splitNumber (some c) cs
      (c :: number, rest)
    else ([], c :: cs)

/-- What a number denotes: an integer if it spells one, and otherwise a float. -/
def literal? (cs : List Char) : Option Scalar :=
  (Numeral.int64? cs).map .int <|> (Numeral.float? cs).map .float

/-! ## Names -/

/-- The constants that have a name. -/
def constant? (name : String) : Option Scalar :=
  if name = "true" then some (.bool true)
  else if name = "false" then some (.bool false)
  else if name = "inf" then some (.float (Binary64.ofMagnitude false Binary64.infinite))
  else if name = "NaN" then some (.float Binary64.nan)
  else none

/-- Why a text was refused; a fault carries the rest at which it was found. -/
inductive Refusal where
  | fault (rest : List Char) (fault : TextFault)
  | unknownVariable (name : String)
  | unknownOp (name : String)
  | arity (op : String) (expected got : Nat)

/-- A bare name: a constant, or the first parameter of that name. -/
def atom (params : List Param) (name : String) : Except Refusal Body :=
  match constant? name with
  | some s => .ok (.const s)
  | none =>
    match params.findIdx? (·.name == name) with
    | some i => .ok (.param i)
    | none => .error (.unknownVariable name)

/-- A called name: an operator and as many arguments as it takes. -/
def application (name : String) (args : List Body) : Except Refusal Body :=
  match UnaryOp.ofName? name, BinaryOp.ofName? name with
  | some op, _ =>
    match args with
    | [x] => .ok (.unary op x)
    | _ => .error (.arity name 1 args.length)
  | none, some op =>
    match args with
    | [x, y] => .ok (.binary op x y)
    | _ => .error (.arity name 2 args.length)
  | none, none => .error (.unknownOp name)

/-! ## Lengths of what is left -/

/-- Skipping blanks leaves no more text. -/
theorem length_skipBlank_le (cs : List Char) : (skipBlank cs).length ≤ cs.length :=
  (List.dropWhile_sublist _).length_le

/-- A number is split off without loss. -/
theorem splitNumber_append (prev : Option Char) (cs : List Char) :
    (splitNumber prev cs).1 ++ (splitNumber prev cs).2 = cs := by
  induction cs generalizing prev with
  | nil => rfl
  | cons c cs ih =>
    rw [splitNumber]
    split
    · simpa using ih (some c)
    · rfl

/-- Splitting off a number leaves no more text … -/
theorem length_splitNumber_le (prev : Option Char) (cs : List Char) :
    (splitNumber prev cs).2.length ≤ cs.length := by
  have h := congrArg List.length (splitNumber_append prev cs)
  rw [List.length_append] at h
  omega

/-- What a number starts with, it can go on with at its start. -/
theorem continuesNumber_of_startsNumber {c : Char} (h : startsNumber c) :
    continuesNumber none c := by
  simp only [startsNumber, Bool.or_eq_true, beq_iff_eq] at h
  simp only [continuesNumber, Char.isAlphanum, Bool.or_eq_true, Bool.and_eq_true, beq_iff_eq]
  rcases h with ((h | h) | h) | h <;> simp [h]

/-- … and less if there is a number. -/
theorem length_splitNumber_lt {c : Char} (h : startsNumber c) (cs : List Char) :
    (splitNumber none (c :: cs)).2.length < (c :: cs).length := by
  rw [splitNumber, if_pos (continuesNumber_of_startsNumber h)]
  exact Nat.lt_succ_of_le (length_splitNumber_le _ cs)

theorem continuesName_of_startsName {c : Char} (h : startsName c) : continuesName c := by
  simp only [startsName, continuesName, isAlphanumeric, Bool.or_eq_true] at h ⊢
  rcases h with h | h <;> simp [h]

/-- Dropping a name leaves less text. -/
theorem length_dropName_lt {c : Char} (h : startsName c) (cs : List Char) :
    ((c :: cs).dropWhile continuesName).length < (c :: cs).length := by
  rw [List.dropWhile_cons, if_pos (continuesName_of_startsName h)]
  exact Nat.lt_succ_of_le (List.dropWhile_sublist _).length_le

/-! ## Expressions -/

/-- What a step reads from a text: a result and a rest that is shorter than the text. -/
abbrev Step (α : Type) (cs : List Char) : Type :=
  Except Refusal { r : α × List Char // r.2.length < cs.length }

mutual

/-- Reads one expression from the front of a text. -/
def readBody (params : List Param) (cs : List Char) : Step Body cs :=
  have hcs := length_skipBlank_le cs
  match hs : skipBlank cs with
  | [] => .error (.fault [] .endOfInput)
  | c :: rest =>
    if hn : startsNumber c then
      match literal? (splitNumber none (c :: rest)).1 with
      | some s =>
        .ok ⟨(.const s, (splitNumber none (c :: rest)).2), by
          have := length_splitNumber_lt hn rest
          rw [hs] at hcs
          exact Nat.lt_of_lt_of_le this hcs⟩
      | none => .error (.fault (c :: rest) (.invalidNumber (splitNumber none (c :: rest)).1))
    else if ha : startsName c then
      let name := String.ofList ((c :: rest).takeWhile continuesName)
      have hname : (skipBlank ((c :: rest).dropWhile continuesName)).length < cs.length := by
        have := length_dropName_lt ha rest
        have := length_skipBlank_le ((c :: rest).dropWhile continuesName)
        rw [hs] at hcs
        omega
      match ht : skipBlank ((c :: rest).dropWhile continuesName) with
      | '(' :: after =>
        have : after.length < cs.length := by
          rw [ht] at hname
          exact Nat.lt_of_succ_lt hname
        match readArguments params after with
        | .error e => .error e
        | .ok ⟨(args, left), hleft⟩ =>
          match application name args with
          | .error e => .error e
          | .ok body => .ok ⟨(body, left), Nat.lt_trans hleft this⟩
      | after =>
        match atom params name with
        | .error e => .error e
        | .ok body => .ok ⟨(body, after), by rw [ht] at hname; exact hname⟩
    else .error (.fault (c :: rest) (.unexpected c))
termination_by 3 * cs.length

/-- Reads the arguments of a call, from behind the opening parenthesis. -/
def readArguments (params : List Param) (cs : List Char) : Step (List Body) cs :=
  have hcs := length_skipBlank_le cs
  match hs : skipBlank cs with
  | ')' :: rest =>
    .ok ⟨([], rest), by rw [hs] at hcs; exact hcs⟩
  | _ => readSequence params cs
termination_by 3 * cs.length + 2

/-- Reads one or more arguments and the closing parenthesis. -/
def readSequence (params : List Param) (cs : List Char) : Step (List Body) cs :=
  match readBody params cs with
  | .error e => .error e
  | .ok ⟨(x, rest), hrest⟩ =>
    have hblank := length_skipBlank_le rest
    match hs : skipBlank rest with
    | ',' :: after =>
      have : after.length < cs.length := by
        rw [hs] at hblank
        exact Nat.lt_trans hblank hrest
      match readSequence params after with
      | .error e => .error e
      | .ok ⟨(xs, left), hleft⟩ => .ok ⟨(x :: xs, left), Nat.lt_trans hleft this⟩
    | ')' :: after =>
      .ok ⟨([x], after), by
        rw [hs] at hblank
        exact Nat.lt_trans hblank hrest⟩
    | after => .error (.fault after .unseparated)
termination_by 3 * cs.length + 1

end

/-! ## Whole texts -/

/-- The number of bytes of a text in UTF-8. -/
def byteLength (cs : List Char) : Nat := cs.foldr (fun c n => c.utf8Size + n) 0

/-- The byte offset of a rest within a text. -/
def offsetOf (text rest : List Char) : Nat := byteLength text - byteLength rest

/-- A refusal as an error of a kernel. -/
def Refusal.toError (text : List Char) : Refusal → KernelError
  | fault rest f => .parse (offsetOf text rest) f
  | unknownVariable name => .unknownVariable name
  | unknownOp name => .unknownOp name
  | arity op expected got => .arity op expected got

/-- **Reads a whole text as the body of a kernel with given parameters.** -/
def Body.ofText (params : List Param) (text : List Char) : Except KernelError Body :=
  match readBody params text with
  | .error e => .error (e.toError text)
  | .ok ⟨(body, rest), _⟩ =>
    match skipBlank rest with
    | [] => .ok body
    | left => .error (.parse (offsetOf text left) .trailing)

end DeferredArrays.Kernel
