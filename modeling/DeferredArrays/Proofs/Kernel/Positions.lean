import DeferredArrays.Proofs.Kernel.Productions
import Mathlib.Data.List.DropRight

/-!
# Proofs/Kernel/Positions — reading moves on, from boundary to boundary

The reader works on what is left of a text.  Here it is compared with one that keeps the whole text
and a position in it, counted in bytes (`Cursor`).  That reader looks at the text through slices, and
a slice has to start and stop on a boundary between characters.  It comes to nothing at all if one
does not, or if one of its loops goes round more often than it is allowed to (`Reading`).

Both readers come to the same outcome, and for every loop as many rounds are enough as there are
characters, and one more; so neither of the two happens.  On the way, the cursor notes each stretch
of text that it passes: single characters, the rounds of the loop over arguments, whole expressions.
A stretch that is noted goes from boundary to boundary and is not empty (`Stretch.Advances`), and the
place of a fault is a boundary (`parse_advances`).

One relation carries the proof: a computation **reads** a text like a function of what is left of it
(`Reading.Reads`).  It has one rule for sequences and one fact for each step; loops are by induction
on the rounds.
-/

namespace DeferredArrays.Kernel

open Text

/-! ## Bytes and boundaries -/

theorem byteLength_cons (c : Char) (cs : List Char) :
    byteLength (c :: cs) = c.utf8Size + byteLength cs := rfl

theorem byteLength_append (cs ds : List Char) :
    byteLength (cs ++ ds) = byteLength cs + byteLength ds := by
  induction cs with
  | nil => exact (Nat.zero_add _).symm
  | cons c cs ih => rw [List.cons_append, byteLength_cons, byteLength_cons, ih, Nat.add_assoc]

/-- The bytes of a text are those of its characters. -/
theorem byteLength_toList (s : String) : byteLength s.toList = s.utf8ByteSize := by
  have hofList : ∀ cs : List Char, byteLength cs = (String.ofList cs).utf8ByteSize := fun cs => by
    induction cs with
    | nil => rfl
    | cons c cs ih =>
      have hcons : String.ofList (c :: cs) = String.singleton c ++ String.ofList cs := by
        rw [String.singleton_eq_ofList, ← String.ofList_append]
        rfl
      rw [byteLength_cons, ih, hcons, String.utf8ByteSize_append, String.utf8ByteSize_singleton]
  rw [hofList, String.ofList_toList]

/-- **A position on a boundary** is the length of some first characters of a text, in bytes. -/
def OnBoundary (text : List Char) (position : Nat) : Prop :=
  ∃ before behind, text = before ++ behind ∧ position = byteLength before

/-- What a stretch of text is passed for: one character of a blank, a name, a number or the
punctuation, one round of the loop over arguments, or a whole expression. -/
inductive Purpose where
  | blank
  | name
  | number
  | punctuation
  | argument
  | expression
  deriving DecidableEq

/-- A stretch of text that was passed. -/
structure Stretch where
  /-- What it was passed for. -/
  purpose : Purpose
  /-- The position before it. -/
  start : Nat
  /-- The position behind it. -/
  stop : Nat
  deriving DecidableEq

/-- **A stretch moves on**: it is made of whole characters, and of one at least. -/
def Stretch.Advances (text : List Char) (s : Stretch) : Prop :=
  ∃ before passed behind, text = before ++ (passed ++ behind) ∧ passed ≠ [] ∧
    s.start = byteLength before ∧ s.stop = byteLength (before ++ passed)

section Suffixes

variable {text rest left : List Char}

/-- The position of a rest is the length of what is before it. -/
theorem offsetOf_append (before behind : List Char) :
    offsetOf (before ++ behind) behind = byteLength before := by
  rw [offsetOf, byteLength_append, Nat.add_sub_cancel]

theorem onBoundary_offsetOf (h : rest <:+ text) : OnBoundary text (offsetOf text rest) := by
  obtain ⟨before, rfl⟩ := h
  exact ⟨before, rest, rfl, offsetOf_append before rest⟩

/-- From one rest to a shorter one, a stretch moves on. -/
theorem advances_of_suffix (purpose : Purpose) (hrest : rest <:+ text) (hleft : left <:+ rest)
    (hlt : left.length < rest.length) :
    Stretch.Advances text ⟨purpose, offsetOf text rest, offsetOf text left⟩ := by
  obtain ⟨before, rfl⟩ := hrest
  obtain ⟨passed, rfl⟩ := hleft
  refine ⟨before, passed, left, rfl, ?_, offsetOf_append _ _, ?_⟩
  · rintro rfl
    exact Nat.lt_irrefl _ hlt
  · dsimp only
    rw [← List.append_assoc, offsetOf_append]

theorem OnBoundary.le {position : Nat} (h : OnBoundary text position) :
    position ≤ byteLength text := by
  obtain ⟨before, behind, rfl, rfl⟩ := h
  rw [byteLength_append]
  exact Nat.le_add_right _ _

end Suffixes

/-! ## Slices -/

/-- The text from a position on, if a character starts there or the text ends. -/
def dropBytes? : List Char → Nat → Option (List Char)
  | cs, 0 => some cs
  | [], _ + 1 => none
  | c :: cs, n + 1 => if c.utf8Size ≤ n + 1 then dropBytes? cs (n + 1 - c.utf8Size) else none

/-- The text up to a position, if a character starts there or the text ends. -/
def takeBytes? : List Char → Nat → Option (List Char)
  | _, 0 => some []
  | [], _ + 1 => none
  | c :: cs, n + 1 =>
    if c.utf8Size ≤ n + 1 then (takeBytes? cs (n + 1 - c.utf8Size)).map (c :: ·) else none

/-- The text from one position to another. -/
def slice? (text : List Char) (start stop : Nat) : Option (List Char) :=
  if start ≤ stop then (dropBytes? text start).bind fun rest => takeBytes? rest (stop - start)
  else none

theorem dropBytes?_append (before behind : List Char) :
    dropBytes? (before ++ behind) (byteLength before) = some behind := by
  induction before with
  | nil =>
    rw [List.nil_append]
    rcases behind with _ | ⟨c, cs⟩ <;> rfl
  | cons c cs ih =>
    obtain ⟨n, hn⟩ : ∃ n, byteLength (c :: cs) = n + 1 :=
      ⟨byteLength (c :: cs) - 1, by have := c.utf8Size_pos; rw [byteLength_cons]; omega⟩
    have hrest : n + 1 - c.utf8Size = byteLength cs := by rw [← hn, byteLength_cons]; omega
    rw [hn, List.cons_append, dropBytes?, if_pos (by rw [← hn, byteLength_cons]; omega), hrest, ih]

theorem takeBytes?_append (passed behind : List Char) :
    takeBytes? (passed ++ behind) (byteLength passed) = some passed := by
  induction passed with
  | nil =>
    rw [List.nil_append]
    rcases behind with _ | ⟨c, cs⟩ <;> rfl
  | cons c cs ih =>
    obtain ⟨n, hn⟩ : ∃ n, byteLength (c :: cs) = n + 1 :=
      ⟨byteLength (c :: cs) - 1, by have := c.utf8Size_pos; rw [byteLength_cons]; omega⟩
    have hrest : n + 1 - c.utf8Size = byteLength cs := by rw [← hn, byteLength_cons]; omega
    rw [hn, List.cons_append, takeBytes?, if_pos (by rw [← hn, byteLength_cons]; omega), hrest, ih]
    rfl

/-- What is before a rest can be sliced off. -/
theorem dropBytes?_offsetOf {text rest : List Char} (h : rest <:+ text) :
    dropBytes? text (offsetOf text rest) = some rest := by
  obtain ⟨before, rfl⟩ := h
  rw [offsetOf_append, dropBytes?_append]

/-- What is between two rests is a slice. -/
theorem slice?_offsetOf {text rest passed left : List Char} (h : rest <:+ text)
    (hsplit : passed ++ left = rest) :
    slice? text (offsetOf text rest) (offsetOf text left) = some passed := by
  have hrest := dropBytes?_offsetOf h
  obtain ⟨before, rfl⟩ := h
  subst hsplit
  have hstop : offsetOf (before ++ (passed ++ left)) left =
      byteLength before + byteLength passed := by
    rw [← List.append_assoc, offsetOf_append, byteLength_append]
  rw [offsetOf_append] at hrest ⊢
  rw [hstop, slice?, if_pos (Nat.le_add_right _ _), hrest, Option.bind_some,
    Nat.add_sub_cancel_left, takeBytes?_append]

/-! ## Reading with a cursor -/

/-- A cursor on a text. -/
structure Cursor where
  /-- The position, in bytes. -/
  position : Nat
  /-- The stretches passed so far. -/
  passed : List Stretch
  deriving DecidableEq

/-- **Reading with a cursor** comes to a result or an error, with the cursor moved.  It comes to
nothing if a slice does not keep to the boundaries of characters, or if a loop has no rounds left. -/
abbrev Reading (α : Type) : Type := ExceptT KernelError (StateT Cursor Option) α

namespace Reading

section Steps

variable {α : Type}

/-- A slice, which has to keep to boundaries. -/
def sliced (x : Option α) : Reading α := ExceptT.lift (StateT.lift x)

/-- Where the cursor is. -/
def position : Reading Nat := return (← get).position

/-- The character at the cursor, unless the text ends there. -/
def peek (text : List Char) : Reading (Option Char) := do
  return (← sliced (dropBytes? text (← position))).head?

/-- Notes the stretch from a position to the cursor. -/
def pass (purpose : Purpose) (start : Nat) : Reading Unit :=
  modify fun c => { c with passed := c.passed ++ [⟨purpose, start, c.position⟩] }

/-- Moves on by one character. -/
def bump (purpose : Purpose) (c : Char) : Reading Unit := do
  let start ← position
  modify fun cursor => { cursor with position := cursor.position + c.utf8Size }
  pass purpose start

/-- A fault at the cursor. -/
def fail (fault : TextFault) : Reading α := do throw (.parse (← position) fault)

/-- An outcome that does not depend on the text. -/
def outcome (text : List Char) : Except Refusal α → Reading α
  | .ok a => return a
  | .error e => throw (e.toError text)

/-- Passes the character at the cursor, if it belongs to a class. -/
def passOne (text : List Char) (purpose : Purpose) (p : Char → Bool) : Reading (Option Char) := do
  match (← peek text).filter p with
  | some c =>
    bump purpose c
    return some c
  | none => return none

/-- More rounds of a loop than are allowed. -/
def endless : Reading α := sliced none

/-- Passes characters as long as they belong to a class. -/
def scan (text : List Char) (purpose : Purpose) (p : Char → Bool) : Nat → Reading Unit
  | 0 => endless
  | n + 1 => do if (← passOne text purpose p).isSome then scan text purpose p n

/-- Whether a number that started at a position goes on with a character behind another one. -/
def goesOn (start here : Nat) (prev : Option Char) (c : Char) : Bool :=
  c.isAlphanum || c == '.' ||
    ((c == '-' || c == '+') && (here == start || prev == some 'e' || prev == some 'E'))

/-- Passes the characters of a number that started at a position. -/
def scanNumber (text : List Char) (start : Nat) (prev : Option Char) : Nat → Reading Unit
  | 0 => endless
  | n + 1 => do
    let c? ← passOne text .number (goesOn start (← position) prev)
    if c?.isSome then scanNumber text start c? n

/-- Passes a number and reads it. -/
def number (text : List Char) (n : Nat) : Reading Body := do
  let start ← position
  scanNumber text start none n
  let literal ← sliced (slice? text start (← position))
  match literal? literal with
  | some s => return .const s
  | none => throw (.parse start (.invalidNumber literal))

/-- Passes a name. -/
def name (text : List Char) (n : Nat) : Reading String := do
  let start ← position
  scan text .name continuesName n
  return String.ofList (← sliced (slice? text start (← position)))

/-- A fault where no expression starts. -/
def noOperand : Option Char → Reading α
  | none => fail .endOfInput
  | some c => fail (.unexpected c)

/-- Reads a number, a bare name or a call, given how arguments are read. -/
def operand (text : List Char) (params : List Param) (n : Nat) (args : Reading (List Body)) :
    Reading Body := do
  let c? ← peek text
  if c?.any startsNumber then number text n
  else if c?.any startsName then
    let called ← name text n
    scan text .blank isWhiteSpace n
    if (← peek text) = some '(' then
      bump .punctuation '('
      outcome text (application called (← args))
    else outcome text (atom params called)
  else noOperand c?

/-- Reads an expression and notes it, given how arguments are read. -/
def expression (text : List Char) (params : List Param) (n : Nat) (args : Reading (List Body)) :
    Reading Body := do
  let start ← position
  scan text .blank isWhiteSpace n
  let body ← operand text params n args
  pass .expression start
  return body

/-- Reads the arguments of a call, from behind the opening parenthesis, given how one or more of
them are read. -/
def arguments (text : List Char) (n : Nat) (sequence : Reading (List Body)) :
    Reading (List Body) := do
  scan text .blank isWhiteSpace n
  if (← peek text) = some ')' then
    bump .punctuation ')'
    return []
  else sequence

/-- Reads one or more arguments and the closing parenthesis, and notes each round. -/
def sequence (text : List Char) (params : List Param) : Nat → Reading (List Body)
  | 0 => endless
  | n + 1 => do
    let start ← position
    let x ← expression text params (n + 1) (arguments text (n + 1) (sequence text params n))
    scan text .blank isWhiteSpace (n + 1)
    let c? ← peek text
    if c? = some ',' then
      bump .punctuation ','
      pass .argument start
      let xs ← sequence text params n
      return x :: xs
    else if c? = some ')' then
      bump .punctuation ')'
      pass .argument start
      return [x]
    else fail .unseparated

/-- **Reads a whole text**, with fewer than `n` rounds of every loop. -/
def source (n : Nat) (s : Source) : Reading Body := do
  let text := s.body.toList
  let body ← expression text s.params n (arguments text n (sequence text s.params n))
  scan text .blank isWhiteSpace n
  if (← position) = s.body.utf8ByteSize then return body else fail .trailing

end Steps

/-! ## Reading like a function of what is left -/

section Rules

variable {α β : Type} {text rest left : List Char}

/-- **A computation reads a text like a function of what is left**: from the boundary before `rest`
it comes to the outcome `r`, and stops before what `r` leaves.  Every stretch that it passes moves
on, and if it fails the place of the fault is a boundary. -/
def Reads (text : List Char) (m : Reading α) (rest : List Char)
    (r : Except KernelError (α × List Char)) : Prop :=
  rest <:+ text → ∀ passed, ∃ more, (∀ s ∈ more, s.Advances text) ∧
    match r with
    | .ok (a, left) => left <:+ rest ∧ m.run.run ⟨offsetOf text rest, passed⟩ =
        some (.ok a, ⟨offsetOf text left, passed ++ more⟩)
    | .error e => (∀ position fault, e = .parse position fault → OnBoundary text position) ∧
        ∃ left, left <:+ rest ∧ m.run.run ⟨offsetOf text rest, passed⟩ =
          some (.error e, ⟨offsetOf text left, passed ++ more⟩)

theorem run_bind (m : Reading α) (f : α → Reading β) (c : Cursor) :
    (m >>= f).run.run c = match m.run.run c with
      | some (.ok a, c') => (f a).run.run c'
      | some (.error e, c') => some (.error e, c')
      | none => none := by
  rw [ExceptT.run_bind, StateT.run_bind]
  rcases m.run.run c with _ | ⟨_ | _, c'⟩ <;> rfl

/-- What is read first, and then what is read from what it leaves. -/
theorem Reads.bind {m : Reading α} {f : α → Reading β} {mid : List Char} {a : α}
    {r : Except KernelError (β × List Char)} (hm : Reads text m rest (.ok (a, mid)))
    (hf : Reads text (f a) mid r) : Reads text (m >>= f) rest r := by
  intro hrest passed
  obtain ⟨more, hmore, hmid, hrun⟩ := hm hrest passed
  obtain ⟨more', hmore', hr⟩ := hf (hmid.trans hrest) (passed ++ more)
  refine ⟨more ++ more', fun s hs => (List.mem_append.mp hs).elim (hmore s) (hmore' s), ?_⟩
  rcases r with e | ⟨b, left⟩
  · obtain ⟨he, left, hleft, hr⟩ := hr
    refine ⟨he, left, hleft.trans hmid, ?_⟩
    rw [run_bind, hrun, ← List.append_assoc]
    exact hr
  · obtain ⟨hleft, hr⟩ := hr
    refine ⟨hleft.trans hmid, ?_⟩
    rw [run_bind, hrun, ← List.append_assoc]
    exact hr

/-- A failure is that of the whole sequence. -/
theorem Reads.bind_error {m : Reading α} {f : α → Reading β} {e : KernelError}
    (hm : Reads text m rest (.error e)) : Reads text (m >>= f) rest (.error e) := by
  intro hrest passed
  obtain ⟨more, hmore, he, left, hleft, hrun⟩ := hm hrest passed
  refine ⟨more, hmore, he, left, hleft, ?_⟩
  rw [run_bind, hrun]

/-- What is read goes for every rest of the text, so that may be assumed. -/
theorem Reads.of_suffix {m : Reading α} {r : Except KernelError (α × List Char)}
    (h : rest <:+ text → Reads text m rest r) : Reads text m rest r := fun hrest => h hrest hrest

/-- A step without a stretch. -/
theorem reads_of_run {m : Reading α} {a : α}
    (h : ∀ passed, rest <:+ text → m.run.run ⟨offsetOf text rest, passed⟩ =
      some (.ok a, ⟨offsetOf text rest, passed⟩)) : Reads text m rest (.ok (a, rest)) := by
  intro hrest passed
  refine ⟨[], fun _ hs => absurd hs List.not_mem_nil, List.suffix_rfl, ?_⟩
  rw [h passed hrest, List.append_nil]

theorem reads_pure (a : α) : Reads text (pure a : Reading α) rest (.ok (a, rest)) :=
  reads_of_run fun _ _ => rfl

theorem reads_position : Reads text position rest (.ok (offsetOf text rest, rest)) :=
  reads_of_run fun _ _ => rfl

theorem reads_sliced {x : Option α} {a : α} (hx : x = some a) :
    Reads text (sliced x) rest (.ok (a, rest)) := by
  subst hx
  exact reads_of_run fun _ _ => rfl

/-- **At a rest, its first character is seen.** -/
theorem reads_peek : Reads text (peek text) rest (.ok (rest.head?, rest)) :=
  .of_suffix fun hrest =>
    reads_position.bind ((reads_sliced (dropBytes?_offsetOf hrest)).bind (reads_pure _))

/-- A stretch that moves on may be noted. -/
theorem reads_pass (purpose : Purpose) (hrest : rest <:+ text) (hleft : left <:+ rest)
    (hlt : left.length < rest.length) :
    Reads text (pass purpose (offsetOf text rest)) left (.ok ((), left)) := fun _ passed =>
  ⟨[⟨purpose, offsetOf text rest, offsetOf text left⟩], fun s hs => by
    rw [List.mem_singleton.mp hs]
    exact advances_of_suffix purpose hrest hleft hlt, List.suffix_rfl, rfl⟩

/-- Behind a character, a position is larger by its length. -/
theorem offsetOf_tail {c : Char} (h : c :: left <:+ text) :
    offsetOf text left = offsetOf text (c :: left) + c.utf8Size := by
  obtain ⟨before, rfl⟩ := h
  have hsplit : before ++ c :: left = (before ++ [c]) ++ left := by simp
  rw [offsetOf_append, hsplit, offsetOf_append, byteLength_append]
  rfl

/-- **A character that was seen is passed.** -/
theorem reads_bump (purpose : Purpose) (c : Char) :
    Reads text (bump purpose c) (c :: left) (.ok ((), left)) := by
  refine .of_suffix fun hrest => reads_position.bind ?_
  intro _ passed
  obtain ⟨more, hmore, _, hrun⟩ := reads_pass purpose hrest (List.suffix_cons c left)
    (Nat.lt_succ_self _) ((List.suffix_cons c left).trans hrest) passed
  refine ⟨more, hmore, List.suffix_cons c left, ?_⟩
  rw [run_bind, ← hrun, offsetOf_tail hrest]
  rfl

theorem reads_fail (fault : TextFault) :
    Reads text (fail fault : Reading α) rest (.error (.parse (offsetOf text rest) fault)) := by
  intro hrest passed
  refine ⟨[], fun _ hs => absurd hs List.not_mem_nil, ?_, rest, List.suffix_rfl, ?_⟩
  · rintro _ _ ⟨⟩
    exact onBoundary_offsetOf hrest
  · rw [List.append_nil]
    rfl

/-- A fault at an earlier place. -/
theorem reads_throw_parse (fault : TextFault) (hleft : rest <:+ text) :
    Reads text (throw (.parse (offsetOf text rest) fault) : Reading α) left
      (.error (.parse (offsetOf text rest) fault)) := fun _ passed =>
  ⟨[], fun _ hs => absurd hs List.not_mem_nil, by
    rintro _ _ ⟨⟩
    exact onBoundary_offsetOf hleft, left, List.suffix_rfl, by
    rw [List.append_nil]
    rfl⟩

/-- An outcome that does not depend on the text is read as it is. -/
theorem reads_outcome {r : Except Refusal α} (hr : ∀ rest fault, r ≠ .error (.fault rest fault)) :
    Reads text (outcome text r) rest ((r.map (·, rest)).mapError (·.toError text)) := by
  rcases r with e | a
  · intro hrest passed
    refine ⟨[], fun _ hs => absurd hs List.not_mem_nil, ?_, rest, List.suffix_rfl, ?_⟩
    · intro position fault he
      rcases e with ⟨rest, f⟩ | name | name | ⟨op, m, n⟩
      · exact absurd rfl (hr rest f)
      all_goals cases he
    · rw [List.append_nil]
      rfl
  · exact reads_pure a

end Rules

/-! ## Tokens -/

section Tokens

variable {text rest : List Char}

theorem reads_passOne_of_pos (text : List Char) (purpose : Purpose) {p : Char → Bool} {c : Char}
    (hc : p c) (cs : List Char) :
    Reads text (passOne text purpose p) (c :: cs) (.ok (some c, cs)) := by
  refine reads_peek.bind ?_
  rw [List.head?_cons, Option.filter_some_pos hc]
  exact (reads_bump purpose c).bind (reads_pure _)

theorem reads_passOne_of_neg (text : List Char) (purpose : Purpose) {p : Char → Bool}
    (hrest : rest.head?.filter p = none) :
    Reads text (passOne text purpose p) rest (.ok (none, rest)) := by
  refine reads_peek.bind ?_
  rw [hrest]
  exact reads_pure none

/-- **A class is passed as long as it goes**, in at most one round for each character and one for
the end. -/
theorem reads_scan (text : List Char) (purpose : Purpose) (p : Char → Bool) {rest : List Char}
    {n : Nat} (hn : rest.length < n) :
    Reads text (scan text purpose p n) rest (.ok ((), rest.dropWhile p)) := by
  induction n generalizing rest with
  | zero => exact absurd hn (Nat.not_lt_zero _)
  | succ n ih =>
    rcases rest with _ | ⟨c, cs⟩
    · exact (reads_passOne_of_neg text purpose rfl).bind (reads_pure ())
    by_cases hc : p c
    · rw [List.dropWhile_cons_of_pos hc]
      exact (reads_passOne_of_pos text purpose hc cs).bind (ih (Nat.lt_of_succ_lt_succ hn))
    · have hnone : (c :: cs).head?.filter p = none :=
        Option.filter_some_neg (eq_false_of_ne_true hc)
      rw [List.dropWhile_cons_of_neg hc]
      exact (reads_passOne_of_neg text purpose hnone).bind (reads_pure ())

/-- A number goes on by position as it does by the character before: the cursor is where the number
started exactly if there is no character before. -/
theorem goesOn_eq {start here : Nat} {prev : Option Char} (hprev : here = start ↔ prev = none) :
    goesOn start here prev = continuesNumber prev := by
  have hstart : (here == start) = (prev == none) := by
    rw [Bool.eq_iff_iff, beq_iff_eq, beq_iff_eq]
    exact hprev
  funext c
  rw [goesOn, continuesNumber, hstart]

/-- **A number is passed as long as it goes.** -/
theorem reads_scanNumber {rest : List Char} {start n : Nat} {prev : Option Char}
    (hn : rest.length < n) (hle : start ≤ offsetOf text rest)
    (hprev : offsetOf text rest = start ↔ prev = none) :
    Reads text (scanNumber text start prev n) rest (.ok ((), (splitNumber prev rest).2)) := by
  induction n generalizing rest prev with
  | zero => exact absurd hn (Nat.not_lt_zero _)
  | succ n ih =>
    refine .of_suffix fun hrest => reads_position.bind ?_
    rw [goesOn_eq hprev]
    rcases rest with _ | ⟨c, cs⟩
    · exact (reads_passOne_of_neg text .number rfl).bind (reads_pure ())
    rw [splitNumber]
    by_cases hc : continuesNumber prev c
    · have htail := offsetOf_tail hrest
      have hsize := c.utf8Size_pos
      have hbehind : offsetOf text cs = start ↔ some c = none :=
        ⟨fun h => by omega, fun h => absurd h (Option.some_ne_none c)⟩
      rw [if_pos hc]
      exact (reads_passOne_of_pos text .number hc cs).bind
        (ih (Nat.lt_of_succ_lt_succ hn) (by omega) hbehind)
    · have hnone : (c :: cs).head?.filter (continuesNumber prev) = none :=
        Option.filter_some_neg (eq_false_of_ne_true hc)
      rw [if_neg hc]
      exact (reads_passOne_of_neg text .number hnone).bind (reads_pure ())

/-- **A number** is read, or refused where it starts. -/
theorem reads_number (text : List Char) {rest : List Char} {n : Nat} (hn : rest.length < n) :
    Reads text (number text n) rest (match literal? (splitNumber none rest).1 with
      | some s => .ok (.const s, (splitNumber none rest).2)
      | none =>
        .error (.parse (offsetOf text rest) (.invalidNumber (splitNumber none rest).1))) := by
  refine .of_suffix fun hrest => reads_position.bind ?_
  refine (reads_scanNumber hn (Nat.le_refl _) ⟨fun _ => rfl, fun _ => rfl⟩).bind ?_
  refine reads_position.bind ?_
  refine (reads_sliced (slice?_offsetOf hrest (splitNumber_append none rest))).bind ?_
  rcases literal? (splitNumber none rest).1 with _ | s
  · exact reads_throw_parse _ hrest
  · exact reads_pure _

/-- **A name** is read. -/
theorem reads_name (text : List Char) {rest : List Char} {n : Nat} (hn : rest.length < n) :
    Reads text (name text n) rest
      (.ok (String.ofList (rest.takeWhile continuesName), rest.dropWhile continuesName)) := by
  refine .of_suffix fun hrest => reads_position.bind ?_
  refine (reads_scan text .name continuesName hn).bind (reads_position.bind ?_)
  have hslice := slice?_offsetOf hrest (List.takeWhile_append_dropWhile (p := continuesName))
  exact (reads_sliced hslice).bind (reads_pure _)

/-- **A blank** is passed. -/
theorem reads_blank (text : List Char) {rest : List Char} {n : Nat} (hn : rest.length < n) :
    Reads text (scan text .blank isWhiteSpace n) rest (.ok ((), skipBlank rest)) :=
  reads_scan text .blank isWhiteSpace hn

end Tokens

/-! ## Expressions -/

section Expressions

variable {text rest cs left : List Char} {params : List Param} {n : Nat}
  {args seq : Reading (List Body)}

/-- What the reader reads, with its refusals as errors of the text. -/
def refused {α : Type} (text : List Char) (r : Except Refusal (α × List Char)) :
    Except KernelError (α × List Char) := r.mapError (·.toError text)

theorem Reads.suffix {α : Type} {m : Reading α} {a : α} (h : Reads text m rest (.ok (a, left)))
    (hrest : rest <:+ text) : left <:+ rest := by
  obtain ⟨_, _, hleft, _⟩ := h hrest []
  exact hleft

/-- Names are not refused for a fault of the text. -/
theorem atom_ne_fault (params : List Param) (name : String) (rest : List Char) (f : TextFault) :
    atom params name ≠ .error (.fault rest f) := by
  rw [atom]
  split
  next => rintro ⟨⟩
  next => split <;> rintro ⟨⟩

theorem application_ne_fault (name : String) (args : List Body) (rest : List Char) (f : TextFault) :
    application name args ≠ .error (.fault rest f) := by
  rw [application]
  split
  next => split <;> rintro ⟨⟩
  next => split <;> rintro ⟨⟩
  next => rintro ⟨⟩

/-- **A number, a name or a call is read**, if the arguments of calls are. -/
theorem reads_operand (hn : cs.length < n) (hargs : ∀ after, after.length < cs.length →
      Reads text args after (refused text (readArguments params after).result)) :
    Reads text (operand text params n args) (skipBlank cs)
      (refused text (readBody params cs).result) := by
  refine reads_peek.bind ?_
  have hle := length_skipBlank_le cs
  rcases hs : skipBlank cs with _ | ⟨c, rest⟩
  · rw [result_readBody_end hs]
    exact reads_fail .endOfInput
  rw [hs] at hle
  rw [List.head?_cons, Option.any_some, Option.any_some]
  by_cases hnumber : startsNumber c
  · have hread := reads_number text (Nat.lt_of_le_of_lt hle hn)
    rw [if_pos hnumber, result_readBody_number hs hnumber]
    rcases hl : literal? (splitNumber none (c :: rest)).1 with _ | s
    · rw [hl] at hread
      exact hread
    · rw [hl] at hread
      exact hread
  have hnumber' : startsNumber c = false := eq_false_of_ne_true hnumber
  rw [if_neg hnumber]
  by_cases hname : startsName c
  · have hrest : ((c :: rest).dropWhile continuesName).length < n :=
      Nat.lt_of_le_of_lt (Nat.le_trans (List.dropWhile_sublist _).length_le hle) hn
    rw [if_pos hname]
    refine (reads_name text (Nat.lt_of_le_of_lt hle hn)).bind ?_
    refine (reads_blank text hrest).bind (reads_peek.bind ?_)
    by_cases hopen : (skipBlank ((c :: rest).dropWhile continuesName)).head? = some '('
    · obtain ⟨after, ht⟩ := List.head?_eq_some_iff.mp hopen
      have hafter := hargs after (length_lt_of_opening hs hname ht)
      rw [if_pos hopen, result_readBody_call hs hnumber' hname ht, ht]
      refine (reads_bump .punctuation '(').bind ?_
      rcases hr : (readArguments params after).result with e | ⟨args, left⟩
      · rw [hr] at hafter
        exact hafter.bind_error
      · rw [hr] at hafter
        refine hafter.bind ?_
        exact reads_outcome (application_ne_fault _ args)
    · have hopen' : ∀ tail, skipBlank ((c :: rest).dropWhile continuesName) ≠ '(' :: tail :=
        fun tail ht => hopen (by rw [ht, List.head?_cons])
      rw [if_neg hopen, result_readBody_name hs hnumber' hname rfl hopen']
      exact reads_outcome (atom_ne_fault params _)
  · have hname' : startsName c = false := eq_false_of_ne_true hname
    rw [if_neg hname, result_readBody_unexpected hs hnumber' hname']
    exact reads_fail (.unexpected c)

/-- **An expression is read**, and noted as a stretch that is not empty. -/
theorem reads_expression (hn : cs.length < n) (hargs : ∀ after, after.length < cs.length →
      Reads text args after (refused text (readArguments params after).result)) :
    Reads text (expression text params n args) cs (refused text (readBody params cs).result) := by
  refine .of_suffix fun hcs => reads_position.bind ((reads_blank text hn).bind ?_)
  have hoperand := reads_operand hn hargs
  rcases hr : (readBody params cs).result with e | ⟨b, left⟩
  · rw [hr] at hoperand
    exact hoperand.bind_error
  · rw [hr] at hoperand
    have hskip : skipBlank cs <:+ cs := List.dropWhile_suffix _
    have hleft := (hoperand.suffix (hskip.trans hcs)).trans hskip
    exact hoperand.bind ((reads_pass .expression hcs hleft (Step.length_lt hr)).bind (reads_pure b))

/-- **Arguments are read**, if a sequence of them is. -/
theorem reads_arguments (hn : cs.length < n)
    (hseq : Reads text seq (skipBlank cs) (refused text (readSequence params cs).result)) :
    Reads text (arguments text n seq) cs (refused text (readArguments params cs).result) := by
  refine (reads_blank text hn).bind (reads_peek.bind ?_)
  by_cases hclose : (skipBlank cs).head? = some ')'
  · obtain ⟨after, hs⟩ := List.head?_eq_some_iff.mp hclose
    rw [if_pos hclose, readArguments_close hs, hs]
    exact (reads_bump .punctuation ')').bind (reads_pure [])
  · have hclose' : ∀ tail, skipBlank cs ≠ ')' :: tail :=
      fun tail hs => hclose (by rw [hs, List.head?_cons])
    rw [if_neg hclose, readArguments_sequence hclose']
    exact hseq

/-- **One round of the loop over arguments**: a stretch that is not empty, if what is behind a comma
is read. -/
theorem reads_round (hn : cs.length < n + 1)
    (hbody : Reads text (expression text params (n + 1) (arguments text (n + 1)
      (sequence text params n))) cs (refused text (readBody params cs).result))
    (hseq : ∀ after, after.length < cs.length →
      Reads text (sequence text params n) after
        (refused text (readSequence params after).result)) :
    Reads text (sequence text params (n + 1)) cs
      (refused text (readSequence params cs).result) := by
  refine .of_suffix fun hcs => reads_position.bind ?_
  rcases hx : (readBody params cs).result with e | ⟨x, rest⟩
  · rw [hx] at hbody
    rw [readSequence_error hx]
    exact hbody.bind_error
  rw [hx] at hbody
  have hrest : skipBlank rest <:+ cs := (List.dropWhile_suffix _).trans (hbody.suffix hcs)
  have hlength := Step.length_lt hx
  refine hbody.bind ((reads_blank text (Nat.lt_trans hlength hn)).bind (reads_peek.bind ?_))
  rw [result_readSequence hx]
  rcases hs : skipBlank rest with _ | ⟨c, after⟩
  · exact reads_fail .unseparated
  have hafter : after <:+ cs := (List.suffix_cons c after).trans (hs ▸ hrest)
  have hlt : after.length < cs.length := Nat.lt_trans (length_lt_of_skipBlank hs) hlength
  have hround := reads_pass .argument hcs hafter hlt
  rw [List.head?_cons]
  by_cases hcomma : c = ','
  · subst hcomma
    refine (reads_bump .punctuation ',').bind (hround.bind ?_)
    have hmore := hseq after hlt
    simp only
    rcases hxs : (readSequence params after).result with e | ⟨xs, left⟩
    · rw [hxs] at hmore
      exact hmore.bind_error
    · rw [hxs] at hmore
      exact hmore.bind (reads_pure _)
  rw [if_neg fun h => hcomma (Option.some.inj h)]
  by_cases hclose : c = ')'
  · subst hclose
    exact (reads_bump .punctuation ')').bind (hround.bind (reads_pure [x]))
  rw [if_neg fun h => hclose (Option.some.inj h)]
  split
  next h => exact absurd (List.cons.inj h).1 hcomma
  next h => exact absurd (List.cons.inj h).1 hclose
  next => exact reads_fail .unseparated

/-- Behind an opening parenthesis, less is left to read. -/
theorem reads_arguments_of_sequence
    (hseq : ∀ after, after.length < n →
      Reads text seq after (refused text (readSequence params after).result))
    {after : List Char} (hafter : after.length < n) {m : Nat} (hm : n ≤ m) :
    Reads text (arguments text m seq) after (refused text (readArguments params after).result) := by
  have hblank : skipBlank (skipBlank after) = skipBlank after := List.dropWhile_idempotent _ _
  have hread := hseq (skipBlank after) (Nat.lt_of_le_of_lt (length_skipBlank_le after) hafter)
  rw [result_readSequence_congr hblank] at hread
  exact reads_arguments (Nat.lt_of_lt_of_le hafter hm) hread

/-- **Sequences of arguments are read** — by induction on the rounds: the arguments of a call and
those behind a comma are read from less. -/
theorem reads_sequence (text : List Char) (params : List Param) {n : Nat} {cs : List Char}
    (hn : cs.length < n) :
    Reads text (sequence text params n) cs (refused text (readSequence params cs).result) := by
  induction n generalizing cs with
  | zero => exact absurd hn (Nat.not_lt_zero _)
  | succ n ih =>
    have hseq : ∀ after, after.length < n → Reads text (sequence text params n) after
        (refused text (readSequence params after).result) := fun after hafter => ih hafter
    have hle : cs.length ≤ n := Nat.le_of_lt_succ hn
    have hbody := reads_expression hn fun after hafter =>
      reads_arguments_of_sequence hseq (Nat.lt_of_lt_of_le hafter hle) (Nat.le_succ n)
    exact reads_round hn hbody fun after hafter => hseq after (Nat.lt_of_lt_of_le hafter hle)

end Expressions

/-! ## Whole texts -/

theorem offsetOf_eq_byteLength_iff {text rest : List Char} (h : rest <:+ text) :
    offsetOf text rest = byteLength text ↔ rest = [] := by
  obtain ⟨before, rfl⟩ := h
  rw [offsetOf_append, byteLength_append]
  rcases rest with _ | ⟨c, cs⟩
  · exact ⟨fun _ => rfl, fun _ => rfl⟩
  · have := c.utf8Size_pos
    rw [byteLength_cons]
    exact ⟨fun h => by omega, fun h => nomatch h⟩

/-- **A whole text is read**, with a round of each loop for every character, and one for the end. -/
theorem reads_source (s : Source) {n : Nat} (hn : s.body.toList.length < n) :
    ∃ r, Reads s.body.toList (source n s) s.body.toList r ∧ r.map Prod.fst = s.parse := by
  have hbody := reads_expression hn fun after hafter =>
    reads_arguments_of_sequence (fun _ => reads_sequence s.body.toList s.params)
      (Nat.lt_trans hafter hn) (Nat.le_refl n)
  rw [Source.parse, Body.ofText]
  rcases hr : readBody s.params s.body.toList with e | ⟨⟨b, rest⟩, hlt⟩
  · rw [hr] at hbody
    exact ⟨_, hbody.bind_error, rfl⟩
  rw [hr] at hbody
  have hrest : skipBlank rest <:+ s.body.toList :=
    (List.dropWhile_suffix _).trans (hbody.suffix List.suffix_rfl)
  have hend := offsetOf_eq_byteLength_iff hrest
  rw [byteLength_toList] at hend
  have hread : ∀ r, Reads s.body.toList (if offsetOf s.body.toList (skipBlank rest) =
      s.body.utf8ByteSize then return b else fail .trailing) (skipBlank rest) r →
        Reads s.body.toList (source n s) s.body.toList r := fun r h =>
    hbody.bind ((reads_blank _ (Nat.lt_trans hlt hn)).bind (reads_position.bind h))
  rcases hs : skipBlank rest with _ | ⟨c, cs⟩
  · refine ⟨.ok (b, []), hread _ ?_, ?_⟩
    · rw [if_pos (hend.mpr hs), hs]
      exact reads_pure b
    · simp only [hs]
      rfl
  · have hleft : skipBlank rest ≠ [] := hs ▸ List.cons_ne_nil c cs
    refine ⟨.error (.parse (offsetOf s.body.toList (c :: cs)) .trailing), hread _ ?_, ?_⟩
    · rw [if_neg fun h => hleft (hend.mp h), hs]
      exact reads_fail .trailing
    · simp only [hs]
      rfl

end Reading

/-- **Reading always comes to an end, and moves on from boundary to boundary.**  With as many rounds
of each loop as the text has characters, and one more, the cursor comes to the outcome of
`Source.parse`.  Every character, every round of the loop over arguments and every expression that it
passes is a stretch of at least one whole character; and the cursor and the place of a fault are on
boundaries. -/
theorem parse_advances (s : Source) {n : Nat} (hn : s.body.toList.length < n) :
    ∃ c : Cursor, (Reading.source n s).run.run ⟨0, []⟩ = some (s.parse, c) ∧
      OnBoundary s.body.toList c.position ∧
      (∀ t ∈ c.passed, t.Advances s.body.toList) ∧
      ∀ offset fault, s.parse = .error (.parse offset fault) →
        OnBoundary s.body.toList offset ∧ offset ≤ s.body.utf8ByteSize := by
  obtain ⟨r, hreads, hr⟩ := Reading.reads_source s hn
  obtain ⟨passed, hpassed, h⟩ := hreads List.suffix_rfl []
  rw [offsetOf, Nat.sub_self] at h
  rcases r with e | ⟨b, left⟩
  · obtain ⟨he, left, hleft, hrun⟩ := h
    obtain hr : s.parse = .error e := hr.symm
    rw [hr]
    refine ⟨_, hrun, onBoundary_offsetOf hleft, hpassed, fun offset fault hparse => ?_⟩
    obtain rfl : e = .parse offset fault := Except.error.inj hparse
    have hoffset := he offset fault rfl
    exact ⟨hoffset, byteLength_toList s.body ▸ hoffset.le⟩
  · obtain ⟨hleft, hrun⟩ := h
    obtain hr : s.parse = .ok b := hr.symm
    rw [hr]
    refine ⟨_, hrun, onBoundary_offsetOf hleft, hpassed, ?_⟩
    rintro _ _ ⟨⟩

/-- A blank of three bytes, and behind it a character of two that starts nothing. -/
theorem parse_advances_unexpected :
    let s : Source := ⟨[], "\u2003×"⟩
    s.body.toList.length < 3 ∧ s.parse = .error (.parse 3 (.unexpected '×')) ∧
      (Reading.source 3 s).run.run ⟨0, []⟩ = some (s.parse, ⟨3, [⟨.blank, 0, 3⟩]⟩) ∧
      OnBoundary s.body.toList 3 := by
  intro s
  have hn : s.body.toList.length < 3 := by decide
  have hrun : (Reading.source 3 s).run.run ⟨0, []⟩ =
      some (.error (.parse 3 (.unexpected '×')), ⟨3, [⟨.blank, 0, 3⟩]⟩) := by decide +kernel
  obtain ⟨c, hread, hboundary, -⟩ := parse_advances s hn
  obtain ⟨hparse, rfl⟩ := Prod.mk.inj (Option.some.inj (hread.symm.trans hrun))
  exact ⟨hn, hparse, hread, hboundary⟩

end DeferredArrays.Kernel
