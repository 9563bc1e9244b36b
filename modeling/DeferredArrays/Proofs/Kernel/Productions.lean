import DeferredArrays.Kernel.Source

/-!
# Proofs/Kernel/Productions — the reader of bodies, one production at a time

The reader carries a proof that what is left is shorter, which is what makes it end.  Here that
proof is dropped (`Step.result`), and each branch of the reader becomes an equation between results,
be they successes or refusals: a number, a bare name, a call, and the ways an argument list goes on.
Conversely, what is read was read by one of these productions (`readBody_eq_ok`,
`readArguments_eq_ok`, `readSequence_eq_ok`).  Whatever is proved about reading uses these equations
and never opens the reader again.
-/

namespace DeferredArrays.Kernel

open Text

/-- What a step reads, without the proof that the rest is shorter. -/
def Step.result {α : Type} {cs : List Char} (s : Step α cs) : Except Refusal (α × List Char) :=
  s.map Subtype.val

theorem Step.eq_ok_of_result {α : Type} {cs : List Char} {s : Step α cs} {r : α × List Char}
    (h : s.result = .ok r) : ∃ hr, s = .ok ⟨r, hr⟩ := by
  cases s with
  | error e => cases h
  | ok p =>
    obtain ⟨r', hr⟩ := p
    cases h
    exact ⟨hr, rfl⟩

/-- A step leaves less than it was given. -/
theorem Step.length_lt {α : Type} {cs rest : List Char} {s : Step α cs} {a : α}
    (h : s.result = .ok (a, rest)) : rest.length < cs.length := (eq_ok_of_result h).1

variable {params : List Param} {cs rest after left : List Char} {c : Char}

/-- What stands behind the first character of a text that is not blank. -/
theorem length_lt_of_skipBlank (hs : skipBlank cs = c :: rest) : rest.length < cs.length := by
  have hle := length_skipBlank_le cs
  rw [hs] at hle
  exact hle

/-- What stands behind the opening parenthesis of a call. -/
theorem length_lt_of_opening (hs : skipBlank cs = c :: rest) (ha : startsName c)
    (ht : skipBlank ((c :: rest).dropWhile continuesName) = '(' :: after) :
    after.length < cs.length := calc
  after.length < ((c :: rest).dropWhile continuesName).length := length_lt_of_skipBlank ht
  _ ≤ rest.length := Nat.le_of_lt_succ (length_dropName_lt ha rest)
  _ < cs.length := length_lt_of_skipBlank hs

/-! ## One equation for each branch -/

/-- Where an expression should start, the text ends. -/
theorem result_readBody_end (hs : skipBlank cs = []) :
    (readBody params cs).result = .error (.fault [] .endOfInput) := by
  rw [readBody]
  split
  next => rfl
  next h => rw [hs] at h; cases h

/-- **A number** is what it denotes, if it denotes anything. -/
theorem result_readBody_number (hs : skipBlank cs = c :: rest) (hn : startsNumber c) :
    (readBody params cs).result =
      match literal? (splitNumber none (c :: rest)).1 with
      | some s => .ok (.const s, (splitNumber none (c :: rest)).2)
      | none => .error (.fault (c :: rest) (.invalidNumber (splitNumber none (c :: rest)).1)) := by
  rw [readBody]
  split
  next h => rw [hs] at h; cases h
  next c' rest' h =>
    rw [hs] at h
    cases h
    rw [dif_pos hn]
    rcases literal? (splitNumber none (c :: rest)).1 with _ | s <;> rfl

/-- **A bare name** is what it denotes. -/
theorem result_readBody_name (hs : skipBlank cs = c :: rest) (hn : startsNumber c = false)
    (ha : startsName c) (ht : skipBlank ((c :: rest).dropWhile continuesName) = after)
    (hopen : ∀ tail, after ≠ '(' :: tail) :
    (readBody params cs).result =
      (atom params (String.ofList ((c :: rest).takeWhile continuesName))).map (·, after) := by
  rw [readBody]
  split
  next h => rw [hs] at h; cases h
  next c' rest' h =>
    rw [hs] at h
    cases h
    rw [dif_neg (by simp [hn]), dif_pos ha]
    split
    next tail htail => exact absurd (ht ▸ htail) (hopen tail)
    next =>
      subst ht
      dsimp only
      rcases atom params (String.ofList ((c :: rest).takeWhile continuesName)) with e | b <;> rfl

/-- **A call** is the operator of its name, applied to the arguments. -/
theorem result_readBody_call (hs : skipBlank cs = c :: rest) (hn : startsNumber c = false)
    (ha : startsName c) (ht : skipBlank ((c :: rest).dropWhile continuesName) = '(' :: after) :
    (readBody params cs).result = do
      let (args, left) ← (readArguments params after).result
      return (← application (String.ofList ((c :: rest).takeWhile continuesName)) args, left) := by
  rw [readBody]
  split
  next h => rw [hs] at h; cases h
  next c' rest' h =>
    rw [hs] at h
    cases h
    rw [dif_neg (by simp [hn]), dif_pos ha]
    split
    next tail htail =>
      obtain rfl : after = tail := by
        rw [ht] at htail
        cases htail
        rfl
      dsimp only
      rcases readArguments params after with e | ⟨⟨args, left⟩, hleft⟩
      · rfl
      · dsimp only [Step.result, Except.map, bind, Except.bind]
        rcases application (String.ofList ((c :: rest).takeWhile continuesName)) args with e | b <;>
          rfl
    next hopen => exact absurd ht (hopen after)

/-- No expression starts with any other character. -/
theorem result_readBody_unexpected (hs : skipBlank cs = c :: rest) (hn : startsNumber c = false)
    (ha : startsName c = false) :
    (readBody params cs).result = .error (.fault (c :: rest) (.unexpected c)) := by
  rw [readBody]
  split
  next h => rw [hs] at h; cases h
  next c' rest' h =>
    rw [hs] at h
    cases h
    rw [dif_neg (by simp [hn]), dif_neg (by simp [ha])]
    rfl

/-- **White space before an expression makes no difference**, since every branch is chosen behind
it. -/
theorem result_readBody_congr {ds : List Char} (h : skipBlank ds = skipBlank cs) :
    (readBody params ds).result = (readBody params cs).result := by
  rcases hs : skipBlank cs with _ | ⟨c, rest⟩
  · rw [result_readBody_end hs, result_readBody_end (h.trans hs)]
  by_cases hn : startsNumber c
  · rw [result_readBody_number hs hn, result_readBody_number (h.trans hs) hn]
  have hn : startsNumber c = false := eq_false_of_ne_true hn
  by_cases ha : startsName c
  · by_cases hopen : ∃ after, skipBlank ((c :: rest).dropWhile continuesName) = '(' :: after
    · obtain ⟨after, ht⟩ := hopen
      rw [result_readBody_call hs hn ha ht, result_readBody_call (h.trans hs) hn ha ht]
    · have hopen := not_exists.mp hopen
      rw [result_readBody_name hs hn ha rfl hopen, result_readBody_name (h.trans hs) hn ha rfl hopen]
  · have ha : startsName c = false := eq_false_of_ne_true ha
    rw [result_readBody_unexpected hs hn ha, result_readBody_unexpected (h.trans hs) hn ha]

/-- **An empty argument list.** -/
theorem readArguments_close (hs : skipBlank cs = ')' :: rest) :
    (readArguments params cs).result = .ok ([], rest) := by
  rw [readArguments]
  split
  next tail h =>
    rw [hs] at h
    cases h
    rfl
  next hclose => exact absurd hs (hclose rest)

/-- **An argument list that is not empty.** -/
theorem readArguments_sequence (hs : ∀ tail, skipBlank cs ≠ ')' :: tail) :
    (readArguments params cs).result = (readSequence params cs).result := by
  rw [readArguments]
  split
  next tail h => exact absurd h (hs tail)
  next => rfl

/-- An argument that is refused. -/
theorem readSequence_error {e : Refusal} (hx : (readBody params cs).result = .error e) :
    (readSequence params cs).result = .error e := by
  rw [readSequence]
  split
  next e' he =>
    rw [he] at hx
    cases hx
    rfl
  next he =>
    rw [he] at hx
    cases hx

/-- **Behind an argument** there are others, or the list is closed. -/
theorem result_readSequence {x : Body} (hx : (readBody params cs).result = .ok (x, rest)) :
    (readSequence params cs).result =
      match skipBlank rest with
      | ',' :: after => do
        let (xs, left) ← (readSequence params after).result
        return (x :: xs, left)
      | ')' :: after => .ok ([x], after)
      | after => .error (.fault after .unseparated) := by
  obtain ⟨hrest, hx⟩ := Step.eq_ok_of_result hx
  rw [readSequence, hx]
  split
  next e he => cases he
  next x' rest' hrest' he =>
    cases he
    split
    next after hs =>
      simp only [hs]
      rcases readSequence params after with e | ⟨⟨xs, left⟩, hleft⟩ <;> rfl
    next after hs =>
      simp only [hs]
      rfl
    next hcomma hclose =>
      split
      next after hs => exact absurd hs (hcomma after)
      next after hs => exact absurd hs (hclose after)
      next => rfl

theorem result_readSequence_congr {ds : List Char} (h : skipBlank ds = skipBlank cs) :
    (readSequence params ds).result = (readSequence params cs).result := by
  have hbody : (readBody params ds).result = (readBody params cs).result := result_readBody_congr h
  rcases hx : (readBody params cs).result with e | ⟨x, rest⟩
  · rw [readSequence_error hx, readSequence_error (hbody.trans hx)]
  · rw [result_readSequence hx, result_readSequence (hbody.trans hx)]

/-! ## What succeeds -/

/-- **A number.** -/
theorem readBody_number {s : Scalar} (hs : skipBlank cs = c :: rest) (hn : startsNumber c)
    (hl : literal? (splitNumber none (c :: rest)).1 = some s) :
    (readBody params cs).result = .ok (.const s, (splitNumber none (c :: rest)).2) := by
  rw [result_readBody_number hs hn, hl]

/-- **A bare name.** -/
theorem readBody_name {b : Body} (hs : skipBlank cs = c :: rest) (hn : startsNumber c = false)
    (ha : startsName c) (ht : skipBlank ((c :: rest).dropWhile continuesName) = after)
    (hopen : ∀ tail, after ≠ '(' :: tail)
    (hb : atom params (String.ofList ((c :: rest).takeWhile continuesName)) = .ok b) :
    (readBody params cs).result = .ok (b, after) := by
  rw [result_readBody_name hs hn ha ht hopen, hb]
  rfl

/-- **A call.** -/
theorem readBody_call {b : Body} {args : List Body} (hs : skipBlank cs = c :: rest)
    (hn : startsNumber c = false) (ha : startsName c)
    (ht : skipBlank ((c :: rest).dropWhile continuesName) = '(' :: after)
    (hargs : (readArguments params after).result = .ok (args, left))
    (hb : application (String.ofList ((c :: rest).takeWhile continuesName)) args = .ok b) :
    (readBody params cs).result = .ok (b, left) := by
  rw [result_readBody_call hs hn ha ht, hargs]
  dsimp only [bind, Except.bind]
  rw [hb]
  rfl

/-- **The last argument.** -/
theorem readSequence_last {x : Body} (hx : (readBody params cs).result = .ok (x, rest))
    (hs : skipBlank rest = ')' :: after) :
    (readSequence params cs).result = .ok ([x], after) := by
  simp only [result_readSequence hx, hs]

/-- **An argument with others behind it.** -/
theorem readSequence_more {x : Body} {xs : List Body}
    (hx : (readBody params cs).result = .ok (x, rest)) (hs : skipBlank rest = ',' :: after)
    (hxs : (readSequence params after).result = .ok (xs, left)) :
    (readSequence params cs).result = .ok (x :: xs, left) := by
  simp only [result_readSequence hx, hs, hxs]
  rfl

/-! ## What a success tells -/

/-- **An expression is a number, a bare name or a call.** -/
theorem readBody_eq_ok {b : Body} (h : (readBody params cs).result = .ok (b, left)) :
    ∃ c rest, skipBlank cs = c :: rest ∧
      ((startsNumber c ∧ ∃ s, literal? (splitNumber none (c :: rest)).1 = some s ∧ b = .const s ∧
          left = (splitNumber none (c :: rest)).2) ∨
        (startsName c ∧
          atom params (String.ofList ((c :: rest).takeWhile continuesName)) = .ok b ∧
          left = skipBlank ((c :: rest).dropWhile continuesName)) ∨
        (startsName c ∧ ∃ after args,
          skipBlank ((c :: rest).dropWhile continuesName) = '(' :: after ∧
          (readArguments params after).result = .ok (args, left) ∧
          application (String.ofList ((c :: rest).takeWhile continuesName)) args = .ok b)) := by
  rw [readBody] at h
  split at h
  next => cases h
  next c rest hs =>
    refine ⟨c, rest, hs, ?_⟩
    split at h
    next hn =>
      split at h
      next s hl =>
        cases h
        exact .inl ⟨hn, s, hl, rfl, rfl⟩
      next => cases h
    next =>
      split at h
      next ha =>
        split at h
        next after hopen =>
          split at h
          next => cases h
          next args left' _ hargs =>
            dsimp only at h
            split at h
            next => cases h
            next body hb =>
              cases h
              exact .inr (.inr ⟨ha, after, args, hopen, by rw [hargs]; rfl, hb⟩)
        next =>
          dsimp only at h
          split at h
          next => cases h
          next body hb =>
            cases h
            exact .inr (.inl ⟨ha, hb, rfl⟩)
      next => cases h

/-- **An argument list is empty, or closes behind its last argument.** -/
theorem readArguments_eq_ok {xs : List Body} (h : (readArguments params cs).result = .ok (xs, left)) :
    (skipBlank cs = ')' :: left ∧ xs = []) ∨ (readSequence params cs).result = .ok (xs, left) := by
  rw [readArguments] at h
  split at h
  next rest hs =>
    cases h
    exact .inl ⟨hs, rfl⟩
  next => exact .inr h

/-- **An argument is the last one, or has others behind it.** -/
theorem readSequence_eq_ok {xs : List Body} (h : (readSequence params cs).result = .ok (xs, left)) :
    ∃ x rest, (readBody params cs).result = .ok (x, rest) ∧
      ((skipBlank rest = ')' :: left ∧ xs = [x]) ∨
        ∃ after ys, skipBlank rest = ',' :: after ∧
          (readSequence params after).result = .ok (ys, left) ∧ xs = x :: ys) := by
  rw [readSequence] at h
  split at h
  next => cases h
  next x rest _ hx =>
    refine ⟨x, rest, by rw [hx]; rfl, ?_⟩
    split at h
    next after hs =>
      split at h
      next => cases h
      next ys left' _ hys =>
        cases h
        exact .inr ⟨after, ys, hs, by rw [hys]; rfl, rfl⟩
    next after hs =>
      cases h
      exact .inl ⟨hs, rfl⟩
    next => cases h

end DeferredArrays.Kernel
