import DeferredArrays.Json.Writing
import Mathlib.Data.List.Forall2

/-!
# Proofs/Json/Spelling — tokens are split off the text they spell

A text of tokens is written without white space, so the reader has to find where each of them ends.
A string ends with its closing quote, as the quotes within it are escaped (`pieces?_quote`).  A
number ends where what follows cannot go on with it (`EndsNumber`, `local_number?`).  Hence tokens
are read back from their spelling as long as no number follows another (`ofText?_spellAll`).
-/

namespace DeferredArrays.Json.Token

/-! ## Strings -/

/-- Four hexadecimal digits are the number that they are written for. -/
theorem unit?_hexDigits : ∀ n < 0x20,
    unit? '0' '0' (hexDigit (n / 16)) (hexDigit (n % 16)) = some n := by decide

/-- The piece that a character of a string is read as: itself, or its number. -/
inductive Piece.Stands : Piece → Char → Prop
  | char (c : Char) : Stands (.char c) c
  | unit {c : Char} (h : c.toNat < 0x20) : Stands (.unit c.toNat) c

/-- **An escape is one piece**, whatever follows it. -/
theorem pieces?_escape (c : Char) :
    ∃ p, Piece.Stands p c ∧ ∀ rest, pieces? (escape c ++ rest) = do
      let (ps, left) ← pieces? rest
      return (p :: ps, left) := by
  by_cases hletter : c ∈ ['"', '\\', '\x08', '\x0c', '\n', '\r', '\t']
  · refine ⟨_, .char c, fun rest => ?_⟩
    simp only [List.mem_cons, List.not_mem_nil, or_false] at hletter
    rcases hletter with rfl | rfl | rfl | rfl | rfl | rfl | rfl <;> rfl
  · simp only [List.mem_cons, List.not_mem_nil, or_false, not_or] at hletter
    obtain ⟨hquote, hslash, hb, hf, hn, hr, ht⟩ := hletter
    rw [escape, if_neg hquote, if_neg hslash, if_neg hb, if_neg hf, if_neg hn, if_neg hr,
      if_neg ht]
    by_cases hcontrol : c.toNat < 0x20
    · refine ⟨_, .unit hcontrol, fun rest => ?_⟩
      rw [if_pos hcontrol]
      simp only [List.cons_append, List.nil_append]
      rw [pieces?, unit?_hexDigits _ hcontrol]
      rfl
    · refine ⟨_, .char c, fun rest => ?_⟩
      have hplain : ¬ (c = '\\' ∨ c.toNat < 0x20) := fun h => h.elim hslash hcontrol
      rw [if_neg hcontrol, List.singleton_append, pieces?, if_neg hplain]
      · exact hquote
      · exact fun _ _ _ _ _ h _ => hslash h
      · exact fun _ _ h _ => hslash h

/-- Control characters are no surrogates, so they need no partner. -/
theorem joinUnits_unit {n : Nat} (hn : n < 0x20) (ps : List Piece) :
    joinUnits (.unit n :: ps) = (joinUnits ps).map (Char.ofNat n :: ·) := by
  have hhigh : isHighSurrogate n = false := by
    simp only [isHighSurrogate, Bool.and_eq_false_iff, decide_eq_false_iff_not]
    omega
  have hlow : isLowSurrogate n = false := by
    simp only [isLowSurrogate, Bool.and_eq_false_iff, decide_eq_false_iff_not]
    omega
  rcases ps with _ | ⟨c | m, ps⟩ <;> simp [joinUnits, hhigh, hlow]

/-- Pieces that stand for characters are joined to these. -/
theorem joinUnits_eq {ps : List Piece} {cs : List Char} (h : List.Forall₂ Piece.Stands ps cs) :
    joinUnits ps = some cs := by
  induction h with
  | nil => rfl
  | cons hp _ ih =>
    cases hp with
    | char c => rw [joinUnits, ih]; rfl
    | unit hc => rw [joinUnits_unit hc, ih, Option.map_some, Char.ofNat_toNat]

/-- **A quoted text is read back**, whatever follows it. -/
theorem pieces?_quote (cs rest : List Char) : ∃ ps, List.Forall₂ Piece.Stands ps cs ∧
    pieces? (cs.flatMap escape ++ '"' :: rest) = some (ps, rest) := by
  induction cs with
  | nil => exact ⟨[], .nil, rfl⟩
  | cons c cs ih =>
    obtain ⟨p, hp, hread⟩ := pieces?_escape c
    obtain ⟨ps, hps, hrest⟩ := ih
    refine ⟨p :: ps, .cons hp hps, ?_⟩
    rw [List.flatMap_cons, List.append_assoc, hread, hrest]
    rfl

/-! ## Numbers -/

/-- What may follow a number without becoming part of it. -/
def EndsNumber (rest : List Char) : Prop :=
  ∀ c ∈ rest.head?, c.isDigit = false ∧ c ≠ '.' ∧ c ≠ 'e' ∧ c ≠ 'E'

/-- What is split off the front of a text is so whatever is added behind. -/
def Local (split : List Char → Option (List Char × List Char)) : Prop :=
  ∀ cs ds left rest, split cs = some (ds, left) → EndsNumber rest →
    split (cs ++ rest) = some (ds, left ++ rest)

/-- **Reading digits looks no further than the digits.** -/
theorem local_digits? : Local digits? := by
  intro cs ds left rest h hrest
  have hspan : (cs ++ rest).takeWhile Char.isDigit = cs.takeWhile Char.isDigit ∧
      (cs ++ rest).dropWhile Char.isDigit = cs.dropWhile Char.isDigit ++ rest := by
    clear h
    induction cs with
    | nil =>
      rcases rest with _ | ⟨c, rest⟩
      · exact ⟨rfl, rfl⟩
      · obtain ⟨hc, -⟩ := hrest c rfl
        simp [hc]
    | cons c cs ih =>
      by_cases hc : c.isDigit
      · simp [hc, ih]
      · simp [hc]
  rw [digits?] at h ⊢
  rw [hspan.1, hspan.2]
  split at h
  next => cases h
  next =>
    cases h
    rfl

/-- What does not start with a zero is any number of digits … -/
theorem whole?_of_ne {c : Char} (hc : c ≠ '0') (cs : List Char) :
    whole? (c :: cs) = digits? (c :: cs) := by
  rw [whole?]
  exact fun _ h => hc (List.cons.inj h).1

/-- … what has no point has no fraction … -/
theorem fraction?_of_ne {cs : List Char} (hcs : ∀ c ∈ cs.head?, c ≠ '.') :
    fraction? cs = some ([], cs) := by
  rw [fraction?]
  rintro rest rfl
  exact hcs '.' rfl rfl

/-- … what has no mark has no exponent … -/
theorem exponent?_of_ne {cs : List Char} (hcs : ∀ c ∈ cs.head?, ¬ (c = 'e' ∨ c = 'E')) :
    exponent? cs = some ([], cs) := by
  rcases cs with _ | ⟨c, cs⟩
  · rfl
  · exact if_neg (hcs c rfl)

/-- … and what has no minus has no sign. -/
theorem number?_of_ne {c : Char} (hc : c ≠ '-') (cs : List Char) :
    number? (c :: cs) = unsigned? (c :: cs) := by
  rw [number?]
  exact fun _ h => hc (List.cons.inj h).1

/-- Nor does reading the part before the point look further … -/
theorem local_whole? : Local whole? := by
  intro cs ds left rest h hrest
  rcases cs with _ | ⟨c, cs⟩
  · cases h
  by_cases hc : c = '0'
  · subst hc
    cases h
    rfl
  · rw [whole?_of_ne hc] at h
    rw [List.cons_append, whole?_of_ne hc]
    exact local_digits? _ _ _ _ h hrest

/-- … or the one behind it … -/
theorem local_fraction? : Local fraction? := by
  intro cs ds left rest h hrest
  rcases cs with _ | ⟨c, cs⟩
  · cases h
    exact fraction?_of_ne fun c hc => (hrest c hc).2.1
  by_cases hc : c = '.'
  · subst hc
    rw [fraction?] at h
    obtain ⟨⟨ds', left'⟩, hds, h⟩ := Option.bind_eq_some_iff.mp h
    cases h
    rw [List.cons_append, fraction?, local_digits? _ _ _ _ hds hrest]
    rfl
  · rw [fraction?_of_ne (by simpa using hc)] at h
    cases h
    exact fraction?_of_ne (by simpa using hc)

/-- … or the exponent … -/
theorem local_exponent? : Local exponent? := by
  intro cs ds left rest h hrest
  rcases cs with _ | ⟨c, cs⟩
  · cases h
    exact exponent?_of_ne fun c hc => not_or.mpr (hrest c hc).2.2
  by_cases hc : c = 'e' ∨ c = 'E'
  · unfold exponent? at h ⊢
    rw [List.cons_append]
    dsimp only at h ⊢
    rw [if_pos hc] at h ⊢
    rcases cs with _ | ⟨s, cs⟩
    · cases h
    dsimp only [List.cons_append] at h ⊢
    by_cases hs : s = '+' ∨ s = '-'
    · rw [if_pos hs] at h ⊢
      obtain ⟨⟨ds', left'⟩, hds, h⟩ := Option.bind_eq_some_iff.mp h
      cases h
      rw [local_digits? _ _ _ _ hds hrest]
      rfl
    · rw [if_neg hs] at h ⊢
      obtain ⟨⟨ds', left'⟩, hds, h⟩ := Option.bind_eq_some_iff.mp h
      cases h
      rw [← List.cons_append, local_digits? _ _ _ _ hds hrest]
      rfl
  · rw [exponent?_of_ne (by simpa using hc)] at h
    cases h
    exact exponent?_of_ne (by simpa using hc)

theorem local_unsigned? : Local unsigned? := by
  intro cs ds left rest h hrest
  rw [unsigned?] at h
  obtain ⟨⟨w, cs₁⟩, hw, h⟩ := Option.bind_eq_some_iff.mp h
  obtain ⟨⟨f, cs₂⟩, hf, h⟩ := Option.bind_eq_some_iff.mp h
  obtain ⟨⟨e, cs₃⟩, he, h⟩ := Option.bind_eq_some_iff.mp h
  cases h
  simp only [unsigned?, local_whole? _ _ _ _ hw hrest, local_fraction? _ _ _ _ hf hrest,
    local_exponent? _ _ _ _ he hrest, Option.bind_eq_bind, Option.bind_some, Option.pure_def]

/-- … and so no number does. -/
theorem local_number? : Local number? := by
  intro cs ds left rest h hrest
  rcases cs with _ | ⟨c, cs⟩
  · cases h
  by_cases hc : c = '-'
  · subst hc
    rw [number?] at h
    obtain ⟨⟨ds', left'⟩, hds, h⟩ := Option.bind_eq_some_iff.mp h
    cases h
    rw [List.cons_append, number?, local_unsigned? _ _ _ _ hds hrest]
    rfl
  · rw [number?_of_ne hc] at h
    rw [List.cons_append, number?_of_ne hc]
    exact local_unsigned? _ _ _ _ h hrest

/-- A number starts with a sign or a digit. -/
theorem isDigit_of_number? {c : Char} {cs : List Char} {r : List Char × List Char}
    (h : number? (c :: cs) = some r) : c = '-' ∨ c.isDigit := by
  by_cases hc : c = '-'
  · exact .inl hc
  by_cases hd : c.isDigit
  · exact .inr hd
  have h0 : c ≠ '0' := fun h0 => hd (by subst h0; rfl)
  rw [number?_of_ne hc, unsigned?, whole?_of_ne h0, digits?, List.takeWhile_cons_of_neg hd] at h
  cases h

/-! ## Tokens -/

/-- The spelling of a number. -/
def IsNumber (spelling : List Char) : Prop := number? spelling = some (spelling, [])

/-- The token at the front of a text that starts like a number. -/
theorem next?_of_number? {cs n left : List Char} (h : number? cs = some (n, left)) :
    next? cs = some (number n, left) := by
  rcases cs with _ | ⟨c, cs⟩
  · cases h
  have hc := isDigit_of_number? h
  have hne : ∀ d, d ≠ '-' → d.isDigit = false → c ≠ d := by
    rintro d hd hdigit rfl
    exact hc.elim hd fun h => Bool.false_ne_true (hdigit.symm.trans h)
  have hnext : next? (c :: cs) = (number? (c :: cs)).bind fun r => some (number r.1, r.2) := by
    rw [next?]
    · rfl
    all_goals
      intro _ hcons
      exact hne _ (by decide) (by decide) (List.cons.inj hcons).1
  rw [hnext, h]
  rfl

/-- **A token is split off its spelling**, whatever follows it that does not go on with a number. -/
theorem next?_spell {t : Token} {rest : List Char}
    (h : ∀ n, t = number n → IsNumber n ∧ EndsNumber rest) :
    next? (t.spell ++ rest) = some (t, rest) := by
  cases t with
  | openBrace | closeBrace | openBracket | closeBracket | comma | colon | null => rfl
  | bool b => cases b <;> rfl
  | number n =>
    obtain ⟨hn, hrest⟩ := h n rfl
    exact next?_of_number? (local_number? _ _ _ _ hn hrest)
  | text s =>
    rcases s with _ | s
    · rfl
    · obtain ⟨ps, hps, hread⟩ := pieces?_quote s.toList rest
      have hquote : (text (some s)).spell ++ rest =
          '"' :: (s.toList.flatMap escape ++ '"' :: rest) := by
        simp [spell, quote]
      rw [hquote, next?, hread]
      simp [joinUnits_eq hps]

/-- A spelling starts with a character that is not blank, and that of a number only with one that
another number could go on with. -/
theorem exists_spell_eq_cons {t : Token} (h : ∀ n, t = number n → IsNumber n) :
    ∃ c cs, t.spell = c :: cs ∧ isBlank c = false ∧
      ((∀ n, t ≠ number n) → c.isDigit = false ∧ c ≠ '.' ∧ c ≠ 'e' ∧ c ≠ 'E') := by
  cases t with
  | openBrace | closeBrace | openBracket | closeBracket | comma | colon | null =>
    exact ⟨_, _, rfl, by decide, fun _ => by decide⟩
  | bool b => cases b <;> exact ⟨_, _, rfl, by decide, fun _ => by decide⟩
  | text s => cases s <;> exact ⟨_, _, rfl, by decide, fun _ => by decide⟩
  | number n =>
    have hn : number? n = some (n, []) := h n rfl
    rcases n with _ | ⟨c, cs⟩
    · cases hn
    refine ⟨c, cs, rfl, ?_, fun hne => absurd rfl (hne _)⟩
    have hc := isDigit_of_number? hn
    have hne : ∀ d, d ≠ '-' → d.isDigit = false → (c == d) = false := by
      rintro d hd hdigit
      refine beq_eq_false_iff_ne.mpr ?_
      rintro rfl
      exact hc.elim hd fun h => Bool.false_ne_true (hdigit.symm.trans h)
    rw [isBlank, hne ' ' (by decide) (by decide), hne '\t' (by decide) (by decide),
      hne '\n' (by decide) (by decide), hne '\r' (by decide) (by decide)]
    rfl

/-- **Tokens that can be written without white space between them**: numbers are spelled as numbers,
and none follows another. -/
def Separable : List Token → Prop
  | [] => True
  | t :: ts => (∀ n, t = number n → IsNumber n ∧ ∀ m, ts.head? ≠ some (number m)) ∧ Separable ts

/-- A token that is no number may stand anywhere. -/
theorem Separable.cons {t : Token} {ts : List Token} (hts : Separable ts)
    (ht : ∀ n, t ≠ number n) : Separable (t :: ts) :=
  ⟨fun n hn => absurd hn (ht n), hts⟩

/-- A number ends before tokens that do not go on with one. -/
theorem Separable.endsNumber {ts : List Token} (hs : Separable ts)
    (hts : ∀ m, ts.head? ≠ some (number m)) : EndsNumber (spellAll ts) := by
  rcases ts with _ | ⟨t, ts⟩
  · exact fun c hc => nomatch hc
  · obtain ⟨c, cs, hspell, -, hc⟩ := exists_spell_eq_cons fun n hn => (hs.1 n hn).1
    rw [spellAll, List.flatMap_cons, hspell]
    rintro d hd
    obtain rfl : c = d := Option.some.inj hd
    exact hc fun m hm => hts m (congrArg some hm)

/-- Tokens are split off one after the other, as long as the limit lasts. -/
theorem split?_spellAll {ts : List Token} (hs : Separable ts) {limit : Nat}
    (hlimit : (spellAll ts).length ≤ limit) : split? limit (spellAll ts) = some ts := by
  induction ts generalizing limit with
  | nil => cases limit <;> rfl
  | cons t ts ih =>
    obtain ⟨ht, hts⟩ := hs
    obtain ⟨c, cs, hspell, hblank, -⟩ := exists_spell_eq_cons fun n hn => (ht n hn).1
    have hnext := next?_spell fun n hn => ⟨(ht n hn).1, hts.endsNumber (ht n hn).2⟩
    have htext : spellAll (t :: ts) = c :: (cs ++ spellAll ts) := by
      rw [spellAll, List.flatMap_cons, hspell]
      rfl
    rw [hspell, List.cons_append] at hnext
    rw [htext, List.length_cons, List.length_append] at hlimit
    obtain ⟨limit, rfl⟩ : ∃ l, limit = l + 1 := ⟨limit - 1, by omega⟩
    rw [htext, split?, if_neg (by simp [hblank]), hnext]
    simp [ih hts (by omega : (spellAll ts).length ≤ limit)]

/-- **A text of tokens is split into these tokens.** -/
theorem ofText?_spellAll {ts : List Token} (hs : Separable ts) :
    ofText? (spellAll ts) = some ts :=
  split?_spellAll hs (Nat.le_refl _)

end DeferredArrays.Json.Token
