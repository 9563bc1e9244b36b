import DeferredArrays.Proofs.Decimal.Spelling
import DeferredArrays.Proofs.Kernel.Productions

/-!
# Proofs/Kernel/Printing — a printed body is read back

`Body.text` prints a body in prefix form: operators as called names, constants as literals,
parameters by name.  Reading a printed body gives it back (`ofText_text`), provided that its
parameters exist and that their names can be told apart from each other and from the constants.

The reader takes tokens as long as possible, so what matters is that no token goes on where it
should end: every token of a printed body is followed by a delimiter (`Delimited`), and a delimiter
continues neither names nor numbers.  Literals are the delicate tokens.  Some are names (`true`,
`inf`, `NaN`), the others are numbers with a sign or an exponent among their characters
(`literal_cases`).
-/

namespace DeferredArrays.Kernel

open Binary64 Decimal Numeral Text

/-! ## Delimiters -/

/-- A rest behind which no token goes on: the end of the text, or a character of punctuation. -/
def Delimited (rest : List Char) : Prop :=
  ∀ c cs, rest = c :: cs → c = ',' ∨ c = '(' ∨ c = ')'

/-- What may follow a name is a parenthesis … -/
theorem delimited_open (cs : List Char) : Delimited ('(' :: cs) := by
  rintro _ _ ⟨⟩
  exact .inr (.inl rfl)

/-- A rest behind which no expression goes on: it does not open a call either. -/
def Closing (rest : List Char) : Prop := ∀ c cs, rest = c :: cs → c = ',' ∨ c = ')'

/-- … or what an argument ends with: nothing, a comma or a parenthesis. -/
theorem Closing.delimited {rest : List Char} (h : Closing rest) : Delimited rest := by
  intro c cs hrest
  rcases h c cs hrest with h | h <;> simp [h]

theorem closing_nil : Closing [] := fun _ _ h => nomatch h

theorem closing_comma (cs : List Char) : Closing (',' :: cs) := by
  rintro _ _ ⟨⟩
  exact .inl rfl

theorem closing_parenthesis (cs : List Char) : Closing (')' :: cs) := by
  rintro _ _ ⟨⟩
  exact .inr rfl

/-- A delimiter is not blank. -/
theorem skipBlank_of_delimited {rest : List Char} (h : Delimited rest) : skipBlank rest = rest := by
  cases rest with
  | nil => rfl
  | cons c cs =>
    have hc : isWhiteSpace c = false := by
      rcases h c cs rfl with rfl | rfl | rfl <;> decide
    simp [skipBlank, hc]

/-! ## Names -/

/-- **A name**, as the reader delimits them. -/
def IsName (cs : List Char) : Prop :=
  ∃ c rest, cs = c :: rest ∧ startsName c ∧ rest.all continuesName

/-- Every character of a name continues it. -/
theorem IsName.continues {cs : List Char} (h : IsName cs) : ∀ a ∈ cs, continuesName a := by
  obtain ⟨c, rest, rfl, hc, hrest⟩ := h
  intro a ha
  rcases List.mem_cons.mp ha with rfl | ha
  · exact continuesName_of_startsName hc
  · exact List.all_eq_true.mp hrest a ha

theorem continuesName_of_isDigit {c : Char} (h : c.isDigit) : continuesName c := by
  have hascii : c.toNat < 128 := Nat.lt_of_le_of_lt (Char.isDigit_iff_toNat.mp h).2 (by decide)
  simp [continuesName, isAlphanumeric, isNumeric_ascii hascii, h]

/-- **A name ends before a character that does not continue it.** -/
theorem span_name {cs rest : List Char} (h : IsName cs)
    (hend : ∀ c tail, rest = c :: tail → ¬ continuesName c) :
    (cs ++ rest).takeWhile continuesName = cs ∧ (cs ++ rest).dropWhile continuesName = rest := by
  have hstops : Stops continuesName rest := fun c tail hrest =>
    eq_false_of_ne_true (hend c tail hrest)
  exact ⟨takeWhile_append_of_stops h.continues hstops, dropWhile_append_of_stops h.continues hstops⟩

/-- A delimiter continues no name. -/
theorem Delimited.not_continuesName {rest : List Char} (hr : Delimited rest) (c : Char)
    (tail : List Char) (hrest : rest = c :: tail) : ¬ continuesName c := by
  rcases hr c tail hrest with rfl | rfl | rfl <;> decide

/-- Within ASCII, names start with letters and the underscore. -/
theorem startsName_ascii {c : Char} (hc : c.toNat < 128) (h : startsName c) :
    c = '_' ∨ (65 ≤ c.toNat ∧ c.toNat ≤ 90) ∨ (97 ≤ c.toNat ∧ c.toNat ≤ 122) := by
  simp only [startsName, isAlphabetic_ascii hc, Char.isAlpha, Char.isUpper, Char.isLower,
    Bool.or_eq_true, Bool.and_eq_true, decide_eq_true_eq, beq_iff_eq, ge_iff_le,
    UInt32.le_iff_toNat_le] at h
  exact h.symm

/-- Names and numbers start differently. -/
theorem startsNumber_of_startsName {c : Char} (h : startsName c) : startsNumber c = false := by
  rw [← Bool.not_eq_true]
  intro hn
  have hle : c.toNat ≤ 57 := by
    simp only [startsNumber, Bool.or_eq_true, beq_iff_eq, Char.isDigit_iff_toNat] at hn
    rcases hn with ((⟨_, hn⟩ | rfl) | rfl) | rfl
    · exact hn
    all_goals decide
  rcases startsName_ascii (by omega) h with rfl | hl | hl
  · exact absurd hle (by decide)
  · omega
  · omega

/-- Ranges that do not meet have no member in common. -/
theorem inRanges_of_disjoint {rs ts : List (Nat × Nat)} {n : Nat}
    (hdisj : (rs.all fun r => ts.all fun t => decide (r.2 < t.1) || decide (t.2 < r.1)) = true)
    (h : inRanges rs n) : inRanges ts n = false := by
  obtain ⟨r, hr, hn⟩ := List.any_eq_true.mp h
  rw [← Bool.not_eq_true]
  intro ht
  obtain ⟨t, ht, hm⟩ := List.any_eq_true.mp ht
  have hrt := List.all_eq_true.mp (List.all_eq_true.mp hdisj r hr) t ht
  simp only [Bool.and_eq_true, Bool.or_eq_true, decide_eq_true_eq] at hn hm hrt
  omega

/-- No name starts with white space. -/
theorem isWhiteSpace_of_startsName {c : Char} (h : startsName c) : isWhiteSpace c = false := by
  rw [← Bool.not_eq_true]
  intro hw
  by_cases hc : c.toNat < 128
  · have hrange : c.toNat ≤ 32 := by
      simp only [isWhiteSpace, inRanges, whiteSpaceRanges, List.any_cons, List.any_nil,
        Bool.or_eq_true, Bool.and_eq_true, decide_eq_true_eq, Bool.or_false] at hw
      omega
    rcases startsName_ascii hc h with rfl | hl | hl
    · exact absurd hrange (by decide)
    · omega
    · omega
  · have halpha : inRanges alphabeticRanges c.toNat = false :=
      inRanges_of_disjoint (by decide +kernel) hw
    have hname : c ≠ '_' := by
      rintro rfl
      exact hc (by decide)
    simp [startsName, isAlphabetic, hc, halpha, hname] at h

/-! ## Numbers -/

/-- Every character of a text continues the number before it; `prev` is the last character of that
number. -/
def ContinuesAll (prev : Option Char) : List Char → Prop
  | [] => True
  | c :: cs => continuesNumber prev c ∧ ContinuesAll (some c) cs

/-- **A number**, as the reader delimits them. -/
def IsNumber (cs : List Char) : Prop :=
  ∃ c rest, cs = c :: rest ∧ startsNumber c ∧ ContinuesAll (some c) rest

/-- **A number ends before a delimiter.** -/
theorem splitNumber_delimited {cs rest : List Char} {prev : Option Char}
    (h : ContinuesAll prev cs) (hr : Delimited rest) :
    splitNumber prev (cs ++ rest) = (cs, rest) := by
  induction cs generalizing prev with
  | nil =>
    cases rest with
    | nil => rfl
    | cons c rest =>
      have hc : continuesNumber prev c = false := by
        rcases hr c rest rfl with rfl | rfl | rfl <;> simp [continuesNumber]
      simp [splitNumber, hc]
  | cons c cs ih => simp [splitNumber, h.1, ih h.2]

/-- So it is split off whole. -/
theorem splitNumber_of_isNumber {cs rest : List Char} (h : IsNumber cs) (hr : Delimited rest) :
    splitNumber none (cs ++ rest) = (cs, rest) := by
  obtain ⟨c, tail, rfl, hc, htail⟩ := h
  exact splitNumber_delimited ⟨continuesNumber_of_startsNumber hc, htail⟩ hr

/-- Plain characters may stand before anything a number goes on with … -/
theorem continuesAll_append {as bs : List Char} (ha : ∀ c ∈ as, IsPlain c)
    (hb : ∀ prev, ContinuesAll prev bs) (prev : Option Char) : ContinuesAll prev (as ++ bs) := by
  induction as generalizing prev with
  | nil => exact hb prev
  | cons c as ih =>
    refine ⟨?_, ih (fun c hc => ha c (List.mem_cons_of_mem _ hc)) _⟩
    rcases ha c List.mem_cons_self with h | h <;> simp [continuesNumber, h]

/-- … and on their own. -/
theorem continuesAll_of_forall {cs : List Char} (h : ∀ c ∈ cs, IsPlain c) (prev : Option Char) :
    ContinuesAll prev cs := by
  have hnil : ∀ p, ContinuesAll p [] := fun _ => trivial
  have hcs := continuesAll_append h hnil prev
  rwa [List.append_nil] at hcs

/-- A sign may follow the mark of an exponent. -/
theorem continuesAll_exponent (i : Int) (prev : Option Char) :
    ContinuesAll prev ('e' :: Decimal.intChars i) := by
  have hdigits : ∀ p, ContinuesAll p (Decimal.digitChars i.natAbs) :=
    continuesAll_of_forall fun _ => isPlain_of_mem_digitChars
  refine ⟨by simp [continuesNumber], ?_⟩
  unfold Decimal.intChars
  split
  · exact ⟨by simp [continuesNumber], hdigits _⟩
  · exact hdigits _

/-- **No literal is cut short by the reader** — a sign stands at its front or behind the mark of an
exponent only. -/
theorem continuesAll_literalChars (d : Decimal) (prev : Option Char) :
    ContinuesAll prev d.literalChars := by
  unfold Decimal.literalChars
  split
  · refine continuesAll_of_forall (fun _ => isPlain_of_mem_positional fun c hc => ?_) prev
    rcases List.mem_pair.mp hc with rfl | rfl
    · exact .inr rfl
    · exact .inl (by decide)
  · refine continuesAll_append (fun c hc => ?_) (fun _ => continuesAll_exponent _ _) prev
    rcases List.mem_append.mp hc with hc | hc
    · exact isPlain_of_mem_digitChars (List.mem_of_mem_take hc)
    · split at hc
      · cases hc
      · rcases List.mem_cons.mp hc with rfl | hc
        · exact .inr rfl
        · exact isPlain_of_mem_digitChars (List.mem_of_mem_drop hc)

/-! ## Literals -/

/-- What starts with a digit and goes on as a number is one, also behind a minus sign. -/
theorem isNumber_signed {cs : List Char} (hstart : StartsWithDigit cs)
    (h : ∀ prev, ContinuesAll prev cs) (minus : Bool) : IsNumber (signed minus cs) := by
  cases minus with
  | true => exact ⟨'-', cs, rfl, by decide, h _⟩
  | false =>
    obtain ⟨c, rest, rfl, hc⟩ := hstart
    exact ⟨c, rest, rfl, by simp [startsNumber, hc], (h none).2⟩

/-- The spelling of an integer is a number … -/
theorem isNumber_intChars (i : Int) : IsNumber (Decimal.intChars i) := by
  have h := isNumber_signed (startsWithDigit_digitChars i.natAbs)
    (continuesAll_of_forall fun _ => isPlain_of_mem_digitChars) (decide (i < 0))
  simpa [Decimal.intChars, signed] using h

/-- … that reads as this integer. -/
theorem literal?_intChars (i : Int64) : literal? (Decimal.intChars i.toInt) = some (.int i) := by
  rw [literal?, int64?_intChars]
  rfl

/-- What spells no integer may spell a float. -/
theorem literal?_of_float? {cs : List Char} {x : Float} (hint : int64? cs = none)
    (hfloat : float? cs = some x) : literal? cs = some (.float x) := by
  rw [literal?, hint, hfloat]
  rfl

/-- How a literal is read: as a constant's name, or as a number. -/
def ReadsAs (cs : List Char) (s : Scalar) : Prop :=
  (IsName cs ∧ constant? (String.ofList cs) = some s) ∨ (IsNumber cs ∧ literal? cs = some s)

/-- The literal of a finite float is a number. -/
theorem readsAs_finite {x : Float} (h : magnitude x < infinite) :
    ReadsAs (literalText x).toList (.float x) := by
  have hstart := startsWithDigit_literalChars (shortest (magnitude x))
  obtain ⟨c, hmem, hc⟩ := exists_not_isDigit_literalChars (shortest (magnitude x))
  have hunsigned :
      (splitSign (literalText x).toList).2 = (shortest (magnitude x)).literalChars := by
    rw [toList_literalText_of_lt_infinite h]
    cases negative x
    · exact congrArg Prod.snd (splitSign_of_startsWithDigit hstart)
    · rfl
  right
  refine ⟨?_, literal?_of_float? (int64?_eq_none (hunsigned ▸ hmem) hc) (float?_literalText x)⟩
  rw [toList_literalText_of_lt_infinite h]
  exact isNumber_signed hstart (continuesAll_literalChars _) _

/-- Of the infinities, the positive one is spelled by a name and the negative one by a number. -/
theorem readsAs_infinite {x : Float} (h : magnitude x = infinite) :
    ReadsAs (literalText x).toList (.float x) := by
  have hread := float?_literalText x
  have hx := ofMagnitude_magnitude x
  rw [toList_literalText_of_eq_infinite h] at hread ⊢
  cases hn : negative x with
  | false =>
    left
    rw [hn, h] at hx
    rw [← hx]
    exact ⟨⟨'i', _, rfl, by decide, by decide⟩, rfl⟩
  | true =>
    right
    rw [hn] at hread
    have hint : int64? (signed true ['i', 'n', 'f']) = none :=
      int64?_eq_none (c := 'i') (by decide) (by decide)
    have hrest : ContinuesAll (some '-') ['i', 'n', 'f'] :=
      ⟨by decide, by decide, by decide, trivial⟩
    exact ⟨⟨'-', _, rfl, by decide, hrest⟩, literal?_of_float? hint hread⟩

/-- That of the NaN is a name. -/
theorem readsAs_nan {x : Float} (h : infinite < magnitude x) :
    ReadsAs (literalText x).toList (.float x) := by
  left
  rw [literalText_of_infinite_lt h, eq_nan h]
  exact ⟨⟨'N', _, rfl, by decide, by decide⟩, rfl⟩

/-- **The literal of a float reads as this float.** -/
theorem readsAs_float (x : Float) : ReadsAs (literalText x).toList (.float x) := by
  rcases Nat.lt_trichotomy (magnitude x) infinite with hfin | hinf | hnan
  · exact readsAs_finite hfin
  · exact readsAs_infinite hinf
  · exact readsAs_nan hnan

/-- **Every literal reads as the scalar it is written for.** -/
theorem readsAs_literal (s : Scalar) : ReadsAs s.literal.toList s := by
  cases s with
  | bool b =>
    left
    cases b
    · exact ⟨⟨'f', _, rfl, by decide, by decide⟩, by decide⟩
    · exact ⟨⟨'t', _, rfl, by decide, by decide⟩, by decide⟩
  | int i =>
    right
    have htext : (Scalar.int i).literal.toList = Decimal.intChars i.toInt := by
      simp [Scalar.literal, Scalar.intText]
    rw [htext]
    exact ⟨isNumber_intChars _, literal?_intChars i⟩
  | float x => exact readsAs_float x

/-! ## Bodies -/

namespace Body

/-- **The printed form of a body**, with parameters by name. -/
def text (params : List Param) : Body → String
  | param i => (params[i]?.map Param.name).getD ""
  | const s => s.literal
  | unary op x => op.name ++ "(" ++ x.text params ++ ")"
  | binary op x y => op.name ++ "(" ++ x.text params ++ ", " ++ y.text params ++ ")"

/-- Every parameter of a body exists. -/
def Closed (params : List Param) (b : Body) : Prop := ∀ i ∈ b.paramIndices, i < params.length

/-- Every parameter of a body is read back from its name. -/
def Legible (params : List Param) (b : Body) : Prop :=
  ∀ i ∈ b.paramIndices, ∃ p, params[i]? = some p ∧ IsName p.name.toList ∧
    atom params p.name = .ok (.param i)

end Body

/-- Every parameter is read back from its name: the names are names, of no constant, and pairwise
distinct. -/
def Legible (params : List Param) : Prop :=
  ∀ i p, params[i]? = some p → IsName p.name.toList ∧ atom params p.name = .ok (.param i)

/-- If all parameters can be read back, those of a body can that exist. -/
theorem Legible.body {params : List Param} (hp : Legible params) {b : Body}
    (hb : b.Closed params) : b.Legible params := by
  intro i hi
  have hlt : i < params.length := hb i hi
  have hget : params[i]? = some params[i] := List.getElem?_eq_getElem hlt
  exact ⟨params[i], hget, hp i _ hget⟩

/-- Distinct names that no constant has can be read back. -/
theorem legible_of_nodup {params : List Param}
    (hname : ∀ p ∈ params, IsName p.name.toList ∧ constant? p.name = none)
    (hnodup : (params.map Param.name).Nodup) : Legible params := by
  intro i p hp
  obtain ⟨hi, rfl⟩ := List.getElem?_eq_some_iff.mp hp
  obtain ⟨hn, hc⟩ := hname _ (List.getElem_mem hi)
  have hfind : params.findIdx? (·.name == params[i].name) = some i := by
    refine List.findIdx?_eq_some_iff_getElem.mpr ⟨hi, by simp, fun j hj => ?_⟩
    have hj' : j < params.length := Nat.lt_trans hj hi
    have hne := List.pairwise_iff_getElem.mp hnodup j i (by simpa using hj') (by simpa using hi) hj
    simpa using hne
  refine ⟨hn, ?_⟩
  rw [atom, hc, hfind]

/-- Operators have names that can be read … -/
theorem isName_unary (op : UnaryOp) : IsName op.name.toList := by
  cases op <;> exact ⟨_, _, rfl, by decide, by decide⟩

theorem isName_binary (op : BinaryOp) : IsName op.name.toList := by
  cases op <;> exact ⟨_, _, rfl, by decide, by decide⟩

/-- … and are found by them. -/
theorem application_unary (op : UnaryOp) (x : Body) :
    application op.name [x] = .ok (.unary op x) := by
  rw [application, UnaryOp.ofName?_name]

/-- No binary operator has the name of a unary one. -/
theorem ofName?_binaryName (op : BinaryOp) : UnaryOp.ofName? op.name = none := by
  cases op <;> decide

/-- So a binary operator is found by its name, too. -/
theorem application_binary (op : BinaryOp) (x y : Body) :
    application op.name [x, y] = .ok (.binary op x y) := by
  rw [application, ofName?_binaryName, BinaryOp.ofName?_name]

variable {params : List Param} {cs rest : List Char}

/-! ### Reading, token by token -/

/-- A name that nothing follows is a parameter or a constant … -/
theorem readBody_atom {token : List Char} {b : Body} (hname : IsName token)
    (hs : skipBlank cs = token ++ rest) (hr : Closing rest)
    (hb : atom params (String.ofList token) = .ok b) :
    (readBody params cs).result = .ok (b, rest) := by
  obtain ⟨htake, hdrop⟩ := span_name hname hr.delimited.not_continuesName
  have hopen : ∀ tail, rest ≠ '(' :: tail := fun tail h => by
    rcases hr _ _ h with h | h <;> cases h
  obtain ⟨c, tail, rfl, hc, htail⟩ := hname
  rw [List.cons_append] at hs htake hdrop
  refine readBody_name hs (startsNumber_of_startsName hc) hc ?_ hopen ?_
  · rw [hdrop, skipBlank_of_delimited hr.delimited]
  · rw [htake, hb]

/-- … a literal is the scalar that it reads as … -/
theorem readBody_literal {token : List Char} {s : Scalar} (h : ReadsAs token s)
    (hs : skipBlank cs = token ++ rest) (hr : Closing rest) :
    (readBody params cs).result = .ok (.const s, rest) := by
  rcases h with ⟨hname, hconst⟩ | ⟨hnumber, hlit⟩
  · refine readBody_atom hname hs hr ?_
    rw [atom, hconst]
  · have hsplit := splitNumber_of_isNumber hnumber hr.delimited
    obtain ⟨c, tail, rfl, hc, htail⟩ := hnumber
    rw [List.cons_append] at hs hsplit
    rw [readBody_number hs hc (by rw [hsplit]; exact hlit), hsplit]

/-- … and a name with arguments behind it is an operator. -/
theorem readBody_application {token after left : List Char} {args : List Body} {b : Body}
    (hname : IsName token) (hs : skipBlank cs = token ++ '(' :: after)
    (hargs : (readArguments params after).result = .ok (args, left))
    (hb : application (String.ofList token) args = .ok b) :
    (readBody params cs).result = .ok (b, left) := by
  obtain ⟨htake, hdrop⟩ := span_name hname (delimited_open after).not_continuesName
  obtain ⟨c, tail, rfl, hc, htail⟩ := hname
  rw [List.cons_append] at hs htake hdrop
  refine readBody_call hs (startsNumber_of_startsName hc) hc ?_ hargs ?_
  · rw [hdrop, skipBlank_of_delimited (delimited_open after)]
  · rw [htake, hb]

/-! ### The first character of a printed body -/

/-- A text starts with a token: it is not blank, and no argument list ends there. -/
def StartsToken (cs : List Char) : Prop :=
  ∃ c tail, cs = c :: tail ∧ isWhiteSpace c = false ∧ c ≠ ')'

/-- Names start a token … -/
theorem IsName.startsToken {cs : List Char} (h : IsName cs) : StartsToken cs := by
  obtain ⟨c, tail, rfl, hc, _⟩ := h
  refine ⟨c, tail, rfl, isWhiteSpace_of_startsName hc, ?_⟩
  rintro rfl
  exact absurd hc (by decide)

/-- … numbers do … -/
theorem IsNumber.startsToken {cs : List Char} (h : IsNumber cs) : StartsToken cs := by
  obtain ⟨c, tail, rfl, hc, _⟩ := h
  have hrange : 43 ≤ c.toNat ∧ c.toNat ≤ 57 := by
    simp only [startsNumber, Bool.or_eq_true, beq_iff_eq, Char.isDigit_iff_toNat] at hc
    rcases hc with ((⟨h0, h9⟩ | rfl) | rfl) | rfl
    · exact ⟨Nat.le_trans (by decide) h0, h9⟩
    all_goals decide
  refine ⟨c, tail, rfl, ?_, ?_⟩
  · rw [← Bool.not_eq_true]
    intro hw
    simp only [isWhiteSpace, inRanges, whiteSpaceRanges, List.any_cons, List.any_nil,
      Bool.or_eq_true, Bool.and_eq_true, decide_eq_true_eq, Bool.or_false] at hw
    omega
  · rintro rfl
    exact absurd hrange.1 (by decide)

/-- … and so every literal does. -/
theorem ReadsAs.startsToken {cs : List Char} {s : Scalar} (h : ReadsAs cs s) : StartsToken cs := by
  rcases h with ⟨h, _⟩ | ⟨h, _⟩
  · exact h.startsToken
  · exact h.startsToken

theorem StartsToken.append {as : List Char} (h : StartsToken as) (bs : List Char) :
    StartsToken (as ++ bs) := by
  obtain ⟨c, tail, rfl, hc⟩ := h
  exact ⟨c, tail ++ bs, rfl, hc⟩

/-- What starts a token is not blank … -/
theorem StartsToken.skipBlank {cs : List Char} (h : StartsToken cs) : skipBlank cs = cs := by
  obtain ⟨c, tail, rfl, hc, _⟩ := h
  simp [Kernel.skipBlank, hc]

/-- … and does not close a list of arguments. -/
theorem StartsToken.ne_close {cs : List Char} (h : StartsToken cs) (tail : List Char) :
    Kernel.skipBlank cs ≠ ')' :: tail := by
  rw [h.skipBlank]
  obtain ⟨c, _, rfl, _, hne⟩ := h
  rintro ⟨⟩
  exact hne rfl

/-- **A printed body starts a token.** -/
theorem startsToken_text {b : Body} (hb : b.Legible params) :
    StartsToken (b.text params).toList := by
  cases b with
  | param i =>
    obtain ⟨p, hget, hname, _⟩ := hb i (List.mem_singleton.mpr rfl)
    rw [Body.text, hget]
    exact hname.startsToken
  | const s => exact (readsAs_literal s).startsToken
  | unary op x =>
    simp only [Body.text, String.toList_append, List.append_assoc]
    exact (isName_unary op).startsToken.append _
  | binary op x y =>
    simp only [Body.text, String.toList_append, List.append_assoc]
    exact (isName_binary op).startsToken.append _

/-! ### Reading a printed body -/

/-- **A printed body is read back, whatever closes it.**  Induction on the body: each operand is
followed by the comma or parenthesis that ends it. -/
theorem readBody_text {b : Body} (hb : b.Legible params) {cs rest : List Char}
    (hs : skipBlank cs = (b.text params).toList ++ rest) (hr : Closing rest) :
    (readBody params cs).result = .ok (b, rest) := by
  induction b generalizing cs rest with
  | param i =>
    obtain ⟨p, hget, hname, hatom⟩ := hb i (List.mem_singleton.mpr rfl)
    rw [Body.text, hget] at hs
    exact readBody_atom hname hs hr (by rw [String.ofList_toList]; exact hatom)
  | const s => exact readBody_literal (readsAs_literal s) hs hr
  | unary op x ihx =>
    have htoken := (startsToken_text (b := x) hb).append (')' :: rest)
    have hclose := closing_parenthesis rest
    have hx := ihx hb htoken.skipBlank hclose
    have hargs := readSequence_last hx (skipBlank_of_delimited hclose.delimited)
    refine readBody_application (isName_unary op) ?_
      ((readArguments_sequence htoken.ne_close).trans hargs) ?_
    · rw [hs]
      simp [Body.text]
    · rw [String.ofList_toList, application_unary]
  | binary op x y ihx ihy =>
    have hbx : x.Legible params := fun i hi => hb i (List.mem_append_left _ hi)
    have hby : y.Legible params := fun i hi => hb i (List.mem_append_right _ hi)
    have htokeny := (startsToken_text hby).append (')' :: rest)
    have htokenx := (startsToken_text hbx).append
      (',' :: ' ' :: ((y.text params).toList ++ ')' :: rest))
    have hclose := closing_parenthesis rest
    have hcomma := closing_comma (' ' :: ((y.text params).toList ++ ')' :: rest))
    have hblank : skipBlank (' ' :: ((y.text params).toList ++ ')' :: rest))
        = (y.text params).toList ++ ')' :: rest := htokeny.skipBlank
    have hx := ihx hbx htokenx.skipBlank hcomma
    have hy := ihy hby hblank hclose
    have hargs := readSequence_more hx (skipBlank_of_delimited hcomma.delimited)
      (readSequence_last hy (skipBlank_of_delimited hclose.delimited))
    refine readBody_application (isName_binary op) ?_
      ((readArguments_sequence htokenx.ne_close).trans hargs) ?_
    · rw [hs]
      simp [Body.text]
    · rw [String.ofList_toList, application_binary]

/-- **Reading undoes printing.** -/
theorem ofText_text_of_legible {b : Body} (hb : b.Legible params) :
    Body.ofText params (b.text params).toList = .ok b := by
  have htoken := startsToken_text hb
  have hskip : skipBlank (b.text params).toList = (b.text params).toList ++ [] := by
    rw [List.append_nil, htoken.skipBlank]
  have hread := readBody_text hb hskip closing_nil
  obtain ⟨hlt, hread⟩ := Step.eq_ok_of_result hread
  rw [Body.ofText, hread]
  rfl

/-- If all parameters can be read back, every body over them is. -/
theorem ofText_text (hp : Legible params) {b : Body} (hb : b.Closed params) :
    Body.ofText params (b.text params).toList = .ok b := ofText_text_of_legible (hp.body hb)

end DeferredArrays.Kernel
