import DeferredArrays.Decimal.Numeral
import DeferredArrays.Proofs.Decimal.Exact
import DeferredArrays.Proofs.Number.Bits
import DeferredArrays.Scalar

/-!
# Proofs/Decimal/Spelling — what is written is read back

Numbers are written by `Decimal.Text` and read by `Decimal.Numeral`, which share no code.  Two
theorems join them:

* `int64?_intChars` — an integer reads back from its digits.
* `float?_literalText` — a float reads back from its literal form, the NaN, the infinities and both
  zeros included.

Between them lies `decimal?_literalChars`: whatever the layout, the digits and the place of the
point spell the decimal itself, up to zeros at its end, and those do not matter to reading.
-/

namespace DeferredArrays

open Binary64 Decimal

namespace Text

/-! ## Classes of characters -/

section Stops

variable {p : Char → Bool} {cs ds rest left : List Char}

/-- A text does not go on with a character of a class. -/
def Stops (p : Char → Bool) (rest : List Char) : Prop := ∀ c tail, rest = c :: tail → p c = false

/-- A text of a class, up to where the class stops … -/
theorem takeWhile_append_of_stops (h : ∀ c ∈ cs, p c) (hr : Stops p rest) :
    (cs ++ rest).takeWhile p = cs := by
  rw [List.takeWhile_append_of_pos h]
  cases rest with
  | nil => simp
  | cons c rest => simp [hr c rest rfl]

/-- … and what is behind it. -/
theorem dropWhile_append_of_stops (h : ∀ c ∈ cs, p c) (hr : Stops p rest) :
    (cs ++ rest).dropWhile p = rest := by
  rw [List.dropWhile_append_of_pos h]
  cases rest with
  | nil => rfl
  | cons c rest => simp [hr c rest rfl]

/-- **Where a class stops, a text is split in one way only.** -/
theorem append_inj_of_stops (hcs : ∀ c ∈ cs, p c) (hds : ∀ c ∈ ds, p c) (hrest : Stops p rest)
    (hleft : Stops p left) (h : cs ++ rest = ds ++ left) : cs = ds ∧ rest = left := by
  constructor
  · rw [← takeWhile_append_of_stops hcs hrest, h, takeWhile_append_of_stops hds hleft]
  · rw [← dropWhile_append_of_stops hcs hrest, h, dropWhile_append_of_stops hds hleft]

end Stops

end Text

open Text

namespace Numeral

/-! ## Digits -/

/-- Digits in two parts are worth the first part, shifted, and the second. -/
theorem ofDigits_append (as bs : List Char) :
    ofDigits (as ++ bs) = ofDigits as * 10 ^ bs.length + ofDigits bs := by
  have h : Nat.ofDigitChars 10 bs (ofDigits as) = 10 ^ bs.length * ofDigits as + ofDigits bs :=
    Nat.ofDigitChars_eq_ofDigitChars_zero
  rw [Nat.mul_comm]
  exact List.foldl_append.trans h

/-- Zeros are worth nothing. -/
theorem ofDigits_zeros (n : Nat) : ofDigits (zeros n) = 0 := by
  have h : ofDigits (zeros n) = 10 ^ n * 0 := Nat.ofDigitChars_replicate_zero
  rw [h, Nat.mul_zero]

/-- **A number is what its digits are worth.** -/
theorem ofDigits_digitChars (n : Nat) : ofDigits (digitChars n) = n :=
  Nat.ofDigitChars_ten_toDigits

theorem isDigit_of_mem_digitChars {n : Nat} {c : Char} (h : c ∈ digitChars n) : c.isDigit :=
  Nat.isDigit_of_mem_toDigits (by decide) (by decide) h

theorem isDigit_of_mem_zeros {n : Nat} {c : Char} (h : c ∈ zeros n) : c.isDigit := by
  rw [(List.mem_replicate.mp h).2]
  decide

theorem width_pos (n : Nat) : 0 < width n := Nat.length_toDigits_pos

theorem digitChars_ne_nil (n : Nat) : digitChars n ≠ [] := List.ne_nil_of_length_pos (width_pos n)

/-- So a number reads back from its digits. -/
theorem natural?_digitChars (n : Nat) : natural? (digitChars n) = some n := by
  have hall : (digitChars n).all Char.isDigit :=
    List.all_eq_true.mpr fun _ => isDigit_of_mem_digitChars
  rw [natural?, if_pos ⟨digitChars_ne_nil n, hall⟩, ofDigits_digitChars]

/-! ## Characters of spellings -/

/-- A character that continues any number. -/
def IsPlain (c : Char) : Prop := c.isAlphanum ∨ c = '.'

theorem isPlain_of_isDigit {c : Char} (h : c.isDigit) : IsPlain c :=
  .inl (by simp [Char.isAlphanum, h])

theorem isPlain_of_mem_digitChars {n : Nat} {c : Char} (h : c ∈ digitChars n) : IsPlain c :=
  isPlain_of_isDigit (isDigit_of_mem_digitChars h)

theorem isPlain_of_mem_zeros {n : Nat} {c : Char} (h : c ∈ zeros n) : IsPlain c :=
  isPlain_of_isDigit (isDigit_of_mem_zeros h)

/-- Positional spellings have no sign. -/
theorem isPlain_of_mem_positional {d : Decimal} {whole : List Char} {c : Char}
    (hwhole : ∀ c ∈ whole, IsPlain c) (h : c ∈ d.positional whole) : IsPlain c := by
  have hpoint : IsPlain '.' := .inr rfl
  have hzero : IsPlain '0' := .inl (by decide)
  simp only [positional] at h
  split at h
  · simp only [List.cons_append, List.mem_cons, List.mem_append] at h
    rcases h with rfl | rfl | h | h
    · exact hzero
    · exact hpoint
    · exact isPlain_of_mem_zeros h
    · exact isPlain_of_mem_digitChars h
  · split at h
    · simp only [List.mem_append] at h
      rcases h with (h | h) | h
      · exact isPlain_of_mem_digitChars h
      · exact isPlain_of_mem_zeros h
      · exact hwhole c h
    · simp only [List.mem_append, List.mem_cons] at h
      rcases h with h | rfl | h
      · exact isPlain_of_mem_digitChars (List.mem_of_mem_take h)
      · exact hpoint
      · exact isPlain_of_mem_digitChars (List.mem_of_mem_drop h)

/-! ## Signs -/

/-- A text starts with a digit. -/
def StartsWithDigit (cs : List Char) : Prop := ∃ c rest, cs = c :: rest ∧ c.isDigit

theorem StartsWithDigit.append {as : List Char} (h : StartsWithDigit as) (bs : List Char) :
    StartsWithDigit (as ++ bs) := by
  obtain ⟨c, rest, rfl, hc⟩ := h
  exact ⟨c, rest ++ bs, rfl, hc⟩

theorem startsWithDigit_of_all {cs : List Char} (hne : cs ≠ []) (h : ∀ c ∈ cs, c.isDigit) :
    StartsWithDigit cs := by
  cases cs with
  | nil => exact absurd rfl hne
  | cons c rest => exact ⟨c, rest, rfl, h c List.mem_cons_self⟩

theorem startsWithDigit_digitChars (n : Nat) : StartsWithDigit (digitChars n) :=
  startsWithDigit_of_all (digitChars_ne_nil n) fun _ => isDigit_of_mem_digitChars

/-- What starts with a digit has no sign. -/
theorem splitSign_of_startsWithDigit {cs : List Char} (h : StartsWithDigit cs) :
    splitSign cs = (false, cs) := by
  obtain ⟨c, rest, rfl, hc⟩ := h
  unfold splitSign
  split
  next heq => cases heq; exact absurd hc (by decide)
  next heq => cases heq; exact absurd hc (by decide)
  next => rfl

/-- A sign and a number. -/
theorem signed?_of_natural? {cs ds : List Char} {minus : Bool} {n : Nat}
    (hs : splitSign cs = (minus, ds)) (hn : natural? ds = some n) :
    signed? cs = some (if minus then -(n : Int) else n) := by
  simp [signed?, hs, hn]

/-- **An integer of any size reads back from its spelling.** -/
theorem signed?_intChars (i : Int) : signed? (intChars i) = some i := by
  unfold intChars
  split
  next hneg =>
    have hsign : splitSign ('-' :: digitChars i.natAbs) = (true, digitChars i.natAbs) := rfl
    rw [signed?_of_natural? hsign (natural?_digitChars _), if_pos rfl]
    congr 1
    omega
  next hpos =>
    rw [signed?_of_natural? (splitSign_of_startsWithDigit (startsWithDigit_digitChars _))
      (natural?_digitChars _), if_neg Bool.false_ne_true]
    congr 1
    omega

/-- **An integer reads back from its digits.** -/
theorem int64?_intChars (i : Int64) : int64? (intChars i.toInt) = some i := by
  have hrange : Int64.minValue.toInt ≤ i.toInt ∧ i.toInt ≤ Int64.maxValue.toInt :=
    ⟨i.minValue_le_toInt, i.toInt_le⟩
  simp only [int64?, signed?_intChars, Option.bind_eq_bind, Option.bind_some]
  rw [if_pos hrange, Int64.ofInt_toInt]

/-- A text with anything but digits in it, its sign apart, spells no integer. -/
theorem int64?_eq_none {cs : List Char} {c : Char} (hc : c ∈ (splitSign cs).2)
    (hdigit : c.isDigit = false) : int64? cs = none := by
  have hall : ¬ (splitSign cs).2.all Char.isDigit := fun h => by
    have := List.all_eq_true.mp h c hc
    simp [hdigit] at this
  have hnat : natural? (splitSign cs).2 = none := if_neg fun h => hall h.2
  simp [int64?, signed?, hnat]

/-! ## Fractions -/

/-- A text does not go on with a digit. -/
def EndsDigits (cs : List Char) : Prop := ∀ c rest, cs = c :: rest → c.isDigit = false

theorem takeWhile_digits {ds rest : List Char} (h : ∀ c ∈ ds, c.isDigit) (hr : EndsDigits rest) :
    (ds ++ rest).takeWhile Char.isDigit = ds := takeWhile_append_of_stops h hr

theorem dropWhile_digits {ds rest : List Char} (h : ∀ c ∈ ds, c.isDigit) (hr : EndsDigits rest) :
    (ds ++ rest).dropWhile Char.isDigit = rest := dropWhile_append_of_stops h hr

/-- **Digits around a point**, and the exponent part behind them. -/
theorem decimal?_point {whole fraction rest : List Char} {e : Int} (hw : ∀ c ∈ whole, c.isDigit)
    (hf : ∀ c ∈ fraction, c.isDigit) (hne : whole ≠ []) (hr : EndsDigits rest)
    (he : exponent? rest = some e) :
    decimal? (whole ++ '.' :: (fraction ++ rest))
      = some (toMagnitude ⟨ofDigits (whole ++ fraction), e - fraction.length⟩) := by
  have hpoint : EndsDigits ('.' :: (fraction ++ rest)) := by
    rintro c cs ⟨⟩
    decide
  have hne' : whole ++ fraction ≠ [] := by simp [hne]
  simp only [decimal?, takeWhile_digits hw hpoint, dropWhile_digits hw hpoint, splitFraction,
    takeWhile_digits hf hr, dropWhile_digits hf hr, if_neg hne', he, Option.bind_eq_bind,
    Option.bind_some]

/-- An exponent follows its mark. -/
theorem exponent?_mark (cs : List Char) : exponent? ('e' :: cs) = signed? cs := by
  rw [exponent?, if_pos (.inl rfl)]

/-- **Digits without a point**, and the exponent part behind them. -/
theorem decimal?_exponent {whole cs : List Char} {e : Int} (hw : ∀ c ∈ whole, c.isDigit)
    (hne : whole ≠ []) (he : signed? cs = some e) :
    decimal? (whole ++ 'e' :: cs) = some (toMagnitude ⟨ofDigits whole, e⟩) := by
  have hmark : EndsDigits ('e' :: cs) := by
    rintro c cs ⟨⟩
    decide
  have hfraction : splitFraction ('e' :: cs) = ([], 'e' :: cs) := rfl
  have hexponent : exponent? ('e' :: cs) = some e := (exponent?_mark cs).trans he
  simp only [decimal?, takeWhile_digits hw hmark, dropWhile_digits hw hmark, hfraction,
    List.append_nil, if_neg hne, hexponent, Option.bind_eq_bind, Option.bind_some,
    List.length_nil, Nat.cast_zero, Int.sub_zero]

/-- Any number of zeros may be written at the end. -/
theorem toMagnitude_mul_pow (n k : Nat) (e : Int) :
    toMagnitude ⟨n * 10 ^ k, e - k⟩ = toMagnitude ⟨n, e⟩ := by
  induction k with
  | zero => simp
  | succ k ih =>
    have happend : (⟨n * 10 ^ (k + 1), e - (k + 1 : Nat)⟩ : Decimal)
        = appendZero ⟨n * 10 ^ k, e - k⟩ := by
      rw [appendZero, pow_succ, Nat.mul_assoc]
      congr 1
      push_cast
      ring
    rw [happend, toMagnitude_appendZero, ih]

/-! ## The literal form of a decimal -/

theorem width_eq (d : Decimal) : (width d.digits : Int) = (digitChars d.digits).length := rfl

theorem endsDigits_nil : EndsDigits [] := fun _ _ h => nomatch h

theorem isDigit_of_mem_digits_zeros {n k : Nat} {c : Char} (h : c ∈ digitChars n ++ zeros k) :
    c.isDigit := by
  rcases List.mem_append.mp h with h | h
  · exact isDigit_of_mem_digitChars h
  · exact isDigit_of_mem_zeros h

/-- The point before the digits: `0.00ddd`. -/
theorem decimal?_before {d : Decimal} (h : d.point ≤ 0) :
    decimal? ('0' :: '.' :: (zeros (-d.point).toNat ++ digitChars d.digits))
      = some d.toMagnitude := by
  have hpoint : d.point = width d.digits + d.exponent := rfl
  have hlen := width_eq d
  have hfraction : ∀ c ∈ zeros (-d.point).toNat ++ digitChars d.digits, c.isDigit := fun c hc =>
    isDigit_of_mem_digits_zeros (List.mem_append.mpr (List.mem_append.mp hc).symm)
  have hwhole : ∀ c ∈ ['0'], c.isDigit := List.forall_mem_singleton.mpr (by decide)
  have hread := decimal?_point hwhole hfraction (by decide) endsDigits_nil rfl
  rw [List.append_nil] at hread
  refine hread.trans (congrArg (some ∘ toMagnitude) ?_)
  have hzero : ofDigits ['0'] = 0 := rfl
  have hcount : (zeros (-d.point).toNat).length = (-d.point).toNat := List.length_replicate
  rw [ofDigits_append, ofDigits_append, ofDigits_zeros, ofDigits_digitChars, hzero,
    List.length_append, hcount]
  congr 1
  · omega
  · push_cast
    omega

/-- The point behind the digits: `ddd00.0`. -/
theorem decimal?_behind {d : Decimal} (h : ((digitChars d.digits).length : Int) ≤ d.point) :
    decimal? (digitChars d.digits ++ zeros (d.point - (digitChars d.digits).length).toNat
      ++ ['.', '0']) = some d.toMagnitude := by
  have hpoint : d.point = width d.digits + d.exponent := rfl
  have hlen := width_eq d
  obtain ⟨k, hk⟩ := Int.eq_ofNat_of_zero_le (show 0 ≤ d.exponent by omega)
  have hzeros : (d.point - (digitChars d.digits).length).toNat = k := by omega
  have hne : digitChars d.digits ++ zeros k ≠ [] := by simp [digitChars_ne_nil]
  have hfraction : ∀ c ∈ ['0'], c.isDigit := List.forall_mem_singleton.mpr (by decide)
  have hread := decimal?_point (fun _ => isDigit_of_mem_digits_zeros) hfraction hne endsDigits_nil
    rfl
  have hvalue : ofDigits (digitChars d.digits ++ zeros k ++ ['0']) = d.digits * 10 ^ (k + 1) := by
    have hsnoc : zeros k ++ ['0'] = zeros (k + 1) := List.replicate_succ'.symm
    rw [List.append_assoc, hsnoc, ofDigits_append, ofDigits_zeros, ofDigits_digitChars,
      zeros, List.length_replicate, Nat.add_zero]
  have hexponent : (0 : Int) - (['0'].length : Nat) = d.exponent - (k + 1 : Nat) := by
    simp [hk]
  rw [hzeros]
  refine hread.trans (congrArg some ?_)
  rw [hvalue, hexponent, toMagnitude_mul_pow]

/-- The point among the digits: `dd.d`. -/
theorem decimal?_among {d : Decimal} (hbefore : ¬ d.point ≤ 0)
    (hbehind : ¬ ((digitChars d.digits).length : Int) ≤ d.point) :
    decimal? ((digitChars d.digits).take d.point.toNat ++
      '.' :: (digitChars d.digits).drop d.point.toNat) = some d.toMagnitude := by
  have hpoint : d.point = width d.digits + d.exponent := rfl
  have hlen := width_eq d
  have htake : ∀ c ∈ (digitChars d.digits).take d.point.toNat, c.isDigit := fun c hc =>
    isDigit_of_mem_digitChars (List.mem_of_mem_take hc)
  have hdrop : ∀ c ∈ (digitChars d.digits).drop d.point.toNat, c.isDigit := fun c hc =>
    isDigit_of_mem_digitChars (List.mem_of_mem_drop hc)
  have hne : (digitChars d.digits).take d.point.toNat ≠ [] := by
    simp only [ne_eq, List.take_eq_nil_iff, not_or]
    exact ⟨by omega, digitChars_ne_nil d.digits⟩
  have hread := decimal?_point htake hdrop hne endsDigits_nil rfl
  rw [List.append_nil] at hread
  refine hread.trans (congrArg (some ∘ toMagnitude) ?_)
  rw [List.take_append_drop, ofDigits_digitChars, List.length_drop]
  congr 1
  omega

/-- **The positional form spells the decimal.** -/
theorem decimal?_positional (d : Decimal) :
    decimal? (d.positional ['.', '0']) = some d.toMagnitude := by
  unfold positional
  by_cases hbefore : d.point ≤ 0
  · rw [if_pos hbefore]
    exact decimal?_before hbefore
  · by_cases hbehind : ((digitChars d.digits).length : Int) ≤ d.point
    · rw [if_neg hbefore, if_pos hbehind]
      exact decimal?_behind hbehind
    · rw [if_neg hbefore, if_neg hbehind]
      exact decimal?_among hbefore hbehind

/-- **The form with an exponent spells the decimal.** -/
theorem decimal?_scientific (d : Decimal) : decimal? d.scientific = some d.toMagnitude := by
  have hpoint : d.point = width d.digits + d.exponent := rfl
  have hlen := width_eq d
  have hpos := width_pos d.digits
  have htake : ∀ c ∈ (digitChars d.digits).take 1, c.isDigit := fun c hc =>
    isDigit_of_mem_digitChars (List.mem_of_mem_take hc)
  have hne : (digitChars d.digits).take 1 ≠ [] := by simp [digitChars_ne_nil]
  have hexponent := signed?_intChars (d.point - 1)
  cases hfraction : (digitChars d.digits).drop 1 with
  | nil =>
    have hone : (digitChars d.digits).length ≤ 1 := List.drop_eq_nil_iff.mp hfraction
    have hread := decimal?_exponent htake hne hexponent
    simp only [scientific, hfraction, List.isEmpty_nil, if_true, List.append_nil]
    refine hread.trans (congrArg (some ∘ toMagnitude) ?_)
    rw [List.take_of_length_le hone, ofDigits_digitChars]
    congr 1
    omega
  | cons c cs =>
    have hdrop : ∀ a ∈ c :: cs, a.isDigit := fun a ha =>
      isDigit_of_mem_digitChars (List.mem_of_mem_drop (hfraction ▸ ha))
    have hmark : EndsDigits ('e' :: intChars (d.point - 1)) := by
      rintro c cs ⟨⟩
      decide
    have hread := decimal?_point htake hdrop hne hmark ((exponent?_mark _).trans hexponent)
    have hsplit : (digitChars d.digits).take 1 ++ c :: cs = digitChars d.digits := by
      rw [← hfraction, List.take_append_drop]
    have hcount : (c :: cs).length = (digitChars d.digits).length - 1 := by
      rw [← hfraction, List.length_drop]
    simp only [scientific, hfraction, List.isEmpty_cons, Bool.false_eq_true, if_false,
      List.append_assoc, List.cons_append]
    refine hread.trans (congrArg (some ∘ toMagnitude) ?_)
    rw [hsplit, ofDigits_digitChars, hcount]
    congr 1
    omega

/-- **The literal form spells the decimal**, whichever of the two it is. -/
theorem decimal?_literalChars (d : Decimal) : decimal? d.literalChars = some d.toMagnitude := by
  unfold literalChars
  split
  · exact decimal?_positional d
  · exact decimal?_scientific d

/-! ## The literal form of a float -/

/-- A literal starts with a digit, once its sign is off. -/
theorem startsWithDigit_literalChars (d : Decimal) : StartsWithDigit d.literalChars := by
  have hdigits := startsWithDigit_digitChars d.digits
  have htake {n : Nat} (hn : n ≠ 0) : StartsWithDigit ((digitChars d.digits).take n) := by
    obtain ⟨c, rest, hcs, hc⟩ := hdigits
    obtain ⟨m, rfl⟩ := Nat.exists_eq_succ_of_ne_zero hn
    exact ⟨c, rest.take m, by rw [hcs, List.take_succ_cons], hc⟩
  simp only [literalChars, positional, scientific]
  split
  · split
    · exact ⟨'0', _, rfl, by decide⟩
    · split
      · exact (hdigits.append _).append _
      · exact (htake (by omega)).append _
  · exact ((htake Nat.one_ne_zero).append _).append _

/-- The literal form cannot be mistaken for an integer. -/
theorem exists_not_isDigit_literalChars (d : Decimal) :
    ∃ c ∈ d.literalChars, c.isDigit = false := by
  simp only [literalChars, positional, scientific]
  split
  · refine ⟨'.', ?_, by decide⟩
    split
    · simp
    · split <;> simp
  · exact ⟨'e', by simp, by decide⟩

theorem toLower_of_isDigit {c : Char} (h : c.isDigit) : c.toLower = c := by
  have h9 : c.val.toNat ≤ 57 := (Char.isDigit_iff_toNat.mp h).2
  have hA : ¬ (c.val ≥ 'A'.val ∧ c.val ≤ 'Z'.val) := by
    rw [ge_iff_le, UInt32.le_iff_toNat_le]
    intro hu
    have h65 : 65 ≤ c.val.toNat := hu.1
    omega
  rw [Char.toLower, dif_neg hA]

/-- What starts with a digit is not the name of a float. -/
theorem named?_of_startsWithDigit {cs : List Char} (h : StartsWithDigit cs) : named? cs = none := by
  obtain ⟨c, rest, rfl, hc⟩ := h
  have hhead : ∀ a : Char, a.isDigit = false → c ≠ a := by
    rintro a ha rfl
    simp [hc] at ha
  have hi := hhead 'i' (by decide)
  have hn := hhead 'n' (by decide)
  simp [named?, toLower_of_isDigit hc, hi, hn]

/-- A minus sign, if there is to be one, in front of an unsigned spelling. -/
def signed (minus : Bool) (cs : List Char) : List Char := if minus then '-' :: cs else cs

/-- **A float reads back from its sign and the spelling of its magnitude.** -/
theorem float?_signed {cs : List Char} {b : Nat} (hsign : splitSign cs = (false, cs))
    (hread : (named? cs <|> decimal? cs) = some b) (hb : b ≤ infinite) (minus : Bool) :
    float? (signed minus cs) = some (ofMagnitude minus b) := by
  have hsplit : splitSign (signed minus cs) = (minus, cs) := by
    cases minus
    · exact hsign
    · rfl
  simp only [float?, hsplit, hread, Option.map_some, if_neg (Nat.not_lt.mpr hb)]

theorem float?_nan : float? "NaN".toList = some nan := by
  have hname : named? "NaN".toList = some (infinite + 1) := by decide
  have hsign : splitSign "NaN".toList = (false, "NaN".toList) := by decide
  simp only [float?, hsign, hname, Option.orElse_some, Option.orElse_eq_orElse, Option.map_some,
    if_pos (Nat.lt_succ_self infinite)]

end Numeral

namespace Binary64

open Numeral

/-- The literal forms of the NaN … -/
theorem literalText_of_infinite_lt {x : Float} (h : infinite < magnitude x) :
    literalText x = "NaN" := by
  simp only [literalText, textWith, if_pos h]

/-- … of the infinities … -/
theorem toList_literalText_of_eq_infinite {x : Float} (h : magnitude x = infinite) :
    (literalText x).toList = signed (negative x) ['i', 'n', 'f'] := by
  simp only [literalText, textWith, if_neg (Nat.not_lt.mpr h.le), if_pos h, String.toList_ofList]
  rfl

/-- … and of the other floats. -/
theorem toList_literalText_of_lt_infinite {x : Float} (h : magnitude x < infinite) :
    (literalText x).toList = signed (negative x) (shortest (magnitude x)).literalChars := by
  simp only [literalText, textWith, if_neg (Nat.not_lt.mpr h.le), if_neg h.ne, String.toList_ofList]
  rfl

end Binary64

namespace Numeral

/-- **A float reads back from its literal form.** -/
theorem float?_literalText (x : Float) : float? (literalText x).toList = some x := by
  have hx := ofMagnitude_magnitude x
  rcases Nat.lt_trichotomy (magnitude x) infinite with hfin | hinf | hnan
  · have hstart := startsWithDigit_literalChars (shortest (magnitude x))
    have hread : (named? (shortest (magnitude x)).literalChars <|>
        decimal? (shortest (magnitude x)).literalChars) = some (magnitude x) := by
      rw [named?_of_startsWithDigit hstart, decimal?_literalChars, toMagnitude_shortest hfin]
      rfl
    rw [toList_literalText_of_lt_infinite hfin,
      float?_signed (splitSign_of_startsWithDigit hstart) hread hfin.le, hx]
  · have hread : (named? ['i', 'n', 'f'] <|> decimal? ['i', 'n', 'f']) = some infinite := by
      have hname : named? ['i', 'n', 'f'] = some infinite := by decide
      rw [hname]
      rfl
    rw [toList_literalText_of_eq_infinite hinf, float?_signed (by decide) hread (Nat.le_refl _),
      ← hinf, hx]
  · rw [literalText_of_infinite_lt hnan, float?_nan, ← eq_nan hnan]

end Numeral

end DeferredArrays
