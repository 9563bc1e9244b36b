import DeferredArrays.Proofs.Decimal.Spelling
import DeferredArrays.Tensor.Text

/-!
# Proofs/Tensor/Display — the text of an array is its elements in nested blocks

The text of an array is built from slots: an axis starts its entries a stride apart, and no block of
elements is ever cut out.  Here the same text is rendered from blocks.  The elements are split into
as many consecutive parts as the first dimension says, and each of these is rendered with the
dimensions that remain (`nestedText`).  Both come to the same text, dimensions of zero included
(`blockText_eq_nestedText`): the entry of a block is the entry of the array at the slot where the
block starts, and further on (`blocks_eq_map_range`).  A stride may be cut off, but not that of an
array with elements: there it is not larger than their number.

If no dimension is zero, the text tells the dimensions and the texts of the elements.  No element
has a bracket, a comma or a blank in its text (`isSpelling_text`), so a text that starts with that
of an array determines where it ends, and what is left (`nestedText_inj`).
-/

namespace DeferredArrays

open Binary64 Decimal Numeral Text

/-! ## The texts of elements -/

/-- **A spelling of an element**: it is not empty, and made of letters, digits, points and signs. -/
def IsSpelling (cs : List Char) : Prop := cs ≠ [] ∧ ∀ c ∈ cs, IsPlain c ∨ c = '-'

theorem isSpelling_signed {cs : List Char} (hne : cs ≠ []) (h : ∀ c ∈ cs, IsPlain c)
    (minus : Bool) : IsSpelling (signed minus cs) := by
  cases minus with
  | false => exact ⟨hne, fun c hc => .inl (h c hc)⟩
  | true =>
    refine ⟨List.cons_ne_nil _ _, fun c hc => ?_⟩
    rcases List.mem_cons.mp hc with rfl | hc
    · exact .inr rfl
    · exact .inl (h c hc)

theorem positional_ne_nil (d : Decimal) (whole : List Char) : d.positional whole ≠ [] := by
  simp only [positional]
  split
  · exact List.cons_ne_nil _ _
  · split
    · have hdigits := digitChars_ne_nil d.digits
      simp [hdigits]
    · exact List.append_ne_nil_of_right_ne_nil _ (List.cons_ne_nil _ _)

theorem isSpelling_plainText (x : Float) : IsSpelling (plainText x).toList := by
  rw [plainText, textWith]
  dsimp only
  split
  · exact ⟨by decide, by simp [IsPlain]⟩
  · rw [String.toList_ofList]
    refine isSpelling_signed ?_ ?_ (negative x)
    · split
      · decide
      · exact positional_ne_nil _ _
    · split
      · simp [IsPlain]
      · exact fun _ => isPlain_of_mem_positional fun _ hc => absurd hc List.not_mem_nil

/-- **The text of every element is a spelling.** -/
theorem isSpelling_text (s : Scalar) : IsSpelling s.text.toList := by
  rcases s with b | i | x
  · cases b <;> exact ⟨by decide, by simp [Scalar.text, Scalar.boolText, IsPlain]⟩
  · have hsigned := isSpelling_signed (digitChars_ne_nil i.toInt.natAbs)
      (fun _ => isPlain_of_mem_digitChars) (decide (i.toInt < 0))
    simpa [Scalar.text, Scalar.intText, intChars, signed] using hsigned
  · exact isSpelling_plainText x

/-- A character that does not end an entry, as a comma and a closing bracket do. -/
def continuesEntry (c : Char) : Bool := c != ',' && c != ']'

theorem IsSpelling.ne {cs : List Char} (h : IsSpelling cs) {c d : Char} (hc : c ∈ cs)
    (hd : ¬ (IsPlain d ∨ d = '-')) : c ≠ d := fun hcd => hd (hcd ▸ h.2 c hc)

theorem IsSpelling.continues {cs : List Char} (h : IsSpelling cs) : ∀ c ∈ cs, continuesEntry c :=
  fun c hc => by
    have hcomma : c ≠ ',' := h.ne hc (by simp [IsPlain])
    have hclose : c ≠ ']' := h.ne hc (by simp [IsPlain])
    simp [continuesEntry, hcomma, hclose]

/-! ## The characters of arrays and shapes -/

/-- Of entries with separators, the first, and each of the others behind a separator. -/
theorem intercalate_cons_eq_flatMap {α : Type} (separator x : List α) (xs : List (List α)) :
    separator.intercalate (x :: xs) = x ++ xs.flatMap (separator ++ ·) := by
  induction xs generalizing x with
  | nil => simp
  | cons y ys ih =>
    rw [List.intercalate_cons_cons, ih, List.flatMap_cons, List.append_assoc, List.append_assoc]

/-- **A character of an array or a shape in text**: that of a spelling, or what is written around
the entries. -/
def IsShown (c : Char) : Prop := c ∈ ['[', ']', ',', ' '] ∨ IsPlain c ∨ c = '-'

theorem isShown_bracketed {parts : List String} (h : ∀ p ∈ parts, ∀ c ∈ p.toList, IsShown c) :
    ∀ c ∈ ("[" ++ ", ".intercalate parts ++ "]").toList, IsShown c := by
  have hopen : ∀ c ∈ "[".toList, IsShown c := by simp [IsShown]
  have hclose : ∀ c ∈ "]".toList, IsShown c := by simp [IsShown]
  have hcomma : ∀ c ∈ ", ".toList, IsShown c := by simp [IsShown]
  have hparts : ∀ c ∈ (", ".intercalate parts).toList, IsShown c := by
    rw [String.toList_intercalate]
    rcases parts with _ | ⟨p, parts⟩
    · simp
    rw [List.map_cons, intercalate_cons_eq_flatMap]
    intro c hc
    rcases List.mem_append.mp hc with hc | hc
    · exact h p List.mem_cons_self c hc
    obtain ⟨_, hmem, hc⟩ := List.mem_flatMap.mp hc
    obtain ⟨q, hq, rfl⟩ := List.mem_map.mp hmem
    rcases List.mem_append.mp hc with hc | hc
    · exact hcomma c hc
    · exact h q (List.mem_cons_of_mem p hq) c hc
  intro c hc
  rw [String.toList_append, String.toList_append, List.mem_append, List.mem_append] at hc
  rcases hc with (hc | hc) | hc
  · exact hopen c hc
  · exact hparts c hc
  · exact hclose c hc

theorem isShown_shape (s : Shape) : ∀ c ∈ s.text.toList, IsShown c := by
  refine isShown_bracketed fun p hp c hc => ?_
  obtain ⟨d, -, rfl⟩ := List.mem_map.mp hp
  rw [Nat.repr, String.toList_ofList] at hc
  exact .inr (.inl (isPlain_of_mem_digitChars hc))

theorem isShown_blockText {element : UInt64 → String}
    (h : ∀ i, ∀ c ∈ (element i).toList, IsShown c) (ds : List Nat) (slot : UInt64) :
    ∀ c ∈ (Tensor.blockText element ds slot).toList, IsShown c := by
  induction ds generalizing slot with
  | nil => exact h slot
  | cons d ds ih =>
    refine isShown_bracketed fun p hp => ?_
    obtain ⟨i, -, rfl⟩ := List.mem_map.mp hp
    exact ih _

theorem isShown_text (a : Tensor) : ∀ c ∈ a.text.toList, IsShown c := by
  refine isShown_blockText (fun i c hc => ?_) a.shape.dims 0
  rw [Tensor.elementText] at hc
  rcases hs : a.elements.toList.toArray[i.toNat]? with _ | s
  · rw [hs] at hc
    exact absurd hc List.not_mem_nil
  · rw [hs] at hc
    exact .inr ((isSpelling_text s).2 c hc)

namespace Tensor

/-! ## Blocks -/

section Blocks

variable {α : Type} {size n : Nat} {xs b : List α}

/-- The first `n` blocks of `size` entries. -/
def blocks (size : Nat) : Nat → List α → List (List α)
  | 0, _ => []
  | n + 1, xs => xs.take size :: blocks size n (xs.drop size)

@[simp] theorem length_blocks (size n : Nat) (xs : List α) : (blocks size n xs).length = n := by
  induction n generalizing xs with
  | zero => rfl
  | succ n ih => rw [blocks, List.length_cons, ih]

/-- **Nothing is lost or moved** if the blocks are as many as fit. -/
theorem flatten_blocks (h : xs.length = n * size) : (blocks size n xs).flatten = xs := by
  induction n generalizing xs with
  | zero =>
    rw [Nat.zero_mul] at h
    exact (List.eq_nil_of_length_eq_zero h).symm
  | succ n ih =>
    have hrest : (xs.drop size).length = n * size := by
      rw [List.length_drop, h, Nat.succ_mul, Nat.add_sub_cancel]
    rw [blocks, List.flatten_cons, ih hrest, List.take_append_drop]

/-- **The blocks start a size apart.** -/
theorem blocks_eq_map_range (size n : Nat) (xs : List α) :
    blocks size n xs = (List.range n).map fun i => (xs.drop (i * size)).take size := by
  induction n generalizing xs with
  | zero => rfl
  | succ n ih =>
    rw [blocks, ih, List.range_succ_eq_map, List.map_cons, List.map_map, Nat.zero_mul,
      List.drop_zero]
    refine congrArg _ (List.map_congr_left fun i _ => ?_)
    rw [List.drop_drop, Function.comp, Nat.succ_mul, Nat.add_comm size]

/-- A block has the size that was asked for, and entries of the list. -/
theorem of_mem_blocks (h : xs.length = n * size) (hb : b ∈ blocks size n xs) :
    b.length = size ∧ ∀ x ∈ b, x ∈ xs := by
  rw [blocks_eq_map_range] at hb
  obtain ⟨i, hi, rfl⟩ := List.mem_map.mp hb
  have hle := Nat.mul_le_mul_right size (Nat.succ_le_of_lt (List.mem_range.mp hi))
  rw [Nat.succ_mul, ← h] at hle
  refine ⟨?_, fun x hx => List.mem_of_mem_drop (List.mem_of_mem_take hx)⟩
  rw [List.length_take, List.length_drop]
  omega

end Blocks

/-! ## Rendering from blocks -/

/-- **The text of elements in nested blocks**: as many blocks of equal size as the first dimension
says, each of them with the other dimensions, in brackets and separated by commas.  A block without
dimensions is shown as its element. -/
def nestedText : List Nat → List String → String
  | [], xs => String.join xs
  | d :: ds, xs =>
    "[" ++ ", ".intercalate ((blocks (xs.length / d) d xs).map (nestedText ds)) ++ "]"

/-- **Slots and blocks come to the same text**, whatever the dimensions count: where it is cut off,
there is no element. -/
theorem blockText_eq_nestedText {element : UInt64 → String} (ds : List Nat) {xs : List String}
    {slot : Nat} (hlen : xs.length = Shape.countOf ds)
    (hxs : ∀ i x, xs[i]? = some x → element (.ofNat (slot + i)) = x) :
    blockText element ds (.ofNat slot) = nestedText ds xs := by
  induction ds generalizing xs slot with
  | nil =>
    obtain ⟨x, rfl⟩ := List.length_eq_one_iff.mp hlen
    rw [blockText, nestedText, ← Nat.add_zero slot, hxs 0 x rfl]
    simp
  | cons d ds ih =>
    rcases Nat.eq_zero_or_pos d with rfl | hd
    · rfl
    rw [Shape.countOf] at hlen
    have hsize : xs.length / d = Shape.countOf ds := by rw [hlen, Nat.mul_div_cancel_left _ hd]
    have hparts : (List.range d).map
          (fun i => blockText element ds (.ofNat slot + .ofNat i * stride ds)) =
        (blocks (Shape.countOf ds) d xs).map (nestedText ds) := by
      rw [blocks_eq_map_range, List.map_map]
      refine List.map_congr_left fun i hi => ?_
      rw [slot_add]
      have hle := Nat.mul_le_mul_right (Shape.countOf ds) (Nat.succ_le_of_lt (List.mem_range.mp hi))
      rw [Nat.succ_mul, ← hlen] at hle
      refine ih ?_ fun j x hx => ?_
      · rw [List.length_take, List.length_drop]
        omega
      · rw [List.getElem?_take, List.getElem?_drop] at hx
        split at hx
        next => rw [Nat.add_assoc, hxs _ x hx]
        next => cases hx
    rw [blockText, nestedText, hsize, hparts]

/-! ## Reading back -/

/-- Spellings of as many elements as the dimensions count. -/
structure IsBlock (ds : List Nat) (xs : List String) : Prop where
  /-- There are as many as the dimensions count. -/
  length_eq : xs.length = Shape.countOf ds
  /-- All of them are spellings. -/
  isSpelling : ∀ x ∈ xs, IsSpelling x.toList

/-- The text of blocks behind another one. -/
def laterText (ds : List Nat) (bs : List (List String)) : List Char :=
  bs.flatMap fun b => ',' :: ' ' :: (nestedText ds b).toList

section ReadBack

variable {ds ds' : List Nat} {n : Nat} {xs xs' : List String}

theorem IsBlock.size_eq (h : IsBlock ((n + 1) :: ds) xs) :
    xs.length / (n + 1) = Shape.countOf ds := by
  rw [h.length_eq, Shape.countOf, Nat.mul_div_cancel_left _ n.succ_pos]

theorem IsBlock.of_mem_blocks (h : IsBlock ((n + 1) :: ds) xs) {b : List String}
    (hb : b ∈ blocks (xs.length / (n + 1)) (n + 1) xs) : IsBlock ds b := by
  rw [h.size_eq] at hb
  obtain ⟨hlength, hmem⟩ := Tensor.of_mem_blocks h.length_eq hb
  exact ⟨hlength, fun x hx => h.isSpelling x (hmem x hx)⟩

theorem IsBlock.flatten_blocks (h : IsBlock ((n + 1) :: ds) xs) :
    (blocks (xs.length / (n + 1)) (n + 1) xs).flatten = xs := by
  rw [h.size_eq]
  exact Tensor.flatten_blocks h.length_eq

/-- The first of one or more blocks, and the others behind it. -/
theorem toList_nestedText_succ (ds : List Nat) (n : Nat) (xs : List String) :
    ∃ b bs, blocks (xs.length / (n + 1)) (n + 1) xs = b :: bs ∧
      (nestedText ((n + 1) :: ds) xs).toList =
        '[' :: ((nestedText ds b).toList ++ (laterText ds bs ++ [']'])) := by
  refine ⟨_, _, rfl, ?_⟩
  rw [nestedText, blocks, List.map_cons]
  simp [String.toList_intercalate, intercalate_cons_eq_flatMap, laterText, List.flatMap_map]

theorem stops_later (ds : List Nat) (bs : List (List String)) (rest : List Char) :
    Stops continuesEntry (laterText ds bs ++ ']' :: rest) := by
  rcases bs with _ | ⟨b, bs⟩
  · rintro _ _ ⟨⟩
    rfl
  · rintro _ _ ⟨⟩
    rfl

theorem toList_nestedText_zero (ds : List Nat) (xs : List String) :
    (nestedText (0 :: ds) xs).toList = ['[', ']'] := by
  simp [nestedText, blocks]

/-- A text starts with the bracket of an axis, or with its one element. -/
theorem IsBlock.exists_eq_cons (h : IsBlock ds xs) :
    ∃ c cs, (nestedText ds xs).toList = c :: cs ∧ (c = '[' ↔ ds ≠ []) ∧ c ≠ ']' := by
  rcases ds with _ | ⟨_ | n, ds⟩
  · obtain ⟨x, rfl⟩ := List.length_eq_one_iff.mp h.length_eq
    have hx := h.isSpelling x List.mem_cons_self
    obtain ⟨c, cs, hcs⟩ := List.exists_cons_of_ne_nil hx.1
    have hc : c ∈ x.toList := hcs ▸ List.mem_cons_self
    have hopen : c ≠ '[' := hx.ne hc (by simp [IsPlain])
    refine ⟨c, cs, by simpa [nestedText] using hcs, ?_, hx.ne hc (by simp [IsPlain])⟩
    exact ⟨fun hc => absurd hc hopen, fun hnil => absurd rfl hnil⟩
  · exact ⟨'[', _, toList_nestedText_zero ds xs, by simp, by decide⟩
  · obtain ⟨_, _, -, htext⟩ := toList_nestedText_succ ds n xs
    exact ⟨'[', _, htext, by simp, by decide⟩

/-- The texts of one element and of an axis start differently. -/
theorem eq_nil_iff_of_text_eq {rest rest' : List Char} (hxs : IsBlock ds xs)
    (hxs' : IsBlock ds' xs')
    (h : (nestedText ds xs).toList ++ rest = (nestedText ds' xs').toList ++ rest') :
    ds = [] ↔ ds' = [] := by
  obtain ⟨c, cs, hc, hopen, -⟩ := hxs.exists_eq_cons
  obtain ⟨c', cs', hc', hopen', -⟩ := hxs'.exists_eq_cons
  rw [hc, hc'] at h
  obtain rfl : c = c' := (List.cons.inj h).1
  exact not_iff_not.mp (hopen.symm.trans hopen')

/-- The texts of blocks with the same dimensions determine the blocks, whatever they are followed
by. -/
def Determined (ds : List Nat) : Prop :=
  ∀ {b b' : List String} {rest rest' : List Char}, IsBlock ds b → IsBlock ds b' →
    Stops continuesEntry rest → Stops continuesEntry rest' →
      (nestedText ds b).toList ++ rest = (nestedText ds b').toList ++ rest' →
        b = b' ∧ rest = rest'

/-- **One block after the other** is told from the text, up to the closing bracket. -/
theorem laterText_inj (hds : Determined ds) {bs bs' : List (List String)} {rest rest' : List Char}
    (hbs : ∀ b ∈ bs, IsBlock ds b) (hbs' : ∀ b ∈ bs', IsBlock ds b)
    (h : laterText ds bs ++ ']' :: rest = laterText ds bs' ++ ']' :: rest') :
    bs = bs' ∧ rest = rest' := by
  induction bs generalizing bs' with
  | nil =>
    rcases bs' with _ | ⟨b', bs'⟩
    · exact ⟨rfl, (List.cons.inj h).2⟩
    · exact absurd (List.cons.inj h).1 (by decide)
  | cons b bs ih =>
    rcases bs' with _ | ⟨b', bs'⟩
    · exact absurd (List.cons.inj h).1 (by decide)
    · have h : ',' :: ' ' :: ((nestedText ds b).toList ++ (laterText ds bs ++ ']' :: rest)) =
          ',' :: ' ' :: ((nestedText ds b').toList ++ (laterText ds bs' ++ ']' :: rest')) := by
        simpa [laterText] using h
      obtain ⟨rfl, hrest⟩ := hds (hbs b List.mem_cons_self) (hbs' b' List.mem_cons_self)
        (stops_later ds bs rest) (stops_later ds bs' rest') (List.cons.inj (List.cons.inj h).2).2
      obtain ⟨rfl, hlast⟩ := ih (fun c hc => hbs c (List.mem_cons_of_mem _ hc))
        (fun c hc => hbs' c (List.mem_cons_of_mem _ hc)) hrest
      exact ⟨rfl, hlast⟩

/-- **The text tells the dimensions and the elements**, if none of the dimensions is zero — by
induction on the dimensions: the first block tells those that remain, and the others how many blocks
there are. -/
theorem nestedText_inj {rest rest' : List Char} (hxs : IsBlock ds xs) (hxs' : IsBlock ds' xs')
    (hds : 0 ∉ ds) (hrest : Stops continuesEntry rest) (hrest' : Stops continuesEntry rest')
    (h : (nestedText ds xs).toList ++ rest = (nestedText ds' xs').toList ++ rest') :
    ds = ds' ∧ xs = xs' ∧ rest = rest' := by
  have hnil := eq_nil_iff_of_text_eq hxs hxs' h
  induction ds generalizing ds' xs xs' rest rest' with
  | nil =>
    obtain rfl := hnil.mp rfl
    obtain ⟨x, rfl⟩ := List.length_eq_one_iff.mp hxs.length_eq
    obtain ⟨x', rfl⟩ := List.length_eq_one_iff.mp hxs'.length_eq
    have h : x.toList ++ rest = x'.toList ++ rest' := by simpa [nestedText] using h
    obtain ⟨hx, hrest⟩ := append_inj_of_stops (hxs.isSpelling x List.mem_cons_self).continues
      (hxs'.isSpelling x' List.mem_cons_self).continues hrest hrest' h
    exact ⟨rfl, congrArg (fun x => [x]) (String.toList_inj.mp hx), hrest⟩
  | cons d ds ih =>
    obtain ⟨n, rfl⟩ := Nat.exists_eq_succ_of_ne_zero (List.ne_of_not_mem_cons hds).symm
    have hds := List.not_mem_of_not_mem_cons hds
    obtain ⟨b, bs, hblocks, htext⟩ := toList_nestedText_succ ds n xs
    have hb : ∀ c ∈ b :: bs, IsBlock ds c := fun c hc => hxs.of_mem_blocks (hblocks ▸ hc)
    rw [htext] at h
    rcases ds' with _ | ⟨_ | n', ds'⟩
    · exact absurd (hnil.mpr rfl) (List.cons_ne_nil _ _)
    · -- A bracket that closes at once is behind no block.
      obtain ⟨c, cs, hc, -, hclose⟩ := (hb b List.mem_cons_self).exists_eq_cons
      rw [toList_nestedText_zero, hc] at h
      exact absurd (List.cons.inj (List.cons.inj h).2).1 hclose
    obtain ⟨b', bs', hblocks', htext'⟩ := toList_nestedText_succ ds' n' xs'
    have hb' : ∀ c ∈ b' :: bs', IsBlock ds' c := fun c hc => hxs'.of_mem_blocks (hblocks' ▸ hc)
    rw [htext'] at h
    have h : (nestedText ds b).toList ++ (laterText ds bs ++ ']' :: rest) =
        (nestedText ds' b').toList ++ (laterText ds' bs' ++ ']' :: rest') := by
      simpa using h
    obtain ⟨rfl, rfl, hlater⟩ := ih (hb b List.mem_cons_self) (hb' b' List.mem_cons_self) hds
      (stops_later ds bs rest) (stops_later ds' bs' rest') h
      (eq_nil_iff_of_text_eq (hb b List.mem_cons_self) (hb' b' List.mem_cons_self) h)
    have hdetermined : Determined ds := fun hc hc' hr hr' heq =>
      (ih hc hc' hds hr hr' heq Iff.rfl).2
    obtain ⟨rfl, hlast⟩ := laterText_inj hdetermined
      (fun c hc => hb c (List.mem_cons_of_mem b hc))
      (fun c hc => hb' c (List.mem_cons_of_mem b hc)) hlater
    have hn : n + 1 = n' + 1 := by
      rw [← length_blocks (xs.length / (n + 1)) (n + 1) xs, hblocks, ← hblocks', length_blocks]
    obtain rfl := Nat.succ.inj hn
    refine ⟨rfl, ?_, hlast⟩
    rw [← hxs.flatten_blocks, hblocks, ← hblocks', hxs'.flatten_blocks]

end ReadBack

/-! ## Arrays -/

/-- The elements of a well-formed array are a block of its dimensions. -/
theorem WellFormed.isBlock {a : Tensor} (ha : a.WellFormed) :
    IsBlock a.shape.dims (a.elements.toList.map Scalar.text) where
  length_eq := by
    rw [List.length_map, Elements.length_toList]
    exact ha
  isSpelling x hx := by
    obtain ⟨s, -, rfl⟩ := List.mem_map.mp hx
    exact isSpelling_text s

/-- **An array fits into memory** if its slots are words of 64 bits. -/
def Addressable (a : Tensor) : Prop := a.elements.length ≤ 2 ^ 64

instance (a : Tensor) : Decidable a.Addressable :=
  inferInstanceAs (Decidable (a.elements.length ≤ 2 ^ 64))

theorem text_eq_nestedText {a : Tensor} (ha : a.WellFormed) (hsize : a.Addressable) :
    a.text = nestedText a.shape.dims (a.elements.toList.map Scalar.text) := by
  refine @blockText_eq_nestedText _ a.shape.dims _ 0 ha.isBlock.length_eq fun i x hx => ?_
  rw [List.getElem?_map] at hx
  have hi : i < a.elements.toList.length := by
    by_contra hi
    rw [List.getElem?_eq_none (Nat.le_of_not_lt hi)] at hx
    cases hx
  rw [Elements.length_toList] at hi
  have hslot : (UInt64.ofNat i).toNat = i := UInt64.toNat_ofNat_of_lt' (Nat.lt_of_lt_of_le hi hsize)
  rw [elementText, Nat.zero_add, hslot, List.getElem?_toArray, hx]
  rfl

/-- **An array is shown as its elements in nested blocks**, and unless a dimension is zero, an array
with the same text has the same dimensions and the same texts of elements. -/
theorem text_nested {a : Tensor} (ha : a.WellFormed) (hsize : a.Addressable) :
    a.text = nestedText a.shape.dims (a.elements.toList.map Scalar.text) ∧
      (0 ∉ a.shape.dims → ∀ b : Tensor, b.WellFormed → b.Addressable → b.text = a.text →
        b.shape = a.shape ∧
          b.elements.toList.map Scalar.text = a.elements.toList.map Scalar.text) := by
  refine ⟨text_eq_nestedText ha hsize, fun hdims b hb hbsize htext => ?_⟩
  have hstops : Stops continuesEntry [] := fun _ _ h => nomatch h
  rw [text_eq_nestedText ha hsize, text_eq_nestedText hb hbsize] at htext
  obtain ⟨hshape, helements, -⟩ := nestedText_inj ha.isBlock hb.isBlock hdims hstops hstops
    (congrArg (fun s => s.toList ++ []) htext.symm)
  exact ⟨congrArg Shape.mk hshape.symm, helements.symm⟩

/-- A matrix of truth values, and an array without elements whose inner dimensions count `2 ^ 66`. -/
theorem text_nested_square :
    let a : Tensor := ⟨⟨[2, 2]⟩, .bools [true, false, false, true]⟩
    let e : Tensor := ⟨⟨[2, 0, 2 ^ 33, 2 ^ 33]⟩, .ints []⟩
    a.WellFormed ∧ a.Addressable ∧ 0 ∉ a.shape.dims ∧ a.text = "[[true, false], [false, true]]" ∧
      (∀ b : Tensor, b.WellFormed → b.Addressable → b.text = "[[true, false], [false, true]]" →
        b.shape = ⟨[2, 2]⟩ ∧
          b.elements.toList.map Scalar.text = ["true", "false", "false", "true"]) ∧
      e.WellFormed ∧ e.Addressable ∧ e.text = "[[], []]" := by
  intro a e
  have ha : a.WellFormed := by decide
  have hasize : a.Addressable := by decide
  have hdims : 0 ∉ a.shape.dims := by decide
  have htext : a.text = "[[true, false], [false, true]]" :=
    (text_nested ha hasize).1.trans (by decide)
  have he : e.WellFormed := by decide
  have hesize : e.Addressable := by decide
  exact ⟨ha, hasize, hdims, htext, fun b hb hbsize hbtext =>
    (text_nested ha hasize).2 hdims b hb hbsize (hbtext.trans htext.symm), he, hesize,
    (text_nested he hesize).1.trans (by decide)⟩

/-- An axis of zero is shown as often as the axes around it say. -/
example : nestedText [2, 0, 3] [] = "[[], []]" := by decide

end Tensor

end DeferredArrays
