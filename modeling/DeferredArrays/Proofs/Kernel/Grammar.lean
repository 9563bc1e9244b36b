import DeferredArrays.Proofs.Kernel.Printing
import Mathlib.Data.List.DropRight

/-!
# Proofs/Kernel/Grammar — the reader accepts exactly its grammar

    expression ::= NUMBER | NAME | NAME "(" [ expression { "," expression } ] ")"

A text is cut into tokens (`Lexes`), each as long as possible and with white space before it, and
the tokens are derived from the grammar (`Derives`), which says what a number or a bare name denotes
and which operators a called name is.  The reader succeeds if and only if there is such a derivation,
and with the expression derived (`parse_iff`).

Tokens are cut off one at a time, with the whole rest of the text in view, so that no two of them
could have been one.  That cutting and reading agree on where a token ends is said per token
(`number_front`, `name_front`, `lexes_cons_iff`); the rest is the grammar.
-/

namespace DeferredArrays.Kernel

open Text

/-! ## Tokens -/

/-- **A token**: a number or a name, which are known to be one, or a character of punctuation. -/
inductive Token where
  | number (cs : List Char) (h : IsNumber cs)
  | name (cs : List Char) (h : IsName cs)
  | opening
  | closing
  | comma

namespace Token

/-- The characters of a token. -/
def text : Token → List Char
  | number cs _ => cs
  | name cs _ => cs
  | opening => ['(']
  | closing => [')']
  | comma => [',']

/-- With one more character, a token would be a longer one of its kind. -/
def GoesOn (t : Token) (c : Char) : Prop :=
  match t with
  | number cs _ => IsNumber (cs ++ [c])
  | name cs _ => IsName (cs ++ [c])
  | _ => False

/-- A token is as long as possible before a rest. -/
def Longest (t : Token) (rest : List Char) : Prop := ∀ c tail, rest = c :: tail → ¬ t.GoesOn c

/-- Tokens are not blank. -/
theorem text_eq_cons (t : Token) : ∃ c tail, t.text = c :: tail ∧ isWhiteSpace c = false := by
  rcases t with ⟨cs, h⟩ | ⟨cs, h⟩ | _ | _ | _
  · obtain ⟨c, tail, rfl, hc, _⟩ := h.startsToken
    exact ⟨c, tail, rfl, hc⟩
  · obtain ⟨c, tail, rfl, hc, _⟩ := h.startsToken
    exact ⟨c, tail, rfl, hc⟩
  · exact ⟨'(', [], rfl, by decide⟩
  · exact ⟨')', [], rfl, by decide⟩
  · exact ⟨',', [], rfl, by decide⟩

end Token

/-- **A text is cut into tokens**, up to a rest: white space may stand before each token, and each
token is as long as possible before all that follows. -/
inductive Lexes : List Char → List Token → List Char → Prop
  | nil (cs : List Char) : Lexes cs [] cs
  | cons {blank rest left : List Char} {t : Token} {ts : List Token}
      (hblank : ∀ c ∈ blank, isWhiteSpace c) (hlongest : t.Longest rest)
      (h : Lexes rest ts left) : Lexes (blank ++ (t.text ++ rest)) (t :: ts) left

/-! ## The grammar -/

/-- **What a bare name denotes**: a constant, or else the first parameter of that name. -/
inductive Denotes (params : List Param) : String → Body → Prop
  | boolTrue : Denotes params "true" (.const (.bool true))
  | boolFalse : Denotes params "false" (.const (.bool false))
  | inf : Denotes params "inf" (.const (.float (Binary64.ofMagnitude false Binary64.infinite)))
  | nan : Denotes params "NaN" (.const (.float Binary64.nan))
  | param {i : Nat} {p : Param} (hp : params[i]? = some p)
      (hfirst : ∀ j q, j < i → params[j]? = some q → q.name ≠ p.name)
      (hfree : p.name ∉ ["true", "false", "inf", "NaN"]) : Denotes params p.name (.param i)

/-- **What a called name does with its arguments**: a unary operator takes one, a binary operator
two. -/
inductive Applies : String → List Body → Body → Prop
  | unary (op : UnaryOp) (x : Body) : Applies op.name [x] (.unary op x)
  | binary (op : BinaryOp) (x y : Body) : Applies op.name [x, y] (.binary op x y)

/-- The tokens of arguments, separated by commas and closed. -/
def argumentTokens (args : List (List Token × Body)) : List Token :=
  [Token.comma].intercalate (args.map (·.1)) ++ [.closing]

/-- **Derivations of an expression**, each with the body it stands for. -/
inductive Derives (params : List Param) : List Token → Body → Prop
  | number {cs : List Char} {h : IsNumber cs} {s : Scalar} (hs : literal? cs = some s) :
      Derives params [.number cs h] (.const s)
  | name {cs : List Char} {h : IsName cs} {b : Body} (hb : Denotes params (String.ofList cs) b) :
      Derives params [.name cs h] b
  | call {cs : List Char} {h : IsName cs} {b : Body} (args : List (List Token × Body))
      (hargs : ∀ a ∈ args, Derives params a.1 a.2)
      (hb : Applies (String.ofList cs) (args.map (·.2)) b) :
      Derives params (.name cs h :: .opening :: argumentTokens args) b

/-- **A text derives a body**: it is cut into the tokens of a derivation and white space. -/
def Source.Derives (s : Source) (b : Body) : Prop :=
  ∃ ts rest, Lexes s.body.toList ts rest ∧ (∀ c ∈ rest, isWhiteSpace c) ∧
    Kernel.Derives s.params ts b

/-! ## Where tokens end -/

section Lexing

variable {cs rest left : List Char} {t : Token} {ts us : List Token}

theorem skipBlank_append {blank : List Char} (hblank : ∀ c ∈ blank, isWhiteSpace c) :
    skipBlank (blank ++ cs) = skipBlank cs := List.dropWhile_append_of_pos hblank

theorem skipBlank_text (t : Token) (rest : List Char) :
    skipBlank (t.text ++ rest) = t.text ++ rest := by
  obtain ⟨c, tail, ht, hc⟩ := t.text_eq_cons
  simp [ht, skipBlank, hc]

/-- **The first token stands behind the white space.** -/
theorem lexes_cons_iff : Lexes cs (t :: ts) left ↔
    ∃ rest, skipBlank cs = t.text ++ rest ∧ t.Longest rest ∧ Lexes rest ts left := by
  refine ⟨fun h => ?_, fun ⟨rest, hs, hlongest, h⟩ => ?_⟩
  · rcases h with _ | ⟨hblank, hlongest, h⟩
    exact ⟨_, by rw [skipBlank_append hblank, skipBlank_text], hlongest, h⟩
  · have hcs : cs = cs.takeWhile isWhiteSpace ++ (t.text ++ rest) := by
      rw [← hs, skipBlank, List.takeWhile_append_dropWhile]
    rw [hcs]
    exact .cons (fun c hc => (List.mem_takeWhile_imp hc)) hlongest h

theorem lexes_append_iff :
    Lexes cs (ts ++ us) left ↔ ∃ rest, Lexes cs ts rest ∧ Lexes rest us left := by
  induction ts generalizing cs with
  | nil =>
    refine ⟨fun h => ⟨cs, .nil cs, h⟩, fun ⟨rest, h, h'⟩ => ?_⟩
    rcases h with _ | _
    exact h'
  | cons t ts ih =>
    simp only [List.cons_append, lexes_cons_iff, ih]
    constructor
    · rintro ⟨mid, hs, hlongest, rest, h, h'⟩
      exact ⟨rest, ⟨mid, hs, hlongest, h⟩, h'⟩
    · rintro ⟨rest, ⟨mid, hs, hlongest, h⟩, h'⟩
      exact ⟨mid, hs, hlongest, rest, h, h'⟩

/-- A token that cannot go on is all that is cut off behind the white space. -/
theorem lexes_singleton_iff (ht : ∀ c, ¬ t.GoesOn c) :
    Lexes cs [t] left ↔ skipBlank cs = t.text ++ left := by
  rw [lexes_cons_iff]
  constructor
  · rintro ⟨rest, hs, _, h⟩
    rcases h with _ | _
    exact hs
  · exact fun hs => ⟨left, hs, fun c _ _ => ht c, .nil left⟩

theorem lexes_comma_iff : Lexes cs [.comma] left ↔ skipBlank cs = ',' :: left :=
  lexes_singleton_iff fun _ h => h

theorem lexes_closing_iff : Lexes cs [.closing] left ↔ skipBlank cs = ')' :: left :=
  lexes_singleton_iff fun _ h => h

end Lexing

/-! ## Where the reader ends a token -/

section Ends

variable {c : Char} {cs rest : List Char} {prev : Option Char}

/-- Behind the first character, a number goes on as if it stood at the start. -/
theorem isNumber_cons_iff :
    IsNumber (c :: cs) ↔ startsNumber c ∧ ContinuesAll none (c :: cs) := by
  constructor
  · rintro ⟨_, _, ⟨⟩, hc, hcs⟩
    exact ⟨hc, continuesNumber_of_startsNumber hc, hcs⟩
  · rintro ⟨hc, _, hcs⟩
    exact ⟨c, cs, rfl, hc, hcs⟩

theorem isName_cons_iff :
    IsName (c :: cs) ↔ startsName c ∧ ∀ a ∈ cs, continuesName a := by
  constructor
  · rintro ⟨_, _, ⟨⟩, hc, hcs⟩
    exact ⟨hc, List.all_eq_true.mp hcs⟩
  · rintro ⟨hc, hcs⟩
    exact ⟨c, cs, rfl, hc, List.all_eq_true.mpr hcs⟩

theorem IsName.append_singleton_iff (h : IsName cs) : IsName (cs ++ [c]) ↔ continuesName c := by
  obtain ⟨a, tail, rfl, ha, htail⟩ := h
  have hall := List.all_eq_true.mp htail
  rw [List.cons_append, isName_cons_iff]
  constructor
  · rintro ⟨_, h⟩
    exact h c (List.mem_append_right _ (List.mem_singleton.mpr rfl))
  · intro hc
    refine ⟨ha, fun b hb => ?_⟩
    rcases List.mem_append.mp hb with hb | hb
    · exact hall b hb
    · exact List.mem_singleton.mp hb ▸ hc

/-- A name ends before a character that does not continue it. -/
theorem IsName.longest (h : IsName cs) (hend : ∀ c tail, rest = c :: tail → ¬ continuesName c) :
    (Token.name cs h).Longest rest :=
  fun c tail hrest hmore => hend c tail hrest (h.append_singleton_iff.mp hmore)

/-- What is split off a text continues the number before it, and does not with one more
character. -/
theorem continuesAll_splitNumber (prev : Option Char) (cs : List Char) :
    ContinuesAll prev (splitNumber prev cs).1 ∧
      ∀ c tail, (splitNumber prev cs).2 = c :: tail →
        ¬ ContinuesAll prev ((splitNumber prev cs).1 ++ [c]) := by
  induction cs generalizing prev with
  | nil => exact ⟨trivial, fun _ _ h => nomatch h⟩
  | cons a cs ih =>
    obtain ⟨hall, hend⟩ := ih (some a)
    rw [splitNumber]
    split
    next ha => exact ⟨⟨ha, hall⟩, fun c tail h hmore => hend c tail h hmore.2⟩
    next ha =>
      refine ⟨trivial, fun c tail h hmore => ?_⟩
      obtain ⟨rfl, _⟩ := List.cons.inj h
      exact ha hmore.1

/-- **The longest number is split off.** -/
theorem splitNumber_longest (hcs : ContinuesAll prev cs)
    (hend : ∀ c tail, rest = c :: tail → ¬ ContinuesAll prev (cs ++ [c])) :
    splitNumber prev (cs ++ rest) = (cs, rest) := by
  induction cs generalizing prev with
  | nil =>
    rcases rest with _ | ⟨c, tail⟩
    · rfl
    · have hc : ¬ continuesNumber prev c := fun hc => hend c tail rfl ⟨hc, trivial⟩
      rw [List.nil_append, splitNumber, if_neg hc]
  | cons a cs ih =>
    have htail := ih hcs.2 fun c tail h hmore => hend c tail h ⟨hcs.1, hmore⟩
    rw [List.cons_append, splitNumber, if_pos hcs.1, htail]

/-- **A number at the front** is the longest one that stands there. -/
theorem number_front (rest : List Char) (hc : startsNumber c) :
    ∃ h : IsNumber (splitNumber none (c :: rest)).1,
      (Token.number _ h).Longest (splitNumber none (c :: rest)).2 := by
  obtain ⟨hall, hend⟩ := continuesAll_splitNumber none (c :: rest)
  have hfront : (splitNumber none (c :: rest)).1 = c :: (splitNumber (some c) rest).1 := by
    rw [splitNumber, if_pos (continuesNumber_of_startsNumber hc)]
  rw [hfront] at hall hend
  refine ⟨hfront ▸ isNumber_cons_iff.mpr ⟨hc, hall⟩, fun a tail ha hmore => hend a tail ha ?_⟩
  have hmore : IsNumber ((splitNumber none (c :: rest)).1 ++ [a]) := hmore
  rw [hfront, List.cons_append] at hmore
  exact (isNumber_cons_iff.mp hmore).2

theorem splitNumber_of_longest {h : IsNumber cs} (hlongest : (Token.number cs h).Longest rest) :
    splitNumber none (cs ++ rest) = (cs, rest) := by
  obtain ⟨c, tail, rfl, hc, _⟩ := id h
  refine splitNumber_longest (isNumber_cons_iff.mp h).2 fun a as ha hmore => ?_
  exact hlongest a as ha (isNumber_cons_iff.mpr ⟨hc, hmore⟩)

/-- **A name at the front** is the longest one that stands there. -/
theorem name_front (rest : List Char) (hc : startsName c) :
    ∃ h : IsName ((c :: rest).takeWhile continuesName),
      (Token.name _ h).Longest ((c :: rest).dropWhile continuesName) := by
  have hname : IsName ((c :: rest).takeWhile continuesName) := by
    rw [List.takeWhile_cons_of_pos (continuesName_of_startsName hc)]
    exact isName_cons_iff.mpr ⟨hc, fun a ha => List.mem_takeWhile_imp ha⟩
  refine ⟨hname, hname.longest fun a tail ha => ?_⟩
  have hne : (c :: rest).dropWhile continuesName ≠ [] := by simp [ha]
  have hhead := List.head_dropWhile_not continuesName hne
  simp only [ha, List.head_cons] at hhead
  simp [hhead]

/-- The longest name is what continues the name. -/
theorem span_of_longest {h : IsName cs} (hlongest : (Token.name cs h).Longest rest) :
    (cs ++ rest).takeWhile continuesName = cs ∧ (cs ++ rest).dropWhile continuesName = rest :=
  span_name h fun c tail hrest hc => hlongest c tail hrest (h.append_singleton_iff.mpr hc)

end Ends

/-! ## Names -/

section Names

variable {params : List Param} {name : String} {b : Body}

/-- **A bare name is read as what it denotes.** -/
theorem atom_eq_ok_iff : atom params name = .ok b ↔ Denotes params name b := by
  constructor
  · intro h
    rw [atom, constant?] at h
    by_cases htrue : name = "true"
    · subst htrue
      cases h
      exact .boolTrue
    by_cases hfalse : name = "false"
    · subst hfalse
      cases h
      exact .boolFalse
    by_cases hinf : name = "inf"
    · subst hinf
      cases h
      exact .inf
    by_cases hnan : name = "NaN"
    · subst hnan
      cases h
      exact .nan
    simp only [if_neg htrue, if_neg hfalse, if_neg hinf, if_neg hnan] at h
    split at h
    next i hi =>
      cases h
      obtain ⟨hlt, hname, hfirst⟩ := List.findIdx?_eq_some_iff_getElem.mp hi
      obtain rfl : params[i].name = name := beq_iff_eq.mp hname
      refine .param (List.getElem?_eq_getElem hlt) (fun j q hj hq hqn => ?_) ?_
      · obtain ⟨hjlt, rfl⟩ := List.getElem?_eq_some_iff.mp hq
        exact hfirst j hj (beq_iff_eq.mpr hqn)
      · simp [htrue, hfalse, hinf, hnan]
    next => cases h
  · rintro (_ | _ | _ | _ | ⟨hp, hfirst, hfree⟩)
    · rfl
    · rfl
    · rfl
    · rfl
    · rename_i i p
      obtain ⟨hlt, rfl⟩ := List.getElem?_eq_some_iff.mp hp
      simp only [List.mem_cons, not_or] at hfree
      have hfind : params.findIdx? (·.name == params[i].name) = some i := by
        refine List.findIdx?_eq_some_iff_getElem.mpr ⟨hlt, beq_self_eq_true _, fun j hj hq => ?_⟩
        exact hfirst j _ hj (List.getElem?_eq_getElem (Nat.lt_trans hj hlt)) (beq_iff_eq.mp hq)
      rw [atom, constant?, if_neg hfree.1, if_neg hfree.2.1, if_neg hfree.2.2.1,
        if_neg hfree.2.2.2.1]
      simp only [hfind]

theorem name_of_ofName?_unary {op : UnaryOp} (h : UnaryOp.ofName? name = some op) :
    op.name = name :=
  beq_iff_eq.mp (List.find?_some (p := fun op : UnaryOp => op.name == name) h)

theorem name_of_ofName?_binary {op : BinaryOp} (h : BinaryOp.ofName? name = some op) :
    op.name = name :=
  beq_iff_eq.mp (List.find?_some (p := fun op : BinaryOp => op.name == name) h)

/-- **A called name is read as the operator that it is.** -/
theorem application_eq_ok_iff {args : List Body} :
    application name args = .ok b ↔ Applies name args b := by
  constructor
  · intro h
    rw [application] at h
    split at h
    next op hop =>
      obtain rfl := name_of_ofName?_unary hop
      split at h
      next x =>
        cases h
        exact .unary op x
      next => cases h
    next op _ hop =>
      obtain rfl := name_of_ofName?_binary hop
      split at h
      next x y =>
        cases h
        exact .binary op x y
      next => cases h
    next => cases h
  · rintro (⟨op, x⟩ | ⟨op, x, y⟩)
    · exact application_unary op x
    · exact application_binary op x y

/-- No operator takes no arguments. -/
theorem Applies.args_ne_nil {args : List Body} (h : Applies name args b) : args ≠ [] := by
  rcases h with ⟨op, x⟩ | ⟨op, x, y⟩
  · exact List.cons_ne_nil x []
  · exact List.cons_ne_nil x [y]

/-- The parameters of an operator's arguments are all of its parameters. -/
theorem Applies.exists_mem_paramIndices {args : List Body} (h : Applies name args b) {i : Nat}
    (hi : i ∈ b.paramIndices) : ∃ x ∈ args, i ∈ x.paramIndices := by
  rcases h with ⟨op, x⟩ | ⟨op, x, y⟩
  · exact ⟨x, List.mem_cons_self, hi⟩
  · rcases List.mem_append.mp hi with hi | hi
    · exact ⟨x, List.mem_cons_self, hi⟩
    · exact ⟨y, List.mem_cons_of_mem x List.mem_cons_self, hi⟩

end Names

/-! ## What is read is derived -/

section Sound

variable {params : List Param} {cs : List Char}

theorem argumentTokens_singleton (a : List Token × Body) :
    argumentTokens [a] = a.1 ++ [.closing] := by
  rw [argumentTokens, List.map_singleton, List.intercalate_singleton]

theorem argumentTokens_cons_cons (a a' : List Token × Body) (args : List (List Token × Body)) :
    argumentTokens (a :: a' :: args) = a.1 ++ ([.comma] ++ argumentTokens (a' :: args)) := by
  simp only [argumentTokens, List.map_cons, List.intercalate_cons_cons, List.append_assoc]

/-- Reading an expression from a text gives a body that is derived. -/
def SoundBody (params : List Param) (cs : List Char) : Prop :=
  ∀ b left, (readBody params cs).result = .ok (b, left) →
    ∃ ts rest, Lexes cs ts rest ∧ skipBlank rest = skipBlank left ∧ Derives params ts b

/-- Reading arguments from a text gives bodies that are derived. -/
def SoundSequence (params : List Param) (cs : List Char) : Prop :=
  ∀ xs left, (readSequence params cs).result = .ok (xs, left) →
    ∃ a args, (a :: args).map (·.2) = xs ∧ (∀ a' ∈ a :: args, Derives params a'.1 a'.2) ∧
      Lexes cs (argumentTokens (a :: args)) left

/-- An expression is derived if the arguments of calls are. -/
theorem soundBody (hseq : ∀ after, after.length < cs.length → SoundSequence params after) :
    SoundBody params cs := by
  intro b left h
  obtain ⟨c, rest, hs, ⟨hc, s, hl, rfl, rfl⟩ | ⟨hc, hb, rfl⟩ |
    ⟨hc, after, xs, hopen, hargs, hb⟩⟩ := readBody_eq_ok h
  · obtain ⟨hnumber, hlongest⟩ := number_front rest hc
    refine ⟨[.number _ hnumber], _, lexes_cons_iff.mpr ⟨_, ?_, hlongest, .nil _⟩, rfl, .number hl⟩
    rw [hs, Token.text, splitNumber_append]
  · obtain ⟨hname, hlongest⟩ := name_front rest hc
    refine ⟨[.name _ hname], _, lexes_cons_iff.mpr ⟨_, ?_, hlongest, .nil _⟩, ?_,
      .name (atom_eq_ok_iff.mp hb)⟩
    · rw [hs, Token.text, List.takeWhile_append_dropWhile]
    · exact (List.dropWhile_idempotent _ _).symm
  · obtain ⟨hname, hlongest⟩ := name_front rest hc
    have happlies := application_eq_ok_iff.mp hb
    have hlt : after.length < cs.length := length_lt_of_opening hs hc hopen
    rcases readArguments_eq_ok hargs with ⟨_, rfl⟩ | hargs
    · exact absurd rfl happlies.args_ne_nil
    · obtain ⟨a, args, rfl, hderives, hlexes⟩ := hseq after hlt xs left hargs
      refine ⟨.name _ hname :: .opening :: argumentTokens (a :: args), left, ?_, rfl,
        .call (a :: args) hderives happlies⟩
      refine lexes_cons_iff.mpr ⟨_, ?_, hlongest, lexes_cons_iff.mpr ⟨after, hopen, ?_, hlexes⟩⟩
      · rw [hs, Token.text, List.takeWhile_append_dropWhile]
      · exact fun _ _ _ h => h

/-- Arguments are derived if the first is, and those behind it are. -/
theorem soundSequence (hbody : SoundBody params cs)
    (hseq : ∀ after, after.length < cs.length → SoundSequence params after) :
    SoundSequence params cs := by
  intro xs left h
  obtain ⟨x, left', hx, ⟨hclose, rfl⟩ | ⟨after, ys, hcomma, hys, rfl⟩⟩ := readSequence_eq_ok h
  · obtain ⟨ts, rest, hlexes, hrest, hderives⟩ := hbody x left' hx
    refine ⟨(ts, x), [], rfl, fun a ha => ?_, ?_⟩
    · rw [List.mem_singleton.mp ha]
      exact hderives
    · rw [argumentTokens_singleton]
      exact lexes_append_iff.mpr ⟨rest, hlexes, lexes_closing_iff.mpr (hrest.trans hclose)⟩
  · obtain ⟨ts, rest, hlexes, hrest, hderives⟩ := hbody x left' hx
    have hlt := (length_lt_of_skipBlank hcomma).trans (Step.length_lt hx)
    obtain ⟨a, args, rfl, hargs, hothers⟩ := hseq after hlt ys left hys
    refine ⟨(ts, x), a :: args, rfl, fun a' ha' => ?_, ?_⟩
    · rcases List.mem_cons.mp ha' with rfl | ha'
      · exact hderives
      · exact hargs a' ha'
    · rw [argumentTokens_cons_cons]
      exact lexes_append_iff.mpr ⟨rest, hlexes, lexes_append_iff.mpr
        ⟨after, lexes_comma_iff.mpr (hrest.trans hcomma), hothers⟩⟩

/-- **What is read is derived** — by induction on the length of the text, since a call and the
arguments behind another one are read from less. -/
theorem sound (params : List Param) (cs : List Char) :
    SoundBody params cs ∧ SoundSequence params cs := by
  induction hn : cs.length using Nat.strong_induction_on generalizing cs with
  | _ n ih =>
    have hseq : ∀ after, after.length < cs.length → SoundSequence params after :=
      fun after hlt => (ih after.length (hn ▸ hlt) after rfl).2
    exact ⟨soundBody hseq, soundSequence (soundBody hseq) hseq⟩

end Sound

/-! ## What is derived is read -/

section Complete

variable {params : List Param} {cs rest left : List Char} {ts : List Token} {b : Body}

/-- Reading an expression from its tokens gives the body derived, and leaves what follows, unless a
parenthesis follows. -/
def CompleteBody (params : List Param) (ts : List Token) (b : Body) : Prop :=
  ∀ cs rest, Lexes cs ts rest → (∀ tail, skipBlank rest ≠ '(' :: tail) →
    ∃ left, (readBody params cs).result = .ok (b, left) ∧ skipBlank left = skipBlank rest

/-- A derivation starts with a number or a name. -/
theorem Derives.exists_startsToken (h : Derives params ts b) :
    ∃ t us, ts = t :: us ∧ StartsToken t.text := by
  rcases h with hs | hb | ⟨args, hargs, hb⟩
  · rename_i h _
    exact ⟨_, _, rfl, h.startsToken⟩
  · rename_i h
    exact ⟨_, _, rfl, h.startsToken⟩
  · rename_i h
    exact ⟨_, _, rfl, h.startsToken⟩

/-- Arguments do not start with a closing parenthesis. -/
theorem argumentTokens_not_closing {a : List Token × Body} {args : List (List Token × Body)}
    (ha : Derives params a.1 a.2) (h : Lexes cs (argumentTokens (a :: args)) left) :
    ∀ tail, skipBlank cs ≠ ')' :: tail := by
  obtain ⟨t, us, hts, hstarts⟩ := ha.exists_startsToken
  have htokens : ∃ vs, argumentTokens (a :: args) = t :: vs := by
    rcases args with _ | ⟨a', args⟩
    · exact ⟨_, by rw [argumentTokens_singleton, hts, List.cons_append]⟩
    · exact ⟨_, by rw [argumentTokens_cons_cons, hts, List.cons_append]⟩
  obtain ⟨vs, hvs⟩ := htokens
  rw [hvs] at h
  obtain ⟨rest, hskip, _, _⟩ := lexes_cons_iff.mp h
  rw [hskip, ← skipBlank_text]
  exact (hstarts.append rest).ne_close

/-- **Arguments that are derived are read**, by induction on their list. -/
theorem readSequence_complete {a : List Token × Body} {args : List (List Token × Body)}
    (hargs : ∀ a' ∈ a :: args, CompleteBody params a'.1 a'.2)
    (h : Lexes cs (argumentTokens (a :: args)) left) :
    (readSequence params cs).result = .ok ((a :: args).map (·.2), left) := by
  induction args generalizing a cs with
  | nil =>
    rw [argumentTokens_singleton] at h
    obtain ⟨rest, ha, hclosing⟩ := lexes_append_iff.mp h
    have hclose := lexes_closing_iff.mp hclosing
    obtain ⟨left', hx, hleft⟩ := hargs a List.mem_cons_self cs rest ha
      (by rw [hclose]; exact fun _ h => nomatch h)
    exact readSequence_last hx (hleft.trans hclose)
  | cons a' args ih =>
    rw [argumentTokens_cons_cons] at h
    obtain ⟨rest, ha, h⟩ := lexes_append_iff.mp h
    obtain ⟨after, hcomma, hothers⟩ := lexes_append_iff.mp h
    have hcomma := lexes_comma_iff.mp hcomma
    obtain ⟨left', hx, hleft⟩ := hargs a List.mem_cons_self cs rest ha
      (by rw [hcomma]; exact fun _ h => nomatch h)
    exact readSequence_more hx (hleft.trans hcomma)
      (ih (fun b hb => hargs b (List.mem_cons_of_mem a hb)) hothers)

theorem completeBody_number {token : List Char} {h : IsNumber token} {s : Scalar}
    (hs : literal? token = some s) : CompleteBody params [.number token h] (.const s) := by
  intro cs rest hlexes _
  obtain ⟨_, hskip, hlongest, hnil⟩ := lexes_cons_iff.mp hlexes
  rcases hnil with _ | _
  have hsplit := splitNumber_of_longest hlongest
  obtain ⟨c, tail, rfl, hc, _⟩ := id h
  have hskip : skipBlank cs = c :: (tail ++ rest) := hskip
  rw [List.cons_append] at hsplit
  refine ⟨rest, ?_, rfl⟩
  rw [readBody_number hskip hc (by rw [hsplit]; exact hs), hsplit]

theorem completeBody_name {token : List Char} {h : IsName token}
    (hb : Denotes params (String.ofList token) b) : CompleteBody params [.name token h] b := by
  intro cs rest hlexes hopen
  obtain ⟨_, hskip, hlongest, hnil⟩ := lexes_cons_iff.mp hlexes
  rcases hnil with _ | _
  obtain ⟨htake, hdrop⟩ := span_of_longest hlongest
  obtain ⟨c, tail, rfl, hc, _⟩ := id h
  have hskip : skipBlank cs = c :: (tail ++ rest) := hskip
  rw [List.cons_append] at htake hdrop
  refine ⟨skipBlank rest, ?_, List.dropWhile_idempotent _ _⟩
  refine readBody_name hskip (startsNumber_of_startsName hc) hc (by rw [hdrop]) hopen ?_
  rw [htake]
  exact atom_eq_ok_iff.mpr hb

theorem completeBody_call {token : List Char} {h : IsName token}
    {args : List (List Token × Body)} (hderives : ∀ a ∈ args, Derives params a.1 a.2)
    (hargs : ∀ a ∈ args, CompleteBody params a.1 a.2)
    (hb : Applies (String.ofList token) (args.map (·.2)) b) :
    CompleteBody params (.name token h :: .opening :: argumentTokens args) b := by
  intro cs rest hlexes _
  obtain ⟨mid, hskip, hlongest, hmid⟩ := lexes_cons_iff.mp hlexes
  obtain ⟨after, hopen, _, hafter⟩ := lexes_cons_iff.mp hmid
  obtain ⟨htake, hdrop⟩ := span_of_longest hlongest
  obtain ⟨c, tail, rfl, hc, _⟩ := id h
  have hskip : skipBlank cs = c :: (tail ++ mid) := hskip
  rw [List.cons_append] at htake hdrop
  obtain ⟨a, others, rfl⟩ : ∃ a others, args = a :: others :=
    List.exists_cons_of_ne_nil fun hnil => hb.args_ne_nil (List.map_eq_nil_iff.mpr hnil)
  have hclose : ∀ tail, skipBlank after ≠ ')' :: tail :=
    argumentTokens_not_closing (hderives a List.mem_cons_self) hafter
  have hread := (readArguments_sequence hclose).trans (readSequence_complete hargs hafter)
  refine ⟨rest, ?_, rfl⟩
  refine readBody_call hskip (startsNumber_of_startsName hc) hc (by rw [hdrop, hopen]; rfl) hread ?_
  rw [htake]
  exact application_eq_ok_iff.mpr hb

/-- **What is derived is read**, by induction on the derivation. -/
theorem Derives.complete (h : Derives params ts b) : CompleteBody params ts b := by
  induction h with
  | number hs => exact completeBody_number hs
  | name hb => exact completeBody_name hb
  | call args hargs hb ih => exact completeBody_call hargs ih hb

end Complete

/-! ## Whole texts -/

variable {params : List Param} {ts : List Token} {b : Body}

/-- **Parsing succeeds exactly with the body that the text derives.** -/
theorem parse_eq_ok_iff (s : Source) : s.parse = .ok b ↔ s.Derives b := by
  rw [Source.parse, Body.ofText]
  constructor
  · intro h
    split at h
    next => exact nomatch h
    next b' left hlt hread =>
      split at h
      next hend =>
        cases h
        have hresult : (readBody s.params s.body.toList).result = .ok (b, left) := by
          rw [hread]
          rfl
        obtain ⟨ts, rest, hlexes, hrest, hderives⟩ := (sound _ _).1 b left hresult
        exact ⟨ts, rest, hlexes, List.dropWhile_eq_nil_iff.mp (hrest.trans hend), hderives⟩
      next => exact nomatch h
  · rintro ⟨ts, rest, hlexes, hblank, hderives⟩
    have hend : skipBlank rest = [] := List.dropWhile_eq_nil_iff.mpr hblank
    obtain ⟨left, hresult, hleft⟩ := hderives.complete s.body.toList rest hlexes
      (by rw [hend]; exact fun _ h => nomatch h)
    obtain ⟨hlt, hread⟩ := Step.eq_ok_of_result hresult
    rw [hread]
    simp only [hleft, hend]

/-- The parameters of a derived body are read back from their names. -/
theorem Derives.legible (h : Derives params ts b) : b.Legible params := by
  induction h with
  | number hs => exact fun i hi => nomatch hi
  | name hb =>
    rename_i cs hname b
    have hatom := atom_eq_ok_iff.mpr hb
    generalize hn : String.ofList cs = name at hb hatom
    rcases hb with _ | _ | _ | _ | ⟨hp, hfirst, hfree⟩
    · exact fun i hi => nomatch hi
    · exact fun i hi => nomatch hi
    · exact fun i hi => nomatch hi
    · exact fun i hi => nomatch hi
    · rename_i i p
      intro j hj
      obtain rfl := List.mem_singleton.mp hj
      refine ⟨p, hp, ?_, hatom⟩
      rw [← hn, String.toList_ofList]
      exact hname
  | call args hargs hb ih =>
    intro i hi
    obtain ⟨x, hx, hix⟩ := hb.exists_mem_paramIndices hi
    obtain ⟨a, ha, rfl⟩ := List.mem_map.mp hx
    exact ih a ha i hix

/-- **The reader accepts exactly its grammar**: a text is parsed with a body if and only if it
derives that body.  A body that was parsed is parsed again from its printed form. -/
theorem parse_iff (s : Source) (b : Body) :
    (s.parse = .ok b ↔ s.Derives b) ∧
      (s.parse = .ok b → Source.parse ⟨s.params, b.text s.params⟩ = .ok b) := by
  refine ⟨parse_eq_ok_iff s, fun h => ?_⟩
  obtain ⟨ts, rest, _, _, hderives⟩ := (parse_eq_ok_iff s).mp h
  exact ofText_text_of_legible hderives.legible

/-- White space around an argument is read over, and not printed. -/
theorem parse_iff_blanks :
    let s : Source := ⟨[⟨"x", .float64⟩], " neg( x )"⟩
    s.parse = .ok (.unary .neg (.param 0)) ∧
      Source.parse ⟨s.params, "neg(x)"⟩ = .ok (.unary .neg (.param 0)) := by
  intro s
  have hneg : IsName ['n', 'e', 'g'] := ⟨'n', ['e', 'g'], rfl, by decide, by decide⟩
  have hx : IsName ['x'] := ⟨'x', [], rfl, by decide, by decide⟩
  have htext : s.body.toList = [' ', 'n', 'e', 'g', '(', ' ', 'x', ' ', ')'] := by simp [s]
  have hlexes : Lexes s.body.toList
      [.name _ hneg, .opening, .name _ hx, .closing] [] := by
    rw [htext]
    refine lexes_cons_iff.mpr ⟨['(', ' ', 'x', ' ', ')'], rfl, hneg.longest ?_, ?_⟩
    · rintro _ _ ⟨⟩
      decide
    refine lexes_cons_iff.mpr ⟨[' ', 'x', ' ', ')'], rfl, fun _ _ _ h => h, ?_⟩
    refine lexes_cons_iff.mpr ⟨[' ', ')'], rfl, hx.longest ?_, lexes_closing_iff.mpr rfl⟩
    rintro _ _ ⟨⟩
    decide
  have hderives : Derives s.params [.name _ hneg, .opening, .name _ hx, .closing]
      (.unary .neg (.param 0)) := by
    refine .call [([.name _ hx], .param 0)] (fun a ha => ?_) (.unary .neg (.param 0))
    rw [List.mem_singleton.mp ha]
    exact .name (.param (p := ⟨"x", .float64⟩) rfl (fun j q hj => absurd hj (Nat.not_lt_zero j))
      (by decide))
  have hparse := (parse_iff s _).1.mpr ⟨_, [], hlexes, fun _ h => absurd h List.not_mem_nil, hderives⟩
  exact ⟨hparse, (parse_iff s _).2 hparse⟩

end DeferredArrays.Kernel
