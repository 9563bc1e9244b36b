import DeferredArrays.Json.Reading
import DeferredArrays.Proofs.Json.Spelling

/-!
# Proofs/Json/Documents — a document is read back from its text

A document is written as its tokens, and read off the front of them whatever follows
(`readValue_tokens`).  Reading is bounded by twice the number of tokens, as each nested step uses up
one of them.  Its tokens can be told apart in the text, since a number is always followed by a
comma or by the end of what it is in (`Spelled.separable`).  So any document whose numbers are
spelled as numbers is read back from its text (`ofText?_toText`).
-/

namespace DeferredArrays.Json

open Token

/-! ## From tokens to the document -/

/-- The tokens of a document start with one that does not close a list. -/
theorem exists_tokens_eq_cons (x : Json) : ∃ t ts, tokens x = t :: ts ∧ t ≠ .closeBracket := by
  cases x with
  | null | bool | number | text | array | object => exact ⟨_, _, by rw [tokens], by simp⟩

theorem moreItemTokens_cons (x : Json) (xs : List Json) :
    moreItemTokens (x :: xs) = .comma :: itemTokens (x :: xs) := by rw [moreItemTokens, itemTokens]

theorem moreMemberTokens_cons (m : Option String × Json) (ms : List (Option String × Json)) :
    moreMemberTokens (m :: ms) = .comma :: memberTokens (m :: ms) := by
  rw [moreMemberTokens, memberTokens]

mutual

/-- **A document is read off the front of its tokens**, whatever follows them. -/
theorem readValue_tokens (x : Json) {limit : Nat} (hlimit : 2 * (tokens x).length ≤ limit + 1)
    (rest : List Token) : readValue limit (tokens x ++ rest) = some (x, rest) := by
  match x with
  | null => rw [tokens, List.singleton_append, readValue]
  | bool b => rw [tokens, List.singleton_append, readValue]
  | number n => rw [tokens, List.singleton_append, readValue]
  | text s => rw [tokens, List.singleton_append, readValue]
  | array [] => rw [tokens, itemTokens, List.cons_append, List.singleton_append, readValue]
  | array (x :: xs) =>
    rw [tokens, List.length_cons] at hlimit
    obtain ⟨limit, rfl⟩ : ∃ l, limit = l + 1 := ⟨limit - 1, by omega⟩
    have hrest : 2 * (itemTokens (x :: xs)).length ≤ limit := by omega
    have hitems := readItems_tokens x xs hrest rest
    -- the first item shows that the list is not empty
    obtain ⟨t, ts, htokens, ht⟩ := exists_tokens_eq_cons x
    rw [tokens, List.cons_append]
    rw [itemTokens, htokens, List.cons_append, List.cons_append] at hitems ⊢
    rw [readValue, hitems]
    · rfl
    · exact fun ts h => ht (List.cons.inj h).1
  | object [] => rw [tokens, memberTokens, List.cons_append, List.singleton_append, readValue]
  | object ((key, x) :: ms) =>
    rw [tokens, List.length_cons] at hlimit
    obtain ⟨limit, rfl⟩ : ∃ l, limit = l + 1 := ⟨limit - 1, by omega⟩
    have hrest : 2 * (memberTokens ((key, x) :: ms)).length ≤ limit := by omega
    have hmembers := readMembers_tokens key x ms hrest rest
    rw [tokens, List.cons_append]
    rw [memberTokens, List.cons_append, List.cons_append] at hmembers ⊢
    rw [readValue, hmembers]
    · rfl
    · exact fun ts h => nomatch h
termination_by limit

/-- The same for the items of a list … -/
theorem readItems_tokens (x : Json) (xs : List Json) {limit : Nat}
    (hlimit : 2 * (itemTokens (x :: xs)).length ≤ limit) (rest : List Token) :
    readItems limit (itemTokens (x :: xs) ++ rest) = some (x :: xs, rest) := by
  obtain ⟨t, ts, htokens, -⟩ := exists_tokens_eq_cons x
  have hpos : 0 < (tokens x).length := by rw [htokens]; exact Nat.succ_pos _
  rw [itemTokens, List.length_append] at hlimit
  obtain ⟨limit, rfl⟩ : ∃ l, limit = l + 1 := ⟨limit - 1, by omega⟩
  rw [itemTokens, List.append_assoc, readItems,
    readValue_tokens x (by omega) (moreItemTokens xs ++ rest)]
  match xs with
  | [] => rw [moreItemTokens]; rfl
  | y :: ys =>
    rw [moreItemTokens_cons, List.length_cons] at hlimit
    have hrest : 2 * (itemTokens (y :: ys)).length ≤ limit := by omega
    have hmore := readItems_tokens y ys hrest rest
    rw [moreItemTokens_cons, List.cons_append]
    simp only [Option.bind_eq_bind, Option.bind_some, hmore, Option.pure_def]
termination_by limit

/-- … and the members of an object. -/
theorem readMembers_tokens (key : Option String) (x : Json) (ms : List (Option String × Json))
    {limit : Nat} (hlimit : 2 * (memberTokens ((key, x) :: ms)).length ≤ limit)
    (rest : List Token) :
    readMembers limit (memberTokens ((key, x) :: ms) ++ rest) = some ((key, x) :: ms, rest) := by
  rw [memberTokens, List.length_cons, List.length_cons, List.length_append] at hlimit
  obtain ⟨limit, rfl⟩ : ∃ l, limit = l + 1 := ⟨limit - 1, by omega⟩
  rw [memberTokens, List.cons_append, List.cons_append, List.append_assoc, readMembers,
    readValue_tokens x (by omega) (moreMemberTokens ms ++ rest)]
  match ms with
  | [] => rw [moreMemberTokens]; rfl
  | (key', y) :: ms =>
    rw [moreMemberTokens_cons, List.length_cons] at hlimit
    have hrest : 2 * (memberTokens ((key', y) :: ms)).length ≤ limit := by omega
    have hmore := readMembers_tokens key' y ms hrest rest
    rw [moreMemberTokens_cons, List.cons_append]
    simp only [Option.bind_eq_bind, Option.bind_some, hmore, Option.pure_def]
termination_by limit

end

/-- **The tokens of a document are read as this document.** -/
theorem ofTokens?_tokens (x : Json) : ofTokens? (tokens x) = some x := by
  have h := readValue_tokens x (Nat.le_succ _) []
  rw [List.append_nil] at h
  rw [ofTokens?, h]

/-! ## From the text to tokens -/

/-- **Every number in a document is spelled as one.** -/
inductive Spelled : Json → Prop
  | null : Spelled null
  | bool (b : Bool) : Spelled (bool b)
  | number {n : List Char} (hn : IsNumber n) : Spelled (number n)
  | text (s : Option String) : Spelled (text s)
  | array {xs : List Json} (hxs : ∀ x ∈ xs, Spelled x) : Spelled (array xs)
  | object {ms : List (Option String × Json)} (hms : ∀ m ∈ ms, Spelled m.2) : Spelled (object ms)

/-- Other tokens may stand behind those of a document, if they do not start with a number. -/
def Precedes (x : Json) : Prop :=
  ∀ rest, Separable rest → (∀ n, rest.head? ≠ some (.number n)) → Separable (tokens x ++ rest)

/-- Items are apart from what follows them … -/
theorem separable_itemTokens {xs : List Json} (hxs : ∀ x ∈ xs, Precedes x) {rest : List Token}
    (hrest : Separable rest) : Separable (itemTokens xs ++ rest) := by
  induction xs with
  | nil =>
    rw [itemTokens]
    exact hrest.cons fun _ => Token.noConfusion
  | cons x xs ih =>
    have hx := hxs x List.mem_cons_self
    have hrest' := ih fun y hy => hxs y (List.mem_cons_of_mem x hy)
    rw [itemTokens, List.append_assoc]
    cases xs with
    | nil =>
      rw [moreItemTokens]
      exact hx _ (hrest.cons fun _ => Token.noConfusion) (by simp)
    | cons y ys =>
      rw [moreItemTokens_cons]
      exact hx _ (hrest'.cons fun _ => Token.noConfusion) (by simp)

/-- … and so are members. -/
theorem separable_memberTokens {ms : List (Option String × Json)} (hms : ∀ m ∈ ms, Precedes m.2)
    {rest : List Token} (hrest : Separable rest) : Separable (memberTokens ms ++ rest) := by
  induction ms with
  | nil =>
    rw [memberTokens]
    exact hrest.cons fun _ => Token.noConfusion
  | cons m ms ih =>
    have hm := hms m List.mem_cons_self
    have hrest' := ih fun n hn => hms n (List.mem_cons_of_mem m hn)
    rw [memberTokens, List.cons_append, List.cons_append, List.append_assoc]
    refine .cons (.cons ?_ fun _ => Token.noConfusion) fun _ => Token.noConfusion
    cases ms with
    | nil =>
      rw [moreMemberTokens]
      exact hm _ (hrest.cons fun _ => Token.noConfusion) (by simp)
    | cons n ms =>
      rw [moreMemberTokens_cons]
      exact hm _ (hrest'.cons fun _ => Token.noConfusion) (by simp)

/-- A document may stand before a comma or a closing bracket … -/
theorem Spelled.precedes {x : Json} (hx : Spelled x) : Precedes x := by
  induction hx with
  | null | bool | text =>
    intro rest hrest _
    rw [tokens]
    exact hrest.cons fun _ => Token.noConfusion
  | number hn =>
    intro rest hrest hend
    rw [tokens]
    refine ⟨fun m hm => ?_, hrest⟩
    cases hm
    exact ⟨hn, hend⟩
  | array _ ih =>
    intro rest hrest _
    rw [tokens]
    exact (separable_itemTokens ih hrest).cons fun _ => Token.noConfusion
  | object _ ih =>
    intro rest hrest _
    rw [tokens]
    exact (separable_memberTokens ih hrest).cons fun _ => Token.noConfusion

/-- … so that its tokens can be told apart. -/
theorem Spelled.separable {x : Json} (hx : Spelled x) : Separable (tokens x) := by
  have h := hx.precedes [] trivial (by simp)
  rwa [List.append_nil] at h

/-- **A document is read back from its text.** -/
theorem ofText?_toText {x : Json} (hx : Spelled x) : ofText? x.toText.toList = some x := by
  rw [toText, String.toList_ofList, ofText?, ofText?_spellAll hx.separable]
  exact ofTokens?_tokens x

end DeferredArrays.Json
