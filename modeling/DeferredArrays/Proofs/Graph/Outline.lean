import DeferredArrays.Graph.Diagram
import DeferredArrays.Proofs.Decimal.Spelling

/-!
# Proofs/Graph/Outline — an indented text determines a tree

A tree is written down in lines: each entry before those below it, with its depth (`Outline.lines`).
No count of the entries below is written, but the depths tell where they end.  What follows a tree is
not deeper than its root, so a list of lines that starts with a tree of a given depth determines the
tree, and what is left (`lines_append_inj`).

A line is indented by four blanks for each level.  If it starts with something else than a blank
itself, and has no line break, then its depth and its text can be told from a text that starts with
it (`join_indented_inj`).
-/

namespace DeferredArrays

open Text

/-! ## Trees and lines -/

/-- **A tree of entries**: an entry, and below it any number of trees in order. -/
inductive Outline (α : Type) where
  | entry (a : α) (below : List (Outline α))

namespace Outline

variable {α β : Type}

mutual

/-- The entries with their depths, each before those below it. -/
def lines (depth : Nat) : Outline α → List (Nat × α)
  | entry a below => (depth, a) :: linesAll (depth + 1) below

/-- The entries of trees one after the other. -/
def linesAll (depth : Nat) : List (Outline α) → List (Nat × α)
  | [] => []
  | t :: ts => lines depth t ++ linesAll depth ts

end

mutual

/-- The tree with every entry replaced. -/
def map (f : α → β) : Outline α → Outline β
  | entry a below => entry (f a) (mapAll f below)

/-- Trees with every entry replaced. -/
def mapAll (f : α → β) : List (Outline α) → List (Outline β)
  | [] => []
  | t :: ts => map f t :: mapAll f ts

end

/-- What holds of every entry. -/
def Every (p : α → Prop) (t : Outline α) : Prop := ∀ depth, ∀ l ∈ t.lines depth, p l.2

theorem every_entry {p : α → Prop} {a : α} {below : List (Outline α)} (ha : p a)
    (hbelow : ∀ t ∈ below, t.Every p) : (entry a below).Every p := by
  have hall : ∀ (ts : List (Outline α)) (depth : Nat), (∀ t ∈ ts, t.Every p) →
      ∀ l ∈ linesAll depth ts, p l.2 := fun ts depth hts => by
    induction ts with
    | nil => exact nofun
    | cons t ts ih =>
      intro l hl
      rcases List.mem_append.mp hl with hl | hl
      · exact hts t List.mem_cons_self depth l hl
      · exact ih (fun u hu => hts u (List.mem_cons_of_mem t hu)) l hl
  intro depth l hl
  rcases List.mem_cons.mp hl with rfl | hl
  · exact ha
  · exact hall below (depth + 1) hbelow l hl

mutual

theorem lines_map (f : α → β) (t : Outline α) (depth : Nat) :
    (t.map f).lines depth = (t.lines depth).map (Prod.map id f) := by
  cases t with
  | entry a below =>
    rw [map, lines, lines, linesAll_mapAll]
    rfl

theorem linesAll_mapAll (f : α → β) (ts : List (Outline α)) (depth : Nat) :
    linesAll depth (mapAll f ts) = (linesAll depth ts).map (Prod.map id f) := by
  cases ts with
  | nil => rfl
  | cons t ts => rw [mapAll, linesAll, linesAll, lines_map, linesAll_mapAll, List.map_append]

end

/-- Lines that go on above a depth. -/
def Above (depth : Nat) (rest : List (Nat × α)) : Prop := ∀ l tail, rest = l :: tail → l.1 < depth

/-- A tree and what follows it go on at its own depth. -/
theorem above_lines (t : Outline α) (depth : Nat) (rest : List (Nat × α)) :
    Above (depth + 1) (t.lines depth ++ rest) := by
  rcases t with ⟨a, below⟩
  rintro _ _ ⟨⟩
  exact Nat.lt_succ_self depth

mutual

/-- **The first tree is told from the lines**, since what follows it is not deeper than its root. -/
theorem lines_append_inj (t t' : Outline α) {depth : Nat} {rest rest' : List (Nat × α)}
    (hrest : Above (depth + 1) rest) (hrest' : Above (depth + 1) rest')
    (h : t.lines depth ++ rest = t'.lines depth ++ rest') : t = t' ∧ rest = rest' := by
  rcases t with ⟨a, below⟩
  rcases t' with ⟨a', below'⟩
  obtain ⟨hroot, hbelow⟩ := List.cons.inj h
  obtain ⟨rfl, hlast⟩ := linesAll_append_inj below below' hrest hrest' hbelow
  exact ⟨congrArg (entry · below) (Prod.mk.inj hroot).2, hlast⟩

/-- **Trees one after the other are told from the lines** — a tree does not go on above its depth,
and what follows them does. -/
theorem linesAll_append_inj (ts ts' : List (Outline α)) {depth : Nat} {rest rest' : List (Nat × α)}
    (hrest : Above depth rest) (hrest' : Above depth rest')
    (h : linesAll depth ts ++ rest = linesAll depth ts' ++ rest') : ts = ts' ∧ rest = rest' := by
  rcases ts with _ | ⟨t, ts⟩ <;> rcases ts' with _ | ⟨t', ts'⟩
  · exact ⟨rfl, h⟩
  · rcases t' with ⟨a', below'⟩
    exact absurd (hrest _ _ h) (Nat.lt_irrefl depth)
  · rcases t with ⟨a, below⟩
    exact absurd (hrest' _ _ h.symm) (Nat.lt_irrefl depth)
  · have habove : ∀ us {rest : List (Nat × α)}, Above depth rest →
        Above (depth + 1) (linesAll depth us ++ rest) := fun us rest hrest => by
      rcases us with _ | ⟨u, us⟩
      · exact fun l tail hl => Nat.lt_succ_of_lt (hrest l tail hl)
      · rw [linesAll, List.append_assoc]
        exact above_lines u depth _
    rw [linesAll, linesAll, List.append_assoc, List.append_assoc] at h
    obtain ⟨rfl, hmore⟩ := lines_append_inj t t' (habove ts hrest) (habove ts' hrest') h
    obtain ⟨rfl, hlast⟩ := linesAll_append_inj ts ts' hrest hrest' hmore
    exact ⟨rfl, hlast⟩

end

/-- **A tree is told from its lines.** -/
theorem lines_inj {t t' : Outline α} {depth : Nat} (h : t.lines depth = t'.lines depth) :
    t = t' := by
  have hnil : Above (depth + 1) ([] : List (Nat × α)) := fun _ _ h => nomatch h
  exact (lines_append_inj t t' hnil hnil (congrArg (· ++ []) h)).1

end Outline

/-! ## Indented lines -/

namespace Heap

/-- **A line**: it starts with something else than a blank, and does not break. -/
structure IsLine (s : String) : Prop where
  /-- The first character is there, and no blank. -/
  start : ∃ c cs, s.toList = c :: cs ∧ c ≠ ' '
  /-- There is no line break. -/
  unbroken : '\n' ∉ s.toList

theorem toList_indented (depth : Nat) (s : String) :
    (indented depth s).toList = List.replicate (4 * depth) ' ' ++ (s.toList ++ ['\n']) := by
  simp [indented]

/-- **A line and its depth are told from a text that starts with it.** -/
theorem indented_append_inj {depth depth' : Nat} {s s' : String} {rest rest' : List Char}
    (hs : IsLine s) (hs' : IsLine s')
    (h : (indented depth s).toList ++ rest = (indented depth' s').toList ++ rest') :
    depth = depth' ∧ s = s' ∧ rest = rest' := by
  have hblank : ∀ n, ∀ c ∈ List.replicate (4 * n) ' ', c == ' ' := fun n c hc => by
    simp [(List.mem_replicate.mp hc).2]
  have hstops : ∀ {s : String} {behind : List Char}, IsLine s →
      Stops (· == ' ') (s.toList ++ '\n' :: behind) := fun hs => by
    obtain ⟨c, cs, hc, hne⟩ := hs.start
    rw [hc]
    rintro _ _ ⟨⟩
    simpa using hne
  have hends : ∀ behind : List Char, Stops (· != '\n') ('\n' :: behind) := fun behind => by
    rintro _ _ ⟨⟩
    rfl
  have hline : ∀ {s : String}, IsLine s → ∀ c ∈ s.toList, c != '\n' := fun hs c hc => by
    have hne : c ≠ '\n' := fun h => hs.unbroken (h ▸ hc)
    simpa using hne
  simp only [toList_indented, List.append_assoc, List.singleton_append] at h
  obtain ⟨hindent, h⟩ := append_inj_of_stops (hblank depth) (hblank depth') (hstops hs)
    (hstops hs') h
  obtain ⟨htext, h⟩ := append_inj_of_stops (hline hs) (hline hs') (hends rest) (hends rest') h
  have hlength := congrArg List.length hindent
  rw [List.length_replicate, List.length_replicate] at hlength
  exact ⟨by omega, String.toList_inj.mp htext, (List.cons.inj h).2⟩

/-- **Lines and their depths are told from their text.** -/
theorem join_indented_inj {ls ls' : List (Nat × String)} (hls : ∀ l ∈ ls, IsLine l.2)
    (hls' : ∀ l ∈ ls', IsLine l.2) (h : String.join (ls.map fun l => indented l.1 l.2) =
      String.join (ls'.map fun l => indented l.1 l.2)) : ls = ls' := by
  have hne : ∀ l : Nat × String, ∀ rest : List Char, (indented l.1 l.2).toList ++ rest ≠ [] :=
    fun l rest => by simp [toList_indented]
  replace h := congrArg String.toList h
  simp only [String.toList_join, List.flatMap_map] at h
  induction ls generalizing ls' with
  | nil =>
    rcases ls' with _ | ⟨l', ls'⟩
    · rfl
    · exact absurd h.symm (hne l' _)
  | cons l ls ih =>
    rcases ls' with _ | ⟨l', ls'⟩
    · exact absurd h (hne l _)
    · rw [List.flatMap_cons, List.flatMap_cons] at h
      obtain ⟨hdepth, htext, hmore⟩ := indented_append_inj (hls l List.mem_cons_self)
        (hls' l' List.mem_cons_self) h
      obtain rfl : l = l' := Prod.ext hdepth htext
      rw [ih (fun m hm => hls m (List.mem_cons_of_mem _ hm))
        (fun m hm => hls' m (List.mem_cons_of_mem _ hm)) hmore]

end Heap

end DeferredArrays
