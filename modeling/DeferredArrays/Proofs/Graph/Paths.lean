import DeferredArrays.Proofs.Graph.Unfolding
import Mathlib.Algebra.BigOperators.Group.List.Basic
import Mathlib.Data.Set.Card

/-!
# Proofs/Graph/Paths — the ways from one node to another

In a graph that shares nodes, one node can be reached from another in several ways, also by several
edges between the same two nodes.  A **path** says which edge is taken at each node (`Heap.Path`):
it lists positions of children, so two paths are equal only if they take the same edges, and the
paths from a node are ordered as a walk that goes depth first and from left to right meets their
ends.

Numbers decrease along a path (`Path.le`), so there are finitely many paths between two nodes
(`finite_paths`), and their number is a sum over the children of the first (`ncard_paths`).
-/

namespace DeferredArrays.Heap

open Relation

/-- **A path of edges** from one node to another.  Every node before the last is deferred, with an
expression of a given kind; the path is the list of the positions of the children that are taken. -/
inductive Path (h : Heap) (kind : Expression → Prop) : NodeId → List Nat → NodeId → Prop
  | here (id : NodeId) : Path h kind id [] id
  | edge {id c m : NodeId} {e : Expression} {i : Nat} {p : List Nat}
    (hs : h.state? id = some (.deferred e)) (he : kind e) (hc : e.children[i]? = some c)
    (hp : Path h kind c p m) : Path h kind id (i :: p) m

variable {h g : Heap} {kind : Expression → Prop} {id m : NodeId} {e : Expression} {p : List Nat}

theorem path_nil_iff : h.Path kind id [] m ↔ id = m := by
  constructor
  · rintro ⟨⟩
    rfl
  · rintro rfl
    exact .here id

/-- The first edge of a path, and the rest of it. -/
theorem path_cons_iff {i : Nat} (hs : h.state? id = some (.deferred e)) :
    h.Path kind id (i :: p) m ↔ kind e ∧ ∃ c, e.children[i]? = some c ∧ h.Path kind c p m := by
  constructor
  · rintro (_ | ⟨hs', he, hc, hp⟩)
    cases state_unique hs hs'
    exact ⟨he, _, hc, hp⟩
  · rintro ⟨he, c, hc, hp⟩
    exact .edge hs he hc hp

/-- **Numbers do not increase along a path.** -/
theorem Path.le (hord : h.Ordered) (hp : h.Path kind id p m) : m ≤ id := by
  induction hp with
  | here id => exact Nat.le_refl id
  | edge hs _ hc _ ih =>
    exact Nat.le_trans ih (Nat.le_of_lt (hord _ _ hs _ (List.mem_of_getElem? hc)))

/-- **A path leads to one node only.** -/
theorem Path.unique {n : NodeId} (hp : h.Path kind id p m) (hq : h.Path kind id p n) : m = n := by
  induction hp with
  | here id => exact path_nil_iff.mp hq
  | edge hs _ hc _ ih =>
    obtain ⟨_, c', hc', hq⟩ := (path_cons_iff hs).mp hq
    cases hc.symm.trans hc'
    exact ih hq

/-- A node that is deferred later was deferred before, with the same expression. -/
theorem Later.deferred (hl : h.Later g) (hid : id < h.cells.size)
    (hs : g.state? id = some (.deferred e)) : h.state? id = some (.deferred e) := by
  obtain ⟨s, hst⟩ := exists_state? hid
  rcases hl.states id s hst with hsame | ⟨_, v, _, hcached⟩
  · rw [hst, ← state_unique hs hsame]
  · cases state_unique hs hcached

/-- **A path that is there later was there before.** -/
theorem Later.path (hl : h.Later g) (hord : h.Ordered) (hid : id < h.cells.size)
    (hp : g.Path kind id p m) : h.Path kind id p m := by
  induction hp with
  | here id => exact .here id
  | edge hs he hc _ ih =>
    have hs' := hl.deferred hid hs
    have hlt := hord _ _ hs' _ (List.mem_of_getElem? hc)
    exact .edge hs' he hc (ih (Nat.lt_trans hlt hid))

/-! ## Counting paths -/

/-- **The paths from a node to another**, all of whose nodes but the last are deferred. -/
def paths (h : Heap) (id m : NodeId) : Set (List Nat) := {p | h.Path (fun _ => True) id p m}

/-- The paths that begin with an edge to one of the nodes in a list. -/
def pathsBelow (h : Heap) (cs : List NodeId) (m : NodeId) : Set (List Nat) :=
  {q | ∃ i c p, cs[i]? = some c ∧ p ∈ h.paths c m ∧ q = i :: p}

/-- A path from a node is empty or begins with an edge. -/
theorem paths_of_deferred (hs : h.state? id = some (.deferred e)) :
    h.paths id m = {p | p = [] ∧ id = m} ∪ h.pathsBelow e.children m := by
  ext q
  cases q with
  | nil => simp [paths, pathsBelow, path_nil_iff]
  | cons i p => simp [paths, pathsBelow, path_cons_iff hs]

/-- No edge leads away from a cached node. -/
theorem paths_of_cached {v : Value} (hs : h.state? id = some (.cached v)) :
    h.paths id m = {p | p = [] ∧ id = m} := by
  ext q
  cases q with
  | nil => simp [paths, path_nil_iff]
  | cons i p =>
    have hnone : ¬ h.Path (fun _ => True) id (i :: p) m := by
      rintro (_ | ⟨hs', _, _, _⟩)
      cases state_unique hs hs'
    simp [paths, hnone]

/-- **There is a path to each node that is reached**, and to no other. -/
theorem nonempty_paths_iff : (h.paths id m).Nonempty ↔ h.Reaches id m := by
  constructor
  · rintro ⟨p, hp⟩
    induction hp with
    | here id => exact .refl
    | edge hs _ hc _ ih => exact .head ⟨_, hs, List.mem_of_getElem? hc⟩ ih
  · intro hr
    induction hr using ReflTransGen.head_induction_on with
    | refl => exact ⟨[], .here m⟩
    | head hbelow _ ih =>
      obtain ⟨s, hs, hc⟩ := hbelow
      obtain ⟨p, hp⟩ := ih
      cases s with
      | cached v => cases hc
      | deferred e =>
        obtain ⟨i, hi⟩ := List.getElem?_of_mem hc
        exact ⟨i :: p, .edge hs trivial hi hp⟩

/-- One more child adds the paths that begin with the edge to it. -/
theorem pathsBelow_append_singleton (cs : List NodeId) (c m : NodeId) :
    h.pathsBelow (cs ++ [c]) m = h.pathsBelow cs m ∪ (cs.length :: ·) '' h.paths c m := by
  ext q
  constructor
  · rintro ⟨i, d, p, hd, hp, rfl⟩
    by_cases hi : i < cs.length
    · rw [List.getElem?_append_left hi] at hd
      exact .inl ⟨i, d, p, hd, hp, rfl⟩
    · have hlt : i < (cs ++ [c]).length := (List.getElem?_eq_some_iff.mp hd).1
      obtain rfl : i = cs.length := by
        rw [List.length_append, List.length_singleton] at hlt
        omega
      rw [List.getElem?_concat_length] at hd
      cases hd
      exact .inr ⟨p, hp, rfl⟩
  · rintro (⟨i, d, p, hd, hp, rfl⟩ | ⟨p, hp, rfl⟩)
    · have hi : i < cs.length := (List.getElem?_eq_some_iff.mp hd).1
      exact ⟨i, d, p, (List.getElem?_append_left hi).trans hd, hp, rfl⟩
    · exact ⟨cs.length, c, p, List.getElem?_concat_length, hp, rfl⟩

theorem notMem_of_mem_pathsBelow (cs : List NodeId) (c m : NodeId) {q : List Nat}
    (hq : q ∈ h.pathsBelow cs m) : q ∉ (cs.length :: ·) '' h.paths c m := by
  obtain ⟨i, d, p, hd, _, rfl⟩ := hq
  rintro ⟨p', _, heq⟩
  obtain rfl : cs.length = i := (List.cons.inj heq).1
  rw [List.getElem?_eq_none (Nat.le_refl _)] at hd
  cases hd

theorem finite_pathsBelow {cs : List NodeId} (hfin : ∀ c ∈ cs, (h.paths c m).Finite) :
    (h.pathsBelow cs m).Finite := by
  induction cs using List.reverseRecOn with
  | nil => exact Set.finite_empty.subset fun q hq => by obtain ⟨i, c, p, hc, _⟩ := hq; cases hc
  | append_singleton cs c ih =>
    rw [pathsBelow_append_singleton]
    have hbefore := ih fun d hd => hfin d (List.mem_append_left _ hd)
    exact hbefore.union ((hfin c (by simp)).image _)

/-- The paths that begin with an edge to one of several nodes are as many as those of each,
together. -/
theorem ncard_pathsBelow {cs : List NodeId} (hfin : ∀ c ∈ cs, (h.paths c m).Finite) :
    (h.pathsBelow cs m).ncard = (cs.map fun c => (h.paths c m).ncard).sum := by
  induction cs using List.reverseRecOn with
  | nil =>
    have hempty : h.pathsBelow [] m = ∅ := by
      ext q
      simp [pathsBelow]
    rw [hempty, Set.ncard_empty]
    rfl
  | append_singleton cs c ih =>
    have hbefore : ∀ d ∈ cs, (h.paths d m).Finite := fun d hd =>
      hfin d (List.mem_append_left _ hd)
    have hlast : (h.paths c m).Finite := hfin c (by simp)
    have hcons : Function.Injective (cs.length :: · : List Nat → List Nat) := fun _ _ heq =>
      (List.cons.inj heq).2
    have hdisjoint : Disjoint (h.pathsBelow cs m) ((cs.length :: ·) '' h.paths c m) :=
      Set.disjoint_left.mpr fun _ => notMem_of_mem_pathsBelow cs c m
    rw [pathsBelow_append_singleton, Set.ncard_union_eq hdisjoint (finite_pathsBelow hbefore)
      (hlast.image _), ih hbefore, Set.ncard_image_of_injective _ hcons, List.map_append,
      List.sum_append]
    rfl

theorem ncard_here (id m : NodeId) :
    ({p | p = [] ∧ id = m} : Set (List Nat)).ncard = if id = m then 1 else 0 := by
  by_cases hm : id = m
  · rw [if_pos hm]
    have hone : ({p | p = [] ∧ id = m} : Set (List Nat)) = {[]} := by
      ext q
      simp [hm]
    rw [hone, Set.ncard_singleton]
  · rw [if_neg hm]
    simp [hm]

theorem finite_here (id m : NodeId) : ({p | p = [] ∧ id = m} : Set (List Nat)).Finite :=
  (Set.finite_singleton []).subset fun _ hp => hp.1

/-- **There are finitely many paths between two nodes**, by induction on the first. -/
theorem finite_paths (hord : h.Ordered) (id m : NodeId) : (h.paths id m).Finite := by
  induction id using Nat.strongRecOn with
  | ind id ih =>
    cases hst : h.state? id with
    | none =>
      refine (finite_here id m).subset fun q hq => ?_
      rcases hq with _ | ⟨hs, _, _, _⟩
      · exact ⟨rfl, rfl⟩
      · cases hst.symm.trans hs
    | some s =>
      cases s with
      | cached v =>
        rw [paths_of_cached hst]
        exact finite_here id m
      | deferred e =>
        rw [paths_of_deferred hst]
        exact (finite_here id m).union (finite_pathsBelow fun c hc => ih c (hord id _ hst c hc))

/-- **The number of paths from a deferred node** is the sum of those from its children, a child that
occurs twice counted twice, and one more to the node itself. -/
theorem ncard_paths (hord : h.Ordered) (hs : h.state? id = some (.deferred e)) (m : NodeId) :
    (h.paths id m).ncard
      = (if id = m then 1 else 0) + (e.children.map fun c => (h.paths c m).ncard).sum := by
  have hfin : ∀ c ∈ e.children, (h.paths c m).Finite := fun c _ => finite_paths hord c m
  have hdisjoint : Disjoint {p | p = [] ∧ id = m} (h.pathsBelow e.children m) := by
    rw [Set.disjoint_left]
    rintro q ⟨rfl, _⟩ ⟨i, c, p, _, _, hq⟩
    cases hq
  rw [paths_of_deferred hs, Set.ncard_union_eq hdisjoint (finite_here id m)
    (finite_pathsBelow hfin), ncard_here, ncard_pathsBelow hfin]

/-- Numbers decrease along every edge, so only the empty path leads from a node to itself. -/
theorem ncard_paths_self (hord : h.Ordered) (n : NodeId) : (h.paths n n).ncard = 1 := by
  have hone : h.paths n n = {[]} := by
    ext p
    refine ⟨?_, ?_⟩
    · rintro (_ | ⟨hs, _, hc, hp⟩)
      · rfl
      · have hlt := hord n _ hs _ (List.mem_of_getElem? hc)
        exact absurd (Nat.lt_of_le_of_lt (hp.le hord) hlt) (Nat.lt_irrefl n)
    · rintro rfl
      exact .here n
  rw [hone, Set.ncard_singleton]

/-- From a cached node, only the node itself is reached. -/
theorem ncard_paths_of_cached {v : Value} (hs : h.state? id = some (.cached v)) (m : NodeId) :
    (h.paths id m).ncard = if id = m then 1 else 0 := by
  rw [paths_of_cached hs, ncard_here]

end DeferredArrays.Heap
