import DeferredArrays.Proofs.Graph.Soundness

/-!
# Proofs/Graph/Unfolding — the expression tree below a node

A graph shares nodes; unfolded from a root, it is a tree (`Term`).  The tree stops at scalars and at
nodes that hold an array, which are its **leaves** and keep their node, so that sharing can still be
told from equality.  `Heap.Unfolds` relates a node to its tree: deferred operators are inner nodes,
and a cached node counts as its value.

In a sound heap every node from which no assignment is reached unfolds (`exists_unfolds`), to one
tree only (`Unfolds.unique`), and the leaves of the tree are the reachable nodes that hold arrays
(`mem_leaves_iff`).
-/

namespace DeferredArrays

open Relation

/-- A node that holds an array, and the buffer of the array. -/
structure Leaf where
  /-- The node. -/
  node : NodeId
  /-- The buffer with its array. -/
  buffer : BufferId
  deriving DecidableEq

/-- **The expression below a node**, unfolded. -/
inductive Term where
  | array (leaf : Leaf)
  | scalar (s : Scalar)
  | unary (op : UnaryOp) (x : Term)
  | binary (op : BinaryOp) (x y : Term)

namespace Term

/-- The leaves of a term from left to right, with repetitions. -/
def leaves : Term → List Leaf
  | array l => [l]
  | scalar _ => []
  | unary _ x => x.leaves
  | binary _ x y => x.leaves ++ y.leaves

/-- **The leaves in the order in which they are first met**, each once. -/
def firstVisits (t : Term) : List Leaf := t.leaves.eraseDups

theorem mem_firstVisits {t : Term} {l : Leaf} : l ∈ t.firstVisits ↔ l ∈ t.leaves :=
  List.mem_eraseDups

end Term

namespace Heap

/-- **A node unfolds to a term.** -/
inductive Unfolds (h : Heap) : NodeId → Term → Prop
  | data {id : NodeId} {b : BufferId} (hs : h.state? id = some (.deferred (.data b))) :
    Unfolds h id (.array ⟨id, b⟩)
  | cachedArray {id : NodeId} {b : BufferId} (hs : h.state? id = some (.cached (.array b))) :
    Unfolds h id (.array ⟨id, b⟩)
  | scalar {id : NodeId} {s : Scalar} (hs : h.state? id = some (.deferred (.scalar s))) :
    Unfolds h id (.scalar s)
  | cachedScalar {id : NodeId} {s : Scalar} (hs : h.state? id = some (.cached (.scalar s))) :
    Unfolds h id (.scalar s)
  | unary {id x : NodeId} {op : UnaryOp} {t : Term}
    (hs : h.state? id = some (.deferred (.unary op x))) (hx : Unfolds h x t) :
    Unfolds h id (.unary op t)
  | binary {id x y : NodeId} {op : BinaryOp} {t u : Term}
    (hs : h.state? id = some (.deferred (.binary op x y))) (hx : Unfolds h x t)
    (hy : Unfolds h y u) : Unfolds h id (.binary op t u)

variable {h : Heap}

/-! ## Existence and uniqueness -/

/-- **A node from which no assignment is reached unfolds** — by induction on the node, since
expressions refer to earlier ones. -/
theorem exists_unfolds (hs : h.Sound) {id : NodeId} (hid : id < h.cells.size)
    (hfree : h.AssignFree id) : ∃ t, h.Unfolds id t := by
  induction id using Nat.strongRecOn with
  | ind id ih =>
    obtain ⟨s, hst⟩ := exists_state? hid
    have hchild : ∀ c ∈ s.children, ∃ t, h.Unfolds c t := fun c hc =>
      have hlt := hs.ordered id s hst c hc
      ih c hlt (Nat.lt_trans hlt hid) (hfree.child hst hc)
    cases s with
    | cached v =>
      cases v with
      | array b => exact ⟨_, .cachedArray hst⟩
      | scalar s => exact ⟨_, .cachedScalar hst⟩
    | deferred e =>
      cases e with
      | data b => exact ⟨_, .data hst⟩
      | scalar s => exact ⟨_, .scalar hst⟩
      | unary op x =>
        obtain ⟨t, hx⟩ := hchild x (by simp [NodeStatus.children, Expression.children])
        exact ⟨_, .unary hst hx⟩
      | binary op x y =>
        obtain ⟨t, hx⟩ := hchild x (by simp [NodeStatus.children, Expression.children])
        obtain ⟨u, hy⟩ := hchild y (by simp [NodeStatus.children, Expression.children])
        exact ⟨_, .binary hst hx hy⟩
      | assign base key value => exact absurd hst (hfree id .refl base key value)

/-- Two states of one node are one state. -/
theorem state_unique {id : NodeId} {s s' : NodeStatus} (hs : h.state? id = some s)
    (hs' : h.state? id = some s') : s = s' := Option.some.inj (hs.symm.trans hs')

/-- **A node unfolds to one term only.** -/
theorem Unfolds.unique {id : NodeId} {t u : Term} (ht : h.Unfolds id t) (hu : h.Unfolds id u) :
    t = u := by
  induction ht generalizing u with
  | data hs =>
    cases hu <;> cases state_unique hs ‹_›
    rfl
  | cachedArray hs =>
    cases hu <;> cases state_unique hs ‹_›
    rfl
  | scalar hs =>
    cases hu <;> cases state_unique hs ‹_›
    rfl
  | cachedScalar hs =>
    cases hu <;> cases state_unique hs ‹_›
    rfl
  | unary hs hx ih =>
    cases hu with
    | unary hs' hx' =>
      cases state_unique hs hs'
      rw [ih hx']
    | data hs' => cases state_unique hs hs'
    | cachedArray hs' => cases state_unique hs hs'
    | scalar hs' => cases state_unique hs hs'
    | cachedScalar hs' => cases state_unique hs hs'
    | binary hs' _ _ => cases state_unique hs hs'
  | binary hs hx hy ihx ihy =>
    cases hu with
    | binary hs' hx' hy' =>
      cases state_unique hs hs'
      rw [ihx hx', ihy hy']
    | data hs' => cases state_unique hs hs'
    | cachedArray hs' => cases state_unique hs hs'
    | scalar hs' => cases state_unique hs hs'
    | cachedScalar hs' => cases state_unique hs hs'
    | unary hs' _ => cases state_unique hs hs'

/-! ## Leaves -/

/-- A node holds an array. -/
def Holds (h : Heap) (l : Leaf) : Prop := ∃ s, h.state? l.node = some s ∧ s.buffer? = some l.buffer

theorem Holds.buffer_eq {l : Leaf} {s : NodeStatus} (hl : h.Holds l)
    (hs : h.state? l.node = some s) : s.buffer? = some l.buffer := by
  obtain ⟨s', hs', hb⟩ := hl
  rw [state_unique hs hs', hb]

/-- A node in a state without an array holds none. -/
theorem Holds.node_ne {l : Leaf} {id : NodeId} {s : NodeStatus} (hl : h.Holds l)
    (hs : h.state? id = some s) (hb : s.buffer? = none) : l.node ≠ id := by
  rintro rfl
  rw [hl.buffer_eq hs] at hb
  cases hb

/-- A node holds one array only. -/
theorem Holds.unique {l m : Leaf} (hl : h.Holds l) (hm : h.Holds m) (hn : l.node = m.node) :
    l = m := by
  obtain ⟨s, hs, hb⟩ := hl
  have hb' := hm.buffer_eq (hn ▸ hs)
  cases l
  cases m
  obtain rfl := hn
  obtain rfl := Option.some.inj (hb.symm.trans hb')
  rfl

theorem Holds.exists_buffer? (hs : h.Sound) {l : Leaf} (hl : h.Holds l) :
    ∃ a, h.buffer? l.buffer = some a := by
  obtain ⟨s, hst, hb⟩ := hl
  exact Heap.exists_buffer? (hs.held _ s _ hst hb)

/-- What is reached from a node is the node itself or reached from a child. -/
theorem Reaches.self_or_child {id n : NodeId} {s : NodeStatus} (hr : h.Reaches id n)
    (hs : h.state? id = some s) : n = id ∨ ∃ c ∈ s.children, h.Reaches c n := by
  rcases ReflTransGen.cases_head hr with rfl | ⟨c, ⟨s', hs', hc⟩, hr⟩
  · exact .inl rfl
  · rw [state_unique hs' hs] at hc
    exact .inr ⟨c, hc, hr⟩

/-- What is reached from a node does not come after it. -/
theorem Reaches.le (hord : h.Ordered) {id n : NodeId} (hr : h.Reaches id n) : n ≤ id := by
  induction hr with
  | refl => exact Nat.le_refl id
  | tail _ hstep ih =>
    obtain ⟨s, hs, hc⟩ := hstep
    exact Nat.le_trans (Nat.le_of_lt (hord _ s hs _ hc)) ih

/-- A node that was cached keeps its value. -/
theorem Later.cached {g : Heap} (hl : h.Later g) {id : NodeId} {v : Value}
    (hst : h.state? id = some (.cached v)) :
    g.state? id = some (.cached v) := by
  rcases hl.states id _ hst with hst' | ⟨_, _, hdeferred, _⟩
  · exact hst'
  · cases hdeferred

/-- What is reached from a node later was reached before. -/
theorem Later.reaches {g : Heap} (hl : h.Later g) (hord : h.Ordered) {id n : NodeId}
    (hid : id < h.cells.size) (hr : g.Reaches id n) : h.Reaches id n := by
  induction hr with
  | refl => exact .refl
  | tail _ hstep ih =>
    obtain ⟨s, hs, hc⟩ := hstep
    obtain ⟨s₀, hs₀⟩ := exists_state? (Nat.lt_of_le_of_lt (Reaches.le hord ih) hid)
    rcases hl.states _ s₀ hs₀ with hs' | ⟨_, v, _, hs'⟩
    · exact ih.tail ⟨s, state_unique hs' hs ▸ hs₀, hc⟩
    · rw [state_unique hs hs'] at hc
      exact nomatch hc

/-- Whatever is reached from a node without assignments below it unfolds. -/
theorem exists_unfolds_of_reaches (hs : h.Sound) {id n : NodeId} (hid : id < h.cells.size)
    (hfree : h.AssignFree id) (hr : h.Reaches id n) : ∃ t, h.Unfolds n t :=
  exists_unfolds hs (Nat.lt_of_le_of_lt (hr.le hs.ordered) hid) fun i hi => hfree i (hr.trans hi)

theorem Unfolds.holds {id : NodeId} {t : Term} (ht : h.Unfolds id t) :
    ∀ l ∈ t.leaves, h.Holds l := by
  induction ht with
  | data hs => exact fun l hl => List.mem_singleton.mp hl ▸ ⟨_, hs, rfl⟩
  | cachedArray hs => exact fun l hl => List.mem_singleton.mp hl ▸ ⟨_, hs, rfl⟩
  | scalar _ => exact fun l hl => nomatch hl
  | cachedScalar _ => exact fun l hl => nomatch hl
  | unary _ _ ih => exact ih
  | binary _ _ _ ihx ihy => exact fun l hl => (List.mem_append.mp hl).elim (ihx l) (ihy l)

/-- **The leaves of the unfolded term are the reachable nodes that hold arrays.** -/
theorem Unfolds.mem_leaves_iff {id : NodeId} {t : Term} (ht : h.Unfolds id t) {l : Leaf} :
    l ∈ t.leaves ↔ h.Reaches id l.node ∧ h.Holds l := by
  refine ⟨fun hl => ⟨?_, ht.holds l hl⟩, fun hrl => ?_⟩
  · induction ht with
    | data _ => rw [List.mem_singleton.mp hl]; exact .refl
    | cachedArray _ => rw [List.mem_singleton.mp hl]; exact .refl
    | scalar _ => cases hl
    | cachedScalar _ => cases hl
    | unary hs _ ih =>
      exact .head ⟨_, hs, by simp [NodeStatus.children, Expression.children]⟩ (ih hl)
    | binary hs _ _ ihx ihy =>
      rcases List.mem_append.mp hl with hl | hl
      · exact .head ⟨_, hs, by simp [NodeStatus.children, Expression.children]⟩ (ihx hl)
      · exact .head ⟨_, hs, by simp [NodeStatus.children, Expression.children]⟩ (ihy hl)
  · obtain ⟨hr, hl⟩ := hrl
    induction ht with
    | data hs =>
      rcases hr.self_or_child hs with hn | ⟨c, hc, _⟩
      · exact List.mem_singleton.mpr (hl.unique ⟨_, hs, rfl⟩ hn)
      · cases hc
    | cachedArray hs =>
      rcases hr.self_or_child hs with hn | ⟨c, hc, _⟩
      · exact List.mem_singleton.mpr (hl.unique ⟨_, hs, rfl⟩ hn)
      · cases hc
    | scalar hs =>
      rcases hr.self_or_child hs with hn | ⟨c, hc, _⟩
      · exact absurd hn (hl.node_ne hs rfl)
      · cases hc
    | cachedScalar hs =>
      rcases hr.self_or_child hs with hn | ⟨c, hc, _⟩
      · exact absurd hn (hl.node_ne hs rfl)
      · cases hc
    | unary hs hx ih =>
      rcases hr.self_or_child hs with hn | ⟨c, hc, hr⟩
      · exact absurd hn (hl.node_ne hs rfl)
      · simp only [NodeStatus.children, Expression.children, List.mem_singleton] at hc
        exact ih (hc ▸ hr)
    | binary hs hx hy ihx ihy =>
      rcases hr.self_or_child hs with hn | ⟨c, hc, hr⟩
      · exact absurd hn (hl.node_ne hs rfl)
      · simp only [NodeStatus.children, Expression.children, List.mem_cons, List.not_mem_nil,
          or_false] at hc
        rcases hc with rfl | rfl
        · exact List.mem_append_left _ (ihx hr)
        · exact List.mem_append_right _ (ihy hr)

end Heap

end DeferredArrays
