import DeferredArrays.Proofs.Graph.Frame
import DeferredArrays.Proofs.Graph.Pure
import DeferredArrays.Proofs.Graph.Paths

/-!
# Proofs/Graph/ReadCounts — how often evaluation reads a node

A node that was not forced is computed anew each time it is read.  Without assignments, an
evaluation therefore walks every path from the node it starts at, down to nodes that are cached or
have no operands, and it reads a node once for each path that leads there (`countsPaths_force`).

What a computation adds to the counters is said for a whole computation at once (`Eval.Counts`).
The counts of a sequence are those of its parts, added (`Eval.Counts.bind`), and paths split in the
same way, at the first edge (`Heap.ncard_paths`).  A computation that fails was cut short, so it has
read each node at most as often.
-/

namespace DeferredArrays

open Heap Eval

/-! ## Counters -/

namespace Heap

variable {h : Heap} {id : NodeId}

theorem reads_countRead (hid : id < h.cells.size) (i : NodeId) :
    (h.countRead id).reads i = h.reads i + if id = i then 1 else 0 := by
  rw [reads, countRead, cell?_modifyCell, reads]
  split
  next heq =>
    subst heq
    have hcell : h.cell? id = some h.cells[id] := Array.getElem?_eq_getElem hid
    rw [hcell]
    rfl
  next => rfl

theorem reads_cache (v : Value) (i : NodeId) : (h.cache id v).reads i = h.reads i := by
  rw [reads, cache, cell?_modifyCell, reads]
  split
  · cases h.cell? i <;> rfl
  · rfl

end Heap

namespace Eval

variable {α β : Type} {h : Heap}

/-- **A computation reads each node a number of times**, and at most as often if it fails.  It
changes the state of no node. -/
structure Counts (m : Eval α) (h : Heap) (count : NodeId → Nat) : Prop where
  /-- Nodes are in the state they were in. -/
  states : ∀ i, (after m h).state? i = h.state? i
  /-- No count is taken back. -/
  atLeast : ∀ i, h.reads i ≤ (after m h).reads i
  /-- A node was read as often as that, or less. -/
  atMost : ∀ i, (after m h).reads i ≤ h.reads i + count i
  /-- If the computation succeeds, it was read as often as that. -/
  success : ∀ a h', m h = .ok a h' → ∀ i, h'.reads i = h.reads i + count i

/-- What two computations come to, they count alike. -/
theorem Counts.of_eq {m m' : Eval α} {count : NodeId → Nat} (heq : m h = m' h)
    (hm : Counts m' h count) : Counts m h count := by
  have hafter : after m h = after m' h := by rw [after, after, heq]
  exact ⟨hafter ▸ hm.states, hafter ▸ hm.atLeast, hafter ▸ hm.atMost, heq ▸ hm.success⟩

/-- **The counts of a sequence are those of its parts**, added. -/
theorem Counts.bind {m : Eval α} {f : α → Eval β} {count count' : NodeId → Nat}
    (hm : Counts m h count)
    (hf : ∀ a h', (∀ i, h'.state? i = h.state? i) → Counts (f a) h' count') :
    Counts (m >>= f) h fun i => count i + count' i := by
  cases hr : m h with
  | ok a h₁ =>
    have hafter : after (m >>= f) h = after (f a) h₁ := by rw [after, after, bind_eq_of_ok hr]
    have hstates : ∀ i, h₁.state? i = h.state? i := after_of_ok hr ▸ hm.states
    have hfirst := hm.success a h₁ hr
    have hsecond := hf a h₁ hstates
    refine ⟨fun i => ?_, fun i => ?_, fun i => ?_, fun b h₂ hr₂ i => ?_⟩
    · rw [hafter, hsecond.states, hstates]
    · rw [hafter]
      refine Nat.le_trans ?_ (hsecond.atLeast i)
      exact hfirst i ▸ Nat.le_add_right _ _
    · rw [hafter, ← Nat.add_assoc, ← hfirst i]
      exact hsecond.atMost i
    · rw [bind_eq_of_ok hr] at hr₂
      rw [hsecond.success b h₂ hr₂, hfirst, Nat.add_assoc]
  | error e h₁ =>
    have hafter : after (m >>= f) h = after m h := by
      rw [after_of_error hr, after_of_error (bind_eq_of_error hr)]
    refine ⟨fun i => ?_, fun i => ?_, fun i => ?_, fun b h₂ hr₂ => ?_⟩
    · rw [hafter, hm.states]
    · rw [hafter]
      exact hm.atLeast i
    · rw [hafter]
      exact Nat.le_trans (hm.atMost i) (Nat.add_le_add_left (Nat.le_add_right _ _) _)
    · cases (bind_eq_of_error hr).symm.trans hr₂

/-- A computation that leaves the nodes alone counts nothing. -/
theorem counts_zero {m : Eval α} (hcells : (after m h).cells = h.cells) :
    Counts m h fun _ => 0 := by
  have hcell : ∀ i, (after m h).cell? i = h.cell? i := fun i => congrArg (·[i]?) hcells
  have hreads : ∀ i, (after m h).reads i = h.reads i := fun i => by rw [reads, reads, hcell]
  refine ⟨fun i => ?_, fun i => ?_, fun i => ?_, fun a h' hr i => ?_⟩
  · rw [state?, state?, hcell]
  · exact Nat.le_of_eq (hreads i).symm
  · exact Nat.le_of_eq (hreads i)
  · rw [← after_of_ok hr]
    exact hreads i

theorem counts_idle {m : Eval α} (hm : Idle m) : Counts m h fun _ => 0 :=
  counts_zero (congrArg Heap.cells (hm h))

theorem counts_idle_bind {m : Eval α} {f : α → Eval β} {count : NodeId → Nat} (hm : Idle m)
    (hf : ∀ a g, Counts (f a) g count) : Counts (m >>= f) h count := by
  simpa only [Nat.zero_add] using (counts_idle hm).bind fun a g _ => hf a g

theorem counts_store (a : Tensor) : Counts (store a) h fun _ => 0 := by
  refine counts_zero ?_
  cases hs : a.toScalar? with
  | some s => rw [after_of_ok (store_scalar hs)]
  | none => rw [after_of_ok (store_array hs)]; rfl

/-- The outcome of an operator is stored without a look at any node. -/
theorem counts_stored (r : Except TensorError Tensor) :
    Counts (do store (← lift r)) h fun _ => 0 :=
  counts_idle_bind (idle_lift r) fun a _ => counts_store a

theorem counts_countRead {id : NodeId} (hid : id < h.cells.size) :
    Counts (countRead id) h fun i => if id = i then 1 else 0 where
  states := state?_countRead h id
  atLeast i := by
    show h.reads i ≤ (h.countRead id).reads i
    rw [reads_countRead hid]
    exact Nat.le_add_right _ _
  atMost i := Nat.le_of_eq (reads_countRead hid i)
  success := by
    rintro _ _ ⟨⟩ i
    exact reads_countRead hid i

/-! ## Operands -/

/-- **An expression reads what its operands read**, an operand that occurs twice read twice.
Assignments are left out: their base is forced and not read. -/
theorem counts_evaluate {visit : Demand → NodeId → Eval Value} {e : Expression}
    (hassign : ∀ base key value, e ≠ .assign base key value) {count : NodeId → NodeId → Nat}
    (hread : ∀ c ∈ e.children, ∀ g : Heap, (∀ i, g.state? i = h.state? i) →
      Counts (visit .read c) g (count c)) :
    Counts (e.evaluate visit) h fun i => (e.children.map fun c => count c i).sum := by
  cases e with
  | data b => exact counts_idle fun _ => rfl
  | scalar s => exact counts_idle fun _ => rfl
  | unary op x =>
    refine (hread x (by simp [Expression.children]) h fun _ => rfl).bind fun v _ _ => ?_
    exact counts_idle_bind (idle_view v) fun a _ => counts_stored _
  | binary op x y =>
    refine (hread x (by simp [Expression.children]) h fun _ => rfl).bind fun v g hg => ?_
    refine (hread y (by simp [Expression.children]) g hg).bind fun w _ _ => ?_
    refine counts_idle_bind (idle_view v) fun a _ => ?_
    exact counts_idle_bind (idle_view w) fun b _ => counts_stored _
  | assign base key value => exact absurd rfl (hassign base key value)

/-- **Reading a node reads every node once for each path that leads there**, by induction on the
depth.  Paths are those of the graph in which reading began; no state has changed since. -/
theorem counts_read (hord : h.Ordered) {depth : Nat} {id : NodeId} (hid : id < h.cells.size)
    (hd : id < depth) (hfree : h.AssignFree id) {g : Heap} (hg : ∀ i, g.state? i = h.state? i) :
    Counts (visit depth .read id) g fun m => (h.paths id m).ncard := by
  induction depth generalizing id g with
  | zero => exact absurd hd (Nat.not_lt_zero id)
  | succ depth ih =>
    obtain ⟨s, hs⟩ := exists_state? hid
    have hgs : g.state? id = some s := (hg id).trans hs
    have hcount : Counts (countRead id) g _ := counts_countRead (lt_of_state? hgs)
    cases s with
    | cached v =>
      have hread : visit (depth + 1) .read id g = (do countRead id; pure v : Eval Value) g :=
        read_cached hgs
      simp only [ncard_paths_of_cached hs]
      exact .of_eq hread (hcount.bind fun _ _ _ => counts_idle fun _ => rfl)
    | deferred e =>
      have hread : visit (depth + 1) .read id g =
          (do countRead id; e.evaluate (visit depth) : Eval Value) g := read_deferred hgs
      simp only [ncard_paths hord hs]
      refine .of_eq hread (hcount.bind fun _ g₁ hg₁ => ?_)
      have hassign : ∀ base key value, e ≠ .assign base key value := by
        rintro base key value rfl
        exact hfree id .refl base key value hs
      have hoperand : ∀ c ∈ e.children, ∀ g₂ : Heap, (∀ i, g₂.state? i = g₁.state? i) →
          Counts (visit depth .read c) g₂ fun m => (h.paths c m).ncard := fun c hc g₂ hg₂ =>
        have hlt : c < id := hord id _ hs c hc
        ih (Nat.lt_trans hlt hid) (Nat.lt_of_lt_of_le hlt (Nat.le_of_lt_succ hd))
          (hfree.child hs hc) fun i => (hg₂ i).trans ((hg₁ i).trans (hg i))
      exact counts_evaluate hassign hoperand

end Eval

/-! ## Forcing a node -/

/-- **The counters of nodes count paths** when a node is forced. -/
structure Heap.CountsPaths (h : Heap) (n : NodeId) : Prop where
  /-- There are finitely many paths to each node. -/
  finite : ∀ m, (h.paths n m).Finite
  /-- There is one from the node to itself. -/
  self : (h.paths n n).ncard = 1
  /-- There is none to a node that is not reached, or reached through cached nodes only. -/
  reached : ∀ m, 0 < (h.paths n m).ncard ↔ h.Reaches n m
  /-- If forcing succeeds, each node was read once for every path to it. -/
  success : ∀ v h', Eval.force n h = .ok v h' →
    ∀ m, h'.reads m = h.reads m + (h.paths n m).ncard
  /-- If it fails, each was read at most as often. -/
  failure : ∀ err h', Eval.force n h = .error err h' →
    ∀ m, h.reads m ≤ h'.reads m ∧ h'.reads m ≤ h.reads m + (h.paths n m).ncard
  /-- Once it has succeeded, forcing the node again changes no counter, nor anything else. -/
  again : ∀ v h', Eval.force n h = .ok v h' → ∀ g, h'.Later g → Eval.force n g = .ok v g

namespace Heap

variable {h : Heap} {n : NodeId}

/-- **Forcing a node without assignments below it reads every node once for each path.** -/
theorem countsPaths_force (hs : h.Sound) {e : Expression} (hn : h.state? n = some (.deferred e))
    (hfree : h.AssignFree n) : h.CountsPaths n := by
  have hord := hs.ordered
  have hread : Counts (Eval.read n) h fun m => (h.paths n m).ncard :=
    counts_read hord (lt_of_state? hn) (Nat.lt_succ_self n) hfree fun _ => rfl
  have hforce : Eval.force n h =
      (do let v ← Eval.read n; modify (·.cache n v); pure v : Eval Value) h := force_deferred hn
  have hfin := fun m => finite_paths hord n m
  refine ⟨hfin, ncard_paths_self hord n, fun m => ?_, fun v h' hr m => ?_, fun err h' hr m => ?_,
    fun v h' hr g hg => ?_⟩
  · rw [Set.ncard_pos (hfin m)]
    exact nonempty_paths_iff
  · cases hr₁ : Eval.read n h with
    | ok w h₁ =>
      rw [hforce, bind_eq_of_ok hr₁] at hr
      cases hr
      exact (reads_cache v m).trans (hread.success v h₁ hr₁ m)
    | error err h₁ =>
      rw [hforce, bind_eq_of_error hr₁] at hr
      cases hr
  · cases hr₁ : Eval.read n h with
    | ok w h₁ =>
      rw [hforce, bind_eq_of_ok hr₁] at hr
      cases hr
    | error err' h₁ =>
      rw [hforce, bind_eq_of_error hr₁] at hr
      cases hr
      have hafter := after_of_error hr₁
      exact ⟨hafter ▸ hread.atLeast m, hafter ▸ hread.atMost m⟩
  · exact force_cached (hg.cached (Logged.state?_of_force hr))

/-- A difference whose two sides share the sum of a node and itself.  A factor is cached: it is read,
and nothing that it was computed from. -/
def shared : Heap where
  buffers := #[.ofElements (.ints [1, 2, 3]), .ofElements (.ints [2, 2, 2])]
  cells := #[⟨.deferred (.data 0), 1, 0⟩, ⟨.deferred (.binary .add 0 0), 0, 4⟩,
    ⟨.cached (.array 1), 1, 0⟩, ⟨.deferred (.binary .mul 1 2), 0, 0⟩,
    ⟨.deferred (.binary .sub 3 1), 1, 0⟩]

theorem countsPaths_force_shared :
    (shared.Sound ∧ shared.state? 4 = some (.deferred (.binary .sub 3 1)) ∧
      shared.AssignFree 4) ∧ shared.CountsPaths 4 :=
  have hs : shared.Sound := by decide
  have hn : shared.state? 4 = some (.deferred (.binary .sub 3 1)) := by decide
  have hfree : shared.AssignFree 4 := assignFree_of_all (by decide) 4
  ⟨⟨hs, hn, hfree⟩, countsPaths_force hs hn hfree⟩

/-- The sum is read twice and the array in it four times. -/
example : (after (Eval.force 4) shared).cells.map (·.reads) = #[4, 6, 1, 1, 1] := by
  decide +kernel

end Heap

end DeferredArrays
