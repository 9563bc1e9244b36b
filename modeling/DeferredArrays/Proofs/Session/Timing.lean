import DeferredArrays.Proofs.Graph.Retaining
import DeferredArrays.Proofs.Session.Operations

/-!
# Proofs/Session/Timing — when a pure expression is forced does not matter

Nodes are built, forced and read, handles taken and dropped, buffers written to: a **run** of such
steps, in any order and whatever fails on the way, makes its writes in certain heaps
(`Heap.writesAll`).  If none of them goes to a buffer that is held, at that moment, by a node below a
pure expression, the run keeps what the expression stands for, step by step
(`Heap.Retains.perform`, `Heap.Retains.performAll`).  So forcing it has one and the same outcome
before and after the run (`Heap.outcome_performAll`).
-/

namespace DeferredArrays

open Eval

/-! ## Runs -/

/-- **A step of a run**: an operation, or any change of a buffer from outside. -/
inductive Step where
  | operation (op : Operation)
  /-- Puts an array in the place of the one in a buffer. -/
  | overwrite (b : BufferId) (a : Tensor)

/-- The writes that an operation makes where it is permitted. -/
def Operation.writes (h : Heap) : Operation → List Write
  | allocate _ => []
  | build _ => []
  | acquire _ => []
  | release _ => []
  | write b key value => (Watched.write b key value).writes h
  | force id => (Watched.visit (id + 1) .force id).writes h
  | read id => (Watched.visit (id + 1) .read id).writes h
  | evaluate e => (Watched.evaluate (Watched.visit h.cells.size) e).writes h

namespace Step

/-- **The heap after a step.**  An operation that is not permitted does nothing. -/
def perform (h : Heap) : Step → Heap
  | operation op => if op.Permitted h then op.effect h else h
  | overwrite b a => h.setBuffer b a

/-- **The writes of a step.** -/
def writes (h : Heap) : Step → List Write
  | operation op => if op.Permitted h then op.writes h else []
  | overwrite b _ => [⟨h, b⟩]

/-- An operation does the same to a heap with a history. -/
theorem heap_perform (s : History) (op : Operation) :
    (op.perform s).heap = (operation op).perform s.heap := by
  show (op.perform s).heap = if op.Permitted s.heap then op.effect s.heap else s.heap
  unfold Operation.perform
  split
  next => cases op <;> rfl
  next => rfl

end Step

namespace Heap

/-- **The heap after a run.** -/
def performAll (h : Heap) (steps : List Step) : Heap := steps.foldl Step.perform h

/-- **The writes of a run**, each with the heap at that moment. -/
def writesAll (h : Heap) : List Step → List Write
  | [] => []
  | step :: steps => step.writes h ++ (step.perform h).writesAll steps

variable {h g : Heap} {n : NodeId}

/-- Nodes may be added. -/
theorem Retains.addNode (hr : h.Retains n g) (hlt : ∀ m, h.Reaches n m → m < g.cells.size)
    {e : Expression} (he : ∀ c ∈ e.children, c < g.cells.size) :
    h.Retains n (g.addNode e).2 where
  ordered i s hs := by
    rw [state?_addNode] at hs
    split at hs
    next hi =>
      cases hs
      exact hi ▸ he
    next => exact hr.ordered i s hs
  upholds m hm := by
    have hstate : (g.addNode e).2.state? m = g.state? m := by
      rw [state?_addNode, if_neg (Nat.ne_of_lt (hlt m hm))]
    cases hr.upholds m hm with
    | same hs hb => exact .same (hstate.trans hs) hb
    | cached hs ht ha hv hkind =>
      exact .cached (hstate.trans hs) ht ha (hv.of_buffers fun _ => rfl) hkind

/-- **A step keeps what is below a node**, if its writes spare it. -/
theorem Retains.perform (hr : h.Retains n g) (hs : h.Sound) (hn : n < h.cells.size)
    (hfree : h.AssignFree n) (step : Step) (hsp : ∀ w ∈ step.writes g, h.Spares n w) :
    h.Retains n (step.perform g) := by
  have hstable := stable_retains h n
  cases step with
  | overwrite b a => exact hstable.writing g b a hr (hsp ⟨g, b⟩ (List.mem_singleton.mpr rfl))
  | operation op =>
    by_cases hop : op.Permitted g
    · rw [Step.writes, if_pos hop] at hsp
      rw [Step.perform, if_pos hop]
      cases op with
      | allocate a => exact hr.extends (extends_addBuffer g a)
      | build e =>
        refine hr.addNode (fun m hm => ?_) hop.1
        obtain ⟨t, ht⟩ := exists_unfolds_of_reaches hs hn hfree hm
        obtain ⟨s, hst⟩ := (hr.upholds m hm).exists_state? ht
        exact lt_of_state? hst
      | acquire id => exact hr.extends (extends_modifyCell g id fun _ => rfl)
      | release id => exact hr.extends (extends_modifyCell g id fun _ => rfl)
      | write b key value => exact hstable.preserves_write b key value hr hsp
      | force id =>
        have hvisit := preserves_visit hs hn hfree (Nat.lt_succ_self id) hr hsp
        rwa [Watched.run_visit] at hvisit
      | read id =>
        have hvisit := preserves_visit hs hn hfree (Nat.lt_succ_self id) hr hsp
        rwa [Watched.run_visit] at hvisit
      | evaluate e =>
        have heval := hstable.preserves_evaluate
          (fun _ _ _ hd => preserves_visit hs hn hfree hd) hop.1 hr hsp
        simp only [Watched.run_evaluate, Watched.run_visit] at heval
        exact heval
    · rw [Step.perform, if_neg hop]
      exact hr

/-- **A run keeps what is below a node**, if its writes spare it. -/
theorem Retains.performAll (hr : h.Retains n g) (hs : h.Sound) (hn : n < h.cells.size)
    (hfree : h.AssignFree n) {steps : List Step} (hsp : ∀ w ∈ g.writesAll steps, h.Spares n w) :
    h.Retains n (g.performAll steps) := by
  induction steps generalizing g with
  | nil => exact hr
  | cons step steps ih =>
    have hstep := hr.perform hs hn hfree step fun w hw => hsp w (List.mem_append_left _ hw)
    exact ih hstep fun w hw => hsp w (List.mem_append_right _ hw)

/-- **When a node without assignments below it is forced does not matter**: after any run that
writes to no buffer held, at that moment, by a node that was reached, the outcome is what it was. -/
theorem outcome_performAll (hs : h.Sound) (hn : n < h.cells.size) (hfree : h.AssignFree n)
    {steps : List Step}
    (hsp : ∀ w ∈ h.writesAll steps, ∀ m, h.Reaches n m → ¬ w.heap.Holds ⟨m, w.buffer⟩) :
    (h.performAll steps).outcome n = h.outcome n := by
  obtain ⟨t, ht⟩ := exists_unfolds hs hn hfree
  have hr := (Retains.refl hs.ordered n).performAll hs hn hfree hsp
  rw [hr.outcome_eq hs .refl ht, (Retains.refl hs.ordered n).outcome_eq hs .refl ht]

instance (h : Heap) (l : Leaf) : Decidable (h.Holds l) :=
  decidable_of_iff ((h.state? l.node).bind (·.buffer?) = some l.buffer) Option.bind_eq_some_iff

/-- `x * 2 + x`, and an array `y` apart from it. -/
def beside : Heap :=
  ⟨#[.ofElements (.ints [1, 2]), .ofElements (.ints [7, 8])],
    #[⟨.deferred (.data 0), 1, 0⟩, ⟨.deferred (.scalar (.int 2)), 0, 0⟩,
      ⟨.deferred (.binary .mul 0 1), 0, 0⟩, ⟨.deferred (.binary .add 2 0), 1, 0⟩,
      ⟨.deferred (.data 1), 1, 0⟩]⟩

/-- Caches `x * 2`, assigns to an element of `y`, fails to assign all of `x * 2 + x` to it, and puts
a shorter array in the place of `y`. -/
def interlude : List Step :=
  [.operation (.force 2), .operation (.build (.assign 4 (.position 0) 1)), .operation (.force 5),
    .operation (.build (.assign 5 (.position 0) 3)), .operation (.force 6),
    .overwrite 1 (.ofElements (.ints [0]))]

theorem outcome_performAll_beside :
    (beside.Sound ∧ 3 < beside.cells.size ∧ beside.AssignFree 3 ∧
      ∀ w ∈ beside.writesAll interlude, ∀ m, beside.Reaches 3 m →
        ¬ w.heap.Holds ⟨m, w.buffer⟩) ∧
    (beside.performAll interlude).outcome 3 = beside.outcome 3 := by
  have hs : beside.Sound := by decide +kernel
  have hn : 3 < beside.cells.size := by decide +kernel
  have hfree : beside.AssignFree 3 := assignFree_of_all (by decide +kernel) 3
  have hall : ∀ w ∈ beside.writesAll interlude, ∀ m ≤ 3, ¬ w.heap.Holds ⟨m, w.buffer⟩ := by
    decide +kernel
  have hsp : ∀ w ∈ beside.writesAll interlude, ∀ m, beside.Reaches 3 m →
      ¬ w.heap.Holds ⟨m, w.buffer⟩ := fun w hw m hm => hall w hw m (hm.le hs.ordered)
  exact ⟨⟨hs, hn, hfree, hsp⟩, outcome_performAll hs hn hfree hsp⟩

end Heap

end DeferredArrays
