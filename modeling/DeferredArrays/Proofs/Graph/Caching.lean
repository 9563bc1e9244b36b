import DeferredArrays.Proofs.Graph.Pure
import DeferredArrays.Proofs.Graph.Steps

/-!
# Proofs/Graph/Caching — a node is cached once and for all

Of all steps of an operation, only one changes the state of a node: a visit that forces it and
succeeds (`Effect.cached_of_ne`).  It finds the node deferred, with the expression the node was made
with, and leaves it cached.  Such a visit is made where the operation is to force that very node, or
where an assignment with the node for its base is evaluated (`Operation.Makes.called`).

Nothing makes a cached node deferred again, or gives it another value.  So in every run each node
has one life (`History.Life`, `life_run`): deferred, then cached, and cached for good, whatever
fails and whatever is written to the buffer meanwhile.
-/

namespace DeferredArrays

open Relation Eval Heap

/-! ## How a node comes to be forced -/

namespace Operation

/-- **An operation evaluates an expression**: it is to do so, or it visits a node that holds it. -/
def Evaluates (h : Heap) (op : Operation) (e : Expression) : Prop :=
  op = .evaluate e ∨ ∃ x, op.Makes h x ∧ x.heap.state? x.node = some (.deferred e)

/-- **An operation forces a node**, and that succeeds. -/
structure Forces (h : Heap) (op : Operation) (n : NodeId) (v : Value) : Prop where
  /-- A visit that forces the node comes to the value. -/
  succeeds : ∃ x g, op.Makes h x ∧ x.demand = .force ∧ x.node = n ∧ x.result = .ok v g
  /-- The operation is to force the node, or evaluates an assignment with the node for its base. -/
  called : op = .force n ∨ ∃ key value, op.Evaluates h (.assign n key value)

theorem Makes.called {h : Heap} {op : Operation} {x : Visit} (hx : op.Makes h x)
    (hforce : x.demand = .force) :
    op = .force x.node ∨ ∃ key value, op.Evaluates h (.assign x.node key value) := by
  cases op with
  | force id =>
    rcases Visit.Makes.called hx hforce with rfl | ⟨y, key, value, hy, hs⟩
    · exact .inl rfl
    · exact .inr ⟨key, value, .inr ⟨y, hy, hs⟩⟩
  | read id =>
    rcases Visit.Makes.called hx hforce with rfl | ⟨y, key, value, hy, hs⟩
    · cases hforce
    · exact .inr ⟨key, value, .inr ⟨y, hy, hs⟩⟩
  | evaluate e =>
    obtain ⟨y, hcall, hy⟩ := hx
    rcases Visit.Makes.called hy hforce with rfl | ⟨z, key, value, hz, hs⟩
    · obtain ⟨key, value, rfl⟩ := hcall.eq_assign hforce
      exact .inr ⟨key, value, .inl rfl⟩
    · exact .inr ⟨key, value, .inr ⟨z, ⟨y, hcall, hz⟩, hs⟩⟩
  | allocate => exact hx.elim
  | build => exact hx.elim
  | acquire => exact hx.elim
  | release => exact hx.elim
  | write => exact hx.elim

end Operation

/-! ## The one step that changes a state -/

/-- **An effect that changes a state** is that of forcing the node: it delivers the value that the
node is cached with. -/
theorem Effect.cached_of_ne {P : Visit → Prop} {h h' : Heap} {log : List Event}
    (he : Effect P h log h') {n : NodeId} (hne : h'.state? n ≠ h.state? n) :
    ∃ e v g, h.state? n = some (.deferred e) ∧ h'.state? n = some (.cached v) ∧
      e.Delivers (some n) h v log g ∧
      ∃ x, P x ∧ x.demand = .force ∧ x.node = n ∧ x.result = .ok v h' := by
  cases he with
  | count => exact absurd (state?_countRead _ _ _) hne
  | read _ _ hd => exact absurd (hd.state?_eq n) hne
  | @force x e v _ g hx hforce hs hd hr =>
    rw [state?_cache, hd.state?_eq] at hne ⊢
    split at hne
    next heq =>
      subst heq
      rw [if_pos rfl, hs]
      exact ⟨e, v, g, rfl, rfl, hd, x, hx, hforce, rfl, hr⟩
    next => exact absurd rfl hne

namespace Operation

variable {h : Heap} {op : Operation} {s s' : History} {n : NodeId}

/-- A step that changes the state of a node is an effect of a visit. -/
theorem Step.exists_effect (hstep : op.Step h s s') (hn : n < s.heap.cells.size)
    (hne : s'.heap.state? n ≠ s.heap.state? n) :
    ∃ log, Effect (op.Makes h) s.heap log s'.heap := by
  cases hstep with
  | allocate => exact absurd rfl hne
  | build =>
    refine absurd ?_ hne
    rw [state?_addNode, if_neg (Nat.ne_of_lt hn)]
  | acquire => exact absurd (state?_acquire ..) hne
  | release => exact absurd (state?_release ..) hne
  | write => exact absurd rfl hne
  | effect he => exact ⟨_, he⟩
  | delivery hd => exact absurd (hd.state?_eq n) hne

/-- **A step that changes the state of a node** forces it. -/
theorem Step.cached_of_ne (hstep : op.Step h s s') {st : NodeStatus}
    (hs : s.heap.state? n = some st) (hne : s'.heap.state? n ≠ some st) :
    ∃ e v, st = .deferred e ∧ s'.heap.state? n = some (.cached v) ∧ op.Forces h n v := by
  rw [← hs] at hne
  obtain ⟨_, he⟩ := hstep.exists_effect (lt_of_state? hs) hne
  obtain ⟨e, v, _, hdeferred, hcached, _, x, hx, hforce, rfl, hr⟩ := he.cached_of_ne hne
  cases hs.symm.trans hdeferred
  exact ⟨e, v, rfl, hcached, ⟨x, _, hx, hforce, rfl, hr⟩, hx.called hforce⟩

/-- A cached node is cached with the same value after any steps. -/
theorem Steps.cached (hsteps : op.Steps h s s') {v : Value}
    (hs : s.heap.state? n = some (.cached v)) : s'.heap.state? n = some (.cached v) := by
  induction hsteps with
  | refl => exact hs
  | tail _ hlast ih =>
    refine Classical.byContradiction fun hne => ?_
    obtain ⟨_, _, hdeferred, _⟩ := hlast.cached_of_ne ih hne
    cases hdeferred

/-- **Steps that change the state of a node** force it. -/
theorem Steps.cached_of_ne (hsteps : op.Steps h s s') {st : NodeStatus}
    (hs : s.heap.state? n = some st) (hne : s'.heap.state? n ≠ some st) :
    ∃ e v, st = .deferred e ∧ s'.heap.state? n = some (.cached v) ∧ op.Forces h n v := by
  induction hsteps with
  | refl => exact absurd hs hne
  | @tail s₁ s₂ _ hlast ih =>
    by_cases hsame : s₁.heap.state? n = some st
    · exact hlast.cached_of_ne hsame hne
    · obtain ⟨e, v, rfl, hcached, hforces⟩ := ih hsame
      exact ⟨e, v, rfl, Steps.cached (.single hlast) hcached, hforces⟩

/-- A node that was made was made before, or it is the last. -/
theorem made_or_last {made : List Expression} {e e' : Expression}
    (hmade : (made ++ [e])[n]? = some e') : made[n]? = some e' ∨ n = made.length ∧ e' = e := by
  by_cases hlt : n < made.length
  · rw [List.getElem?_append_left hlt] at hmade
    exact .inl hmade
  · have hle := (List.getElem?_eq_some_iff.mp hmade).1
    rw [List.length_append, List.length_singleton] at hle
    obtain rfl : n = made.length :=
      Nat.le_antisymm (Nat.le_of_lt_succ hle) (Nat.le_of_not_lt hlt)
    rw [List.getElem?_concat_length] at hmade
    exact .inr ⟨rfl, (Option.some.inj hmade).symm⟩

/-- **A node starts out deferred**, with the expression it is made with. -/
theorem state?_of_made (hv : s.Valid) {e : Expression} (hnone : s.made[n]? = none)
    (hmade : (op.perform s).made[n]? = some e) :
    (op.perform s).heap.state? n = some (.deferred e) := by
  have hold : s.made[n]? ≠ some e := hnone ▸ nofun
  unfold perform at hmade ⊢
  split at hmade
  next hop =>
    rw [if_pos hop]
    cases op with
    | build e' =>
      obtain ⟨hn, rfl⟩ := (made_or_last hmade).resolve_left hold
      exact (state?_addNode ..).trans (if_pos (hn.trans hv.size_made))
    | allocate => exact absurd hmade hold
    | acquire => exact absurd hmade hold
    | release => exact absurd hmade hold
    | write => exact absurd hmade hold
    | force => exact absurd hmade hold
    | read => exact absurd hmade hold
    | evaluate => exact absurd hmade hold
  next => exact absurd hmade hold

/-- Nodes keep the expression they were made with. -/
theorem made_perform (s : History) (op : Operation) : s.made <+: (op.perform s).made := by
  unfold perform
  split
  next => cases op <;> first | exact List.prefix_rfl | exact List.prefix_append ..
  next => exact List.prefix_rfl

end Operation

/-! ## The life of a node -/

namespace History

variable {s : History}

theorem made_foldl (s : History) (ops : List Operation) :
    s.made <+: (ops.foldl Operation.perform s).made := by
  induction ops generalizing s with
  | nil => exact List.prefix_rfl
  | cons op ops ih => exact (op.made_perform s).trans (ih _)

/-- A node that was made is deferred with its expression, or cached. -/
theorem Valid.deferred_or_cached (hv : s.Valid) {n : NodeId} {e : Expression}
    (hmade : s.made[n]? = some e) :
    s.heap.state? n = some (.deferred e) ∨ ∃ v, s.heap.state? n = some (.cached v) := by
  obtain ⟨hn, _⟩ := List.getElem?_eq_some_iff.mp hmade
  obtain ⟨st, hs⟩ := exists_state? (hv.size_made ▸ hn)
  cases st with
  | cached v => exact .inr ⟨v, hs⟩
  | deferred e' =>
    cases (hv.deferred n e' hs).symm.trans hmade
    exact .inl hs

/-- **The life of a node**, told at a point of a run.  `s` is the history at that point; what
happens next and later is that of any operations. -/
structure Life (s : History) (n : NodeId) : Prop where
  /-- The node starts out deferred, with the expression it is made with. -/
  starts : ∀ op e, s.made[n]? = none → (Operation.perform s op).made[n]? = some e →
    (Operation.perform s op).heap.state? n = some (.deferred e)
  /-- From then on it is deferred with that expression or cached. -/
  lives : ∀ e, s.made[n]? = some e →
    s.heap.state? n = some (.deferred e) ∨ ∃ v, s.heap.state? n = some (.cached v)
  /-- Its state changes where it is forced successfully, from that expression to the value. -/
  changes : ∀ op e, s.made[n]? = some e →
    (Operation.perform s op).heap.state? n ≠ s.heap.state? n →
    s.heap.state? n = some (.deferred e) ∧
      ∃ v, op.Forces s.heap n v ∧ (Operation.perform s op).heap.state? n = some (.cached v)
  /-- On the way it is in the state before or in the state after, so that its state changes once. -/
  once : ∀ op e s₁, s.made[n]? = some e → op.Steps s.heap s s₁ →
    op.Steps s.heap s₁ (Operation.perform s op) →
    s₁.heap.state? n = s.heap.state? n ∨
      s₁.heap.state? n = (Operation.perform s op).heap.state? n
  /-- The expression stays the one it was made with. -/
  remembers : ∀ (ops : List Operation) e, s.made[n]? = some e →
    (ops.foldl Operation.perform s).made[n]? = some e
  /-- Once it is cached it stays cached with the same value, and forcing it returns the value and
  leaves the heap as it is. -/
  settled : ∀ (ops : List Operation) v, s.heap.state? n = some (.cached v) →
    let later := (ops.foldl Operation.perform s).heap
    later.state? n = some (.cached v) ∧ Eval.force n later = .ok v later

end History

/-- **Every node has one life, in every run**: it is cached at most once, by being forced, and for
good. -/
theorem life_run (ops : List Operation) (n : NodeId) : (run ops).Life n := by
  have hv := valid_run ops
  have hstate : ∀ e, (run ops).made[n]? = some e → ∃ st, (run ops).heap.state? n = some st := by
    intro e hmade
    rcases hv.deferred_or_cached hmade with hs | ⟨v, hs⟩ <;> exact ⟨_, hs⟩
  refine {
    starts := fun op e => op.state?_of_made hv
    lives := fun e => hv.deferred_or_cached
    changes := fun op e hmade hne => ?_
    once := fun op e s₁ hmade hfirst hrest => ?_
    remembers := fun more e hmade => ?_
    settled := fun more v hs => ?_ }
  · obtain ⟨st, hs⟩ := hstate e hmade
    rw [hs] at hne ⊢
    obtain ⟨e', v, rfl, hcached, hforces⟩ := (op.steps_perform hv.sound).cached_of_ne hs hne
    cases (hv.deferred n e' hs).symm.trans hmade
    exact ⟨rfl, v, hforces, hcached⟩
  · obtain ⟨st, hs⟩ := hstate e hmade
    by_cases hsame : s₁.heap.state? n = some st
    · exact .inl (hsame.trans hs.symm)
    · obtain ⟨_, v, _, hcached, _⟩ := hfirst.cached_of_ne hs hsame
      exact .inr (hcached.trans (hrest.cached hcached).symm)
  · obtain ⟨rest, hrest⟩ := History.made_foldl (run ops) more
    rw [← hrest, List.getElem?_append_left (List.getElem?_eq_some_iff.mp hmade).1, hmade]
  · have hcached := (follows_foldl more hv.sound).later.cached hs
    exact ⟨hcached, force_cached hcached⟩

/-- An assignment beyond the end of a product fails again and again, while the product is cached
once. -/
example : let s := run [.allocate (.ofElements (.ints [1, 2, 3])), .build (.data 0),
      .build (.scalar (.int 2)), .build (.binary .mul 0 1), .build (.assign 2 (.position 7) 1),
      .force 3, .force 3]
    (s.heap.state? 2, s.heap.state? 3, s.heap.reads 2) =
      (some (.cached (.array 1)), some (.deferred (.assign 2 (.position 7) 1)), 1) := by
  decide +kernel

end DeferredArrays
