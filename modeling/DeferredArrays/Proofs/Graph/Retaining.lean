import DeferredArrays.Proofs.Graph.Watching
import DeferredArrays.Session.Command

/-!
# Proofs/Graph/Retaining — what a node stands for, while other nodes are evaluated

Below a node without assignments, evaluation can change two things: it can cache nodes, and it can
write to the buffers that nodes hold.  Caching replaces an expression by its value, which is what it
stands for anyway.  So a heap **retains** what is below a node as long as no write goes to a buffer
that a node below holds at that moment (`Heap.Retains`, `Heap.Spares`): a visit of a node below
keeps what it stands for, since its value is known (`Heap.Retains.visit`), and so does a visit of
any other node, by induction on the depth (`Heap.preserves_visit`).

What is retained determines the outcome of forcing the node (`Heap.Retains.outcome_eq`): not just the
elements, but whether it is an array or a scalar, and the error if there is one.
-/

namespace DeferredArrays

open Eval Session

/-! ## Outcomes -/

/-- A value, copied out of the heap. -/
def Eval.content : Value → Eval Content
  | .array b => do return .array (← buffer b)
  | .scalar s => pure (.scalar s)

/-- **The outcome of forcing a node**: its value, an array or a scalar, or the error. -/
def Heap.outcome (h : Heap) (id : NodeId) : Except Error Content :=
  match (do Eval.content (← Eval.force id) : Eval Content) h with
  | .ok c _ => .ok c
  | .error e _ => .error e

/-- What a term evaluates to, given its array. -/
def Term.content (t : Term) (a : Tensor) : Content :=
  match t.isArray a, a.toScalar? with
  | false, some s => .scalar s
  | _, _ => .array a

/-! ## Nodes that stand for the same -/

namespace Eval

variable {h h' : Heap}

theorem exists_of_bind_ok {α β : Type} {m : Eval α} {f : α → Eval β} {b : β}
    (hr : (m >>= f) h = .ok b h') : ∃ a h₁, m h = .ok a h₁ ∧ f a h₁ = .ok b h' := by
  cases hm : m h with
  | ok a h₁ => exact ⟨a, h₁, rfl, (bind_eq_of_ok hm).symm.trans hr⟩
  | error e h₁ => exact nomatch (bind_eq_of_error hm).symm.trans hr

/-- A state that was looked up is the state of the node. -/
theorem state?_of_state {id : NodeId} {s : NodeStatus} (hr : state id h = .ok s h') :
    h' = h ∧ h.state? id = some s := by
  cases hs : h.state? id with
  | none => exact nomatch (state_eq_none hs).symm.trans hr
  | some s' =>
    cases (state_eq hs).symm.trans hr
    exact ⟨rfl, rfl⟩

/-- A stored array is an array unless its rank is zero. -/
theorem isSome_buffer?_of_store {a c : Tensor} {v : Value} (hr : store a h = .ok v h')
    (hv : Denotes h' v c) : v.buffer?.isSome = c.toScalar?.isNone := by
  cases hs : a.toScalar? with
  | some s =>
    cases (store_scalar hs).symm.trans hr
    rw [← show Tensor.ofScalar s = c from hv]
    cases s <;> rfl
  | none =>
    cases (store_array hs).symm.trans hr
    have hc : (h.addBuffer a).2.buffer? h.buffers.size = some c := hv
    rw [Heap.buffer?_addBuffer, if_pos rfl] at hc
    rw [← Option.some.inj hc, hs]
    rfl

theorem isSome_buffer?_of_unary {op : UnaryOp} {x : NodeId} {c : Tensor} {v : Value}
    {visit : Demand → NodeId → Eval Value}
    (hr : (Expression.unary op x).evaluate visit h = .ok v h') (hv : Denotes h' v c) :
    v.buffer?.isSome = c.toScalar?.isNone := by
  obtain ⟨_, _, _, hr⟩ := exists_of_bind_ok hr
  obtain ⟨_, _, _, hr⟩ := exists_of_bind_ok hr
  obtain ⟨_, _, _, hr⟩ := exists_of_bind_ok hr
  exact isSome_buffer?_of_store hr hv

theorem isSome_buffer?_of_binary {op : BinaryOp} {x y : NodeId} {c : Tensor} {v : Value}
    {visit : Demand → NodeId → Eval Value}
    (hr : (Expression.binary op x y).evaluate visit h = .ok v h') (hv : Denotes h' v c) :
    v.buffer?.isSome = c.toScalar?.isNone := by
  obtain ⟨_, _, _, hr⟩ := exists_of_bind_ok hr
  obtain ⟨_, _, _, hr⟩ := exists_of_bind_ok hr
  obtain ⟨_, _, _, hr⟩ := exists_of_bind_ok hr
  obtain ⟨_, _, _, hr⟩ := exists_of_bind_ok hr
  obtain ⟨_, _, _, hr⟩ := exists_of_bind_ok hr
  exact isSome_buffer?_of_store hr hv

end Eval

namespace Heap

variable {h g g' : Heap} {n m id : NodeId} {t : Term} {a : Tensor} {v : Value}

/-- **The value that is read** from a node that stands for what it stood for is of the kind of its
term. -/
theorem Upholds.isArray_of_read (hu : h.Upholds g id) (ht : h.Unfolds id t)
    (ha : t.tensor? h.buffer? = .ok a) {depth : Nat}
    (hr : visit (depth + 1) .read id g = .ok v g') (hv : Denotes g' v a) :
    v.buffer?.isSome = t.isArray a := by
  cases hu with
  | cached hs ht' ha' _ hkind =>
    obtain rfl := ht'.unique ht
    cases Except.ok.inj (ha.symm.trans ha')
    cases (read_cached hs).symm.trans hr
    exact hkind
  | same hs _ =>
    cases ht with
    | data hst =>
      cases (read_deferred (hs.trans hst)).symm.trans hr
      rfl
    | cachedArray hst =>
      cases (read_cached (hs.trans hst)).symm.trans hr
      rfl
    | scalar hst =>
      cases (read_deferred (hs.trans hst)).symm.trans hr
      rfl
    | cachedScalar hst =>
      cases (read_cached (hs.trans hst)).symm.trans hr
      rfl
    | unary hst _ => exact isSome_buffer?_of_unary ((read_deferred (hs.trans hst)).symm.trans hr) hv
    | binary hst _ _ =>
      exact isSome_buffer?_of_binary ((read_deferred (hs.trans hst)).symm.trans hr) hv

/-- **All that is below a node stands for what it stood for.** -/
structure Retains (h : Heap) (n : NodeId) (g : Heap) : Prop where
  /-- Expressions refer to earlier nodes. -/
  ordered : g.Ordered
  /-- The nodes that were reached stand for what they stood for. -/
  upholds : ∀ m, h.Reaches n m → h.Upholds g m

/-- A write spares the buffers of the nodes that were reached from a node: none of them holds the
buffer at that moment. -/
def Spares (h : Heap) (n : NodeId) (w : Write) : Prop :=
  ∀ m, h.Reaches n m → ¬ w.heap.Holds ⟨m, w.buffer⟩

theorem Retains.refl (hord : h.Ordered) (n : NodeId) : h.Retains n h :=
  ⟨hord, fun m _ => .refl h m⟩

theorem Retains.extends (hr : h.Retains n g) (he : g.Extends g') : h.Retains n g' where
  ordered i s hs := hr.ordered i s ((he.states i).symm.trans hs)
  upholds m hm := (hr.upholds m hm).extends he

/-- A buffer that the node does not hold may change. -/
theorem Upholds.setBuffer (hu : h.Upholds g id) {b : BufferId} (hb : ¬ g.Holds ⟨id, b⟩)
    (c : Tensor) : h.Upholds (g.setBuffer b c) id := by
  cases hu with
  | same hs hbuf =>
    refine .same hs fun b' a hl ha => ?_
    have hne : b ≠ b' := by
      rintro rfl
      obtain ⟨s, hst, hsb⟩ := hl
      exact hb ⟨s, hs.trans hst, hsb⟩
    rw [buffer?_setBuffer_of_ne hne]
    exact hbuf b' a hl ha
  | @cached v t a hs ht ha hv hkind =>
    refine .cached hs ht ha ?_ hkind
    cases v with
    | scalar s => exact hv
    | array b' =>
      have hne : b ≠ b' := fun heq => hb ⟨_, hs, congrArg some heq.symm⟩
      exact (buffer?_setBuffer_of_ne hne).trans hv

/-- **What is retained** survives new buffers, and writes that spare it. -/
theorem stable_retains (h : Heap) (n : NodeId) : Watched.Stable (h.Retains n) (h.Spares n) where
  adding _ _ hr he := hr.extends he
  writing _ _ c hr hsp :=
    ⟨fun i s hs => hr.ordered i s hs, fun m hm => (hr.upholds m hm).setBuffer (hsp m hm) c⟩

/-- A node that stands for what it stood for is there. -/
theorem Upholds.exists_state? (hu : h.Upholds g id) (ht : h.Unfolds id t) :
    ∃ s, g.state? id = some s := by
  cases hu with
  | same hs _ => rw [hs]; cases ht <;> exact ⟨_, ‹_›⟩
  | cached hs _ _ _ _ => exact ⟨_, hs⟩

/-- **A node may be cached** if it is not one that was reached, or with the value it stands for. -/
theorem Retains.cache (hr : h.Retains n g)
    (hid : h.Reaches n id → ∃ t a, h.Unfolds id t ∧ t.tensor? h.buffer? = .ok a ∧ Denotes g v a ∧
      v.buffer?.isSome = t.isArray a) : h.Retains n (g.cache id v) where
  ordered i s' hs := by
    rw [state?_cache] at hs
    split at hs
    next heq =>
      obtain ⟨s₀, _, rfl⟩ := Option.map_eq_some_iff.mp hs
      exact nofun
    next => exact hr.ordered i s' hs
  upholds m hm := by
    by_cases heq : id = m
    · subst heq
      obtain ⟨t, a, ht, ha, hv, hkind⟩ := hid hm
      obtain ⟨s, hst⟩ := (hr.upholds id hm).exists_state? ht
      have hcached : (g.cache id v).state? id = some (.cached v) := by
        rw [state?_cache, if_pos rfl, hst]
        rfl
      exact .cached hcached ht ha (hv.of_buffers fun _ => rfl) hkind
    · have hstate : (g.cache id v).state? m = g.state? m := by rw [state?_cache, if_neg heq]
      cases hr.upholds m hm with
      | same hs hb => exact .same (hstate.trans hs) hb
      | cached hs ht ha hv hkind =>
        exact .cached (hstate.trans hs) ht ha (hv.of_buffers fun _ => rfl) hkind

/-! ## Visits -/

/-- Reading a node that was reached yields what it stood for. -/
theorem Retains.yields_read (hr : h.Retains n g) (hs : h.Sound) (hm : h.Reaches n m)
    (ht : h.Unfolds m t) {depth : Nat} (hd : m < depth) :
    Yields (visit depth .read m) g (t.tensor? h.buffer?) :=
  Eval.yields_read ht hs.ordered hd (ht.grounded hs) fun i hi => hr.upholds i (hm.trans hi)

/-- **Forcing a node that was reached** caches it with the value it stands for, or fails as it
would have. -/
theorem Retains.force (hr : h.Retains n g) (hs : h.Sound) (hm : h.Reaches n m)
    (ht : h.Unfolds m t) {depth : Nat} (hd : m < depth) :
    match t.tensor? h.buffer? with
    | .ok a => ∃ v g', DeferredArrays.visit depth .force m g = .ok v (g'.cache m v) ∧
        g.Extends g' ∧ Denotes g' v a ∧ v.buffer?.isSome = t.isArray a
    | .error e => ∃ g', DeferredArrays.visit depth .force m g = .error e g' ∧ g.Extends g' := by
  have hread := hr.yields_read hs hm ht hd
  obtain ⟨depth, rfl⟩ := Nat.exists_eq_add_one_of_ne_zero (Nat.ne_zero_of_lt hd)
  cases ha : t.tensor? h.buffer? with
  | ok a =>
    rw [ha] at hread
    obtain ⟨v, g₁, hv, he, hden⟩ := hread
    obtain ⟨g', hforce, he', hbuf⟩ := force_of_read_ok hv he
    exact ⟨v, g', hforce, he', hden.of_buffers hbuf,
      (hr.upholds m hm).isArray_of_read ht ha hv hden⟩
  | error e =>
    rw [ha] at hread
    obtain ⟨g', hv, he⟩ := hread
    exact ⟨g', force_of_read_error hv, he⟩

/-- **A visit of a node that was reached** reads the node, and may cache what it stands for. -/
theorem Retains.visit (hr : h.Retains n g) (hs : h.Sound) (hm : h.Reaches n m)
    (ht : h.Unfolds m t) {depth : Nat} (hd : m < depth) (demand : Demand) :
    h.Retains n (after (visit depth demand m) g) := by
  cases demand with
  | read =>
    have hread := hr.yields_read hs hm ht hd
    cases ha : t.tensor? h.buffer? with
    | ok a =>
      rw [ha] at hread
      obtain ⟨v, g', hv, he, _⟩ := hread
      rw [after_of_ok hv]
      exact hr.extends he
    | error e =>
      rw [ha] at hread
      obtain ⟨g', hv, he⟩ := hread
      rw [after_of_error hv]
      exact hr.extends he
  | force =>
    have hforce := hr.force hs hm ht hd
    cases ha : t.tensor? h.buffer? with
    | ok a =>
      rw [ha] at hforce
      obtain ⟨v, g', hv, he, hden, hkind⟩ := hforce
      rw [after_of_ok hv]
      exact (hr.extends he).cache fun _ => ⟨t, a, ht, ha, hden, hkind⟩
    | error e =>
      rw [ha] at hforce
      obtain ⟨g', hv, he⟩ := hforce
      rw [after_of_error hv]
      exact hr.extends he

/-- **A visit keeps what is below a node**, by induction on the depth: a node that was reached has a
value that is known, and the expression of any other refers to nodes that are less deep. -/
theorem preserves_visit (hs : h.Sound) (hn : n < h.cells.size) (hfree : h.AssignFree n)
    {depth : Nat} {demand : Demand} (hd : id < depth) :
    Watched.Preserves (h.Retains n) (h.Spares n) (Watched.visit depth demand id) g := by
  induction depth generalizing demand id g with
  | zero => exact absurd hd (Nat.not_lt_zero id)
  | succ depth ih =>
    by_cases hm : h.Reaches n id
    · intro hr _
      obtain ⟨t, ht⟩ := exists_unfolds_of_reaches hs hn hfree hm
      rw [Watched.run_visit]
      exact hr.visit hs hm ht hd demand
    · intro hr
      have hstable := stable_retains h n
      have hcount : ∀ g, Watched.Preserves (h.Retains n) (h.Spares n)
          (Watched.plain (Eval.countRead id)) g := fun g =>
        hstable.preserves_plain fun g => extends_countRead g id
      refine Watched.Preserves.bind (hstable.preserves_plain (adds_idle (idle_state id)))
        (fun s g₁ hst => ?_) hr
      obtain ⟨rfl, hst⟩ := state?_of_state hst
      cases s with
      | cached v =>
        cases demand with
        | force => exact Watched.preserves_pure v
        | read => exact (hcount _).bind fun _ _ _ => Watched.preserves_pure v
      | deferred e =>
        have hbelow : ∀ c ∈ e.children, c < depth := fun c hc =>
          Nat.lt_of_lt_of_le (hr.ordered id _ hst c hc) (Nat.le_of_lt_succ hd)
        refine (hcount _).bind fun _ g₂ _ => ?_
        refine (hstable.preserves_evaluate (fun _ _ _ => ih) hbelow).bind fun v g₃ _ => ?_
        cases demand with
        | read => exact Watched.preserves_pure v
        | force =>
          refine Watched.Preserves.bind (m := Watched.plain (modify (·.cache id v)))
            (fun hr₃ _ => ?_) fun _ _ _ => Watched.preserves_pure v
          exact hr₃.cache fun hm' => absurd hm' hm

/-! ## What is retained -/

/-- A value that denotes the array of a term, and is of its kind, has the content of the term. -/
theorem content_eq (hv : Denotes g v a) (hkind : v.buffer?.isSome = t.isArray a) :
    Eval.content v g = .ok (t.content a) g := by
  cases v with
  | array b =>
    rw [Term.content, ← hkind]
    exact (bind_eq_of_ok (buffer_eq hv)).trans rfl
  | scalar s =>
    rw [Term.content, ← hkind, ← show Tensor.ofScalar s = a from hv]
    cases s <;> rfl

/-- **A node that was reached has the outcome it had**: the content of its term. -/
theorem Retains.outcome_eq (hr : h.Retains n g) (hs : h.Sound) (hm : h.Reaches n m)
    (ht : h.Unfolds m t) : g.outcome m = (t.tensor? h.buffer?).map t.content := by
  have hforce := hr.force hs hm ht (Nat.lt_succ_self m)
  cases ha : t.tensor? h.buffer? with
  | ok a =>
    rw [ha] at hforce
    obtain ⟨v, g', hv, _, hden, hkind⟩ := hforce
    have hden : Denotes (g'.cache m v) v a := hden.of_buffers fun _ => rfl
    have hv : Eval.force m g = .ok v (g'.cache m v) := hv
    rw [outcome, bind_eq_of_ok hv, content_eq hden hkind]
    rfl
  | error e =>
    rw [ha] at hforce
    obtain ⟨g', hv, _⟩ := hforce
    have hv : Eval.force m g = .error e g' := hv
    rw [outcome, bind_eq_of_error hv]
    rfl

end Heap

end DeferredArrays
