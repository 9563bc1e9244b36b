import DeferredArrays.Proofs.Graph.Caching
import DeferredArrays.Proofs.Graph.Unfolding

/-!
# Proofs/Graph/Aliasing — nodes share a buffer if they were built to

Two leaves over one array share its buffer, and an assignment shares the buffer of its base: that is
all the sharing there is (`History.Shares`), as long as leaves are made of arrays that came from
outside, and not of results (`LeavesGiven`).

What keeps buffers apart is said of every cached node by how its expression came to its value
(`Expression.CachedAs`): a leaf is cached on its own buffer, an assignment on that of its base, and
an operator on a buffer that was made for the result.  Along an assignment's bases one gets to the
node that the buffer belongs to, a leaf or an operator (`History.Separated.exists_origin`), and
no two of these have a buffer in common unless they are leaves over one array
(`History.Separated.shares`).

So a write that an assignment makes is seen through the nodes that share with its base, and through
no others (`aliasing_run`).
-/

namespace DeferredArrays

open Relation Eval Heap Event

/-! ## Sharing that was asked for -/

namespace History

/-- **Nodes that are to share a buffer**: the least equivalence that relates leaves over one array,
and assignments with their bases. -/
def Shares (s : History) : NodeId → NodeId → Prop :=
  EqvGen fun i j => (∃ b, s.made[i]? = some (.data b) ∧ s.made[j]? = some (.data b)) ∨
    ∃ key value, s.made[i]? = some (.assign j key value)

/-- A node is another one, or an assignment on top of it. -/
def StandsOn (s : History) : NodeId → NodeId → Prop :=
  ReflTransGen fun i j => ∃ key value, s.made[i]? = some (.assign j key value)

theorem StandsOn.shares {s : History} {i j : NodeId} (h : s.StandsOn i j) : s.Shares i j := by
  induction h with
  | refl => exact .refl _
  | tail _ hlast ih => exact .trans _ _ _ ih (.rel _ _ (.inr hlast))

end History

namespace Operation

/-- The buffer of the leaf that an operation makes. -/
def leaf? : Operation → Option BufferId
  | build e => e.buffer?
  | _ => none

/-- The buffers that came from outside, after an operation. -/
def given (s : History) (buffers : List BufferId) : Operation → List BufferId
  | allocate a => if a.WellFormed then s.heap.buffers.size :: buffers else buffers
  | _ => buffers

/-- An operation writes to a buffer itself. -/
def WritesTo (b : BufferId) : Operation → Prop
  | write b' _ _ => b' = b
  | _ => False

/-- **An operation evaluates an assignment** to a base, that of a node or one that no node holds. -/
def Assigns (s : History) (op : Operation) (node : Option NodeId) (base : NodeId) : Prop :=
  ∃ key value, match node with
    | some n => s.made[n]? = some (.assign base key value)
    | none => op = .evaluate (.assign base key value)

end Operation

/-- **Leaves are made of arrays that came from outside.** -/
def LeavesGiven (s : History) (buffers : List BufferId) : List Operation → Prop
  | [] => True
  | op :: ops => (∀ b ∈ op.leaf?, b ∈ buffers) ∧
    LeavesGiven (op.perform s) (op.given s buffers) ops

instance LeavesGiven.decidable (s : History) (buffers : List BufferId) :
    (ops : List Operation) → Decidable (LeavesGiven s buffers ops)
  | [] => .isTrue trivial
  | op :: ops =>
    have := LeavesGiven.decidable (op.perform s) (op.given s buffers) ops
    inferInstanceAs (Decidable (_ ∧ _))

/-! ## What cached nodes hold -/

/-- **How the value of a cached node came about**, given the buffers that came from outside. -/
inductive Expression.CachedAs (buffers : List BufferId) (h : Heap) : Expression → Value → Prop
  | data {b : BufferId} : CachedAs buffers h (.data b) (.array b)
  | scalar {c : Scalar} : CachedAs buffers h (.scalar c) (.scalar c)
  | result {e : Expression} {c : Scalar} (he : e.isOperator) : CachedAs buffers h e (.scalar c)
  /-- The buffer was made for the result. -/
  | owned {e : Expression} {b : BufferId} (he : e.isOperator) (hb : b < h.buffers.size)
    (hnew : b ∉ buffers) : CachedAs buffers h e (.array b)
  /-- The buffer is that of the base. -/
  | assigned {base value : NodeId} {key : AssignKey} {b : BufferId}
    (hbase : h.state? base = some (.cached (.array b))) :
    CachedAs buffers h (.assign base key value) (.array b)

/-- A buffer was made for the result of a node, an operator. -/
structure History.Owns (s : History) (n : NodeId) (b : BufferId) : Prop where
  made : ∃ e : Expression, s.made[n]? = some e ∧ e.isOperator
  cached : s.heap.state? n = some (.cached (.array b))

/-- **Buffers are kept separate.** -/
structure History.Separated (buffers : List BufferId) (s : History) : Prop where
  /-- Every node was made once. -/
  size_made : s.made.length = s.heap.cells.size
  /-- Nodes were made of earlier ones. -/
  ordered : ∀ (n : NodeId) (e : Expression), s.made[n]? = some e → ∀ c ∈ e.children, c < n
  /-- A deferred node has the expression it was made with. -/
  deferred : ∀ (n : NodeId) (e : Expression), s.heap.state? n = some (.deferred e) →
    s.made[n]? = some e
  /-- The buffers from outside exist. -/
  exist : ∀ b ∈ buffers, b < s.heap.buffers.size
  /-- Leaves are made of them. -/
  leaves : ∀ (n : NodeId) (b : BufferId), s.made[n]? = some (.data b) → b ∈ buffers
  /-- The value of a cached node came about as its expression says. -/
  cached : ∀ (n : NodeId) (e : Expression) (v : Value), s.made[n]? = some e →
    s.heap.state? n = some (.cached v) → e.CachedAs buffers s.heap v
  /-- A buffer was made for one result. -/
  unique : ∀ m n b, s.Owns m b → s.Owns n b → m = n

section CachedAs

variable {buffers : List BufferId} {h h' : Heap} {e : Expression} {v : Value}

/-- A cached value stays what it is while nodes are cached and buffers made. -/
theorem Expression.CachedAs.mono (hc : e.CachedAs buffers h v)
    (hsize : h.buffers.size ≤ h'.buffers.size)
    (hcached : ∀ i w, h.state? i = some (.cached w) → h'.state? i = some (.cached w)) :
    e.CachedAs buffers h' v := by
  cases hc with
  | data => exact .data
  | scalar => exact .scalar
  | result he => exact .result he
  | owned he hb hnew => exact .owned he (Nat.lt_of_lt_of_le hb hsize) hnew
  | assigned hbase => exact .assigned (hcached _ _ hbase)

/-- **A value is delivered as it is to be cached.** -/
theorem Expression.Delivers.cachedAs {node : Option NodeId} {log : List Event}
    (hd : e.Delivers node h v log h') (hexist : ∀ b ∈ buffers, b < h.buffers.size) :
    e.CachedAs buffers h' v := by
  cases hd with
  | data => exact .data
  | scalar => exact .scalar
  | result he => exact .result he
  | stored he =>
    refine .owned he ?_ fun hmem => Nat.lt_irrefl _ (hexist _ hmem)
    simp [addBuffer]
  | assigned hbase => exact .assigned hbase

theorem Expression.Delivers.cells_eq {node : Option NodeId} {log : List Event}
    (hd : e.Delivers node h v log h') : h'.cells = h.cells := by
  cases hd <;> rfl

theorem Expression.Delivers.size_le {node : Option NodeId} {log : List Event}
    (hd : e.Delivers node h v log h') : h.buffers.size ≤ h'.buffers.size := by
  cases hd <;> simp [addBuffer, setBuffer]

/-- The result of an operator is delivered in a new buffer. -/
theorem Expression.Delivers.eq_size {node : Option NodeId} {log : List Event} {b : BufferId}
    (hd : e.Delivers node h (.array b) log h') (he : e.isOperator) : b = h.buffers.size := by
  cases hd with
  | data => cases he
  | stored => rfl
  | assigned => cases he

end CachedAs

namespace History.Separated

variable {buffers : List BufferId} {s : History}

/-- A buffer that was made for a result exists, and did not come from outside. -/
theorem owned (hs : s.Separated buffers) {n : NodeId} {b : BufferId} (ho : s.Owns n b) :
    b < s.heap.buffers.size ∧ b ∉ buffers := by
  obtain ⟨e, hmade, he⟩ := ho.made
  cases hs.cached n e _ hmade ho.cached with
  | data => cases he
  | owned _ hb hnew => exact ⟨hb, hnew⟩
  | assigned => cases he

/-! ### Steps -/

/-- Buffers stay separate where no state changes. -/
theorem of_same (hs : s.Separated buffers) {h : Heap} (log : List Event)
    (hstates : ∀ i, h.state? i = s.heap.state? i) (hcells : h.cells.size = s.heap.cells.size)
    (hsize : s.heap.buffers.size ≤ h.buffers.size) :
    ({ s with heap := h, log := log } : History).Separated buffers where
  size_made := hs.size_made.trans hcells.symm
  ordered := hs.ordered
  deferred n e hst := hs.deferred n e ((hstates n).symm.trans hst)
  exist b hb := Nat.lt_of_lt_of_le (hs.exist b hb) hsize
  leaves := hs.leaves
  cached n e v hmade hst :=
    (hs.cached n e v hmade ((hstates n).symm.trans hst)).mono hsize fun i _ => (hstates i).trans
  unique m n b hm hn := hs.unique m n b ⟨hm.made, (hstates m).symm.trans hm.cached⟩
    ⟨hn.made, (hstates n).symm.trans hn.cached⟩

/-- Buffers stay separate when a deferred node is cached on what its expression came to. -/
theorem cache (hs : s.Separated buffers) {n : NodeId} {e : Expression} {v : Value}
    (hst : s.heap.state? n = some (.deferred e)) (hv : e.CachedAs buffers s.heap v)
    (hnew : ∀ m b, v = .array b → e.isOperator → ¬ s.Owns m b) :
    ({ s with heap := s.heap.cache n v } : History).Separated buffers := by
  have hself : (s.heap.cache n v).state? n = some (.cached v) := by
    rw [state?_cache, if_pos rfl, hst]
    rfl
  have hothers : ∀ i, i ≠ n → (s.heap.cache n v).state? i = s.heap.state? i := fun i hi => by
    rw [state?_cache, if_neg hi.symm]
  have hcached : ∀ i w, s.heap.state? i = some (.cached w) →
      (s.heap.cache n v).state? i = some (.cached w) := by
    intro i w hw
    rw [hothers i, hw]
    rintro rfl
    cases hst.symm.trans hw
  -- no buffer belongs to two nodes, if one of them is the node that is cached
  have hself_unique : ∀ m b, ({ s with heap := s.heap.cache n v } : History).Owns m b →
      ({ s with heap := s.heap.cache n v } : History).Owns n b → m = n := by
    intro m b hm hn
    obtain ⟨e', hmade, he⟩ := hn.made
    cases (hs.deferred n e hst).symm.trans hmade
    cases hself.symm.trans hn.cached
    refine Classical.byContradiction fun hne => hnew m b rfl he ⟨hm.made, ?_⟩
    exact (hothers m hne).symm.trans hm.cached
  refine ⟨hs.size_made.trans Array.size_modify.symm, hs.ordered, fun i e' hi => ?_, hs.exist,
    hs.leaves, fun i e' w hmade hi => ?_, fun i j b hi hj => ?_⟩
  · by_cases heq : i = n
    · subst heq
      cases hself.symm.trans hi
    · exact hs.deferred i e' ((hothers i heq).symm.trans hi)
  · by_cases heq : i = n
    · subst heq
      cases hself.symm.trans hi
      cases (hs.deferred i e hst).symm.trans hmade
      exact hv.mono (Nat.le_refl _) hcached
    · exact (hs.cached i e' w hmade ((hothers i heq).symm.trans hi)).mono (Nat.le_refl _) hcached
  · by_cases hin : i = n
    · subst hin
      exact (hself_unique j b hj hi).symm
    · by_cases hjn : j = n
      · subst hjn
        exact hself_unique i b hi hj
      · exact hs.unique i j b ⟨hi.made, (hothers i hin).symm.trans hi.cached⟩
          ⟨hj.made, (hothers j hjn).symm.trans hj.cached⟩

/-- Buffers stay separate when a node is made. -/
theorem build (hs : s.Separated buffers) {e : Expression} (he : s.heap.Admits e)
    (hleaf : ∀ b ∈ e.buffer?, b ∈ buffers) :
    ({ s with heap := (s.heap.addNode e).2, made := s.made ++ [e] } : History).Separated
      buffers := by
  have hmade : ∀ (i : NodeId) (e' : Expression), (s.made ++ [e])[i]? = some e' →
      s.made[i]? = some e' ∨ i = s.heap.cells.size ∧ e' = e := by
    intro i e' hi
    rw [← hs.size_made]
    exact Operation.made_or_last hi
  have hcached : ∀ (i : NodeId) (v : Value), (s.heap.addNode e).2.state? i = some (.cached v) →
      i ≠ s.heap.cells.size ∧ s.heap.state? i = some (.cached v) := by
    intro i v hi
    rw [state?_addNode] at hi
    split at hi
    next => cases hi
    next hne => exact ⟨hne, hi⟩
  have howns : ∀ i b, ({ s with heap := (s.heap.addNode e).2, made := s.made ++ [e] } :
      History).Owns i b → s.Owns i b := by
    rintro i b ⟨⟨e', hi, he'⟩, hst⟩
    obtain ⟨hne, hst⟩ := hcached i _ hst
    exact ⟨⟨e', (hmade i e' hi).resolve_right fun h => hne h.1, he'⟩, hst⟩
  refine ⟨?_, fun i e' hi => ?_, fun i e' hi => ?_, hs.exist, fun i b hi => ?_,
    fun i e' v hi hst => ?_, fun i j b hi hj => hs.unique i j b (howns i b hi) (howns j b hj)⟩
  · show (s.made ++ [e]).length = (s.heap.cells.push _).size
    rw [List.length_append, Array.size_push, hs.size_made]
    rfl
  · rcases hmade i e' hi with hi | ⟨rfl, rfl⟩
    · exact hs.ordered i e' hi
    · exact he.1
  · change (s.heap.addNode e).2.state? i = some (.deferred e') at hi
    rw [state?_addNode] at hi
    show (s.made ++ [e])[i]? = some e'
    split at hi
    next heq =>
      cases hi
      rw [heq, ← hs.size_made, List.getElem?_concat_length]
    next =>
      have hold := hs.deferred i e' hi
      rw [List.getElem?_append_left (List.getElem?_eq_some_iff.mp hold).1, hold]
  · rcases hmade i _ hi with hi | ⟨_, rfl⟩
    · exact hs.leaves i b hi
    · exact hleaf b rfl
  · obtain ⟨hne, hst⟩ := hcached i v hst
    have hi := (hmade i e' hi).resolve_right fun h => hne h.1
    refine (hs.cached i e' v hi hst).mono (Nat.le_refl _) fun j w hj => ?_
    change (s.heap.addNode e).2.state? j = _
    rw [state?_addNode, if_neg (Nat.ne_of_lt (lt_of_state? hj)), hj]

/-- **Buffers stay separate where a visit has an effect.** -/
theorem effect (hs : s.Separated buffers) {P : Visit → Prop} {log : List Event} {h : Heap}
    (he : Effect P s.heap log h) :
    ({ s with heap := h, log := s.log ++ log } : History).Separated buffers := by
  cases he with
  | count => exact hs.of_same _ (state?_countRead _ _) (size_cells_countRead _ _) (Nat.le_refl _)
  | read _ _ hd => exact hs.of_same _ hd.state?_eq (congrArg Array.size hd.cells_eq) hd.size_le
  | @force x e v _ h' _ _ hst hd _ =>
    have hdelivered := hs.of_same (s.log ++ log) hd.state?_eq (congrArg Array.size hd.cells_eq)
      hd.size_le
    refine hdelivered.cache ((hd.state?_eq _).trans hst) (hd.cachedAs hs.exist) ?_
    rintro m b rfl he ⟨hmade, hcached⟩
    -- the buffer is new, and those that belong to nodes are not
    have hlt := (hs.owned ⟨hmade, (hd.state?_eq m).symm.trans hcached⟩).1
    rw [hd.eq_size he] at hlt
    exact Nat.lt_irrefl _ hlt

/-- **Buffers stay separate in every step.** -/
theorem step (hs : s.Separated buffers) {h : Heap} {op : Operation} {s' : History}
    (hstep : op.Step h s s') (hleaf : ∀ b ∈ op.leaf?, b ∈ buffers) : s'.Separated buffers := by
  cases hstep with
  | allocate => exact hs.of_same _ (fun _ => rfl) rfl (by simp [addBuffer])
  | build he => exact hs.build he hleaf
  | acquire =>
    exact hs.of_same _ (state?_acquire _ _) Array.size_modify (Nat.le_refl _)
  | release =>
    exact hs.of_same _ (state?_release _ _) Array.size_modify (Nat.le_refl _)
  | write => exact hs.of_same _ (fun _ => rfl) rfl (by simp [setBuffer])
  | effect he => exact hs.effect he
  | delivery hd => exact hs.of_same _ hd.state?_eq (congrArg Array.size hd.cells_eq) hd.size_le

theorem steps (hs : s.Separated buffers) {h : Heap} {op : Operation} {s' : History}
    (hsteps : op.Steps h s s') (hleaf : ∀ b ∈ op.leaf?, b ∈ buffers) : s'.Separated buffers := by
  induction hsteps with
  | refl => exact hs
  | tail _ hlast ih => exact ih.step hlast hleaf

/-- A buffer that belongs to no node may come from outside. -/
theorem extend (hs : s.Separated buffers) {b : BufferId} (hb : b < s.heap.buffers.size)
    (hnew : ∀ n, ¬ s.Owns n b) : s.Separated (b :: buffers) := by
  refine ⟨hs.size_made, hs.ordered, hs.deferred, ?_, fun n b' hmade =>
    List.mem_cons_of_mem _ (hs.leaves n b' hmade), fun n e v hmade hst => ?_, hs.unique⟩
  · rintro c (_ | ⟨_, hc⟩)
    · exact hb
    · exact hs.exist c hc
  · cases hs.cached n e v hmade hst with
    | data => exact .data
    | scalar => exact .scalar
    | result he => exact .result he
    | assigned hbase => exact .assigned hbase
    | @owned _ b' he hb' hout =>
      refine .owned he hb' fun hmem => ?_
      rcases List.mem_cons.mp hmem with rfl | hmem
      · exact hnew n ⟨⟨e, hmade, he⟩, hst⟩
      · exact hout hmem

/-- **Buffers stay separate in every operation** that makes leaves of what came from outside. -/
theorem perform (hs : s.Separated buffers) (hsound : s.heap.Sound) {op : Operation}
    (hleaf : ∀ b ∈ op.leaf?, b ∈ buffers) : (op.perform s).Separated (op.given s buffers) := by
  have hsame := hs.steps (op.steps_perform hsound) hleaf
  cases op with
  | allocate a =>
    by_cases ha : a.WellFormed
    · have hlt : s.heap.buffers.size < (Operation.perform s (.allocate a)).heap.buffers.size := by
        simp [Operation.perform, Operation.Permitted, ha, addBuffer]
      rw [Operation.given, if_pos ha]
      refine hsame.extend hlt fun n hn => ?_
      have hstates : (Operation.perform s (.allocate a)).heap.state? n = s.heap.state? n := by
        simp [Operation.perform, Operation.Permitted, ha, state?]
      have hmade : (Operation.perform s (.allocate a)).made = s.made := by
        simp [Operation.perform, Operation.Permitted, ha]
      exact Nat.lt_irrefl _ (hs.owned ⟨hmade ▸ hn.made, hstates.symm.trans hn.cached⟩).1
    · rwa [Operation.given, if_neg ha]
  | build => exact hsame
  | acquire => exact hsame
  | release => exact hsame
  | write => exact hsame
  | force => exact hsame
  | read => exact hsame
  | evaluate => exact hsame

theorem start : History.start.Separated [] where
  size_made := rfl
  ordered _ _ hmade := by cases hmade
  deferred n e hst := by simp [History.start, state?, cell?, Heap.empty] at hst
  exist _ hb := by cases hb
  leaves _ _ hmade := by cases hmade
  cached _ _ _ hmade := by cases hmade
  unique m _ _ hm _ := by obtain ⟨_, hmade, _⟩ := hm.made; cases hmade

/-! ### Where buffers come from -/

/-- **A node that holds an array stands on the node it comes from**, a leaf or the operator that the
buffer was made for. -/
theorem exists_origin (hs : s.Separated buffers) {n : NodeId} {b : BufferId}
    (hn : s.heap.Holds ⟨n, b⟩) :
    ∃ i, s.StandsOn n i ∧ (s.made[i]? = some (.data b) ∨ s.Owns i b) := by
  induction n using Nat.strongRecOn with
  | ind n ih =>
    obtain ⟨st, hst, hb⟩ := hn
    cases st with
    | deferred e =>
      cases e with
      | data => cases hb; exact ⟨n, .refl, .inl (hs.deferred n _ hst)⟩
      | scalar => cases hb
      | unary => cases hb
      | binary => cases hb
      | assign => cases hb
    | cached v =>
      cases v with
      | scalar => cases hb
      | array b' =>
        cases hb
        have hlt : n < s.made.length := hs.size_made.symm ▸ lt_of_state? hst
        have hmade : s.made[n]? = some s.made[n] := List.getElem?_eq_getElem hlt
        generalize s.made[n] = e at hmade
        cases hs.cached n e _ hmade hst with
        | data => exact ⟨n, .refl, .inl hmade⟩
        | owned he => exact ⟨n, .refl, .inr ⟨⟨e, hmade, he⟩, hst⟩⟩
        | @assigned base value key _ hbase =>
          have hlt : base < n := hs.ordered n _ hmade base (by simp [Expression.children])
          obtain ⟨i, hi, horigin⟩ := ih base hlt ⟨_, hbase, rfl⟩
          exact ⟨i, hi.head ⟨key, value, hmade⟩, horigin⟩

/-- **Nodes that hold one buffer share it.** -/
theorem shares (hs : s.Separated buffers) {m n : NodeId} {b : BufferId}
    (hm : s.heap.Holds ⟨m, b⟩) (hn : s.heap.Holds ⟨n, b⟩) : s.Shares m n := by
  obtain ⟨i, hmi, hi⟩ := hs.exists_origin hm
  obtain ⟨j, hnj, hj⟩ := hs.exists_origin hn
  have hij : s.Shares i j := by
    rcases hi with hi | hi <;> rcases hj with hj | hj
    · exact .rel _ _ (.inl ⟨b, hi, hj⟩)
    · exact absurd (hs.leaves i b hi) (hs.owned hj).2
    · exact absurd (hs.leaves j b hj) (hs.owned hi).2
    · cases hs.unique i j b hi hj
      exact .refl _
  exact .trans _ _ _ hmi.shares (.trans _ _ _ hij (.symm _ _ hnj.shares))

/-- A buffer that was made for a result is that of no leaf, and only assignments on top of the
result hold it. -/
theorem standsOn (hs : s.Separated buffers) {m n : NodeId} {b : BufferId} (hn : s.Owns n b)
    (hm : s.heap.Holds ⟨m, b⟩) : s.StandsOn m n := by
  obtain ⟨i, hmi, hi | hi⟩ := hs.exists_origin hm
  · exact absurd (hs.leaves i b hi) (hs.owned hn).2
  · cases hs.unique i n b hi hn
    exact hmi

/-- **An assignment that is cached is cached on the buffer of its base.** -/
theorem base_of_cached (hs : s.Separated buffers) {n base value : NodeId} {key : AssignKey}
    {v : Value} (hmade : s.made[n]? = some (.assign base key value))
    (hst : s.heap.state? n = some (.cached v)) :
    ∃ b, v = .array b ∧ s.heap.state? base = some (.cached (.array b)) := by
  cases hs.cached n _ v hmade hst with
  | result he => cases he
  | owned he => cases he
  | assigned hbase => exact ⟨_, rfl, hbase⟩

end History.Separated

/-! ## What the steps of an operation write to, and what they make -/

/-- An assignment writes to the buffer its base is cached on, and nothing else writes. -/
theorem Expression.Delivers.writes {node node' : Option NodeId} {h h' : Heap} {e : Expression}
    {v : Value} {log : List Event} (hd : e.Delivers node h v log h') {b : BufferId} {c : Tensor}
    (hmem : .write node' b c ∈ log) :
    node' = node ∧ ∃ base key value, e = .assign base key value ∧
      h.state? base = some (.cached (.array b)) := by
  cases hd with
  | data => cases hmem
  | scalar => cases hmem
  | result => cases hmem
  | stored => cases List.mem_singleton.mp hmem
  | assigned hbase =>
    cases List.mem_singleton.mp hmem
    exact ⟨rfl, _, _, _, rfl, hbase⟩

namespace Operation

variable {h : Heap} {op : Operation} {s s' : History}

theorem Step.made (hstep : op.Step h s s') : s.made <+: s'.made := by
  cases hstep <;> first | exact List.prefix_rfl | exact List.prefix_append ..

theorem Step.size_le (hstep : op.Step h s s') :
    s.heap.buffers.size ≤ s'.heap.buffers.size := by
  cases hstep with
  | allocate => simp [addBuffer]
  | build => exact Nat.le_refl _
  | acquire => exact Nat.le_refl _
  | release => exact Nat.le_refl _
  | write => simp [setBuffer]
  | delivery hd => exact hd.size_le
  | effect he =>
    cases he with
    | count => exact Nat.le_refl _
    | read _ _ hd => exact hd.size_le
    | force _ _ _ hd => exact hd.size_le

theorem Steps.size_le (hsteps : op.Steps h s s') :
    s.heap.buffers.size ≤ s'.heap.buffers.size := by
  induction hsteps with
  | refl => exact Nat.le_refl _
  | tail _ hlast ih => exact Nat.le_trans ih hlast.size_le

/-- An operator that is cached by a step is cached on a new buffer, unless the result is a scalar. -/
theorem Step.eq_size (hstep : op.Step h s s') {n : NodeId} {e : Expression} {b : BufferId}
    (hst : s.heap.state? n = some (.deferred e)) (he : e.isOperator)
    (hst' : s'.heap.state? n = some (.cached (.array b))) : b = s.heap.buffers.size := by
  have hne : s'.heap.state? n ≠ s.heap.state? n := by rw [hst, hst']; nofun
  obtain ⟨_, heffect⟩ := hstep.exists_effect (lt_of_state? hst) hne
  obtain ⟨e', v, g, hdeferred, hcached, hd, _⟩ := heffect.cached_of_ne hne
  cases hst.symm.trans hdeferred
  cases hst'.symm.trans hcached
  exact hd.eq_size he

/-- **An operator that is cached in the course of an operation** is cached on a buffer that was not
there before. -/
theorem Steps.size_le_of_operator (hsteps : op.Steps h s s') {n : NodeId} {e : Expression}
    {b : BufferId} (hst : s.heap.state? n = some (.deferred e)) (he : e.isOperator)
    (hst' : s'.heap.state? n = some (.cached (.array b))) : s.heap.buffers.size ≤ b := by
  induction hsteps with
  | refl => cases hst.symm.trans hst'
  | @tail s₁ s₂ hfirst hlast ih =>
    by_cases hsame : s₁.heap.state? n = some (.deferred e)
    · rw [hlast.eq_size hsame he hst']
      exact Steps.size_le hfirst
    · obtain ⟨_, v, _, hcached, _⟩ := Steps.cached_of_ne hfirst hst hsame
      cases hst'.symm.trans (Steps.cached (.single hlast) hcached)
      exact ih hcached

theorem Assigns.mono {node : Option NodeId} {base : NodeId} (ha : op.Assigns s node base)
    (hmade : s.made <+: s'.made) : op.Assigns s' node base := by
  obtain ⟨key, value, ha⟩ := ha
  cases node with
  | none => exact ⟨key, value, ha⟩
  | some n =>
    obtain ⟨rest, hrest⟩ := hmade
    refine ⟨key, value, ?_⟩
    show s'.made[n]? = _
    rw [← hrest, List.getElem?_append_left (List.getElem?_eq_some_iff.mp ha).1]
    exact ha

/-- A write is that of an assignment, to the buffer its base is cached on, or the operation is to
make it. -/
def Accounts (op : Operation) (s : History) (node : Option NodeId) (b : BufferId) : Prop :=
  op.WritesTo b ∨ ∃ base, op.Assigns s node base ∧ s.heap.state? base = some (.cached (.array b))

theorem Accounts.steps {node : Option NodeId} {b : BufferId} (ha : op.Accounts s node b)
    (hsteps : op.Steps h s s') : op.Accounts s' node b := by
  refine ha.imp_right fun ⟨base, hassigns, hbase⟩ => ⟨base, hassigns.mono ?_, Steps.cached hsteps hbase⟩
  induction hsteps with
  | refl => exact List.prefix_rfl
  | tail _ hlast ih => exact ih.trans hlast.made

/-- **What a step writes is accounted for.** -/
theorem Step.writes {buffers : List BufferId} (hs : s.Separated buffers)
    (hstep : op.Step h s s') : ∃ log, s'.log = s.log ++ log ∧
      ∀ node b c, .write node b c ∈ log → op.Accounts s node b := by
  have hquiet : ∃ log, s.log = s.log ++ log ∧
      ∀ node b c, .write node b c ∈ log → op.Accounts s node b :=
    ⟨[], (List.append_nil _).symm, nofun⟩
  have hdelivers : ∀ {x : Visit} {e : Expression} {v : Value} {log : List Event} {h' : Heap},
      s.heap.state? x.node = some (.deferred e) → e.Delivers (some x.node) s.heap v log h' →
      ∀ node b c, .write node b c ∈ log → op.Accounts s node b := by
    intro x e v log h' hst hd node b c hmem
    obtain ⟨rfl, base, key, value, rfl, hbase⟩ := hd.writes hmem
    exact .inr ⟨base, ⟨key, value, hs.deferred _ _ hst⟩, hbase⟩
  cases hstep with
  | allocate => exact ⟨_, rfl, fun _ _ _ hmem => nomatch List.mem_singleton.mp hmem⟩
  | build => exact hquiet
  | acquire => exact hquiet
  | release => exact hquiet
  | write =>
    refine ⟨_, rfl, fun node b c hmem => ?_⟩
    cases List.mem_singleton.mp hmem
    exact .inl rfl
  | delivery hd =>
    refine ⟨_, rfl, fun node b c hmem => ?_⟩
    obtain ⟨rfl, base, key, value, rfl, hbase⟩ := hd.writes hmem
    exact .inr ⟨base, ⟨key, value, rfl⟩, hbase⟩
  | effect he =>
    cases he with
    | count => exact ⟨[], rfl, nofun⟩
    | force _ _ hst hd => exact ⟨_, rfl, hdelivers hst hd⟩
    | read _ hst hd =>
      refine ⟨_, rfl, fun node b c hmem => hdelivers hst hd node b c ?_⟩
      exact (List.mem_append.mp hmem).resolve_right fun h => nomatch List.mem_singleton.mp h

/-- **What an operation writes is accounted for.** -/
theorem Steps.writes {buffers : List BufferId} (hs : s.Separated buffers)
    (hleaf : ∀ b ∈ op.leaf?, b ∈ buffers) (hsteps : op.Steps h s s') :
    ∃ log, s'.log = s.log ++ log ∧
      ∀ node b c, .write node b c ∈ log → op.Accounts s' node b := by
  induction hsteps with
  | refl => exact ⟨[], (List.append_nil _).symm, nofun⟩
  | @tail s₁ s₂ hfirst hlast ih =>
    obtain ⟨log, hlog, hall⟩ := ih
    obtain ⟨log', hlog', hall'⟩ := hlast.writes (hs.steps hfirst hleaf)
    refine ⟨log ++ log', by rw [hlog', hlog, List.append_assoc], fun node b c hmem => ?_⟩
    rcases List.mem_append.mp hmem with hmem | hmem
    · exact (hall node b c hmem).steps (.single hlast)
    · exact (hall' node b c hmem).steps (.single hlast)

end Operation

/-! ## Runs -/

/-- In a run that makes leaves of what came from outside, buffers are separate at every point. -/
theorem LeavesGiven.separated {s : History} {buffers : List BufferId} {before after : List Operation}
    (hleaves : LeavesGiven s buffers (before ++ after)) (hs : s.Separated buffers) (hv : s.Valid) :
    ∃ buffers', (before.foldl Operation.perform s).Separated buffers' ∧
      LeavesGiven (before.foldl Operation.perform s) buffers' after := by
  induction before generalizing s buffers with
  | nil => exact ⟨buffers, hs, hleaves⟩
  | cons op before ih =>
    exact ih hleaves.2 (hs.perform hv.sound hleaves.1) (op.valid_perform hv)

/-- **Aliasing in a run**, and what is seen of writes through it. -/
structure Aliasing (ops : List Operation) : Prop where
  /-- Nodes that hold one buffer are to share it. -/
  shares : ∀ m n b, (run ops).heap.Holds ⟨m, b⟩ → (run ops).heap.Holds ⟨n, b⟩ →
    (run ops).Shares m n
  /-- An assignment that was forced is cached on the buffer of its base. -/
  assigned : ∀ (n base value : NodeId) (key : AssignKey) (v : Value),
    (run ops).made[n]? = some (.assign base key value) →
    (run ops).heap.state? n = some (.cached v) →
    ∃ b, v = .array b ∧ (run ops).heap.state? base = some (.cached (.array b))
  /-- The buffer that an operator is cached on is held by assignments on top of it only. -/
  owned : ∀ m n b, (run ops).Owns n b → (run ops).heap.Holds ⟨m, b⟩ → (run ops).StandsOn m n
  /-- It was not there before the operation that forced the operator. -/
  fresh : ∀ before op after, ops = before ++ op :: after → ∀ n e b,
    (run before).heap.state? n = some (.deferred e) → e.isOperator →
    (op.perform (run before)).heap.state? n = some (.cached (.array b)) →
    (run before).heap.buffers.size ≤ b
  /-- A write of an assignment is to the buffer of its base, and not seen through nodes that are not
  to share with the base. -/
  writes : ∀ before op after, ops = before ++ op :: after → ∀ first node b c rest,
    (op.perform (run before)).log = (run before).log ++ (first ++ .write node b c :: rest) →
    op.WritesTo b ∨ ∃ base, op.Assigns (op.perform (run before)) node base ∧
      (op.perform (run before)).heap.state? base = some (.cached (.array b)) ∧
      ∀ n b', (op.perform (run before)).heap.Holds ⟨n, b'⟩ →
        ¬ (op.perform (run before)).Shares base n →
        (replay #[] ((run before).log ++ first ++ [.write node b c]))[b']?
          = (replay #[] ((run before).log ++ first))[b']?

/-- **Aliasing is what was asked for**, in every run that makes leaves of arrays from outside. -/
theorem aliasing_run {ops : List Operation} (hleaves : LeavesGiven .start [] ops) :
    Aliasing ops := by
  have hall : ∀ before after, ops = before ++ after → ∃ buffers,
      (run before).Separated buffers ∧ LeavesGiven (run before) buffers after := by
    rintro before after rfl
    exact hleaves.separated .start History.valid_start
  obtain ⟨buffers, hs, _⟩ := hall ops [] (List.append_nil _).symm
  refine {
    shares := fun m n b => hs.shares
    assigned := fun n base value key v => hs.base_of_cached
    owned := fun m n b => hs.standsOn
    fresh := fun before op after _ n e b hst he hst' => ?_
    writes := fun before op after hops first node b c rest hlog => ?_ }
  · have hsteps := op.steps_perform (valid_run before).sound
    exact Operation.Steps.size_le_of_operator hsteps hst he hst'
  · obtain ⟨given, hbefore, hleaf, _⟩ := hall before (op :: after) hops
    have hsteps := op.steps_perform (valid_run before).sound
    have hafter := hbefore.perform (valid_run before).sound hleaf
    obtain ⟨log, hlog', haccounts⟩ := Operation.Steps.writes hbefore hleaf hsteps
    have hmem : Event.write node b c ∈ log := by
      rw [List.append_cancel_left (hlog'.symm.trans hlog)]
      simp
    rcases haccounts node b c hmem with hdirect | ⟨base, hassigns, hbase⟩
    · exact .inl hdirect
    · refine .inr ⟨base, hassigns, hbase, fun n b' hn hne => ?_⟩
      have hb : b ≠ b' := by
        rintro rfl
        exact hne (hafter.shares ⟨_, hbase, rfl⟩ hn)
      rw [replay_append]
      exact Array.getElem?_setIfInBounds_ne hb

/-- Two leaves over one array, a product, and an assignment to each of a leaf and the product. -/
def siblings : List Operation :=
  [.allocate (.ofElements (.ints [1, 2, 3])), .build (.data 0), .build (.data 0),
    .build (.scalar (.int 5)), .build (.binary .mul 1 2), .build (.assign 0 (.position 0) 2),
    .build (.assign 3 (.position 1) 2), .force 5, .force 4, .evaluate (.assign 5 (.position 2) 4)]

theorem aliasing_run_siblings : LeavesGiven .start [] siblings ∧ Aliasing siblings :=
  have hleaves : LeavesGiven .start [] siblings := by decide +kernel
  ⟨hleaves, aliasing_run hleaves⟩

end DeferredArrays
