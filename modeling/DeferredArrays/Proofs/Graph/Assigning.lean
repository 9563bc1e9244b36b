import DeferredArrays.Proofs.Graph.Retaining

/-!
# Proofs/Graph/Assigning — assignments, one at a time and in sequence

An assignment by itself evaluates its key and its value in the heap as it stands, writes to a buffer,
and caches its node on it (`Heap.assign`).  A visit of an assignment whose base is in a buffer does
the same, but for buffers that it adds on the way (`Heap.evaluate_assign`).

Before the first of several assignments, their base is forced, which changes nothing but the base
(`Heap.Pinned`, `Heap.force_base`).  After them, their nodes are cached on the one buffer, and no
other buffer and no other node has changed (`Heap.InSequence`).
-/

namespace DeferredArrays

open Eval Session

/-! ## One assignment by itself -/

/-- An assignment: its node, and the key and the value that it assigns. -/
structure Link where
  /-- The node. -/
  node : NodeId
  /-- The key. -/
  key : AssignKey
  /-- The value. -/
  value : NodeId

namespace Heap

variable {h h' h₀ h₁ g g' g₀ : Heap} {b id : NodeId} {B : BufferId} {v : Value} {a t : Tensor}
  {l : Link} {links : List Link} {depth : Nat}

/-- The elements that a key selects, evaluated in a heap. -/
def selection (h : Heap) : AssignKey → Except Error Selection
  | .position i => .ok (.position i)
  | .node id => do
    let a ← h.materialize id
    (Selection.ofTensor a).mapError .tensor

/-- The contents of a buffer after an assignment, with key and value evaluated in the heap as it
stands. -/
def assigned (h : Heap) (B : BufferId) (l : Link) : Except Error Tensor := do
  let k ← h.selection l.key
  let a ← h.materialize l.value
  match h.buffer? B with
  | some t => (t.set k a).mapError .tensor
  | none => .error (.dangling (.buffer B))

/-- **An assignment to a buffer**, by itself.  Its node is cached on the buffer. -/
def assign (B : BufferId) (h : Heap) (l : Link) : Except Error Heap := do
  let c ← h.assigned B l
  .ok ((h.setBuffer B c).cache l.node (.array B))

/-- **Assignments to a buffer**, one after the other. -/
def assignAll (B : BufferId) (h : Heap) (links : List Link) : Except Error Heap :=
  links.foldlM (assign B) h

theorem assigned_eq (hB : h.buffer? B = some t) : h.assigned B l = (do
    let k ← h.selection l.key
    let a ← h.materialize l.value
    (t.set k a).mapError .tensor) := by
  rw [assigned, hB]

/-- An assignment that is made replaces the contents of its buffer by what was written. -/
theorem exists_of_assigned {c : Tensor} (hc : h.assigned B l = .ok c) :
    ∃ k a t, h.buffer? B = some t ∧ t.set k a = .ok c := by
  rw [assigned] at hc
  obtain ⟨k, _, hc⟩ := exists_of_bind_eq_ok hc
  obtain ⟨a, _, hc⟩ := exists_of_bind_eq_ok hc
  cases hB : h.buffer? B with
  | none =>
    rw [hB] at hc
    cases hc
  | some t =>
    rw [hB] at hc
    exact ⟨k, a, t, rfl, mapError_eq_ok hc⟩

/-! ## Evaluation in a heap with more buffers -/

/-- A node that can be read in a heap: it exists, and has no assignments below it. -/
structure IsPure (h : Heap) (id : NodeId) : Prop where
  /-- It exists. -/
  lt : id < h.cells.size
  /-- No deferred assignment is reached. -/
  free : h.AssignFree id

theorem Extends.retains (he : h.Extends g) (hs : h.Sound) (id : NodeId) : h.Retains id g :=
  (Retains.refl hs.ordered id).extends he

/-- Reading a node yields the array it evaluates to in the heap before. -/
theorem yields_materialize (hs : h.Sound) (hp : h.IsPure id) (he : h.Extends g) (hd : id < depth) :
    Yields (visit depth .read id) g (h.materialize id) := by
  obtain ⟨t, ht⟩ := exists_unfolds hs hp.lt hp.free
  rw [materialize_eq hs.ordered ht (ht.grounded hs)]
  exact (he.retains hs id).yields_read hs .refl ht hd

theorem materialize_of_extends (hs : h.Sound) (hp : h.IsPure id) (he : h.Extends g) :
    g.materialize id = h.materialize id := by
  obtain ⟨t, ht⟩ := exists_unfolds hs hp.lt hp.free
  have hsame : ∀ l ∈ t.leaves, h.buffer? l.buffer = g.buffer? l.buffer := fun l hl => by
    obtain ⟨a, ha, _⟩ := ht.grounded hs l hl
    rw [ha, he.buffers _ a ha]
  have hg : t.Grounded g.buffer? := fun l hl => by
    rw [← hsame l hl]
    exact ht.grounded hs l hl
  rw [materialize_eq (he.ordered hs.ordered) (he.unfolds ht) hg,
    materialize_eq hs.ordered ht (ht.grounded hs), Term.tensor?_congr hsame]

theorem selection_of_extends (hs : h.Sound) (he : h.Extends g) {k : AssignKey}
    (hk : ∀ c ∈ k.children, h.IsPure c) : g.selection k = h.selection k := by
  cases k with
  | position i => rfl
  | node id =>
    rw [selection, selection, materialize_of_extends hs (hk id (List.mem_singleton.mpr rfl)) he]

/-- Evaluating a key gives the elements it selects. -/
theorem evaluate_key (hs : h.Sound) (he : h.Extends g) {k : AssignKey}
    (hk : ∀ c ∈ k.children, h.IsPure c ∧ c < depth) :
    match h.selection k with
    | .ok s => ∃ g', k.evaluate (visit depth .read) g = .ok s g' ∧ g.Extends g'
    | .error e => ∃ g', k.evaluate (visit depth .read) g = .error e g' ∧ g.Extends g' := by
  cases k with
  | position i => exact ⟨g, rfl, .refl g⟩
  | node id =>
    obtain ⟨hp, hd⟩ := hk id (List.mem_singleton.mpr rfl)
    have hread := yields_materialize hs hp he hd
    rw [selection]
    cases ha : h.materialize id with
    | error e =>
      rw [ha] at hread
      obtain ⟨g', hv, he'⟩ := hread
      exact ⟨g', bind_eq_of_error hv, he'⟩
    | ok a =>
      rw [ha] at hread
      obtain ⟨v, g', hv, he', hden⟩ := hread
      have hkey : AssignKey.evaluate (visit depth .read) (.node id) g
          = lift (Selection.ofTensor a) g' :=
        (bind_eq_of_ok hv).trans (bind_eq_of_ok (view_eq hden))
      show match (Selection.ofTensor a).mapError Error.tensor with
        | .ok s => _
        | .error e => _
      cases hs : Selection.ofTensor a with
      | ok s => exact ⟨g', by rw [hkey, hs]; rfl, he'⟩
      | error e => exact ⟨g', by rw [hkey, hs]; rfl, he'⟩

/-- What an assignment makes of its buffer does not depend on buffers that were added. -/
theorem assigned_of_extends (hs : h.Sound) (he : h.Extends g) (hB : h.buffer? B = some t)
    (hl : ∀ c ∈ l.key.children ++ [l.value], h.IsPure c) : g.assigned B l = h.assigned B l := by
  rw [assigned_eq hB, assigned_eq (he.buffers B t hB),
    selection_of_extends hs he fun c hc => hl c (List.mem_append_left _ hc),
    materialize_of_extends hs (hl l.value (List.mem_append_right _ (List.mem_singleton.mpr rfl))) he]

/-- **Evaluating an assignment whose base is in a buffer** makes it, or fails as it fails by
itself. -/
theorem evaluate_assign (hs : h.Sound) (he : h.Extends g) (hB : h.buffer? B = some t)
    (hl : ∀ c ∈ l.key.children ++ [l.value], h.IsPure c ∧ c < depth) {prev : NodeId}
    (hbase : visit depth .force prev g₀ = .ok (.array B) g) :
    match h.assigned B l with
    | .ok c => ∃ g', (Expression.assign prev l.key l.value).evaluate (visit depth) g₀
        = .ok (.array B) (g'.setBuffer B c) ∧ h.Extends g'
    | .error e => ∃ g', (Expression.assign prev l.key l.value).evaluate (visit depth) g₀
        = .error e g' ∧ h.Extends g' := by
  have hkey := evaluate_key hs he fun c hc => hl c (List.mem_append_left _ hc)
  obtain ⟨hp, hd⟩ := hl l.value (List.mem_append_right _ (List.mem_singleton.mpr rfl))
  have hstart : ∀ {f : BufferId → Eval Value},
      (do let b ← target prev (← visit depth .force prev); f b : Eval Value) g₀ = f B g :=
    (bind_eq_of_ok hbase).trans (bind_eq_of_ok rfl)
  rw [assigned_eq hB]
  cases hk : h.selection l.key with
  | error e =>
    rw [hk] at hkey
    obtain ⟨g₁, hk₁, he₁⟩ := hkey
    exact ⟨g₁, hstart.trans (bind_eq_of_error hk₁), he.trans he₁⟩
  | ok k =>
    rw [hk] at hkey
    obtain ⟨g₁, hk₁, he₁⟩ := hkey
    have hread := yields_materialize hs hp (he.trans he₁) hd
    cases ha : h.materialize l.value with
    | error e =>
      rw [ha] at hread
      obtain ⟨g₂, hv, he₂⟩ := hread
      refine ⟨g₂, hstart.trans ((bind_eq_of_ok hk₁).trans (bind_eq_of_error hv)), ?_⟩
      exact (he.trans he₁).trans he₂
    | ok a =>
      rw [ha] at hread
      obtain ⟨v, g₂, hv, he₂, hden⟩ := hread
      have hext := (he.trans he₁).trans he₂
      have hto : ∀ {f : Tensor → Eval Value},
          (do let a ← view (← visit depth .read l.value); f a : Eval Value) g₁ = f a g₂ :=
        (bind_eq_of_ok hv).trans (bind_eq_of_ok (view_eq hden))
      have hB₂ := hext.buffers B t hB
      show match (t.set k a).mapError Error.tensor with
        | .ok c => _
        | .error e => _
      cases hc : t.set k a with
      | error e =>
        refine ⟨g₂, hstart.trans ((bind_eq_of_ok hk₁).trans (hto.trans ?_)), hext⟩
        exact bind_eq_of_error (Logged.write_eq_error hB₂ hc)
      | ok c =>
        refine ⟨g₂, hstart.trans ((bind_eq_of_ok hk₁).trans (hto.trans ?_)), hext⟩
        exact bind_eq_of_ok (Logged.write_eq hB₂ hc)

/-! ## The base -/

/-- **A heap after a node was forced**, and nothing else has happened: the node is cached, with the
array that it held if it held one, and no other node and no buffer has changed. -/
structure Pinned (h : Heap) (b : NodeId) (v : Value) (h' : Heap) : Prop where
  /-- The heap is sound, and later. -/
  follows : h.Follows h'
  /-- The node is cached. -/
  base : h'.state? b = some (.cached v)
  /-- If it held an array, it holds the same. -/
  own : ∀ B, h.Holds ⟨b, B⟩ → v = .array B
  /-- No other node has changed. -/
  others : ∀ i, i ≠ b → h'.state? i = h.state? i
  /-- No buffer has changed. -/
  buffers : ∀ i a, h.buffer? i = some a → h'.buffer? i = some a

theorem Pinned.extends (hp : h.Pinned b v h') (hst : h.state? b = some (.cached v)) :
    h.Extends h' where
  states i := by
    by_cases hi : i = b
    · rw [hi, hp.base, hst]
    · exact hp.others i hi
  buffers := hp.buffers

/-- A node that holds an array is forced to it. -/
theorem force_of_holds (hl : h.Holds ⟨b, B⟩) (hd : b < depth) :
    ∃ h', visit depth .force b h = .ok (.array B) h' := by
  obtain ⟨depth, rfl⟩ := Nat.exists_eq_add_one_of_ne_zero (Nat.ne_zero_of_lt hd)
  obtain ⟨s, hst, hB⟩ := hl
  cases s with
  | cached v =>
    cases v with
    | array B' =>
      cases hB
      exact ⟨h, force_cached hst⟩
    | scalar s => cases hB
  | deferred e =>
    cases e with
    | data B' =>
      cases hB
      exact ⟨_, (force_deferred hst).trans ((bind_eq_of_ok (read_deferred hst)).trans rfl)⟩
    | scalar s => cases hB
    | unary op x => cases hB
    | binary op x y => cases hB
    | assign base key value => cases hB

theorem eq_array_of_content (hc : Eval.content v g = .ok (.array a) g') :
    ∃ B, v = .array B ∧ g.buffer? B = some a := by
  cases v with
  | scalar s => cases hc
  | array B =>
    cases hB : g.buffer? B with
    | none => cases (bind_eq_of_error (buffer_eq_none hB)).symm.trans hc
    | some a' =>
      cases (bind_eq_of_ok (buffer_eq hB)).symm.trans hc
      exact ⟨B, rfl, hB⟩

theorem eq_scalar_of_content {s : Scalar} (hc : Eval.content v g = .ok (.scalar s) g') :
    v = .scalar s := by
  cases v with
  | scalar s' =>
    cases hc
    rfl
  | array B =>
    cases hB : g.buffer? B with
    | none => cases (bind_eq_of_error (buffer_eq_none hB)).symm.trans hc
    | some a => cases (bind_eq_of_ok (buffer_eq hB)).symm.trans hc

/-- **Forcing the base** has the outcome that forcing it at first would have had. -/
theorem force_base (hs : h.Sound) (hp : h.IsPure b) (hgs : g.Sound) (he : h.Extends g)
    (hd : b < depth) :
    match h.outcome b with
    | .ok c => ∃ v g', visit depth .force b g = .ok v g' ∧ h.Pinned b v g' ∧
        Eval.content v g' = .ok c g'
    | .error e => ∃ g', visit depth .force b g = .error e g' ∧ h.Extends g' := by
  obtain ⟨t, ht⟩ := exists_unfolds hs hp.lt hp.free
  have hforce := (he.retains hs b).force hs .refl ht hd
  rw [(Retains.refl hs.ordered b).outcome_eq hs .refl ht]
  cases ha : t.tensor? h.buffer? with
  | error e =>
    rw [ha] at hforce
    obtain ⟨g', hv, he'⟩ := hforce
    exact ⟨g', hv, he.trans he'⟩
  | ok a =>
    rw [ha] at hforce
    obtain ⟨v, g', hv, he', hden, hkind⟩ := hforce
    have hext := he.trans he'
    obtain ⟨s, hst⟩ := exists_state? hp.lt
    have hden : Denotes (g'.cache b v) v a := hden.of_buffers fun _ => rfl
    have hlt := Nat.lt_of_lt_of_le hp.lt he.later.cells_le
    have hfollows := ((safe_visit hgs hlt hd).of_ok hv).1
    refine ⟨v, _, hv, ⟨⟨hfollows.sound, he.later.trans hfollows.later⟩, ?_, fun B hB => ?_,
      fun i hi => ?_, hext.buffers⟩, content_eq hden hkind⟩
    · rw [state?_cache, if_pos rfl, (hext.states b).trans hst]
      rfl
    · obtain ⟨s, hst, hsB⟩ := hB
      have hg : g.Holds ⟨b, B⟩ := ⟨s, (he.states b).trans hst, hsB⟩
      obtain ⟨g₁, hv₁⟩ := force_of_holds hg hd
      cases hv.symm.trans hv₁
      rfl
    · rw [state?_cache, if_neg (Ne.symm hi), hext.states i]

/-- A cached node can be read: nothing is below it. -/
theorem isPure_of_cached (hst : h.state? id = some (.cached v)) : h.IsPure id where
  lt := lt_of_state? hst
  free i hi base key value hs := by
    rcases Reaches.self_or_child hi hst with rfl | ⟨c, hc, _⟩
    · cases state_unique hst hs
    · exact nomatch hc

theorem outcome_of_cached (hst : h.state? id = some (.cached (.array B)))
    (hB : h.buffer? B = some a) : h.outcome id = .ok (.array a) := by
  have hforce : Eval.force id h = .ok (.array B) h := force_cached hst
  have hcontent : Eval.content (.array B) h = .ok (.array a) h :=
    (bind_eq_of_ok (buffer_eq hB)).trans rfl
  rw [outcome, bind_eq_of_ok hforce, hcontent]

/-! ## Assignments in sequence -/

/-- **A heap after assignments to a buffer**, one after the other. -/
structure InSequence (h : Heap) (B : BufferId) (links : List Link) (h' : Heap) : Prop where
  /-- All of them were made. -/
  made : h.assignAll B links = .ok h'
  /-- The heap is sound, and later. -/
  follows : h.Follows h'
  /-- Their nodes are cached on the buffer. -/
  cached : ∀ i ∈ links.map (·.node), h'.state? i = some (.cached (.array B))
  /-- No other node has changed. -/
  others : ∀ i ∉ links.map (·.node), h'.state? i = h.state? i
  /-- No other buffer has changed. -/
  buffers : ∀ i, i ≠ B → h'.buffer? i = h.buffer? i

theorem InSequence.nil (hs : h.Sound) : h.InSequence B [] h where
  made := rfl
  follows := .refl hs
  cached _ hi := nomatch hi
  others _ _ := rfl
  buffers _ _ := rfl

/-- One more assignment. -/
theorem InSequence.concat (hq : h.InSequence B links h₁) {e : Expression}
    (hst : h₁.state? l.node = some (.deferred e)) {c : Tensor} (hc : h₁.assigned B l = .ok c) :
    h.InSequence B (links ++ [l]) ((h₁.setBuffer B c).cache l.node (.array B)) := by
  obtain ⟨k, a, t, hB, hset⟩ := exists_of_assigned hc
  have hset := follows_setBuffer hq.follows.sound hB hset
  refine ⟨?_, hq.follows.trans (hset.trans (follows_cache hset.sound hst ?_)), fun i hi => ?_,
    fun i hi => ?_, fun i hi => ?_⟩
  · rw [assignAll, List.foldlM_append, show links.foldlM (assign B) h = .ok h₁ from hq.made]
    show assign B h₁ l >>= pure = _
    rw [assign, hc]
    rfl
  · rintro _ ⟨⟩
    exact Nat.lt_of_lt_of_le (lt_of_buffer? hB) hset.later.buffers_le
  · rw [state?_cache]
    split
    next heq =>
      subst heq
      show (h₁.state? l.node).map _ = _
      rw [hst]
      rfl
    next hne =>
      have hmem : i ∈ links.map (·.node) := by
        simpa [Ne.symm hne] using hi
      exact hq.cached i hmem
  · have hmem : i ∉ links.map (·.node) ∧ i ≠ l.node := by simpa using hi
    rw [state?_cache, if_neg (Ne.symm hmem.2)]
    exact hq.others i hmem.1
  · exact (buffer?_setBuffer_of_ne (Ne.symm hi)).trans (hq.buffers i hi)

end Heap

end DeferredArrays
