import DeferredArrays.Proofs.Graph.Effects

/-!
# Proofs/Graph/Frame — forcing a node touches nothing but what its assignments name

What an evaluation may change is fixed when it starts, by the assignments that are reached then
(`Heap.ReachesBase`).  Their bases may be cached, and the buffers that the bases are cached on may be
written to; all else stays as it is but for the counts of reads (`Heap.Confined`).  The visits that
an evaluation makes stay within what was reached at the start, since nothing becomes deferred on the
way (`Visit.Makes.reaches`, `Visit.Makes.reachesBase`), and so every effect is confined
(`Effect.confined`).

Forcing a node caches the node itself besides, if it succeeds (`Heap.frame_force`).
-/

namespace DeferredArrays

open Relation Eval

/-! ## The visits that a visit makes -/

/-- What is deferred after a visit was deferred before. -/
theorem Heap.deferred_of_visit {h h' : Heap} {depth : Nat} {demand : Demand} {id : NodeId}
    {v : Value} (hr : visit depth demand id h = .ok v h') {i : NodeId} {e : Expression}
    (hs : h'.state? i = some (.deferred e)) : h.state? i = some (.deferred e) := by
  rw [← Logged.run_visit] at hr
  exact ((Logged.accounts_visit depth demand id).of_ok hr).deferred i e hs

namespace Expression.Calls

variable {depth : Nat} {h : Heap} {e : Expression} {y : Visit}

theorem mem_children (hy : e.Calls depth h y) : y.node ∈ e.children := by
  cases hy <;> simp [children, AssignKey.children]

/-- What is deferred when the visit is made was deferred before. -/
theorem deferred (hy : e.Calls depth h y) {i : NodeId} {e' : Expression}
    (hs : y.heap.state? i = some (.deferred e')) : h.state? i = some (.deferred e') := by
  cases hy with
  | operand => exact hs
  | left => exact hs
  | right hx => exact Heap.deferred_of_visit hx hs
  | base => exact hs
  | key hbase => exact Heap.deferred_of_visit hbase hs
  | @value base value k b s h₁ h₂ hbase hkey =>
    have hacc := Logged.accounts_key (fun c => Logged.accounts_visit depth .read c) k
    have hrun : (Logged.key (Logged.visit depth .read) k).run h₁ = .ok s h₂ := by
      rw [Logged.run_key]
      simpa only [Logged.run_visit] using hkey
    exact Heap.deferred_of_visit hbase ((hacc.of_ok hrun).deferred i e' hs)

end Expression.Calls

namespace Heap

/-- **The base of an assignment that is reached** from a node through deferred expressions. -/
def ReachesBase (h : Heap) (n base : NodeId) : Prop :=
  ∃ a key value, h.Reaches n a ∧ h.state? a = some (.deferred (.assign base key value))

/-- The base of an assignment that is reached comes before the node. -/
theorem ReachesBase.lt {h : Heap} (hord : h.Ordered) {n base : NodeId}
    (hb : h.ReachesBase n base) : base < n := by
  obtain ⟨a, key, value, ha, hs⟩ := hb
  have hbase : base < a := hord a _ hs base (by simp [NodeStatus.children, Expression.children])
  exact Nat.lt_of_lt_of_le hbase (ha.le hord)

/-- A node without assignments below it reaches no base. -/
theorem AssignFree.not_reachesBase {h : Heap} {n base : NodeId} (hfree : h.AssignFree n) :
    ¬ h.ReachesBase n base := by
  rintro ⟨a, key, value, ha, hs⟩
  exact hfree a ha base key value hs

end Heap

namespace Visit

variable {x y z : Visit}

theorem Calls.deferred (hy : x.Calls y) {i : NodeId} {e : Expression}
    (hs : y.heap.state? i = some (.deferred e)) : x.heap.state? i = some (.deferred e) := by
  obtain ⟨_, hy⟩ := hy
  simpa only [Heap.state?_countRead] using hy.deferred hs

/-- What is deferred when a visit is made was deferred at the start. -/
theorem Makes.deferred (hm : x.Makes y) {i : NodeId} {e : Expression}
    (hs : y.heap.state? i = some (.deferred e)) : x.heap.state? i = some (.deferred e) := by
  induction hm with
  | refl => exact hs
  | tail _ hcall ih => exact ih (hcall.deferred hs)

/-- **The nodes that are visited were reached at the start.** -/
theorem Makes.reaches (hm : x.Makes y) : x.heap.Reaches x.node y.node := by
  induction hm with
  | refl => exact .refl
  | tail hm hcall ih =>
    obtain ⟨hs, hy⟩ := hcall
    exact ih.tail ⟨_, Makes.deferred hm hs, hy.mem_children⟩

/-- **A node that is forced on the way** is the base of an assignment that was reached at the
start. -/
theorem Makes.reachesBase (hm : x.Makes y) (hforce : y.demand = .force) :
    y = x ∨ x.heap.ReachesBase x.node y.node := by
  rcases hm.called hforce with rfl | ⟨z, key, value, hz, hs⟩
  · exact .inl rfl
  · exact .inr ⟨z.node, key, value, Makes.reaches hz, Makes.deferred hz hs⟩

end Visit

/-! ## Confined changes -/

namespace Heap

variable {S : NodeId → Prop} {h h₁ h₂ h₃ : Heap}

theorem owners_modifyCell {id : NodeId} {f : Cell → Cell} (hf : ∀ c, (f c).owners = c.owners)
    (i : NodeId) : (h.modifyCell id f).owners i = h.owners i := by
  rw [owners, cell?_modifyCell, owners]
  split
  · cases h.cell? i with
    | none => rfl
    | some c => simp [hf c]
  · rfl

theorem reads_le_modifyCell {id : NodeId} {f : Cell → Cell} (hf : ∀ c, c.reads ≤ (f c).reads)
    (i : NodeId) : h.reads i ≤ (h.modifyCell id f).reads i := by
  rw [reads, reads, cell?_modifyCell]
  split
  · cases h.cell? i with
    | none => exact Nat.le_refl _
    | some c => exact hf c
  · exact Nat.le_refl _

/-- **What happened between two heaps is confined to some nodes**: these may have been cached, and
the buffers that they are cached on may have been written to. -/
structure Confined (S : NodeId → Prop) (h h' : Heap) : Prop where
  /-- The other nodes are in the state they were in, and these are or were cached. -/
  states : ∀ i, h'.state? i = h.state? i ∨
    S i ∧ ∃ e v, h.state? i = some (.deferred e) ∧ h'.state? i = some (.cached v)
  /-- A buffer with other contents has one of these nodes cached on it. -/
  buffers : ∀ b a, h.buffer? b = some a →
    h'.buffer? b = some a ∨ ∃ i, S i ∧ h'.state? i = some (.cached (.array b))
  /-- Nodes have the handles they had. -/
  owners : ∀ i, h'.owners i = h.owners i
  /-- Nodes were read as often or more often. -/
  reads : ∀ i, h.reads i ≤ h'.reads i

theorem Confined.refl (S : NodeId → Prop) (h : Heap) : Confined S h h where
  states _ := .inl rfl
  buffers _ _ ha := .inl ha
  owners _ := rfl
  reads _ := Nat.le_refl _

/-- A cached node stays cached. -/
theorem Confined.cached (hc : Confined S h h₁) {i : NodeId} {v : Value}
    (hs : h.state? i = some (.cached v)) : h₁.state? i = some (.cached v) := by
  rcases hc.states i with hsame | ⟨_, e, _, hdeferred, _⟩
  · exact hsame.trans hs
  · cases hs.symm.trans hdeferred

theorem Confined.trans (hc : Confined S h₁ h₂) (hc' : Confined S h₂ h₃) : Confined S h₁ h₃ where
  states i := by
    rcases hc'.states i with hsame | ⟨hi, e, v, hdeferred, hcached⟩
    · rw [hsame]
      exact hc.states i
    · rcases hc.states i with hsame | ⟨_, _, _, _, hcached'⟩
      · exact .inr ⟨hi, e, v, hsame.symm.trans hdeferred, hcached⟩
      · cases hdeferred.symm.trans hcached'
  buffers b a ha := by
    rcases hc.buffers b a ha with ha | ⟨i, hi, hcached⟩
    · exact hc'.buffers b a ha
    · exact .inr ⟨i, hi, hc'.cached hcached⟩
  owners i := (hc'.owners i).trans (hc.owners i)
  reads i := Nat.le_trans (hc.reads i) (hc'.reads i)

theorem confined_countRead (h : Heap) (id : NodeId) : Confined S h (h.countRead id) where
  states i := .inl (state?_countRead h id i)
  buffers _ _ ha := .inl ha
  owners := owners_modifyCell fun _ => rfl
  reads := reads_le_modifyCell fun c => Nat.le_succ c.reads

theorem confined_cache {id : NodeId} (hid : S id) {e : Expression}
    (hs : h.state? id = some (.deferred e)) (v : Value) : Confined S h (h.cache id v) where
  states i := by
    rw [state?_cache]
    split
    next heq =>
      subst heq
      exact .inr ⟨hid, e, v, hs, by rw [hs]; rfl⟩
    next => exact .inl rfl
  buffers _ _ ha := .inl ha
  owners := owners_modifyCell fun _ => rfl
  reads := reads_le_modifyCell fun _ => Nat.le_refl _

end Heap

open Heap

/-! ## Effects are confined -/

section Effects

variable {S : NodeId → Prop} {P : Visit → Prop} {h h₁ : Heap} {log : List Event}

/-- Delivering a value is confined to the base of an assignment. -/
theorem Expression.Delivers.confined {node : Option NodeId} {e : Expression} {v : Value}
    (hd : e.Delivers node h v log h₁) (hS : ∀ base key value, e = .assign base key value → S base) :
    Confined S h h₁ := by
  cases hd with
  | data => exact .refl S h
  | scalar => exact .refl S h
  | result => exact .refl S h
  | @stored _ a =>
    refine ⟨fun _ => .inl rfl, fun b c hb => .inl ?_, fun _ => rfl, fun _ => Nat.le_refl _⟩
    exact (buffer?_addBuffer_of_lt (lt_of_buffer? hb)).trans hb
  | @assigned base value key b k t a c hbase _ _ =>
    refine ⟨fun _ => .inl rfl, fun i d hi => ?_, fun _ => rfl, fun _ => Nat.le_refl _⟩
    by_cases heq : b = i
    · subst heq
      exact .inr ⟨base, hS base key value rfl, hbase⟩
    · exact .inl ((buffer?_setBuffer_of_ne heq).trans hi)

/-- **An effect is confined** to nodes among which are those that its visits force, and the bases of
the assignments that they evaluate. -/
theorem Effect.confined (he : Effect P h log h₁) (hforce : ∀ x, P x → x.demand = .force → S x.node)
    (hbase : ∀ x base key value, P x → h.state? x.node = some (.deferred (.assign base key value)) →
      S base) : Confined S h h₁ := by
  cases he with
  | count => exact confined_countRead h _
  | read hx hs hd =>
    refine hd.confined fun base key value heq => ?_
    subst heq
    exact hbase _ base key value hx hs
  | @force x e v _ h' hx hdemand hs hd _ =>
    have hdelivered : Confined S h h' := by
      refine hd.confined fun base key value heq => ?_
      subst heq
      exact hbase _ base key value hx hs
    exact hdelivered.trans (confined_cache (hforce x hx hdemand) ((hd.state?_eq _).trans hs) v)

/-- **Effects in sequence are confined** to what they are confined to at the start. -/
theorem Effects.confined (he : Effects P h log h₁)
    (hforce : ∀ x, P x → x.demand = .force → S x.node)
    (hbase : ∀ x base key value, P x → h.state? x.node = some (.deferred (.assign base key value)) →
      S base) : Confined S h h₁ := by
  induction he with
  | refl => exact .refl S h
  | tail hfirst hlast ih =>
    refine ih.trans (hlast.confined hforce fun x base key value hx hs => ?_)
    exact hbase x base key value hx (hfirst.deferred hs)

end Effects

/-- **Reading a node is confined** to the bases of the assignments that are reached. -/
theorem Heap.confined_read {h : Heap} (hs : h.Sound) {n : NodeId} (hn : n < h.cells.size) :
    Confined (h.ReachesBase n) h (after (Eval.read n) h) := by
  have heffects := Logged.isEffects_visit (n + 1) .read n hs hn (Nat.lt_succ_self n)
  unfold Logged.IsEffects at heffects
  rw [Logged.run_visit] at heffects
  refine heffects.confined (fun x hx hforce => ?_) fun x base key value hx hst => ?_
  · rcases hx.reachesBase hforce with rfl | hbase
    · cases hforce
    · exact hbase
  · exact ⟨x.node, key, value, hx.reaches, hst⟩

/-! ## Forcing a node -/

/-- **What forcing a node changes**, and what it leaves alone, whether it succeeds or fails. -/
structure Heap.ForceFrame (h : Heap) (n : NodeId) : Prop where
  /-- A node that is cached already is returned as it is, and nothing changes. -/
  idle : ∀ v, h.state? n = some (.cached v) → Eval.force n h = .ok v h
  /-- If forcing succeeds, the node is cached with the value. -/
  cached : ∀ v h', Eval.force n h = .ok v h' → h'.state? n = some (.cached v)
  /-- If it fails, the node was deferred and holds the expression that it held. -/
  failed : ∀ err h', Eval.force n h = .error err h' →
    ∃ e, h.state? n = some (.deferred e) ∧ h'.state? n = some (.deferred e)
  /-- Any other node whose state has changed is the base of an assignment that was reached, and went
  from deferred to cached. -/
  others : ∀ i, i ≠ n → (after (Eval.force n) h).state? i ≠ h.state? i →
    h.ReachesBase n i ∧
      ∃ e v, h.state? i = some (.deferred e) ∧ (after (Eval.force n) h).state? i = some (.cached v)
  /-- Any buffer whose contents have changed is held by the base of an assignment that was
  reached. -/
  buffers : ∀ b a, h.buffer? b = some a → (after (Eval.force n) h).buffer? b ≠ some a →
    ∃ i, h.ReachesBase n i ∧ (after (Eval.force n) h).state? i = some (.cached (.array b))
  /-- Nodes have the handles they had. -/
  owners : ∀ i, (after (Eval.force n) h).owners i = h.owners i
  /-- Nodes were read as often or more often. -/
  reads : ∀ i, h.reads i ≤ (after (Eval.force n) h).reads i
  /-- If no assignment is reached, no other node and no buffer has changed, and if forcing fails not
  even the node. -/
  pure : h.AssignFree n → (∀ i, i ≠ n → (after (Eval.force n) h).state? i = h.state? i) ∧
    (∀ b a, h.buffer? b = some a → (after (Eval.force n) h).buffer? b = some a) ∧
    ∀ err h', Eval.force n h = .error err h' → ∀ i, h'.state? i = h.state? i

namespace Heap

variable {h : Heap} {n : NodeId}

/-- **What forcing a node can come to**: it is cached already; or reading it fails, and it stays
deferred; or reading it succeeds, and it is cached then. -/
theorem force_cases (hs : h.Sound) (hn : n < h.cells.size) :
    (∃ v, h.state? n = some (.cached v) ∧ Eval.force n h = .ok v h) ∨
    ∃ e h₁, h.state? n = some (.deferred e) ∧ h₁.state? n = some (.deferred e) ∧
      Confined (h.ReachesBase n) h h₁ ∧
      ((∃ err, Eval.force n h = .error err h₁) ∨ ∃ v, Eval.force n h = .ok v (h₁.cache n v)) := by
  obtain ⟨s, hst⟩ := exists_state? hn
  cases s with
  | cached v => exact .inl ⟨v, hst, force_cached hst⟩
  | deferred e =>
    have hread := confined_read hs hn
    have hsame : (after (Eval.read n) h).state? n = some (.deferred e) := by
      rcases hread.states n with hsame | ⟨hbase, _⟩
      · exact hsame.trans hst
      · exact absurd (hbase.lt hs.ordered) (Nat.lt_irrefl n)
    refine .inr ⟨e, after (Eval.read n) h, hst, hsame, hread, ?_⟩
    have hforce : Eval.force n h = _ := force_deferred hst
    cases hr : Eval.read n h with
    | ok v h₁ =>
      rw [after_of_ok hr]
      exact .inr ⟨v, hforce.trans (bind_eq_of_ok hr)⟩
    | error err h₁ =>
      rw [after_of_error hr]
      exact .inl ⟨err, hforce.trans (bind_eq_of_error hr)⟩

/-- Forcing a node does to other nodes and to buffers what reading it does, and caches the node at
most. -/
theorem exists_confined_force (hs : h.Sound) (hn : n < h.cells.size) :
    ∃ h₁, Confined (h.ReachesBase n) h h₁ ∧ Confined (· = n) h₁ (after (Eval.force n) h) ∧
      ∀ b, (after (Eval.force n) h).buffer? b = h₁.buffer? b := by
  rcases force_cases hs hn with ⟨v, _, hr⟩ | ⟨e, h₁, _, hst₁, hread, ⟨err, hr⟩ | ⟨v, hr⟩⟩
  · rw [after_of_ok hr]
    exact ⟨h, .refl _ h, .refl _ h, fun _ => rfl⟩
  · rw [after_of_error hr]
    exact ⟨h₁, hread, .refl _ h₁, fun _ => rfl⟩
  · rw [after_of_ok hr]
    exact ⟨h₁, hread, confined_cache (S := (· = n)) rfl hst₁ v, fun _ => rfl⟩

/-- **Forcing a node touches nothing but what its assignments name.** -/
theorem frame_force (hs : h.Sound) (hn : n < h.cells.size) : h.ForceFrame n := by
  obtain ⟨h₁, hread, hself, hbuffers⟩ := exists_confined_force hs hn
  have hothers : ∀ i, i ≠ n → (after (Eval.force n) h).state? i = h₁.state? i := by
    intro i hi
    rcases hself.states i with hsame | ⟨heq, _⟩
    · exact hsame
    · exact absurd heq hi
  have hchanged : ∀ i, i ≠ n → (after (Eval.force n) h).state? i ≠ h.state? i →
      h.ReachesBase n i ∧ ∃ e v, h.state? i = some (.deferred e) ∧
        (after (Eval.force n) h).state? i = some (.cached v) := by
    intro i hi hne
    rw [hothers i hi] at hne ⊢
    exact (hread.states i).resolve_left hne
  have hwritten : ∀ b a, h.buffer? b = some a → (after (Eval.force n) h).buffer? b ≠ some a →
      ∃ i, h.ReachesBase n i ∧ (after (Eval.force n) h).state? i = some (.cached (.array b)) := by
    intro b a ha hne
    rw [hbuffers] at hne
    obtain ⟨i, hi, hcached⟩ := (hread.buffers b a ha).resolve_left hne
    exact ⟨i, hi, hself.cached hcached⟩
  have hfailed : ∀ err h', Eval.force n h = .error err h' →
      ∃ e, h.state? n = some (.deferred e) ∧ h'.state? n = some (.deferred e) := by
    intro err h' hr
    rcases force_cases hs hn with ⟨v, _, hr'⟩ | ⟨e, h₂, hst, hst₂, _, ⟨_, hr'⟩ | ⟨v, hr'⟩⟩
    · cases hr.symm.trans hr'
    · cases hr.symm.trans hr'
      exact ⟨e, hst, hst₂⟩
    · cases hr.symm.trans hr'
  refine {
    idle := fun v hst => force_cached hst
    cached := fun v h' hr => Logged.state?_of_force hr
    failed := hfailed
    others := hchanged
    buffers := hwritten
    owners := fun i => (hself.owners i).trans (hread.owners i)
    reads := fun i => Nat.le_trans (hread.reads i) (hself.reads i)
    pure := fun hfree => ?_ }
  have hsame : ∀ i, i ≠ n → (after (Eval.force n) h).state? i = h.state? i := fun i hi =>
    Classical.not_not.mp fun hne => hfree.not_reachesBase (hchanged i hi hne).1
  refine ⟨hsame, fun b a ha => Classical.not_not.mp fun hne => ?_, fun err h' hr i => ?_⟩
  · obtain ⟨i, hi, _⟩ := hwritten b a ha hne
    exact hfree.not_reachesBase hi
  · by_cases hi : i = n
    · obtain ⟨e, hst, hst'⟩ := hfailed err h' hr
      rw [hi, hst, hst']
    · rw [← hsame i hi, after_of_error hr]

/-- The sum of two assignments to arrays of different lengths, one of them a product. -/
def entangled : Heap where
  buffers := #[.ofElements (.ints [1, 2, 3]), .ofElements (.ints [5, 6])]
  cells := #[⟨.deferred (.data 0), 1, 0⟩, ⟨.deferred (.scalar (.int 0)), 0, 0⟩,
    ⟨.deferred (.binary .mul 0 0), 0, 0⟩, ⟨.deferred (.assign 2 (.position 1) 1), 0, 0⟩,
    ⟨.deferred (.data 1), 1, 0⟩, ⟨.deferred (.assign 4 (.node 1) 1), 0, 0⟩,
    ⟨.deferred (.binary .add 3 5), 1, 0⟩]

theorem frame_force_entangled :
    (entangled.Sound ∧ 6 < entangled.cells.size) ∧ entangled.ForceFrame 6 :=
  have hs : entangled.Sound := by decide
  have hn : 6 < entangled.cells.size := by decide
  ⟨⟨hs, hn⟩, frame_force hs hn⟩

/-- The addition fails; by then both bases are cached and both assignments have been applied. -/
example : let h := after (Eval.force 6) entangled
    h.cells.map (·.state.isCached) = #[false, false, true, false, true, false, false] ∧
      h.buffers.map (·.elements) =
        #[.ints [1, 2, 3], .ints [0, 6], .ints [1, 0, 9]] := by decide +kernel

end Heap

end DeferredArrays
