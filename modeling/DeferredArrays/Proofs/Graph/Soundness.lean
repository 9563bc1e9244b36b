import DeferredArrays.Graph.Evaluation
import DeferredArrays.Proofs.Tensor.WellFormed
import Mathlib.Logic.Relation

/-!
# Proofs/Graph/Soundness — what holds of every heap

A heap is **sound** when expressions refer to earlier nodes, arrays lie in buffers that exist, and
buffers hold well-formed arrays (`Heap.Sound`).  One heap is **later** than another when all that
happened between them is what can happen at all: nodes and buffers were added, deferred nodes were
cached, and buffers were written to (`Heap.Later`).

Every operation leads from a sound heap to a sound and later one, whether it succeeds or fails, and
none fails because a reference leads nowhere.  For computations on heaps the three are said at once
(`Eval.Safe`), with one rule for a sequence (`Eval.Safe.bind`); the visit of a node is safe by
induction on the depth (`safe_visit`).
-/

namespace DeferredArrays

open Relation

/-! ## Sound heaps -/

/-- The buffer an expression is the array of. -/
def Expression.buffer? : Expression → Option BufferId
  | data b => some b
  | _ => none

/-- The buffer of the array a value is. -/
def Value.buffer? : Value → Option BufferId
  | array b => some b
  | scalar _ => none

/-- The buffer of the array a node holds. -/
def NodeStatus.buffer? : NodeStatus → Option BufferId
  | deferred e => e.buffer?
  | cached v => v.buffer?

/-- Whether a node is an assignment that was not forced yet. -/
def NodeStatus.isAssign : NodeStatus → Bool
  | deferred (.assign ..) => true
  | _ => false

namespace Heap

/-- **A sound heap.** -/
structure Sound (h : Heap) : Prop where
  /-- Expressions refer to earlier nodes. -/
  ordered : h.Ordered
  /-- Arrays lie in buffers that exist. -/
  held : ∀ id s b, h.state? id = some s → s.buffer? = some b → b < h.buffers.size
  /-- Buffers hold well-formed arrays. -/
  wellFormed : ∀ b a, h.buffer? b = some a → a.WellFormed

/-- The state of a node is that of its cell. -/
theorem state?_eq_some_iff {h : Heap} {id : NodeId} {s : NodeStatus} :
    h.state? id = some s ↔ ∃ c, h.cell? id = some c ∧ c.state = s := by
  simp [state?]

/-- A node that has a state exists … -/
theorem lt_of_state? {h : Heap} {id : NodeId} {s : NodeStatus} (hs : h.state? id = some s) :
    id < h.cells.size := by
  obtain ⟨c, hc, _⟩ := state?_eq_some_iff.mp hs
  exact (Array.getElem?_eq_some_iff.mp hc).1

/-- … and a node that exists has a state. -/
theorem exists_state? {h : Heap} {id : NodeId} (hid : id < h.cells.size) :
    ∃ s, h.state? id = some s :=
  ⟨h.cells[id].state, by simp [state?, cell?, hid]⟩

/-- A buffer that exists holds an array … -/
theorem exists_buffer? {h : Heap} {b : BufferId} (hb : b < h.buffers.size) :
    ∃ a, h.buffer? b = some a :=
  ⟨h.buffers[b], by simp [buffer?, hb]⟩

/-- … and a buffer that holds one exists. -/
theorem lt_of_buffer? {h : Heap} {b : BufferId} {a : Tensor} (hb : h.buffer? b = some a) :
    b < h.buffers.size :=
  (Array.getElem?_eq_some_iff.mp hb).1

/-- Soundness, cell by cell and buffer by buffer. -/
theorem sound_iff {h : Heap} : h.Sound ↔
    (∀ i : Fin h.cells.size, (∀ c ∈ h.cells[i].state.children, c < i) ∧
      ∀ b ∈ h.cells[i].state.buffer?, b < h.buffers.size) ∧
    ∀ i : Fin h.buffers.size, h.buffers[i].WellFormed := by
  have hcell : ∀ (id : NodeId) (s : NodeStatus), h.state? id = some s ↔
      ∃ hid : id < h.cells.size, h.cells[id].state = s := fun id s => by
    rw [state?_eq_some_iff]
    simp only [cell?, Array.getElem?_eq_some_iff]
    constructor
    · rintro ⟨_, ⟨hid, rfl⟩, hs⟩
      exact ⟨hid, hs⟩
    · rintro ⟨hid, hs⟩
      exact ⟨_, ⟨hid, rfl⟩, hs⟩
  have hbuf : ∀ (b : BufferId) (a : Tensor), h.buffer? b = some a ↔
      ∃ hb : b < h.buffers.size, h.buffers[b] = a := fun b a => by
    simp [buffer?, Array.getElem?_eq_some_iff]
  constructor
  · intro hs
    refine ⟨fun i => ⟨?_, fun b hb => ?_⟩, fun i => ?_⟩
    · exact hs.ordered i _ ((hcell i _).mpr ⟨i.isLt, rfl⟩)
    · exact hs.held i _ b ((hcell i _).mpr ⟨i.isLt, rfl⟩) hb
    · exact hs.wellFormed i _ ((hbuf i _).mpr ⟨i.isLt, rfl⟩)
  · rintro ⟨hcells, hbuffers⟩
    refine ⟨fun id s hs => ?_, fun id s b hs hb => ?_, fun b a hb => ?_⟩
    · obtain ⟨hid, rfl⟩ := (hcell id s).mp hs
      exact (hcells ⟨id, hid⟩).1
    · obtain ⟨hid, rfl⟩ := (hcell id s).mp hs
      exact (hcells ⟨id, hid⟩).2 b hb
    · obtain ⟨hid, rfl⟩ := (hbuf b a).mp hb
      exact hbuffers ⟨b, hid⟩

instance (h : Heap) : Decidable h.Sound := decidable_of_iff _ sound_iff.symm

/-! ## Reachability -/

/-- One node is directly below another: it is a child of its deferred expression. -/
def Below (h : Heap) (id child : NodeId) : Prop := ∃ s, h.state? id = some s ∧ child ∈ s.children

/-- A node is reached from another through deferred expressions. -/
def Reaches (h : Heap) : NodeId → NodeId → Prop := ReflTransGen h.Below

/-- **No assignment is reached** from a node through deferred expressions. -/
def AssignFree (h : Heap) (root : NodeId) : Prop :=
  ∀ id, h.Reaches root id →
    ∀ base key value, h.state? id ≠ some (.deferred (.assign base key value))

/-- What is free of assignments is so further down. -/
theorem AssignFree.child {h : Heap} {id child : NodeId} {s : NodeStatus} (hfree : h.AssignFree id)
    (hs : h.state? id = some s) (hc : child ∈ s.children) : h.AssignFree child := fun n hn =>
  hfree n (.head ⟨s, hs, hc⟩ hn)

/-- A heap without deferred assignments has none to reach. -/
theorem assignFree_of_all {h : Heap} (hall : h.cells.toList.all fun c => !c.state.isAssign)
    (root : NodeId) : h.AssignFree root := by
  intro id _ base key value hs
  obtain ⟨c, hc, hst⟩ := state?_eq_some_iff.mp hs
  have hmem := List.all_eq_true.mp hall c (Array.mem_toList_iff.mpr (Array.mem_of_getElem? hc))
  simp [hst, NodeStatus.isAssign] at hmem

/-! ## Later heaps -/

end Heap

namespace Tensor

/-- An array after any number of writes to it. -/
def Rewritten : Tensor → Tensor → Prop := ReflTransGen fun a c => ∃ key v, set a key v = .ok c

/-- **Writes change elements only**: not the shape, not the type, and not the number. -/
theorem Rewritten.same {a c : Tensor} (h : a.Rewritten c) :
    c.shape = a.shape ∧ c.elemType = a.elemType ∧ (a.WellFormed → c.WellFormed) := by
  induction h with
  | refl => exact ⟨rfl, rfl, id⟩
  | tail _ hset ih =>
    obtain ⟨key, v, hset⟩ := hset
    obtain ⟨slots, _, rfl⟩ := set_eq_ok hset
    exact ⟨ih.1, (Elements.elemType_scatter _ _ _).trans ih.2.1,
      fun ha => wellFormed_set (ih.2.2 ha) hset⟩

end Tensor

namespace Heap

/-- **Buffers changed by writes only**, and new ones were added. -/
def Written (h h' : Heap) : Prop :=
  ∀ b a, h.buffer? b = some a → ∃ c, h'.buffer? b = some c ∧ a.Rewritten c

/-- **A later heap.** -/
structure Later (h h' : Heap) : Prop where
  /-- Nodes stay as they are, except that deferred ones may have been cached. -/
  states : ∀ id s, h.state? id = some s →
    h'.state? id = some s ∨ ∃ e v, s = .deferred e ∧ h'.state? id = some (.cached v)
  /-- Buffers changed by writes only. -/
  buffers : h.Written h'

theorem Later.refl (h : Heap) : h.Later h :=
  ⟨fun _ _ hs => .inl hs, fun _ a hb => ⟨a, hb, .refl⟩⟩

/-- **What is later than a later heap is later**: what was cached stays so. -/
theorem Later.trans {h₁ h₂ h₃ : Heap} (h : h₁.Later h₂) (h' : h₂.Later h₃) : h₁.Later h₃ where
  states id s hs := by
    rcases h.states id s hs with hs₂ | ⟨e, v, rfl, hs₂⟩
    · exact h'.states id s hs₂
    · rcases h'.states id _ hs₂ with hs₃ | ⟨_, _, hcached, _⟩
      · exact .inr ⟨e, v, rfl, hs₃⟩
      · cases hcached
  buffers b a hb := by
    obtain ⟨c, hc, hac⟩ := h.buffers b a hb
    obtain ⟨d, hd, hcd⟩ := h'.buffers b c hc
    exact ⟨d, hd, hac.trans hcd⟩

/-- No node is ever lost … -/
theorem Later.cells_le {h h' : Heap} (hl : h.Later h') : h.cells.size ≤ h'.cells.size := by
  refine Nat.le_of_not_lt fun hlt => ?_
  obtain ⟨s, hs⟩ := exists_state? hlt
  rcases hl.states _ _ hs with hs | ⟨_, _, _, hs⟩
  · exact Nat.lt_irrefl _ (lt_of_state? hs)
  · exact Nat.lt_irrefl _ (lt_of_state? hs)

/-- … and no buffer. -/
theorem Later.buffers_le {h h' : Heap} (hl : h.Later h') : h.buffers.size ≤ h'.buffers.size := by
  refine Nat.le_of_not_lt fun hlt => ?_
  obtain ⟨a, ha⟩ := exists_buffer? hlt
  obtain ⟨c, hc, _⟩ := hl.buffers _ _ ha
  exact Nat.lt_irrefl _ (lt_of_buffer? hc)

/-- A heap is sound again when every state is an old one or has its references in order. -/
theorem Sound.of_states {h h' : Heap} (hs : h.Sound) (hbuf : h.buffers.size ≤ h'.buffers.size)
    (hstates : ∀ id s, h'.state? id = some s → h.state? id = some s ∨
      (∀ c ∈ s.children, c < id) ∧ ∀ b, s.buffer? = some b → b < h'.buffers.size)
    (hwf : ∀ b a, h'.buffer? b = some a → a.WellFormed) : h'.Sound where
  ordered id s hid := by
    rcases hstates id s hid with hid | ⟨hc, _⟩
    · exact hs.ordered id s hid
    · exact hc
  held id s b hid hb := by
    rcases hstates id s hid with hid | ⟨_, hb'⟩
    · exact Nat.lt_of_lt_of_le (hs.held id s b hid hb) hbuf
    · exact hb' b hb
  wellFormed := hwf

/-- The heap a computation got to: sound, and later than where it started. -/
structure Follows (h h' : Heap) : Prop where
  /-- The heap is sound. -/
  sound : h'.Sound
  /-- The heap is later. -/
  later : h.Later h'

theorem Follows.refl {h : Heap} (hs : h.Sound) : h.Follows h := ⟨hs, .refl h⟩

/-- Heaps that computations get to follow each other. -/
theorem Follows.trans {h₁ h₂ h₃ : Heap} (h : h₁.Follows h₂) (h' : h₂.Follows h₃) :
    h₁.Follows h₃ := ⟨h'.sound, h.later.trans h'.later⟩

/-! ## Updates -/

theorem sound_empty : empty.Sound where
  ordered _ _ hs := by simp [state?, cell?, empty] at hs
  held _ _ _ hs := by simp [state?, cell?, empty] at hs
  wellFormed _ _ hb := by simp [buffer?, empty] at hb

/-- A buffer can be added if the array in it is well-formed. -/
theorem follows_addBuffer {h : Heap} (hs : h.Sound) {a : Tensor} (ha : a.WellFormed) :
    h.Follows (h.addBuffer a).2 where
  sound := by
    refine hs.of_states (by simp [addBuffer]) (fun id s hid => .inl hid) fun b c hb => ?_
    rw [buffer?_addBuffer] at hb
    split at hb
    next => cases hb; exact ha
    next => exact hs.wellFormed b c hb
  later :=
    ⟨fun _ _ hid => .inl hid, fun b c hb =>
      ⟨c, (buffer?_addBuffer_of_lt (lt_of_buffer? hb)).trans hb, .refl⟩⟩

/-- A new node is deferred, and those before it stay as they are. -/
theorem state?_addNode (h : Heap) (e : Expression) (id : NodeId) :
    (h.addNode e).2.state? id = if id = h.cells.size then some (.deferred e) else h.state? id := by
  rw [state?, cell?_addNode]
  split <;> rfl

/-- A node can be added if its expression refers to what there is. -/
theorem follows_addNode {h : Heap} (hs : h.Sound) {e : Expression}
    (hc : ∀ c ∈ e.children, c < h.cells.size) (hb : ∀ b, e.buffer? = some b → b < h.buffers.size) :
    h.Follows (h.addNode e).2 where
  sound := by
    refine hs.of_states (Nat.le_refl _) (fun id s hid => ?_) hs.wellFormed
    rw [state?_addNode] at hid
    split at hid
    next hnew =>
      cases hid
      exact .inr ⟨hnew ▸ hc, hb⟩
    next => exact .inl hid
  later := by
    refine ⟨fun id s hid => .inl ?_, fun b a hb => ⟨a, hb, .refl⟩⟩
    rw [state?_addNode, if_neg (Nat.ne_of_lt (lt_of_state? hid)), hid]

/-- A change of a node that keeps its state keeps all states. -/
theorem state?_modifyCell_of_state {h : Heap} {id : NodeId} {f : Cell → Cell}
    (hf : ∀ c, (f c).state = c.state) (i : NodeId) :
    (h.modifyCell id f).state? i = h.state? i := by
  rw [state?, cell?_modifyCell, state?]
  split
  · cases h.cell? i with
    | none => rfl
    | some c => simp [hf c]
  · rfl

/-- Counting a read changes no state. -/
@[simp] theorem state?_countRead (h : Heap) (id i : NodeId) :
    (h.countRead id).state? i = h.state? i := by
  rw [countRead, state?_modifyCell_of_state]
  exact fun _ => rfl

@[simp] theorem size_cells_countRead (h : Heap) (id : NodeId) :
    (h.countRead id).cells.size = h.cells.size := by
  simp [countRead, modifyCell]

/-- What keeps all states leads to a heap that follows: counting reads and claims does. -/
theorem follows_modifyCell {h : Heap} (hs : h.Sound) {id : NodeId} {f : Cell → Cell}
    (hf : ∀ c, (f c).state = c.state) : h.Follows (h.modifyCell id f) where
  sound := hs.of_states (Nat.le_refl _)
    (fun i _ hi => .inl ((state?_modifyCell_of_state hf i).symm.trans hi)) hs.wellFormed
  later := ⟨fun i _ hi => .inl ((state?_modifyCell_of_state hf i).trans hi),
    fun _ a hb => ⟨a, hb, .refl⟩⟩

theorem follows_countRead {h : Heap} (hs : h.Sound) (id : NodeId) : h.Follows (h.countRead id) :=
  follows_modifyCell hs fun _ => rfl

theorem follows_acquire {h : Heap} (hs : h.Sound) (id : NodeId) : h.Follows (h.acquire id) :=
  follows_modifyCell hs fun _ => rfl

theorem follows_release {h : Heap} (hs : h.Sound) (id : NodeId) : h.Follows (h.release id) :=
  follows_modifyCell hs fun _ => rfl

/-- Caching changes the state of one node, if there is one. -/
theorem state?_cache (h : Heap) (id : NodeId) (v : Value) (i : NodeId) :
    (h.cache id v).state? i =
      if id = i then (h.state? i).map fun _ => .cached v else h.state? i := by
  rw [state?, cache, cell?_modifyCell, state?]
  split
  · cases h.cell? i <;> rfl
  · rfl

/-- A deferred node can be cached if the value lies in the heap. -/
theorem follows_cache {h : Heap} (hs : h.Sound) {id : NodeId} {e : Expression} {v : Value}
    (hid : h.state? id = some (.deferred e)) (hv : ∀ b, v.buffer? = some b → b < h.buffers.size) :
    h.Follows (h.cache id v) where
  sound := by
    refine hs.of_states (Nat.le_refl _) (fun i s hi => ?_) hs.wellFormed
    rw [state?_cache] at hi
    split at hi
    next hne =>
      subst hne
      rw [hid] at hi
      cases hi
      exact .inr ⟨fun c hc => (nomatch hc), hv⟩
    next => exact .inl hi
  later := by
    refine ⟨fun i s hi => ?_, fun b a hb => ⟨a, hb, .refl⟩⟩
    rw [state?_cache]
    split
    next hne =>
      subst hne
      obtain rfl : NodeStatus.deferred e = s := Option.some.inj (hid.symm.trans hi)
      exact .inr ⟨e, v, rfl, by rw [hi]; rfl⟩
    next => exact .inl hi

/-- A buffer can take an array that a write made of the one in it. -/
theorem follows_setBuffer {h : Heap} (hs : h.Sound) {b : BufferId} {a c v : Tensor}
    {key : Selection} (hb : h.buffer? b = some a) (hc : a.set key v = .ok c) :
    h.Follows (h.setBuffer b c) where
  sound := by
    refine hs.of_states (by simp [setBuffer]) (fun id s hid => .inl hid) fun i d hd => ?_
    rw [buffer?_setBuffer] at hd
    split at hd
    next hne =>
      subst hne
      rw [hb] at hd
      cases hd
      exact Tensor.wellFormed_set (hs.wellFormed b a hb) hc
    next => exact hs.wellFormed i d hd
  later := by
    refine ⟨fun _ _ hid => .inl hid, fun i d hd => ?_⟩
    rw [buffer?_setBuffer]
    split
    next hne =>
      subst hne
      obtain rfl : a = d := Option.some.inj (hb.symm.trans hd)
      exact ⟨c, by rw [hd]; rfl, .single ⟨key, v, hc⟩⟩
    next => exact ⟨d, hd, .refl⟩

end Heap

/-! ## Computations -/

/-- An error that does not come from a reference that leads nowhere. -/
def Error.IsProper (e : Error) : Prop := ∀ d, e ≠ .dangling d

theorem Error.isProper_tensor (e : TensorError) : (tensor e).IsProper := fun _ h => by cases h

theorem Error.isProper_graph (e : GraphError) : (graph e).IsProper := fun _ h => by cases h

namespace Eval

/-- **A safe computation**: it leads to a sound and later heap, where its result has a given
property, and it fails with proper errors only. -/
def Safe {α : Type} (m : Eval α) (h : Heap) (Q : α → Heap → Prop) : Prop :=
  match m h with
  | .ok a h' => h.Follows h' ∧ Q a h'
  | .error e h' => h.Follows h' ∧ e.IsProper

variable {α β : Type} {h : Heap}

/-- A sequence whose first part succeeds goes on with its second part. -/
theorem bind_eq_of_ok {m : Eval α} {f : α → Eval β} {a : α} {h' : Heap} (hm : m h = .ok a h') :
    (m >>= f) h = f a h' := by
  simp only [Bind.bind, EStateM.bind, hm]

/-- A sequence whose first part fails ends there. -/
theorem bind_eq_of_error {m : Eval α} {f : α → Eval β} {e : Error} {h' : Heap}
    (hm : m h = .error e h') : (m >>= f) h = .error e h' := by
  simp only [Bind.bind, EStateM.bind, hm]

/-- **A sequence is safe** if its first part is and its second part is from there on. -/
theorem Safe.bind {m : Eval α} {f : α → Eval β} {Q : α → Heap → Prop} {R : β → Heap → Prop}
    (hm : Safe m h Q) (hf : ∀ a h', h.Follows h' → Q a h' → Safe (f a) h' R) :
    Safe (m >>= f) h R := by
  unfold Safe at hm
  split at hm
  next a h' hr =>
    have hnext := hf a h' hm.1 hm.2
    rw [Safe, bind_eq_of_ok hr]
    unfold Safe at hnext
    split at hnext
    next => exact ⟨hm.1.trans hnext.1, hnext.2⟩
    next => exact ⟨hm.1.trans hnext.1, hnext.2⟩
  next e h' hr =>
    rw [Safe, bind_eq_of_error hr]
    exact hm

/-- A safe computation stays so if less is said of its result. -/
theorem Safe.mono {m : Eval α} {Q R : α → Heap → Prop} (hm : Safe m h Q)
    (hqr : ∀ a h', Q a h' → R a h') : Safe m h R := by
  unfold Safe at hm ⊢
  split at hm
  next => exact ⟨hm.1, hqr _ _ hm.2⟩
  next => exact hm

/-- What a safe computation guarantees when it succeeds. -/
theorem Safe.of_ok {m : Eval α} {Q : α → Heap → Prop} {a : α} {h' : Heap} (hm : Safe m h Q)
    (hr : m h = .ok a h') : h.Follows h' ∧ Q a h' := by
  rw [Safe, hr] at hm
  exact hm

theorem safe_pure (hs : h.Sound) {a : α} {Q : α → Heap → Prop} (hq : Q a h) :
    Safe (pure a) h Q := ⟨.refl hs, hq⟩

theorem safe_throw (hs : h.Sound) {e : Error} (he : e.IsProper) {Q : α → Heap → Prop} :
    Safe (throw e) h Q := ⟨.refl hs, he⟩

theorem safe_modify {f : Heap → Heap} {Q : Unit → Heap → Prop} (hf : h.Follows (f h))
    (hq : Q () (f h)) : Safe (modify f) h Q := ⟨hf, hq⟩

/-- An operation on arrays can fail for its own reasons only. -/
theorem safe_lift (hs : h.Sound) {r : Except TensorError α} {Q : α → Heap → Prop}
    (hq : ∀ a, r = .ok a → Q a h) : Safe (lift r) h Q := by
  cases r with
  | ok a => exact safe_pure hs (hq a rfl)
  | error e => exact safe_throw hs (Error.isProper_tensor e)

theorem get_eq : (get : Eval Heap) h = .ok h h := rfl

/-- Nodes and buffers that are there are found … -/
theorem state_eq {id : NodeId} {s : NodeStatus} (hs : h.state? id = some s) :
    state id h = .ok s h := by
  rw [state, bind_eq_of_ok get_eq, hs]
  rfl

theorem buffer_eq {b : BufferId} {a : Tensor} (hb : h.buffer? b = some a) :
    buffer b h = .ok a h := by
  rw [buffer, bind_eq_of_ok get_eq, hb]
  rfl

/-- … and a reference that leads nowhere is an error. -/
theorem state_eq_none {id : NodeId} (hs : h.state? id = none) :
    state id h = .error (.dangling (.node id)) h := by
  rw [state, bind_eq_of_ok get_eq, hs]
  rfl

theorem buffer_eq_none {b : BufferId} (hb : h.buffer? b = none) :
    buffer b h = .error (.dangling (.buffer b)) h := by
  rw [buffer, bind_eq_of_ok get_eq, hb]
  rfl

/-- So in a sound heap no lookup of a node fails … -/
theorem safe_state (hs : h.Sound) {id : NodeId} (hid : id < h.cells.size) :
    Safe (state id) h fun s h' => h' = h ∧ h.state? id = some s := by
  obtain ⟨s, hst⟩ := Heap.exists_state? hid
  rw [Safe, state_eq hst]
  exact ⟨.refl hs, rfl, hst⟩

/-- … and none of a buffer. -/
theorem safe_buffer (hs : h.Sound) {b : BufferId} (hb : b < h.buffers.size) :
    Safe (buffer b) h fun a h' => h' = h ∧ h.buffer? b = some a := by
  obtain ⟨a, ha⟩ := Heap.exists_buffer? hb
  rw [Safe, buffer_eq ha]
  exact ⟨.refl hs, rfl, ha⟩

/-- A value whose array, if it is one, lies in a buffer that exists. -/
def InHeap (v : Value) (h : Heap) : Prop := ∀ b, v.buffer? = some b → b < h.buffers.size

/-- A value that lies in a heap lies in those that follow. -/
theorem InHeap.mono {v : Value} {h h' : Heap} (hv : InHeap v h) (hl : h.Follows h') :
    InHeap v h' := fun b hb => Nat.lt_of_lt_of_le (hv b hb) hl.later.buffers_le

/-- The array of a value that lies in the heap is there, and well-formed. -/
theorem safe_view (hs : h.Sound) {v : Value} (hv : InHeap v h) :
    Safe (view v) h fun a h' => h' = h ∧ a.WellFormed := by
  cases v with
  | array b =>
    have hb := safe_buffer hs (hv b rfl)
    unfold Safe at hb ⊢
    rw [view]
    split at hb
    next => exact ⟨hb.1, hb.2.1, hs.wellFormed b _ hb.2.2⟩
    next => exact hb
  | scalar s => exact safe_pure hs ⟨rfl, Tensor.wellFormed_ofScalar s⟩

/-- Two heaps have the same nodes from some node on. -/
def SameFrom (n : NodeId) (h h' : Heap) : Prop := ∀ i, n ≤ i → h'.state? i = h.state? i

theorem SameFrom.trans {n : NodeId} {h₁ h₂ h₃ : Heap} (h : SameFrom n h₁ h₂)
    (h' : SameFrom n h₂ h₃) : SameFrom n h₁ h₃ := fun i hi => (h' i hi).trans (h i hi)

/-- What changes no node from one on changes none from a later one on. -/
theorem SameFrom.mono {m n : NodeId} {h h' : Heap} (hsame : SameFrom m h h') (hmn : m ≤ n) :
    SameFrom n h h' := fun i hi => hsame i (Nat.le_trans hmn hi)

/-- What is known of a value that was computed: it lies in the heap, and no node from `n` on was
changed. -/
def Computed (n : NodeId) (h : Heap) (v : Value) (h' : Heap) : Prop :=
  InHeap v h' ∧ SameFrom n h h'

/-- An array of rank zero is stored as its element … -/
theorem store_scalar {a : Tensor} {s : Scalar} (hs : a.toScalar? = some s) :
    store a h = .ok (.scalar s) h := by
  rw [store, hs]
  rfl

/-- … and any other one in a buffer of its own. -/
theorem store_array {a : Tensor} (hs : a.toScalar? = none) :
    store a h = .ok (.array h.buffers.size) (h.addBuffer a).2 := by
  rw [store, hs]
  exact bind_eq_of_ok get_eq

/-- **Storing an array is safe**, and what it gives lies in the heap. -/
theorem safe_store (hs : h.Sound) (n : NodeId) {a : Tensor} (ha : a.WellFormed) :
    Safe (store a) h (Computed n h) := by
  cases hscalar : a.toScalar? with
  | some s =>
    rw [Safe, store_scalar hscalar]
    exact ⟨.refl hs, fun b hb => (nomatch hb), fun _ _ => rfl⟩
  | none =>
    rw [Safe, store_array hscalar]
    refine ⟨Heap.follows_addBuffer hs ha, ?_, fun _ _ => rfl⟩
    rintro b ⟨⟩
    simp [Heap.addBuffer]

/-- Taking a value as a key can fail, but changes nothing. -/
theorem safe_key (hs : h.Sound) {v : Value} (hv : InHeap v h) :
    Safe (key v) h fun _ h' => h' = h := by
  refine (safe_view hs hv).bind fun a h' hf hq => ?_
  obtain ⟨rfl, _⟩ := hq
  exact safe_lift hs fun _ _ => rfl

theorem safe_countRead (hs : h.Sound) (id : NodeId) :
    Safe (countRead id) h fun _ h' => h' = h.countRead id :=
  safe_modify (Heap.follows_countRead hs id) rfl

/-- An assignment needs an array to write to; having none is a proper error. -/
theorem safe_target (hs : h.Sound) (base : NodeId) {v : Value} (hv : InHeap v h) :
    Safe (target base v) h fun b h' => h' = h ∧ v = .array b := by
  cases v with
  | array b => exact safe_pure hs ⟨rfl, rfl⟩
  | scalar s => exact safe_throw hs (Error.isProper_graph _)

/-- **A write is safe**, and changes no node. -/
theorem safe_write (hs : h.Sound) (n : NodeId) {b : BufferId} (hb : b < h.buffers.size)
    (k : Selection) (a : Tensor) : Safe (write b k a) h fun _ h' => SameFrom n h h' := by
  refine (safe_buffer hs hb).bind fun t h₁ _ ht => ?_
  obtain ⟨rfl, ht⟩ := ht
  refine (safe_lift (Q := fun c h' => h' = h₁ ∧ t.set k a = .ok c) hs fun c hc =>
    ⟨rfl, hc⟩).bind fun c h₂ _ hc => ?_
  obtain ⟨rfl, hc⟩ := hc
  exact safe_modify (Heap.follows_setBuffer hs ht hc) fun _ _ => rfl

/-! ## Visits -/

section Visits

variable {n : NodeId} {visit : Demand → NodeId → Eval Value}

/-- A way to visit nodes is safe below `n`. -/
def SafeBelow (n : NodeId) (visit : Demand → NodeId → Eval Value) : Prop :=
  ∀ demand id h, h.Sound → id < n → n ≤ h.cells.size → Safe (visit demand id) h (Computed n h)

/-- The key of an assignment is safe to evaluate if the node of the key is. -/
theorem safe_assignKey (hv : SafeBelow n visit) (hs : h.Sound) (hn : n ≤ h.cells.size)
    {k : AssignKey} (hk : ∀ c ∈ k.children, c < n) :
    Safe (k.evaluate (visit .read)) h fun _ h' => SameFrom n h h' := by
  cases k with
  | position i => exact safe_pure hs fun _ _ => rfl
  | node id =>
    refine (hv .read id h hs (hk id (List.mem_singleton.mpr rfl)) hn).bind fun v h₁ hf hq => ?_
    refine (safe_key hf.sound hq.1).mono fun _ h₂ h₂eq => ?_
    rw [h₂eq]
    exact hq.2

/-- **The evaluation of an expression is safe** if that of the nodes below it is. -/
theorem safe_evaluate (hv : SafeBelow n visit) (hs : h.Sound) (hn : n ≤ h.cells.size)
    {e : Expression} (hc : ∀ c ∈ e.children, c < n)
    (hb : ∀ b, e.buffer? = some b → b < h.buffers.size) :
    Safe (e.evaluate visit) h (Computed n h) := by
  cases e with
  | data b => exact safe_pure hs ⟨fun b' hb' => hb b' hb', fun _ _ => rfl⟩
  | scalar s => exact safe_pure hs ⟨fun b' hb' => (nomatch hb'), fun _ _ => rfl⟩
  | unary op x =>
    refine (hv .read x h hs (hc x (by simp [Expression.children])) hn).bind fun v h₁ hf₁ hv₁ => ?_
    refine (safe_view hf₁.sound hv₁.1).bind fun a h₂ hf₂ ha => ?_
    obtain ⟨rfl, ha⟩ := ha
    refine (safe_lift (Q := fun c h' => h' = h₂ ∧ c.WellFormed) hf₁.sound fun c hc =>
      ⟨rfl, Tensor.wellFormed_unary ha hc⟩).bind fun c h₃ _ hc => ?_
    obtain ⟨rfl, hc⟩ := hc
    exact (safe_store hf₁.sound n hc).mono fun _ _ hq => ⟨hq.1, hv₁.2.trans hq.2⟩
  | binary op x y =>
    refine (hv .read x h hs (hc x (by simp [Expression.children])) hn).bind fun v h₁ hf₁ hv₁ => ?_
    refine (hv .read y h₁ hf₁.sound (hc y (by simp [Expression.children]))
      (Nat.le_trans hn hf₁.later.cells_le)).bind fun w h₂ hf₂ hw₂ => ?_
    refine (safe_view hf₂.sound (hv₁.1.mono hf₂)).bind fun a h₃ _ ha => ?_
    obtain ⟨rfl, ha⟩ := ha
    refine (safe_view hf₂.sound hw₂.1).bind fun b h₄ _ hb => ?_
    obtain ⟨rfl, hb⟩ := hb
    refine (safe_lift (Q := fun c h' => h' = h₄ ∧ c.WellFormed) hf₂.sound fun c hc =>
      ⟨rfl, Tensor.wellFormed_binary ha hb hc⟩).bind fun c h₅ _ hc => ?_
    obtain ⟨rfl, hc⟩ := hc
    exact (safe_store hf₂.sound n hc).mono fun _ _ hq =>
      ⟨hq.1, (hv₁.2.trans hw₂.2).trans hq.2⟩
  | assign base k value =>
    have hbase : base < n := hc base (by simp [Expression.children])
    have hkey : ∀ c ∈ k.children, c < n := fun c hck =>
      hc c (by simp [Expression.children, hck])
    have hvalue : value < n := hc value (by simp [Expression.children])
    refine (hv .force base h hs hbase hn).bind fun v h₁ hf₁ hv₁ => ?_
    refine (safe_target hf₁.sound base hv₁.1).bind fun b h₂ _ hb => ?_
    obtain ⟨rfl, rfl⟩ := hb
    have hn₂ := Nat.le_trans hn hf₁.later.cells_le
    refine (safe_assignKey hv hf₁.sound hn₂ hkey).bind fun key h₃ hf₃ hsame₃ => ?_
    refine (hv .read value h₃ hf₃.sound hvalue
      (Nat.le_trans hn₂ hf₃.later.cells_le)).bind fun w h₄ hf₄ hw₄ => ?_
    refine (safe_view hf₄.sound hw₄.1).bind fun a h₅ _ ha => ?_
    obtain ⟨rfl, ha⟩ := ha
    have hv₅ := (hv₁.1.mono hf₃).mono hf₄
    refine (safe_write hf₄.sound n (hv₅ b rfl) key a).bind fun _ h₆ hf₆ hsame₆ => ?_
    exact safe_pure hf₆.sound
      ⟨hv₅.mono hf₆, ((hv₁.2.trans hsame₃).trans hw₄.2).trans hsame₆⟩

end Visits

/-- **A visit is safe**, by induction on the depth, and changes no node behind the one it visits. -/
theorem safe_visit {depth : Nat} {demand : Demand} {id : NodeId} (hs : h.Sound)
    (hid : id < h.cells.size) (hd : id < depth) :
    Safe (visit depth demand id) h (Computed (id + 1) h) := by
  induction depth generalizing demand id h with
  | zero => exact absurd hd (Nat.not_lt_zero id)
  | succ depth ih =>
    refine (safe_state hs hid).bind fun s h₁ _ hst => ?_
    obtain ⟨rfl, hst⟩ := hst
    cases s with
    | cached v =>
      have hv : InHeap v h₁ := fun b hb => hs.held id _ b hst hb
      cases demand with
      | force => exact safe_pure hs ⟨hv, fun _ _ => rfl⟩
      | read =>
        refine (safe_countRead hs id).bind fun _ h₂ hf₂ h₂eq => ?_
        subst h₂eq
        exact safe_pure hf₂.sound
          ⟨hv.mono hf₂, fun i _ => Heap.state?_countRead h₁ id i⟩
    | deferred e =>
      refine (safe_countRead hs id).bind fun _ h₂ hf₂ h₂eq => ?_
      subst h₂eq
      have hn : id ≤ (h₁.countRead id).cells.size := by
        rw [Heap.size_cells_countRead]
        exact Nat.le_of_lt hid
      have hbelow : SafeBelow id (visit depth) := fun demand c h' hs' hc hn =>
        (ih hs' (Nat.lt_of_lt_of_le hc hn) (Nat.lt_of_lt_of_le hc (Nat.le_of_lt_succ hd))).mono
          fun _ _ hq => ⟨hq.1, hq.2.mono hc⟩
      refine (safe_evaluate hbelow hf₂.sound hn (hs.ordered id _ hst)
        (hs.held id _ · hst)).bind fun v h₃ hf₃ hq => ?_
      have hsame : SameFrom id h₁ h₃ := SameFrom.trans
        (fun i _ => Heap.state?_countRead h₁ id i) hq.2
      cases demand with
      | read => exact safe_pure hf₃.sound ⟨hq.1, hsame.mono (Nat.le_succ id)⟩
      | force =>
        have hdeferred := (hsame id (Nat.le_refl id)).trans hst
        refine (safe_modify (Q := fun _ h' => h' = h₃.cache id v)
          (Heap.follows_cache hf₃.sound hdeferred hq.1) rfl).bind fun _ h₄ hf₄ h₄eq => ?_
        subst h₄eq
        refine safe_pure hf₄.sound ⟨hq.1.mono hf₄, fun i hi => ?_⟩
        rw [Heap.state?_cache, if_neg (Nat.ne_of_lt hi)]
        exact hsame i (Nat.le_of_succ_le hi)

/-- Visits that are deep enough are safe for all nodes below. -/
theorem safeBelow_visit {n depth : Nat} (hn : n ≤ depth) : SafeBelow n (visit depth) :=
  fun _ _ _ hs hid hsize =>
    (safe_visit hs (Nat.lt_of_lt_of_le hid hsize) (Nat.lt_of_lt_of_le hid hn)).mono
      fun _ _ hq => ⟨hq.1, hq.2.mono hid⟩

end Eval

end DeferredArrays
