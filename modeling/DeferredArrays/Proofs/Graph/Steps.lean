import DeferredArrays.Proofs.Graph.Effects
import DeferredArrays.Proofs.Graph.History

/-!
# Proofs/Graph/Steps — operations, one step after the other

An operation may visit many nodes, write to many buffers and then fail.  Here it is taken apart into
**steps** (`Operation.Step`): a buffer or a node is made, a handle taken or dropped, a buffer written
to, a visit has an effect, or an expression that no node holds comes to its value.  Every operation
is a sequence of such steps, whatever it comes to (`Operation.steps_perform`).  So what is true of a
history because of the way it came about is proved for one step at a time, the same for an
evaluation that succeeds, for one that fails half-way, and for everything else that is done.
-/

namespace DeferredArrays

open Relation Eval

namespace Heap

@[simp] theorem state?_acquire (h : Heap) (id i : NodeId) :
    (h.acquire id).state? i = h.state? i := by
  rw [acquire, state?_modifyCell_of_state]
  exact fun _ => rfl

@[simp] theorem state?_release (h : Heap) (id i : NodeId) :
    (h.release id).state? i = h.state? i := by
  rw [release, state?_modifyCell_of_state]
  exact fun _ => rfl

end Heap

namespace Operation

/-- **The visits that an operation makes.** -/
def Makes (h : Heap) : Operation → Visit → Prop
  | force id => (⟨id + 1, .force, id, h⟩ : Visit).Makes
  | read id => (⟨id + 1, .read, id, h⟩ : Visit).Makes
  | evaluate e => fun y => ∃ x, e.Calls h.cells.size h x ∧ x.Makes y
  | _ => fun _ => False

/-- **A step of an operation** that was begun in the heap `h`. -/
inductive Step (h : Heap) : Operation → History → History → Prop
  /-- A buffer is made. -/
  | allocate {s : History} {a : Tensor} (ha : a.WellFormed) : Step h (.allocate a) s
    { s with heap := (s.heap.addBuffer a).2, log := s.log ++ [.allocate a] }
  /-- A node is made. -/
  | build {s : History} {e : Expression} (he : s.heap.Admits e) : Step h (.build e) s
    { s with heap := (s.heap.addNode e).2, made := s.made ++ [e] }
  | acquire {s : History} {id : NodeId} :
    Step h (.acquire id) s { s with heap := s.heap.acquire id }
  | release {s : History} {id : NodeId} :
    Step h (.release id) s { s with heap := s.heap.release id }
  /-- A buffer is written to, on behalf of no node. -/
  | write {s : History} {b : BufferId} {key : Selection} {t a c : Tensor}
    (ht : s.heap.buffer? b = some t) (hc : t.set key a = .ok c) : Step h (.write b key a) s
    { s with heap := s.heap.setBuffer b c, log := s.log ++ [.write none b c] }
  /-- One of the visits has an effect. -/
  | effect {s : History} {op : Operation} {log : List Event} {h' : Heap}
    (he : Effect (op.Makes h) s.heap log h') :
    Step h op s { s with heap := h', log := s.log ++ log }
  /-- The expression that is evaluated comes to its value. -/
  | delivery {s : History} {e : Expression} {v : Value} {log : List Event} {h' : Heap}
    (hd : e.Delivers none s.heap v log h') :
    Step h (.evaluate e) s { s with heap := h', log := s.log ++ log }

/-- **Steps in sequence.** -/
abbrev Steps (h : Heap) (op : Operation) : History → History → Prop := ReflTransGen (op.Step h)

variable {s : History} {op : Operation}

theorem steps_effects {h h' : Heap} {log : List Event}
    (he : Effects (op.Makes h) s.heap log h') :
    op.Steps h s { s with heap := h', log := s.log ++ log } := by
  induction he with
  | refl => rw [List.append_nil]
  | @tail log log' h₁ h₂ _ hlast ih =>
    rw [← List.append_assoc]
    exact ih.tail (Step.effect (s := { s with heap := h₁, log := s.log ++ log }) hlast)

/-- A visit of a node consists of steps of the operation that makes it. -/
theorem steps_visit (hs : s.heap.Sound) {id : NodeId} (hid : id < s.heap.cells.size)
    {demand : Demand} (hop : op.Makes s.heap = (⟨id + 1, demand, id, s.heap⟩ : Visit).Makes) :
    op.Steps s.heap s
      (s.carryOut (visit (id + 1) demand id) (Logged.visit (id + 1) demand id).log) := by
  have heffects := Logged.isEffects_visit (id + 1) demand id hs hid (Nat.lt_succ_self id)
  unfold Logged.IsEffects at heffects
  rw [← hop, Logged.run_visit] at heffects
  exact steps_effects heffects

/-- The visits that are made for an expression come first, and then its value. -/
theorem steps_evaluate (hs : s.heap.Sound) {e : Expression} (he : s.heap.Admits e) :
    (evaluate e).Steps s.heap s (s.carryOut (Eval.evaluate e)
      (Logged.evaluate none (Logged.visit s.heap.cells.size) e).log) := by
  have hbelow : Logged.EffectsBelow s.heap.cells.size s.heap.cells.size :=
    fun demand id h hs' hid hn =>
      Logged.isEffects_visit _ demand id hs' (Nat.lt_of_lt_of_le hid hn) hid
  have hends := Logged.ends_evaluate (P := (evaluate e).Makes s.heap)
    (safeBelow_visit (Nat.le_refl _)) hbelow hs (Nat.le_refl _) he.1
    (fun y z hy hz => ⟨y, hy, hz⟩) none
  rw [History.carryOut_evaluate, History.carryOut]
  unfold Logged.Ends at hends
  cases hr : (Logged.evaluate none (Logged.visit s.heap.cells.size) e).run s.heap with
  | ok v h' =>
    rw [hr] at hends
    obtain ⟨log, h₁, last, hlog, heffects, hdelivers⟩ := hends
    rw [after_of_ok hr, hlog, ← List.append_assoc]
    exact (steps_effects heffects).tail
      (Step.delivery (s := { s with heap := h₁, log := s.log ++ log }) hdelivers)
  | error e h' =>
    rw [hr] at hends
    rw [after_of_error hr]
    exact steps_effects hends

/-- A write is one step, or none if it fails. -/
theorem steps_write (b : BufferId) (key : Selection) (a : Tensor) :
    (write b key a).Steps s.heap s
      (s.carryOut (Eval.write b key a) (Logged.write none b key a).log) := by
  have hnone : s = { s with heap := s.heap, log := s.log ++ [] } := by rw [List.append_nil]
  rw [History.carryOut]
  cases ht : s.heap.buffer? b with
  | none =>
    rw [after_of_error (Logged.write_eq_dangling ht)]
    simp only [Logged.write, ht]
    rw [← hnone]
  | some t =>
    cases hc : t.set key a with
    | error e =>
      rw [after_of_error (Logged.write_eq_error ht hc)]
      simp only [Logged.write, ht, hc]
      rw [← hnone]
    | ok c =>
      rw [after_of_ok (Logged.write_eq ht hc)]
      simp only [Logged.write, ht, hc]
      exact .single (.write ht hc)

/-- **Every operation is a sequence of steps**, whether it succeeds or fails. -/
theorem steps_perform (hs : s.heap.Sound) (op : Operation) :
    op.Steps s.heap s (op.perform s) := by
  unfold perform
  split
  next hop =>
    cases op with
    | allocate a => exact .single (.allocate hop)
    | build e => exact .single (.build hop)
    | acquire id => exact .single .acquire
    | release id => exact .single .release
    | write b key a => exact steps_write b key a
    | force id => exact steps_visit hs hop rfl
    | read id => exact steps_visit hs hop rfl
    | evaluate e => exact steps_evaluate hs hop
  next => exact .refl

end Operation

end DeferredArrays
