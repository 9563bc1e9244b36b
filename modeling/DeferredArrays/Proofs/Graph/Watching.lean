import DeferredArrays.Proofs.Graph.Pure
import DeferredArrays.Proofs.Graph.Trace

/-!
# Proofs/Graph/Watching — which writes an evaluation makes, and in which heap

The log of an evaluation tells what was written, but not what the nodes held at that moment
(`Logged`).  A **watched** computation comes with the writes it makes, each with the heap it is made
in.  Here too evaluation is instrumented and not replaced (`Watched.run_visit`).

A property of heaps that buffers and writes cannot break is preserved by whole computations, as
long as every write is of the kind that cannot break it (`Watched.Preserves`,
`Watched.preserves_evaluate`).  Caching is left out here: whether a node may be cached depends on
the property.
-/

namespace DeferredArrays

open Heap Eval

/-! ## Computations that only add -/

namespace Eval

variable {α β : Type}

/-- A computation that adds buffers at most. -/
def Adds (m : Eval α) : Prop := ∀ h : Heap, h.Extends (after m h)

/-- What leaves the heap alone adds nothing … -/
theorem adds_idle {m : Eval α} (hm : Idle m) : Adds m := fun h => (hm h).symm ▸ .refl h

/-- … and a sequence adds what its parts add. -/
theorem Adds.bind {m : Eval α} {f : α → Eval β} (hm : Adds m) (hf : ∀ a, Adds (f a)) :
    Adds (m >>= f) := by
  intro h
  have hfirst := hm h
  cases hr : m h with
  | ok a h' =>
    rw [after_of_ok hr] at hfirst
    rw [after, bind_eq_of_ok hr]
    exact hfirst.trans (hf a h')
  | error e h' =>
    rw [after_of_error hr] at hfirst
    rw [after_of_error (bind_eq_of_error hr)]
    exact hfirst

/-- Storing an array adds at most a buffer. -/
theorem adds_store (a : Tensor) : Adds (store a) := by
  intro h
  cases hs : a.toScalar? with
  | some s => rw [after_of_ok (store_scalar hs)]; exact .refl h
  | none => rw [after_of_ok (store_array hs)]; exact extends_addBuffer h a

/-- The outcome of an operator, stored. -/
theorem adds_stored (r : Except TensorError Tensor) : Adds (do store (← lift r)) :=
  (adds_idle (idle_lift r)).bind adds_store

end Eval

/-! ## Watched computations -/

/-- **A write to a buffer**, with the heap it is made in. -/
structure Write where
  /-- The heap just before. -/
  heap : Heap
  /-- The buffer. -/
  buffer : BufferId

/-- A computation and the writes it makes. -/
structure Watched (α : Type) where
  /-- The computation. -/
  run : Eval α
  /-- The writes, given the heap it starts from. -/
  writes : Heap → List Write

namespace Watched

variable {α β : Type}

instance : Monad Watched where
  pure a := ⟨pure a, fun _ => []⟩
  bind m f := ⟨m.run >>= fun a => (f a).run, fun h => m.writes h ++
    match m.run h with
    | .ok a h' => (f a).writes h'
    | .error _ _ => []⟩

/-- A computation that makes no writes. -/
def plain (m : Eval α) : Watched α := ⟨m, fun _ => []⟩

/-- A write, unless it fails. -/
def write (b : BufferId) (k : Selection) (a : Tensor) : Watched Unit :=
  ⟨Eval.write b k a, fun h =>
    match Eval.write b k a h with
    | .ok _ _ => [⟨h, b⟩]
    | .error _ _ => []⟩

/-- The key of an assignment. -/
def key (read : NodeId → Watched Value) : AssignKey → Watched Selection
  | .position i => pure (.position i)
  | .node id => do plain (Eval.key (← read id))

/-- The value of an expression. -/
def evaluate (visit : Demand → NodeId → Watched Value) : Expression → Watched Value
  | .data b => pure (.array b)
  | .scalar s => pure (.scalar s)
  | .unary op x => do
    let x ← visit .read x
    plain (do store (← lift ((← view x).unary op)))
  | .binary op x y => do
    let x ← visit .read x
    let y ← visit .read y
    plain (do
      let a ← view x
      let b ← view y
      store (← lift (a.binary op b)))
  | .assign base k value => do
    let b ← plain (target base (← visit .force base))
    let k ← key (visit .read) k
    let a ← plain (view (← visit .read value))
    write b k a
    pure (.array b)

/-- **A visit of a node**, watched. -/
def visit : Nat → Demand → NodeId → Watched Value
  | 0, _, id => plain (throw (.dangling (.node id)))
  | depth + 1, demand, id => do
    match ← plain (state id) with
    | .cached v =>
      match demand with
      | .force => pure v
      | .read => do
        plain (countRead id)
        pure v
    | .deferred e => do
      plain (countRead id)
      let v ← evaluate (visit depth) e
      match demand with
      | .force => do
        plain (modify (·.cache id v))
        pure v
      | .read => pure v

/-! ## The computation is evaluation -/

/-- The computation of a sequence is the sequence of the computations. -/
theorem run_bind (m : Watched α) (f : α → Watched β) :
    (m >>= f).run = m.run >>= fun a => (f a).run := rfl

/-- Watched evaluation of an expression is evaluation, if that of the operands is. -/
theorem run_evaluate (visit : Demand → NodeId → Watched Value) (e : Expression) :
    (evaluate visit e).run = e.evaluate fun demand id => (visit demand id).run := by
  cases e with
  | data b => rfl
  | scalar s => rfl
  | unary op x => rfl
  | binary op x y => rfl
  | assign base k value => cases k <;> rfl

/-- **Watched evaluation is evaluation.** -/
theorem run_visit (depth : Nat) (demand : Demand) (id : NodeId) :
    (visit depth demand id).run = DeferredArrays.visit depth demand id := by
  induction depth generalizing demand id with
  | zero => rfl
  | succ depth ih =>
    have hvisit : (fun demand id => (visit depth demand id).run) = DeferredArrays.visit depth :=
      funext fun demand => funext fun id => ih demand id
    rw [visit, run_bind, DeferredArrays.visit]
    refine bind_congr fun s => ?_
    cases s with
    | cached v => cases demand <;> rfl
    | deferred e =>
      dsimp only
      rw [← hvisit, ← run_evaluate (visit depth) e]
      cases demand <;> rfl

/-! ## Preserved properties -/

/-- **A property of heaps that buffers cannot break**: not new ones, and not writes of some kind to
those that exist. -/
structure Stable (I : Heap → Prop) (P : Write → Prop) : Prop where
  /-- It is kept when buffers are added. -/
  adding : ∀ h h', I h → h.Extends h' → I h'
  /-- It is kept when a buffer is written to. -/
  writing : ∀ h b a, I h → P ⟨h, b⟩ → I (h.setBuffer b a)

/-- **A computation preserves a property**, if all of its writes are of some kind. -/
def Preserves (I : Heap → Prop) (P : Write → Prop) (m : Watched α) (h : Heap) : Prop :=
  I h → (∀ w ∈ m.writes h, P w) → I (after m.run h)

variable {I : Heap → Prop} {P : Write → Prop} {h : Heap}

theorem preserves_pure (a : α) : Preserves I P (pure a : Watched α) h := fun hi _ => hi

/-- **A sequence preserves what its parts preserve.** -/
theorem Preserves.bind {m : Watched α} {f : α → Watched β} (hm : Preserves I P m h)
    (hf : ∀ a h', m.run h = .ok a h' → Preserves I P (f a) h') : Preserves I P (m >>= f) h := by
  intro hi hw
  have hfirst := hm hi fun w hwm => hw w (List.mem_append_left _ hwm)
  rw [run_bind]
  cases hr : m.run h with
  | ok a h' =>
    rw [after_of_ok hr] at hfirst
    rw [after, bind_eq_of_ok hr]
    refine hf a h' hr hfirst fun w hwf => hw w (List.mem_append_right _ ?_)
    rw [hr]
    exact hwf
  | error e h' =>
    rw [after_of_error hr] at hfirst
    rw [after_of_error (bind_eq_of_error hr)]
    exact hfirst

/-- What only adds preserves a stable property. -/
theorem Stable.preserves_plain (hs : Stable I P) {m : Eval α} (hm : Adds m) :
    Preserves I P (plain m) h := fun hi _ => hs.adding _ _ hi (hm h)

/-- A write preserves it, as it is said to. -/
theorem Stable.preserves_write (hs : Stable I P) (b : BufferId) (k : Selection) (a : Tensor) :
    Preserves I P (write b k a) h := by
  intro hi hw
  show I (after (Eval.write b k a) h)
  cases hb : h.buffer? b with
  | none => rwa [after_of_error (Logged.write_eq_dangling hb)]
  | some t =>
    cases hc : t.set k a with
    | error e => rwa [after_of_error (Logged.write_eq_error hb hc)]
    | ok c =>
      have hr := Logged.write_eq hb hc
      rw [after_of_ok hr]
      refine hs.writing h b c hi (hw ⟨h, b⟩ ?_)
      simp only [write, hr, List.mem_singleton]

section Evaluation

variable {n : NodeId} {visit : Demand → NodeId → Watched Value}

/-- The key of an assignment preserves it if the visit of the node of the key does. -/
theorem Stable.preserves_key (hs : Stable I P)
    (hv : ∀ demand id h, id < n → Preserves I P (visit demand id) h) {k : AssignKey}
    (hk : ∀ c ∈ k.children, c < n) : Preserves I P (key (visit .read) k) h := by
  cases k with
  | position i => exact preserves_pure _
  | node id =>
    exact (hv .read id h (hk id (List.mem_singleton.mpr rfl))).bind fun v _ _ =>
      hs.preserves_plain (adds_idle (idle_key v))

/-- **The evaluation of an expression preserves a stable property** if visits of the nodes below
preserve it. -/
theorem Stable.preserves_evaluate (hs : Stable I P)
    (hv : ∀ demand id h, id < n → Preserves I P (visit demand id) h) {e : Expression}
    (hc : ∀ c ∈ e.children, c < n) : Preserves I P (evaluate visit e) h := by
  cases e with
  | data b => exact preserves_pure _
  | scalar s => exact preserves_pure _
  | unary op x =>
    refine (hv .read x h (hc x (by simp [Expression.children]))).bind fun v _ _ => ?_
    exact hs.preserves_plain ((adds_idle (idle_view v)).bind fun a => adds_stored _)
  | binary op x y =>
    refine (hv .read x h (hc x (by simp [Expression.children]))).bind fun v h₁ _ => ?_
    refine (hv .read y h₁ (hc y (by simp [Expression.children]))).bind fun w _ _ => ?_
    refine hs.preserves_plain ((adds_idle (idle_view v)).bind fun a => ?_)
    exact (adds_idle (idle_view w)).bind fun b => adds_stored _
  | assign base k value =>
    have hkey : ∀ c ∈ k.children, c < n := fun c hck => hc c (by simp [Expression.children, hck])
    refine (hv .force base h (hc base (by simp [Expression.children]))).bind fun v h₁ _ => ?_
    refine (hs.preserves_plain (adds_idle (idle_target base v))).bind fun b h₂ _ => ?_
    refine (hs.preserves_key hv hkey).bind fun key h₃ _ => ?_
    refine (hv .read value h₃ (hc value (by simp [Expression.children]))).bind fun w h₄ _ => ?_
    refine (hs.preserves_plain (adds_idle (idle_view w))).bind fun a h₅ _ => ?_
    exact (hs.preserves_write b key a).bind fun _ h₆ _ => preserves_pure _

end Evaluation

end Watched

end DeferredArrays
