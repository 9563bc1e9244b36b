import DeferredArrays.Proofs.Graph.Soundness

/-!
# Proofs/Graph/Trace — what an evaluation does, event by event

An evaluation is known by the heap it leads to, which does not tell how often a buffer was written
to on the way.  A **logged** computation comes with the events it causes, for every heap it may
start from.  Logged evaluation is evaluation itself, instrumented and not replaced
(`Logged.run_visit`), and its log leaves nothing out: the events, replayed on the buffers, give the
buffers it leads to (`Logged.Explains`, `Logged.accounts_visit`).
-/

namespace DeferredArrays

/-! ## Events -/

/-- **Something that happens while nodes are evaluated.** -/
inductive Event where
  /-- A buffer was added. -/
  | allocate (a : Tensor)
  /-- A buffer was written to — for an assignment node, or for none — and holds an array since. -/
  | write (node : Option NodeId) (b : BufferId) (a : Tensor)
  /-- A deferred node was read to the end, and stayed deferred. -/
  | read (id : NodeId)
  deriving DecidableEq

namespace Event

/-- The buffers after an event. -/
def apply (buffers : Array Tensor) : Event → Array Tensor
  | allocate a => buffers.push a
  | write _ b a => buffers.setIfInBounds b a
  | read _ => buffers

/-- Whether an event is a write for a node. -/
def isWriteOf (n : NodeId) : Event → Bool
  | write (some m) _ _ => m == n
  | _ => false

/-- **The buffers after a list of events.** -/
def replay (buffers : Array Tensor) (log : List Event) : Array Tensor := log.foldl apply buffers

/-- How often a node was written for: **how often an assignment was applied**. -/
def writesOf (n : NodeId) (log : List Event) : Nat := log.countP (isWriteOf n)

/-- How often a node was read to the end while it was deferred. -/
def readingsOf (n : NodeId) (log : List Event) : Nat := log.count (read n)

@[simp] theorem replay_nil (buffers : Array Tensor) : replay buffers [] = buffers := rfl

/-- Events are replayed one after the other. -/
@[simp] theorem replay_append (buffers : Array Tensor) (log log' : List Event) :
    replay buffers (log ++ log') = replay (replay buffers log) log' := List.foldl_append

@[simp] theorem writesOf_nil (n : NodeId) : writesOf n [] = 0 := rfl
@[simp] theorem readingsOf_nil (n : NodeId) : readingsOf n [] = 0 := rfl

/-- Writes for a node are those of the parts of a log … -/
@[simp] theorem writesOf_append (n : NodeId) (log log' : List Event) :
    writesOf n (log ++ log') = writesOf n log + writesOf n log' := List.countP_append

/-- … and so are the readings. -/
@[simp] theorem readingsOf_append (n : NodeId) (log log' : List Event) :
    readingsOf n (log ++ log') = readingsOf n log + readingsOf n log' := List.count_append

end Event

/-! ## The heap after a computation -/

namespace Eval

variable {α β : Type} {h h' : Heap}

/-- **The heap a computation leads to**, whether it succeeds or fails. -/
def after (m : Eval α) (h : Heap) : Heap :=
  match m h with
  | .ok _ h' => h'
  | .error _ h' => h'

theorem after_of_ok {m : Eval α} {a : α} (hm : m h = .ok a h') : after m h = h' := by
  rw [after, hm]

theorem after_of_error {m : Eval α} {e : Error} (hm : m h = .error e h') : after m h = h' := by
  rw [after, hm]

/-- A safe computation leads to a heap that follows. -/
theorem Safe.follows {m : Eval α} {Q : α → Heap → Prop} (hm : Safe m h Q) :
    h.Follows (after m h) := by
  cases hr : m h with
  | ok a h' =>
    rw [after_of_ok hr]
    exact (hm.of_ok hr).1
  | error e h' =>
    rw [after_of_error hr]
    rw [Safe, hr] at hm
    exact hm.1

/-- A computation that leaves the heap alone. -/
def Idle (m : Eval α) : Prop := ∀ h, after m h = h

/-- Leaving the heap alone is kept by sequencing. -/
theorem Idle.bind {m : Eval α} {f : α → Eval β} (hm : Idle m) (hf : ∀ a, Idle (f a)) :
    Idle (m >>= f) := by
  intro h
  cases hr : m h with
  | ok a h' =>
    obtain rfl : h' = h := (after_of_ok hr).symm.trans (hm h)
    rw [after, bind_eq_of_ok hr]
    exact hf a h'
  | error e h' =>
    obtain rfl : h' = h := (after_of_error hr).symm.trans (hm h)
    rw [after, bind_eq_of_error hr]

theorem idle_lift (r : Except TensorError α) : Idle (lift r) := by
  intro h
  cases r <;> rfl

/-- Looking up a node leaves the heap alone, whether it is there or not … -/
theorem idle_state (id : NodeId) : Idle (state id) := by
  intro h
  cases hs : h.state? id with
  | some s => exact after_of_ok (state_eq hs)
  | none => exact after_of_error (state_eq_none hs)

/-- … and so does looking up a buffer. -/
theorem idle_buffer (b : BufferId) : Idle (buffer b) := by
  intro h
  cases hb : h.buffer? b with
  | some a => exact after_of_ok (buffer_eq hb)
  | none => exact after_of_error (buffer_eq_none hb)

theorem idle_view (v : Value) : Idle (view v) := by
  cases v with
  | array b => exact idle_buffer b
  | scalar s => exact fun _ => rfl

/-- Taking a value as a key does not change anything. -/
theorem idle_key (v : Value) : Idle (key v) := (idle_view v).bind fun _ => idle_lift _

theorem idle_target (base : NodeId) (v : Value) : Idle (target base v) := by
  intro h
  cases v <;> rfl

end Eval

/-! ## Logged computations -/

/-- A computation and the events it causes. -/
structure Logged (α : Type) where
  /-- The computation. -/
  run : Eval α
  /-- The events, given the heap it starts from. -/
  log : Heap → List Event

namespace Logged

variable {α β : Type}

instance : Monad Logged where
  pure a := ⟨pure a, fun _ => []⟩
  bind m f := ⟨m.run >>= fun a => (f a).run, fun h => m.log h ++
    match m.run h with
    | .ok a h' => (f a).log h'
    | .error _ _ => []⟩

/-- A computation that causes no events. -/
def quiet (m : Eval α) : Logged α := ⟨m, fun _ => []⟩

/-- An event. -/
def emit (ev : Event) : Logged Unit := ⟨pure (), fun _ => [ev]⟩

/-- Storing an array adds a buffer, unless it has rank zero. -/
def store (a : Tensor) : Logged Value :=
  ⟨Eval.store a, fun _ =>
    match a.toScalar? with
    | some _ => []
    | none => [.allocate a]⟩

/-- A write that succeeds, for a node or for none. -/
def write (node : Option NodeId) (b : BufferId) (k : Selection) (a : Tensor) : Logged Unit :=
  ⟨Eval.write b k a, fun h =>
    match h.buffer? b with
    | some t =>
      match t.set k a with
      | .ok c => [.write node b c]
      | .error _ => []
    | none => []⟩

/-- The key of an assignment. -/
def key (read : NodeId → Logged Value) : AssignKey → Logged Selection
  | .position i => pure (.position i)
  | .node id => do quiet (Eval.key (← read id))

/-- The value of the expression of a node, or of no node. -/
def evaluate (node : Option NodeId) (visit : Demand → NodeId → Logged Value) :
    Expression → Logged Value
  | .data b => pure (.array b)
  | .scalar s => pure (.scalar s)
  | .unary op x => do
    let x ← visit .read x
    store (← quiet (Eval.lift ((← quiet (Eval.view x)).unary op)))
  | .binary op x y => do
    let x ← visit .read x
    let y ← visit .read y
    let a ← quiet (Eval.view x)
    let b ← quiet (Eval.view y)
    store (← quiet (Eval.lift (a.binary op b)))
  | .assign base k value => do
    let b ← quiet (Eval.target base (← visit .force base))
    let k ← key (visit .read) k
    let a ← quiet (Eval.view (← visit .read value))
    write node b k a
    pure (.array b)

/-- **A visit of a node**, logged. -/
def visit : Nat → Demand → NodeId → Logged Value
  | 0, _, id => quiet (throw (.dangling (.node id)))
  | depth + 1, demand, id => do
    match ← quiet (Eval.state id) with
    | .cached v =>
      match demand with
      | .force => pure v
      | .read => do
        quiet (Eval.countRead id)
        pure v
    | .deferred e => do
      quiet (Eval.countRead id)
      let v ← evaluate (some id) (visit depth) e
      match demand with
      | .force => do
        quiet (modify (·.cache id v))
        pure v
      | .read => do
        emit (.read id)
        pure v

/-! ## The computation is evaluation -/

/-- The computation of a sequence is the sequence of the computations. -/
theorem run_bind (m : Logged α) (f : α → Logged β) :
    (m >>= f).run = m.run >>= fun a => (f a).run := rfl

/-- The log of a sequence goes on where the first part succeeds … -/
theorem log_bind_of_ok {m : Logged α} {f : α → Logged β} {h h' : Heap} {a : α}
    (hm : m.run h = .ok a h') : (m >>= f).log h = m.log h ++ (f a).log h' := by
  simp only [Bind.bind, hm]

/-- … and ends where it fails. -/
theorem log_bind_of_error {m : Logged α} {f : α → Logged β} {h h' : Heap} {e : Error}
    (hm : m.run h = .error e h') : (m >>= f).log h = m.log h := by
  simp only [Bind.bind, hm, List.append_nil]

/-- Logged evaluation of an expression is evaluation, if that of the operands is. -/
theorem run_evaluate (node : Option NodeId) (visit : Demand → NodeId → Logged Value)
    (e : Expression) :
    (evaluate node visit e).run = e.evaluate fun demand id => (visit demand id).run := by
  cases e with
  | data b => rfl
  | scalar s => rfl
  | unary op x => rfl
  | binary op x y => rfl
  | assign base k value => cases k <;> rfl

/-- **Logged evaluation is evaluation.** -/
theorem run_visit (depth : Nat) (demand : Demand) (id : NodeId) :
    (visit depth demand id).run = DeferredArrays.visit depth demand id := by
  induction depth generalizing demand id with
  | zero => rfl
  | succ depth ih =>
    have hvisit : (fun demand id => (visit depth demand id).run) = DeferredArrays.visit depth :=
      funext fun demand => funext fun id => ih demand id
    rw [visit, run_bind, DeferredArrays.visit]
    refine bind_congr fun s => ?_
    cases s with
    | cached v => cases demand <;> rfl
    | deferred e =>
      dsimp only
      rw [← hvisit, ← run_evaluate (some id) (visit depth) e]
      cases demand <;> rfl

/-! ## The log leaves nothing out -/

open Event Eval

/-- **Events account for the difference between two heaps.** -/
structure Explains (log : List Event) (h h' : Heap) : Prop where
  /-- The events, replayed, lead from the buffers of one to those of the other. -/
  buffers : h'.buffers = replay h.buffers log
  /-- There are as many nodes. -/
  cells : h'.cells.size = h.cells.size
  /-- No node was made deferred, or given another expression. -/
  deferred : ∀ i e, h'.state? i = some (.deferred e) → h.state? i = some (.deferred e)

theorem Explains.refl (h : Heap) : Explains [] h h := ⟨rfl, rfl, fun _ _ hs => hs⟩

/-- Logs that account for two differences account for both, one after the other. -/
theorem Explains.trans {log log' : List Event} {h₁ h₂ h₃ : Heap} (h : Explains log h₁ h₂)
    (h' : Explains log' h₂ h₃) : Explains (log ++ log') h₁ h₃ where
  buffers := by rw [h'.buffers, h.buffers, replay_append]
  cells := h'.cells.trans h.cells
  deferred i e hs := h.deferred i e (h'.deferred i e hs)

/-- **The log of a computation accounts for what it does.** -/
def Accounts (m : Logged α) : Prop := ∀ h, Explains (m.log h) h (after m.run h)

/-- What a log accounts for, where the computation succeeds. -/
theorem Accounts.of_ok {m : Logged α} (hm : m.Accounts) {h h' : Heap} {a : α}
    (hr : m.run h = .ok a h') : Explains (m.log h) h h' := after_of_ok hr ▸ hm h

theorem accounts_pure (a : α) : Accounts (pure a : Logged α) := fun h => .refl h

/-- **A sequence is accounted for** by the logs of its parts. -/
theorem Accounts.bind {m : Logged α} {f : α → Logged β} (hm : Accounts m)
    (hf : ∀ a, Accounts (f a)) : Accounts (m >>= f) := by
  intro h
  have hfirst := hm h
  rw [run_bind]
  cases hr : m.run h with
  | ok a h' =>
    rw [after_of_ok hr] at hfirst
    rw [after, bind_eq_of_ok hr, log_bind_of_ok hr]
    exact hfirst.trans (hf a h')
  | error e h' =>
    rw [after_of_error hr] at hfirst
    rw [after, bind_eq_of_error hr, log_bind_of_error hr]
    exact hfirst

/-- What leaves the heap alone needs no events. -/
theorem accounts_idle {m : Eval α} (hm : Idle m) : Accounts (quiet m) := by
  intro h
  show Explains [] h (after m h)
  rw [hm h]
  exact .refl h

/-- Counting a read changes no buffer. -/
theorem accounts_countRead (id : NodeId) : Accounts (quiet (countRead id)) := fun h =>
  ⟨rfl, Heap.size_cells_countRead h id, fun i _ hs => (Heap.state?_countRead h id i).symm.trans hs⟩

/-- Caching a value makes no node deferred. -/
theorem accounts_cache (id : NodeId) (v : Value) :
    Accounts (quiet (modify (·.cache id v))) := by
  refine fun h => ⟨rfl, Array.size_modify, fun i e hs => ?_⟩
  change (h.cache id v).state? i = some (.deferred e) at hs
  rw [Heap.state?_cache] at hs
  split at hs
  next => cases hst : h.state? i <;> simp [hst] at hs
  next => exact hs

/-- An array is added to the buffers; a scalar is not. -/
theorem accounts_store (a : Tensor) : Accounts (store a) := by
  intro h
  cases hs : a.toScalar? with
  | some s =>
    simp only [store, hs, after_of_ok (store_scalar hs)]
    exact .refl h
  | none =>
    simp only [store, hs, after_of_ok (store_array hs)]
    exact ⟨rfl, rfl, fun _ _ hst => hst⟩

/-- A write changes one buffer … -/
theorem write_eq {b : BufferId} {k : Selection} {a t c : Tensor} {h : Heap}
    (hb : h.buffer? b = some t) (hc : t.set k a = .ok c) :
    Eval.write b k a h = .ok () (h.setBuffer b c) := by
  refine (bind_eq_of_ok (buffer_eq hb)).trans ?_
  rw [hc]
  rfl

/-- … unless the array refuses it … -/
theorem write_eq_error {b : BufferId} {k : Selection} {a t : Tensor} {e : TensorError} {h : Heap}
    (hb : h.buffer? b = some t) (hc : t.set k a = .error e) :
    Eval.write b k a h = .error (.tensor e) h := by
  refine (bind_eq_of_ok (buffer_eq hb)).trans ?_
  rw [hc]
  rfl

/-- … or there is no such buffer. -/
theorem write_eq_dangling {b : BufferId} {k : Selection} {a : Tensor} {h : Heap}
    (hb : h.buffer? b = none) : Eval.write b k a h = .error (.dangling (.buffer b)) h :=
  bind_eq_of_error (buffer_eq_none hb)

/-- A write is an event if and only if it succeeds. -/
theorem accounts_write (node : Option NodeId) (b : BufferId) (k : Selection) (a : Tensor) :
    Accounts (write node b k a) := by
  intro h
  cases hb : h.buffer? b with
  | none =>
    simp only [write, hb, after_of_error (write_eq_dangling hb)]
    exact .refl h
  | some t =>
    cases hc : t.set k a with
    | error e =>
      simp only [write, hb, hc, after_of_error (write_eq_error hb hc)]
      exact .refl h
    | ok c =>
      simp only [write, hb, hc, after_of_ok (write_eq hb hc)]
      exact ⟨rfl, rfl, fun _ _ hst => hst⟩

theorem accounts_key {read : NodeId → Logged Value} (hread : ∀ id, Accounts (read id))
    (k : AssignKey) : Accounts (key read k) := by
  cases k with
  | position i => exact accounts_pure _
  | node id => exact (hread id).bind fun v => accounts_idle (idle_key v)

/-- **The log of an expression accounts for what it does**, if those of its operands do. -/
theorem accounts_evaluate {visit : Demand → NodeId → Logged Value}
    (hvisit : ∀ demand id, Accounts (visit demand id)) (node : Option NodeId) (e : Expression) :
    Accounts (evaluate node visit e) := by
  cases e with
  | data b => exact accounts_pure _
  | scalar s => exact accounts_pure _
  | unary op x =>
    refine (hvisit .read x).bind fun v => (accounts_idle (idle_view v)).bind fun a => ?_
    exact (accounts_idle (idle_lift _)).bind accounts_store
  | binary op x y =>
    refine (hvisit .read x).bind fun v => (hvisit .read y).bind fun w => ?_
    refine (accounts_idle (idle_view v)).bind fun a => ?_
    refine (accounts_idle (idle_view w)).bind fun b => ?_
    exact (accounts_idle (idle_lift _)).bind accounts_store
  | assign base k value =>
    refine (hvisit .force base).bind fun v => (accounts_idle (idle_target base v)).bind fun b => ?_
    refine (accounts_key (hvisit .read) k).bind fun key => (hvisit .read value).bind fun w => ?_
    refine (accounts_idle (idle_view w)).bind fun a => ?_
    exact (accounts_write node b key a).bind fun _ => accounts_pure _

/-- **The log of a visit accounts for what it does.** -/
theorem accounts_visit (depth : Nat) (demand : Demand) (id : NodeId) :
    Accounts (visit depth demand id) := by
  induction depth generalizing demand id with
  | zero => exact accounts_idle fun _ => rfl
  | succ depth ih =>
    refine (accounts_idle (idle_state id)).bind fun s => ?_
    cases s with
    | cached v =>
      cases demand with
      | force => exact accounts_pure v
      | read => exact (accounts_countRead id).bind fun _ => accounts_pure v
    | deferred e =>
      refine (accounts_countRead id).bind fun _ => ?_
      refine (accounts_evaluate ih (some id) e).bind fun v => ?_
      cases demand with
      | force => exact (accounts_cache id v).bind fun _ => accounts_pure v
      | read =>
        have hread : Accounts (emit (.read id)) := fun _ => ⟨rfl, rfl, fun _ _ hs => hs⟩
        exact hread.bind fun _ => accounts_pure v

end Logged

end DeferredArrays
