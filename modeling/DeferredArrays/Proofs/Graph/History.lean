import DeferredArrays.Proofs.Graph.Counting

/-!
# Proofs/Graph/History — runs of operations, and how often they apply an assignment

A heap is worked on by operations: buffers and nodes are made, handles taken and dropped, buffers
written to, and nodes forced, read or evaluated, in any order and whatever fails on the way
(`Operation`).  A history is the heap they lead to, together with the expressions the nodes were
made with and the events of all evaluations (`History`).  What holds of every history is what one
operation preserves (`Operation.valid_perform`, `valid_run`): the heap is sound, the log accounts
for every buffer, and the writes of an assignment are balanced.

So an assignment is applied once for each time it is read to the end while it is deferred, and once
more when it is cached (`applied_run`).  As long as nothing reads it — it may be forced, also as the
base of other assignments — it is applied at most once, however often evaluations fail and are
retried (`unread_run`).  As an operand it can be applied twice (`applied_twice`).
-/

namespace DeferredArrays

open Event Eval

/-- **What is done with a heap.** -/
inductive Operation where
  /-- Makes a buffer. -/
  | allocate (a : Tensor)
  /-- Makes a node. -/
  | build (e : Expression)
  /-- Takes a handle on a node. -/
  | acquire (id : NodeId)
  /-- Drops a handle on a node. -/
  | release (id : NodeId)
  /-- Writes to a buffer, on behalf of no node. -/
  | write (b : BufferId) (key : Selection) (value : Tensor)
  /-- Forces a node. -/
  | force (id : NodeId)
  /-- Evaluates a node without caching it. -/
  | read (id : NodeId)
  /-- Evaluates an expression that no node holds. -/
  | evaluate (e : Expression)

/-- **A heap and how it came about.** -/
structure History where
  /-- The heap. -/
  heap : Heap
  /-- The expressions that the nodes were made with. -/
  made : List Expression
  /-- What happened to the buffers. -/
  log : List Event

namespace Heap

/-- An expression refers to nodes and buffers that exist. -/
def Admits (h : Heap) (e : Expression) : Prop :=
  (∀ c ∈ e.children, c < h.cells.size) ∧ ∀ b ∈ e.buffer?, b < h.buffers.size

instance (h : Heap) (e : Expression) : Decidable (h.Admits e) :=
  inferInstanceAs (Decidable (_ ∧ _))

end Heap

namespace History

/-- Nothing has happened yet. -/
def start : History := ⟨.empty, [], []⟩

/-- A computation was carried out, whether it succeeded or failed. -/
def carryOut {α : Type} (s : History) (m : Eval α) (log : Heap → List Event) : History :=
  { s with heap := after m s.heap, log := s.log ++ log s.heap }

end History

namespace Operation

/-- An operation refers to what exists only, and brings along well-formed arrays. -/
def Permitted (h : Heap) : Operation → Prop
  | allocate a => a.WellFormed
  | build e => h.Admits e
  | acquire id => id < h.cells.size
  | release id => id < h.cells.size
  | write b _ _ => b < h.buffers.size
  | force id => id < h.cells.size
  | read id => id < h.cells.size
  | evaluate e => h.Admits e

instance (h : Heap) : (op : Operation) → Decidable (op.Permitted h)
  | allocate a => inferInstanceAs (Decidable a.WellFormed)
  | build e => inferInstanceAs (Decidable (h.Admits e))
  | acquire id => inferInstanceAs (Decidable (id < h.cells.size))
  | release id => inferInstanceAs (Decidable (id < h.cells.size))
  | write b _ _ => inferInstanceAs (Decidable (b < h.buffers.size))
  | force id => inferInstanceAs (Decidable (id < h.cells.size))
  | read id => inferInstanceAs (Decidable (id < h.cells.size))
  | evaluate e => inferInstanceAs (Decidable (h.Admits e))

/-- **Carries out an operation.**  One that is not permitted does nothing. -/
def perform (s : History) (op : Operation) : History :=
  if op.Permitted s.heap then
    match op with
    | allocate a => { s with heap := (s.heap.addBuffer a).2, log := s.log ++ [.allocate a] }
    | build e => { s with heap := (s.heap.addNode e).2, made := s.made ++ [e] }
    | acquire id => { s with heap := s.heap.acquire id }
    | release id => { s with heap := s.heap.release id }
    | write b key value => s.carryOut (Eval.write b key value) (Logged.write none b key value).log
    | force id => s.carryOut (Eval.force id) (Logged.visit (id + 1) .force id).log
    | read id => s.carryOut (Eval.read id) (Logged.visit (id + 1) .read id).log
    | evaluate e =>
      s.carryOut (Eval.evaluate e) (Logged.evaluate none (Logged.visit s.heap.cells.size) e).log
  else s

end Operation

/-- **The history of a run** of operations. -/
def run (ops : List Operation) : History := ops.foldl Operation.perform .start

/-! ## What holds of every history -/

/-- **A valid history.** -/
structure History.Valid (s : History) : Prop where
  /-- The heap is sound. -/
  sound : s.heap.Sound
  /-- Whatever happened to the buffers is in the log. -/
  accounted : s.heap.buffers = replay #[] s.log
  /-- Every node was made once. -/
  size_made : s.made.length = s.heap.cells.size
  /-- A deferred node has the expression it was made with. -/
  deferred : ∀ n e, s.heap.state? n = some (.deferred e) → s.made[n]? = some e
  /-- The writes of an assignment are balanced by its readings and its being cached. -/
  balanced : ∀ n, (∀ e, s.made[n]? = some e → (NodeStatus.deferred e).isAssign = true) →
    writesOf n s.log = readingsOf n s.log + s.heap.kept n

namespace Heap

variable {h : Heap}

/-- A visit of a node leads to a sound and later heap … -/
theorem follows_visit (hs : h.Sound) {id : NodeId} (hid : id < h.cells.size) (demand : Demand) :
    h.Follows (after (visit (id + 1) demand id) h) :=
  (safe_visit hs hid (Nat.lt_succ_self id)).follows

/-- … and so does the evaluation of an expression that is admitted. -/
theorem follows_evaluate (hs : h.Sound) {e : Expression} (he : h.Admits e) :
    h.Follows (after (Eval.evaluate e) h) :=
  (safe_evaluate (safeBelow_visit (Nat.le_refl _)) hs (Nat.le_refl _) he.1 fun b hb =>
    he.2 b hb).follows

/-- Evaluating an expression is logged with visits that are deep enough for every node. -/
theorem after_evaluate (h : Heap) (e : Expression) : after (Eval.evaluate e) h =
    after (Logged.evaluate none (Logged.visit h.cells.size) e).run h := by
  simp only [Logged.run_evaluate, Logged.run_visit]
  rfl

end Heap

namespace History

variable {s : History}

theorem valid_start : start.Valid where
  sound := Heap.sound_empty
  accounted := rfl
  size_made := rfl
  deferred n e hs := by simp [start, Heap.state?, Heap.cell?, Heap.empty] at hs
  balanced n _ := by simp [start, Heap.kept, Heap.state?, Heap.cell?, Heap.empty]

/-- A change of the heap that leaves buffers and states alone. -/
theorem Valid.of_same {h : Heap} (hv : s.Valid) (hf : s.heap.Follows h)
    (hb : h.buffers = s.heap.buffers) (hc : h.cells.size = s.heap.cells.size)
    (hstates : ∀ i, h.state? i = s.heap.state? i) : ({ s with heap := h } : History).Valid where
  sound := hf.sound
  accounted := hb.trans hv.accounted
  size_made := hv.size_made.trans hc.symm
  deferred n e hs := hv.deferred n e ((hstates n).symm.trans hs)
  balanced n hn := by
    rw [Heap.kept_congr (hstates n)]
    exact hv.balanced n hn

/-- **A logged computation keeps a history valid** if its log accounts for what it does and is
balanced. -/
theorem Valid.carryOut {α : Type} {m : Logged α} (hv : s.Valid)
    (hf : s.heap.Follows (after m.run s.heap)) (hm : m.Accounts)
    (hbal : ∀ n, s.heap.AssignIfDeferred n → m.Balanced n 0 0 s.heap) :
    (s.carryOut m.run m.log).Valid where
  sound := hf.sound
  accounted := by
    show (after m.run s.heap).buffers = replay #[] (s.log ++ m.log s.heap)
    rw [(hm s.heap).buffers, hv.accounted, replay_append]
  size_made := hv.size_made.trans (hm s.heap).cells.symm
  deferred n e hs := hv.deferred n e ((hm s.heap).deferred n e hs)
  balanced n hn := by
    have hassign : s.heap.AssignIfDeferred n := fun e he => hn e (hv.deferred n e he)
    have hevents := hbal n hassign
    have hbefore := hv.balanced n hn
    show writesOf n (s.log ++ m.log s.heap)
      = readingsOf n (s.log ++ m.log s.heap) + (after m.run s.heap).kept n
    rw [writesOf_append, readingsOf_append]
    unfold Logged.Balanced at hevents
    split at hevents
    next a h' hr =>
      rw [after_of_ok hr]
      omega
    next e h' hr =>
      rw [after_of_error hr]
      omega

/-- Evaluating an expression is evaluating it with visits that are deep enough. -/
theorem carryOut_evaluate (s : History) (e : Expression) (log : Heap → List Event) :
    s.carryOut (Eval.evaluate e) log =
      s.carryOut (Logged.evaluate none (Logged.visit s.heap.cells.size) e).run log := by
  rw [carryOut, carryOut, Heap.after_evaluate]

/-- A new buffer is an event … -/
theorem Valid.allocate (hv : s.Valid) {a : Tensor} (ha : a.WellFormed) :
    ({ s with heap := (s.heap.addBuffer a).2, log := s.log ++ [.allocate a] } : History).Valid where
  sound := (Heap.follows_addBuffer hv.sound ha).sound
  accounted := by
    show s.heap.buffers.push a = replay #[] (s.log ++ [.allocate a])
    rw [replay_append, ← hv.accounted]
    rfl
  size_made := hv.size_made
  deferred := hv.deferred
  balanced n hn := by
    have hwrites : writesOf n [.allocate a] = 0 := rfl
    have hreadings : readingsOf n [.allocate a] = 0 := rfl
    rw [writesOf_append, readingsOf_append, hwrites, hreadings]
    exact hv.balanced n hn

/-- … and a new node is an expression that was made. -/
theorem Valid.build (hv : s.Valid) {e : Expression} (he : s.heap.Admits e) :
    ({ s with heap := (s.heap.addNode e).2, made := s.made ++ [e] } : History).Valid where
  sound := (Heap.follows_addNode hv.sound he.1 fun b hb => he.2 b hb).sound
  accounted := hv.accounted
  size_made := by
    show (s.made ++ [e]).length = (s.heap.cells.push _).size
    rw [List.length_append, Array.size_push, hv.size_made]
    rfl
  deferred n e' hs := by
    change (s.heap.addNode e).2.state? n = some (.deferred e') at hs
    rw [Heap.state?_addNode] at hs
    split at hs
    next hn =>
      cases hs
      show (s.made ++ [e])[n]? = some e
      rw [hn, ← hv.size_made, List.getElem?_concat_length]
    next hn =>
      have hlt := Heap.lt_of_state? hs
      show (s.made ++ [e])[n]? = some e'
      rw [List.getElem?_append_left (hv.size_made ▸ hlt)]
      exact hv.deferred n e' hs
  balanced n hn := by
    have hkept : (s.heap.addNode e).2.kept n = s.heap.kept n := by
      by_cases heq : n = s.heap.cells.size
      · have hnone : s.heap.state? n = none := by
          cases hst : s.heap.state? n with
          | none => rfl
          | some st => exact absurd (Heap.lt_of_state? hst) (heq ▸ Nat.lt_irrefl _)
        rw [Heap.kept, Heap.kept, Heap.state?_addNode, if_pos heq, hnone]
        rfl
      · exact Heap.kept_congr (by rw [Heap.state?_addNode, if_neg heq])
    show writesOf n s.log = readingsOf n s.log + (s.heap.addNode e).2.kept n
    rw [hkept]
    refine hv.balanced n fun e' he' => hn e' ?_
    exact (List.getElem?_append_left (List.getElem?_eq_some_iff.mp he').1).trans he'

/-- **A visit keeps a history valid** … -/
theorem Valid.visited (hv : s.Valid) {id : NodeId} (hid : id < s.heap.cells.size)
    (demand : Demand) :
    (s.carryOut (visit (id + 1) demand id) (Logged.visit (id + 1) demand id).log).Valid := by
  rw [← Logged.run_visit]
  refine hv.carryOut ?_ (Logged.accounts_visit _ _ _) fun n hn =>
    Logged.balanced_visit hv.sound hid (Nat.lt_succ_self id) hn
  rw [Logged.run_visit]
  exact Heap.follows_visit hv.sound hid demand

/-- … and so does the evaluation of an expression. -/
theorem Valid.evaluated (hv : s.Valid) {e : Expression} (he : s.heap.Admits e) :
    (s.carryOut (Eval.evaluate e)
      (Logged.evaluate none (Logged.visit s.heap.cells.size) e).log).Valid := by
  have hfollows := Heap.follows_evaluate hv.sound he
  rw [Heap.after_evaluate] at hfollows
  rw [carryOut_evaluate]
  refine hv.carryOut hfollows (Logged.accounts_evaluate (Logged.accounts_visit _) _ _)
    fun n hn => ?_
  have hbelow : SafeBelow s.heap.cells.size fun demand id =>
      (Logged.visit s.heap.cells.size demand id).run := by
    simp only [Logged.run_visit]
    exact safeBelow_visit (Nat.le_refl _)
  have hbal : Logged.BalancedBelow s.heap.cells.size n (Logged.visit s.heap.cells.size) :=
    fun demand id h' hs' hid hN hn' =>
      Logged.balanced_visit hs' (Nat.lt_of_lt_of_le hid hN) hid hn'
  -- no node holds the expression, so its write counts for none
  have heval : Logged.Balanced n 0 (if none = some n then 1 else 0)
      (Logged.evaluate none (Logged.visit s.heap.cells.size) e) s.heap :=
    Logged.balanced_evaluate hbelow (Logged.accounts_visit _) hbal hv.sound (Nat.le_refl _) hn he.1
      nofun
  simpa using heval

end History

/-- **An operation leads to a sound and later heap.** -/
theorem Operation.follows_perform {s : History} (hs : s.heap.Sound) (op : Operation) :
    s.heap.Follows (op.perform s).heap := by
  unfold perform
  split
  next hop =>
    cases op with
    | allocate a => exact Heap.follows_addBuffer hs hop
    | build e => exact Heap.follows_addNode hs hop.1 fun b hb => hop.2 b hb
    | acquire id => exact Heap.follows_acquire hs id
    | release id => exact Heap.follows_release hs id
    | write b key value => exact (safe_write hs 0 hop key value).follows
    | force id => exact Heap.follows_visit hs hop .force
    | read id => exact Heap.follows_visit hs hop .read
    | evaluate e => exact Heap.follows_evaluate hs hop
  next => exact .refl hs

/-- **An operation keeps a history valid.** -/
theorem Operation.valid_perform {s : History} (hv : s.Valid) (op : Operation) :
    (op.perform s).Valid := by
  have hs := hv.sound
  unfold perform
  split
  next hop =>
    cases op with
    | allocate a => exact hv.allocate hop
    | build e => exact hv.build hop
    | acquire id =>
      exact hv.of_same (Heap.follows_acquire hs id) rfl Array.size_modify
        (Heap.state?_modifyCell_of_state fun _ => rfl)
    | release id =>
      exact hv.of_same (Heap.follows_release hs id) rfl Array.size_modify
        (Heap.state?_modifyCell_of_state fun _ => rfl)
    | write b key value =>
      exact hv.carryOut (m := Logged.write none b key value) (safe_write hs 0 hop key value).follows
        (Logged.accounts_write _ _ _ _) fun n _ => by
          simpa using Logged.balanced_write (n := n) none b key value
    | force id => exact hv.visited hop .force
    | read id => exact hv.visited hop .read
    | evaluate e => exact hv.evaluated hop
  next => exact hv

/-- The heap is later after any operations, and sound. -/
theorem follows_foldl (ops : List Operation) {s : History} (hs : s.heap.Sound) :
    s.heap.Follows (ops.foldl Operation.perform s).heap := by
  induction ops generalizing s with
  | nil => exact .refl hs
  | cons op ops ih =>
    have hop := op.follows_perform hs
    exact hop.trans (ih hop.sound)

/-- Operations keep a history valid, however many there are. -/
theorem valid_foldl (ops : List Operation) {s : History} (hv : s.Valid) :
    (ops.foldl Operation.perform s).Valid := by
  induction ops generalizing s with
  | nil => exact hv
  | cons op ops ih => exact ih (op.valid_perform hv)

/-- **A run leads to a valid history**, whatever its operations are. -/
theorem valid_run (ops : List Operation) : (run ops).Valid := valid_foldl ops History.valid_start

/-! ## Nodes that nothing reads -/

/-- An operation does not read a node, and makes no expression that does. -/
def Operation.Spares (n : NodeId) : Operation → Prop
  | build e => n ∉ e.operands
  | read id => id ≠ n
  | evaluate e => n ∉ e.operands
  | _ => True

/-- A node was not read in a history, and no deferred expression reads it. -/
structure History.Unread (n : NodeId) (s : History) : Prop where
  /-- No deferred expression reads the node. -/
  noOperand : s.heap.NoOperand n
  /-- No evaluation has read it to the end. -/
  readings : readingsOf n s.log = 0

namespace History

variable {s : History} {n : NodeId}

/-- At the start there is nothing to read. -/
theorem unread_start (n : NodeId) : start.Unread n where
  noOperand i e hs := by simp [start, Heap.state?, Heap.cell?, Heap.empty] at hs
  readings := rfl

theorem Unread.carryOut {α : Type} {m : Logged α} (hu : s.Unread n) (hm : m.Accounts)
    (hread : m.Unread n s.heap) : (s.carryOut m.run m.log).Unread n where
  noOperand := (hm s.heap).noOperand hu.noOperand
  readings := by
    show readingsOf n (s.log ++ m.log s.heap) = 0
    rw [readingsOf_append, hu.readings, hread]

/-- A change of the heap that leaves states alone. -/
theorem Unread.of_same {h : Heap} (hu : s.Unread n) (hstates : ∀ i, h.state? i = s.heap.state? i) :
    ({ s with heap := h } : History).Unread n where
  noOperand i e hs := hu.noOperand i e ((hstates i).symm.trans hs)
  readings := hu.readings

/-- A new node that does not read it leaves a node unread … -/
theorem Unread.build (hu : s.Unread n) {e : Expression} (he : n ∉ e.operands) :
    ({ s with heap := (s.heap.addNode e).2, made := s.made ++ [e] } : History).Unread n where
  noOperand i e' hs := by
    change (s.heap.addNode e).2.state? i = some (.deferred e') at hs
    rw [Heap.state?_addNode] at hs
    split at hs
    next =>
      cases hs
      exact he
    next => exact hu.noOperand i e' hs
  readings := hu.readings

/-- … a visit does that forces the node or starts elsewhere … -/
theorem Unread.visited (hu : s.Unread n) {demand : Demand} {id : NodeId}
    (hid : demand = .force ∨ id ≠ n) :
    (s.carryOut (visit (id + 1) demand id) (Logged.visit (id + 1) demand id).log).Unread n := by
  rw [← Logged.run_visit]
  exact hu.carryOut (Logged.accounts_visit _ _ _) (Logged.unread_visit hu.noOperand hid)

/-- … and so does an expression that does not read it. -/
theorem Unread.evaluated (hu : s.Unread n) {e : Expression} (he : n ∉ e.operands) :
    (s.carryOut (Eval.evaluate e)
      (Logged.evaluate none (Logged.visit s.heap.cells.size) e).log).Unread n := by
  have hacc := Logged.accounts_visit s.heap.cells.size
  rw [carryOut_evaluate]
  exact hu.carryOut (Logged.accounts_evaluate hacc _ _)
    (Logged.unread_evaluate hacc (fun _ _ _ => Logged.unread_visit) hu.noOperand none he)

end History

/-- An operation that spares a node leaves it unread. -/
theorem Operation.unread_perform {s : History} {n : NodeId} (hu : s.Unread n) {op : Operation}
    (hop : op.Spares n) : (op.perform s).Unread n := by
  unfold perform
  split
  next =>
    cases op with
    | allocate a =>
      refine ⟨hu.noOperand, ?_⟩
      show readingsOf n (s.log ++ [.allocate a]) = 0
      rw [readingsOf_append, hu.readings]
      rfl
    | build e => exact hu.build hop
    | acquire id => exact hu.of_same (Heap.state?_modifyCell_of_state fun _ => rfl)
    | release id => exact hu.of_same (Heap.state?_modifyCell_of_state fun _ => rfl)
    | write b key value =>
      exact hu.carryOut (m := Logged.write none b key value) (Logged.accounts_write _ _ _ _)
        (Logged.unread_write none b key value)
    | force id => exact hu.visited (.inl rfl)
    | read id => exact hu.visited (.inr hop)
    | evaluate e => exact hu.evaluated hop
  next => exact hu

/-- **A run whose operations spare a node** leaves it unread. -/
theorem unread_run {ops : List Operation} {n : NodeId} (hops : ∀ op ∈ ops, op.Spares n) :
    (run ops).Unread n := by
  suffices h : ∀ s : History, s.Unread n → (ops.foldl Operation.perform s).Unread n from
    h _ (History.unread_start n)
  induction ops with
  | nil => exact fun s hu => hu
  | cons op ops ih =>
    intro s hu
    exact ih (fun o ho => hops o (List.mem_cons_of_mem op ho)) _
      (op.unread_perform hu (hops op List.mem_cons_self))

/-! ## Applying an assignment -/

/-- A node is an assignment, deferred or cached. -/
def History.IsAssign (s : History) (n : NodeId) : Prop :=
  ∃ base key value, s.made[n]? = some (.assign base key value)

/-- **How often an assignment is applied** by a run of operations. -/
structure Applied (ops : List Operation) (n : NodeId) : Prop where
  /-- Buffers change by the events of the log only. -/
  accounted : (run ops).heap.buffers = replay #[] (run ops).log
  /-- The assignment was applied once for each reading, and once more if it was cached. -/
  writes : writesOf n (run ops).log = readingsOf n (run ops).log + (run ops).heap.kept n
  /-- It was applied at most once if and only if it was never read while it was deferred, or read
  once and never cached. -/
  once_iff : writesOf n (run ops).log ≤ 1 ↔ readingsOf n (run ops).log = 0 ∨
    readingsOf n (run ops).log = 1 ∧ ∀ v, (run ops).heap.state? n ≠ some (.cached v)
  /-- So it was if it is the base of other assignments at most, and forced at most: neither several
  paths to it nor failures and retries apply it again. -/
  once_of_spares : (∀ op ∈ ops, op.Spares n) → writesOf n (run ops).log ≤ 1

/-- Something is kept of a node exactly if it is cached. -/
theorem Heap.kept_eq_zero_iff {h : Heap} {n : NodeId} :
    h.kept n = 0 ↔ ∀ v, h.state? n ≠ some (.cached v) := by
  unfold kept
  cases h.state? n with
  | none => simp
  | some st => cases st <;> simp [NodeStatus.isCached]

/-- **How often every run applies an assignment.** -/
theorem applied_run (ops : List Operation) {n : NodeId} (hn : (run ops).IsAssign n) :
    Applied ops n := by
  have hv := valid_run ops
  obtain ⟨base, key, value, hmade⟩ := hn
  have hwrites : writesOf n (run ops).log = readingsOf n (run ops).log + (run ops).heap.kept n := by
    refine hv.balanced n fun e he => ?_
    obtain rfl := Option.some.inj (hmade.symm.trans he)
    rfl
  have hkept : (run ops).heap.kept n ≤ 1 := by
    unfold Heap.kept
    split <;> decide
  refine ⟨hv.accounted, hwrites, ?_, fun hops => ?_⟩
  · rw [hwrites, ← Heap.kept_eq_zero_iff]
    omega
  · rw [hwrites, (unread_run hops).readings, Nat.zero_add]
    exact hkept

/-- `t = a + a`, where `a` is `base` with `base[0] + 1` assigned to its first element. -/
def doubled : List Operation :=
  [.allocate (.ofElements (.ints [1, 2, 3])), .build (.data 0), .build (.scalar (.int 0)),
    .build (.binary .getItem 0 1), .build (.scalar (.int 1)), .build (.binary .add 2 3),
    .build (.assign 0 (.position 0) 4), .build (.binary .add 5 5), .force 6]

theorem applied_run_doubled : (run doubled).IsAssign 5 ∧ Applied doubled 5 :=
  have hn : (run doubled).IsAssign 5 := ⟨0, .position 0, 4, by decide +kernel⟩
  ⟨hn, applied_run doubled hn⟩

/-- A base is forced by an assignment that fails for its key, and once more by the next attempt. -/
example : writesOf 5 (run [.allocate (.ofElements (.ints [1, 2, 3])), .build (.data 0),
    .build (.scalar (.int 0)), .build (.binary .getItem 0 1), .build (.scalar (.int 1)),
    .build (.binary .add 2 3), .build (.assign 0 (.position 0) 4),
    .build (.assign 5 (.position 9) 4), .force 6, .force 6]).log = 1 := by decide +kernel

/-- **An assignment can be applied twice**: as an operand that is reached on two paths. -/
theorem applied_twice : ¬ ∀ (ops : List Operation) (n : NodeId), (run ops).IsAssign n →
    writesOf n (run ops).log ≤ 1 := by
  intro h
  have hn : (run doubled).IsAssign 5 := ⟨0, .position 0, 4, by decide +kernel⟩
  exact absurd (h doubled 5 hn) (by decide +kernel)

end DeferredArrays
