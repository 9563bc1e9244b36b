import DeferredArrays.Proofs.Graph.Trace

/-!
# Proofs/Graph/Counting — how often an assignment is applied

An assignment writes each time it is evaluated to the end.  What becomes of the node depends on how
it was visited: forcing caches it, and a cached node is not evaluated again, while a read leaves it
deferred, so that the next visit writes once more.  Hence a balance between the events of a node and
its state: as many writes as readings, and one more when the node was cached (`Logged.Balanced`).

A node that is no operand is not read by evaluations either (`Logged.unread_visit`).

The balance is kept by sequences (`Logged.Balanced.bind`) and so by visits
(`Logged.balanced_visit`).  In the middle of a visit it may be out by the one write that the node
has made and that has not been counted as a reading or as caching yet; this is what the two numbers
of `Balanced` stand for.
-/

namespace DeferredArrays

open Event Eval

namespace Heap

variable {h h' : Heap} {n : NodeId}

/-- One if a node is cached, and zero if it is not. -/
def kept (h : Heap) (n : NodeId) : Nat := if (h.state? n).any NodeStatus.isCached then 1 else 0

/-- A node is an assignment if it is deferred. -/
def AssignIfDeferred (h : Heap) (n : NodeId) : Prop :=
  ∀ e, h.state? n = some (.deferred e) → (NodeStatus.deferred e).isAssign = true

/-- What is kept of a node depends on its state only. -/
theorem kept_congr (hs : h'.state? n = h.state? n) : h'.kept n = h.kept n := by
  rw [kept, kept, hs]

/-- Nothing is kept of a deferred node. -/
theorem kept_of_deferred {e : Expression} (hs : h.state? n = some (.deferred e)) :
    h.kept n = 0 := by
  rw [kept, hs]
  rfl

/-- Caching a deferred node adds one for this node. -/
theorem kept_cache {id : NodeId} {e : Expression} (hs : h.state? id = some (.deferred e))
    (v : Value) : (h.cache id v).kept n = h.kept n + if id = n then 1 else 0 := by
  split
  next heq =>
    subst heq
    rw [kept_of_deferred hs, kept, state?_cache, if_pos rfl, hs]
    rfl
  next hne =>
    rw [Nat.add_zero]
    exact kept_congr (by rw [state?_cache, if_neg hne])

end Heap

namespace Logged

variable {α β : Type} {h : Heap} {n : NodeId} {x y z : Nat}

/-- **The writes of a node are balanced** by its readings and its being cached.  The computation
starts with `x` writes that have not been counted yet, and ends with `y`, unless it fails. -/
def Balanced (n : NodeId) (x y : Nat) (m : Logged α) (h : Heap) : Prop :=
  match m.run h with
  | .ok _ h' => writesOf n (m.log h) + h.kept n + x = readingsOf n (m.log h) + h'.kept n + y
  | .error _ h' => writesOf n (m.log h) + h.kept n + x = readingsOf n (m.log h) + h'.kept n

/-- **A sequence is balanced** if its parts are. -/
theorem Balanced.bind {m : Logged α} {f : α → Logged β} (hm : Balanced n x y m h)
    (hf : ∀ a h', m.run h = .ok a h' → Balanced n y z (f a) h') :
    Balanced n x z (m >>= f) h := by
  unfold Balanced at hm ⊢
  rw [run_bind]
  cases hr : m.run h with
  | ok a h' =>
    have hnext := hf a h' hr
    rw [hr] at hm
    rw [bind_eq_of_ok hr, log_bind_of_ok hr, writesOf_append, readingsOf_append]
    unfold Balanced at hnext
    split at hnext <;> omega
  | error e h' =>
    rw [hr] at hm
    rw [bind_eq_of_error hr, log_bind_of_error hr]
    exact hm

/-- A result without a computation counts nothing. -/
theorem balanced_pure (a : α) : Balanced n x x (pure a : Logged α) h := by
  simp [Balanced, pure, EStateM.pure]

/-- What causes no events and changes no state is balanced. -/
theorem balanced_quiet {m : Eval α} (hm : ∀ i, (after m h).state? i = h.state? i) :
    Balanced n 0 0 (quiet m) h := by
  unfold Balanced
  simp only [quiet]
  split
  next a h' hr =>
    simp [Heap.kept_congr ((congrArg (·.state? n) (after_of_ok hr)).symm.trans (hm n))]
  next e h' hr =>
    simp [Heap.kept_congr ((congrArg (·.state? n) (after_of_error hr)).symm.trans (hm n))]

/-- What leaves the heap alone counts nothing … -/
theorem balanced_idle {m : Eval α} (hm : Idle m) : Balanced n 0 0 (quiet m) h :=
  balanced_quiet fun i => by rw [hm h]

/-- … and neither does storing an array. -/
theorem balanced_store (a : Tensor) : Balanced n 0 0 (store a) h := by
  cases hs : a.toScalar? with
  | some s => simp [Balanced, store, hs, store_scalar hs]
  | none =>
    simp only [Balanced, store, hs, store_array hs]
    rfl

/-- A write leaves one write to be counted, if it is for the node in question. -/
theorem balanced_write (node : Option NodeId) (b : BufferId) (k : Selection) (a : Tensor) :
    Balanced n 0 (if node = some n then 1 else 0) (write node b k a) h := by
  cases hb : h.buffer? b with
  | none => simp [Balanced, write, hb, write_eq_dangling hb]
  | some t =>
    cases hc : t.set k a with
    | error e => simp [Balanced, write, hb, hc, write_eq_error hb hc]
    | ok c =>
      have hkept : (h.setBuffer b c).kept n = h.kept n := Heap.kept_congr rfl
      have hwrites : writesOf n [.write node b c] = if node = some n then 1 else 0 := by
        cases node with
        | none => rfl
        | some m => by_cases hmn : m = n <;> simp [writesOf, isWriteOf, hmn]
      have hreadings : readingsOf n [.write node b c] = 0 := by simp [readingsOf]
      simp only [Balanced, write, hb, hc, write_eq hb hc, hkept, hwrites, hreadings]
      omega

/-- A node that is not deferred as anything but an assignment stays so. -/
theorem Explains.assignIfDeferred {log : List Event} {h' : Heap} (hx : Explains log h h')
    (hn : h.AssignIfDeferred n) : h'.AssignIfDeferred n := fun e he => hn e (hx.deferred n e he)

/-! ## Visits -/

section Visits

variable {N : NodeId} {visit : Demand → NodeId → Logged Value}

/-- Visits of nodes before `N` are balanced for a node. -/
def BalancedBelow (N n : NodeId) (visit : Demand → NodeId → Logged Value) : Prop :=
  ∀ demand id h, h.Sound → id < N → N ≤ h.cells.size → h.AssignIfDeferred n →
    Balanced n 0 0 (visit demand id) h

/-- What leaves the heap alone ends where it started. -/
theorem idle_eq_of_ok {m : Eval α} (hm : Idle m) {a : α} {h' : Heap}
    (hr : (quiet m).run h = .ok a h') : h' = h := (after_of_ok hr).symm.trans (hm h)

/-- The key of an assignment, logged, is the key of the assignment. -/
theorem run_key (read : NodeId → Logged Value) (k : AssignKey) :
    (key read k).run = k.evaluate fun id => (read id).run := by
  cases k <;> rfl

/-- The key of an assignment counts nothing itself. -/
theorem balanced_key (hb : BalancedBelow N n visit) (hs : h.Sound) (hN : N ≤ h.cells.size)
    (hn : h.AssignIfDeferred n) {k : AssignKey} (hk : ∀ c ∈ k.children, c < N) :
    Balanced n 0 0 (key (visit .read) k) h := by
  cases k with
  | position i => exact balanced_pure _
  | node id =>
    have hid := hk id (List.mem_singleton.mpr rfl)
    exact (hb .read id h hs hid hN hn).bind fun v h' _ => balanced_idle (idle_key v)

/-- **The evaluation of an expression is balanced** but for the write it makes itself. -/
theorem balanced_evaluate (hv : SafeBelow N fun demand id => (visit demand id).run)
    (hacc : ∀ demand id, (visit demand id).Accounts) (hb : BalancedBelow N n visit) (hs : h.Sound)
    (hN : N ≤ h.cells.size) (hn : h.AssignIfDeferred n) {node : Option NodeId} {e : Expression}
    (hc : ∀ c ∈ e.children, c < N)
    (hassign : node = some n → (NodeStatus.deferred e).isAssign = true) :
    Balanced n 0 (if node = some n then 1 else 0) (evaluate node visit e) h := by
  -- only an assignment can be the node in question
  have hother : (NodeStatus.deferred e).isAssign = false →
      (if node = some n then 1 else 0) = 0 := by
    intro hne
    refine if_neg fun heq => ?_
    rw [hassign heq] at hne
    cases hne
  cases e with
  | data b => rw [hother rfl]; exact balanced_pure _
  | scalar s => rw [hother rfl]; exact balanced_pure _
  | unary op x =>
    rw [hother rfl]
    have hx : x < N := hc x (by simp [Expression.children])
    refine (hb .read x h hs hx hN hn).bind fun v h₁ _ => ?_
    refine (balanced_idle (idle_view v)).bind fun a h₂ _ => ?_
    exact (balanced_idle (idle_lift _)).bind fun c h₃ _ => balanced_store c
  | binary op x y =>
    rw [hother rfl]
    have hx : x < N := hc x (by simp [Expression.children])
    have hy : y < N := hc y (by simp [Expression.children])
    refine (hb .read x h hs hx hN hn).bind fun v h₁ hr₁ => ?_
    obtain ⟨hf₁, _⟩ := (hv .read x h hs hx hN).of_ok hr₁
    have hN₁ := Nat.le_trans hN hf₁.later.cells_le
    have hn₁ := ((hacc .read x).of_ok hr₁).assignIfDeferred hn
    refine (hb .read y h₁ hf₁.sound hy hN₁ hn₁).bind fun w h₂ _ => ?_
    refine (balanced_idle (idle_view v)).bind fun a h₃ _ => ?_
    refine (balanced_idle (idle_view w)).bind fun b h₄ _ => ?_
    exact (balanced_idle (idle_lift _)).bind fun c h₅ _ => balanced_store c
  | assign base k value =>
    have hbase : base < N := hc base (by simp [Expression.children])
    have hkey : ∀ c ∈ k.children, c < N := fun c hck => hc c (by simp [Expression.children, hck])
    have hvalue : value < N := hc value (by simp [Expression.children])
    refine (hb .force base h hs hbase hN hn).bind fun v h₁ hr₁ => ?_
    obtain ⟨hf₁, _⟩ := (hv .force base h hs hbase hN).of_ok hr₁
    have hn₁ := ((hacc .force base).of_ok hr₁).assignIfDeferred hn
    refine (balanced_idle (idle_target base v)).bind fun b h₂ hr₂ => ?_
    obtain rfl := idle_eq_of_ok (idle_target base v) hr₂
    have hN₁ := Nat.le_trans hN hf₁.later.cells_le
    refine (balanced_key hb hf₁.sound hN₁ hn₁ hkey).bind fun key h₃ hr₃ => ?_
    have hn₃ := ((accounts_key (hacc .read) k).of_ok hr₃).assignIfDeferred hn₁
    rw [run_key] at hr₃
    obtain ⟨hf₃, _⟩ := (safe_assignKey hv hf₁.sound hN₁ hkey).of_ok hr₃
    have hN₃ := Nat.le_trans hN₁ hf₃.later.cells_le
    refine (hb .read value h₃ hf₃.sound hvalue hN₃ hn₃).bind fun w h₄ _ => ?_
    refine (balanced_idle (idle_view w)).bind fun a h₅ _ => ?_
    exact (balanced_write node b key a).bind fun _ h₆ _ => balanced_pure _

end Visits

/-- A reading of a node counts the write it has made. -/
theorem balanced_emit_read (id : NodeId) :
    Balanced n (if some id = some n then 1 else 0) 0 (emit (.read id)) h := by
  by_cases hid : id = n <;> simp [Balanced, emit, pure, EStateM.pure, readingsOf, writesOf,
    isWriteOf, hid, Nat.add_comm]

/-- Caching a node counts the write it has made. -/
theorem balanced_cache {id : NodeId} {e : Expression} (hs : h.state? id = some (.deferred e))
    (v : Value) :
    Balanced n (if some id = some n then 1 else 0) 0 (quiet (modify (·.cache id v))) h := by
  show 0 + h.kept n + (if some id = some n then 1 else 0) = 0 + (h.cache id v).kept n + 0
  rw [Heap.kept_cache hs]
  by_cases hid : id = n <;> simp [hid]

/-- **Visits are balanced**, by induction on the depth. -/
theorem balanced_visit {depth : Nat} {demand : Demand} {id : NodeId} (hs : h.Sound)
    (hid : id < h.cells.size) (hd : id < depth) (hn : h.AssignIfDeferred n) :
    Balanced n 0 0 (visit depth demand id) h := by
  induction depth generalizing demand id h with
  | zero => exact absurd hd (Nat.not_lt_zero id)
  | succ depth ih =>
    have hcount : Balanced n 0 0 (quiet (countRead id)) h :=
      balanced_quiet (Heap.state?_countRead h id)
    refine (balanced_idle (idle_state id)).bind fun s h₁ hr₁ => ?_
    obtain rfl : h₁ = h := idle_eq_of_ok (idle_state id) hr₁
    have hst : h₁.state? id = some s := ((safe_state hs hid).of_ok hr₁).2.2
    cases s with
    | cached v =>
      cases demand with
      | force => exact balanced_pure v
      | read => exact hcount.bind fun _ _ _ => balanced_pure v
    | deferred e =>
      refine hcount.bind fun _ h₂ hr₂ => ?_
      obtain ⟨hf₂, rfl⟩ := (safe_countRead hs id).of_ok hr₂
      have hN : id ≤ (h₁.countRead id).cells.size := by
        rw [Heap.size_cells_countRead]
        exact Nat.le_of_lt hid
      have hv : SafeBelow id fun demand c => (visit depth demand c).run := by
        simp only [run_visit]
        exact safeBelow_visit (Nat.le_of_lt_succ hd)
      have hb : BalancedBelow id n (visit depth) := fun demand c h' hs' hc hN' hn' =>
        ih hs' (Nat.lt_of_lt_of_le hc hN') (Nat.lt_of_lt_of_le hc (Nat.le_of_lt_succ hd)) hn'
      have hchildren := hs.ordered id _ hst
      have hassign : some id = some n → (NodeStatus.deferred e).isAssign = true := by
        rintro ⟨⟩
        exact hn e hst
      have hn₂ := ((accounts_countRead id).of_ok hr₂).assignIfDeferred hn
      have heval := balanced_evaluate hv (accounts_visit depth) hb hf₂.sound hN hn₂ hchildren
        hassign
      refine heval.bind fun v h₃ hr₃ => ?_
      cases demand with
      | read => exact (balanced_emit_read id).bind fun _ _ _ => balanced_pure v
      | force =>
        rw [run_evaluate] at hr₃
        obtain ⟨_, _, hsame⟩ :=
          (safe_evaluate hv hf₂.sound hN hchildren (hs.held id _ · hst)).of_ok hr₃
        have hdeferred : h₃.state? id = some (.deferred e) :=
          (hsame id (Nat.le_refl id)).trans ((Heap.state?_countRead h₁ id id).trans hst)
        exact (balanced_cache hdeferred v).bind fun _ _ _ => balanced_pure v

end Logged

/-! ## Nodes that are never read -/

/-- The nodes that evaluating an expression reads: all of its children but the base of an
assignment. -/
def Expression.operands : Expression → List NodeId
  | data _ => []
  | scalar _ => []
  | unary _ x => [x]
  | binary _ x y => [x, y]
  | assign _ key value => key.children ++ [value]

/-- No deferred expression reads a node. -/
def Heap.NoOperand (h : Heap) (n : NodeId) : Prop :=
  ∀ i e, h.state? i = some (.deferred e) → n ∉ e.operands

namespace Logged

variable {α β : Type} {h : Heap} {n : NodeId}

/-- What no expression reads, none reads later. -/
theorem Explains.noOperand {log : List Event} {h' : Heap} (hx : Explains log h h')
    (hn : h.NoOperand n) : h'.NoOperand n := fun i e he => hn i e (hx.deferred i e he)

/-- A computation reads a node not once. -/
def Unread (n : NodeId) (m : Logged α) (h : Heap) : Prop := readingsOf n (m.log h) = 0

/-- A sequence reads a node to the end only if one of its parts does. -/
theorem Unread.bind {m : Logged α} {f : α → Logged β} (hm : Unread n m h)
    (hf : ∀ a h', m.run h = .ok a h' → Unread n (f a) h') : Unread n (m >>= f) h := by
  cases hr : m.run h with
  | ok a h' =>
    rw [Unread, log_bind_of_ok hr, readingsOf_append, hm, hf a h' hr]
  | error e h' =>
    rw [Unread, log_bind_of_error hr]
    exact hm

theorem unread_quiet (m : Eval α) : Unread n (quiet m) h := rfl

theorem unread_pure (a : α) : Unread n (pure a : Logged α) h := rfl

theorem unread_store (a : Tensor) : Unread n (store a) h := by
  cases hs : a.toScalar? <;> simp [Unread, store, hs, readingsOf]

/-- A write is no reading. -/
theorem unread_write (node : Option NodeId) (b : BufferId) (k : Selection) (a : Tensor) :
    Unread n (write node b k a) h := by
  cases hb : h.buffer? b with
  | none => simp [Unread, write, hb]
  | some t => cases hc : t.set k a <;> simp [Unread, write, hb, hc, readingsOf]

/-- An expression reads a node only if the node is an operand. -/
theorem unread_evaluate {visit : Demand → NodeId → Logged Value}
    (hacc : ∀ demand id, (visit demand id).Accounts)
    (hv : ∀ demand id h, h.NoOperand n → demand = .force ∨ id ≠ n → Unread n (visit demand id) h)
    (hn : h.NoOperand n) (node : Option NodeId) {e : Expression} (he : n ∉ e.operands) :
    Unread n (evaluate node visit e) h := by
  cases e with
  | data b => exact unread_pure _
  | scalar s => exact unread_pure _
  | unary op x =>
    have hx : x ≠ n := fun heq => he (by simp [Expression.operands, heq])
    refine (hv .read x h hn (.inr hx)).bind fun v h₁ _ => ?_
    refine (unread_quiet _).bind fun a h₂ _ => ?_
    exact (unread_quiet _).bind fun c h₃ _ => unread_store c
  | binary op x y =>
    have hx : x ≠ n := fun heq => he (by simp [Expression.operands, heq])
    have hy : y ≠ n := fun heq => he (by simp [Expression.operands, heq])
    refine (hv .read x h hn (.inr hx)).bind fun v h₁ hr₁ => ?_
    have hn₁ := ((hacc .read x).of_ok hr₁).noOperand hn
    refine (hv .read y h₁ hn₁ (.inr hy)).bind fun w h₂ _ => ?_
    refine (unread_quiet _).bind fun a h₃ _ => (unread_quiet _).bind fun b h₄ _ => ?_
    exact (unread_quiet _).bind fun c h₅ _ => unread_store c
  | assign base k value =>
    have hvalue : value ≠ n := fun heq => he (by simp [Expression.operands, heq])
    refine (hv .force base h hn (.inl rfl)).bind fun v h₁ hr₁ => ?_
    have hn₁ := ((hacc .force base).of_ok hr₁).noOperand hn
    refine (unread_quiet _).bind fun b h₂ hr₂ => ?_
    have hn₂ := ((accounts_idle (idle_target base v)).of_ok hr₂).noOperand hn₁
    have hkey : Unread n (key (visit .read) k) h₂ := by
      cases k with
      | position i => exact unread_pure _
      | node id =>
        have hid : id ≠ n := fun heq => he (by simp [Expression.operands, AssignKey.children, heq])
        exact (hv .read id h₂ hn₂ (.inr hid)).bind fun w h₃ _ => unread_quiet _
    refine hkey.bind fun key h₃ hr₃ => ?_
    have hn₃ := ((accounts_key (hacc .read) k).of_ok hr₃).noOperand hn₂
    refine (hv .read value h₃ hn₃ (.inr hvalue)).bind fun w h₄ _ => ?_
    refine (unread_quiet _).bind fun a h₅ _ => ?_
    exact (unread_write node b key a).bind fun _ h₆ _ => unread_pure _

/-- **A node that no expression reads is read by no visit**, unless the visit starts with it. -/
theorem unread_visit {depth : Nat} {demand : Demand} {id : NodeId} (hn : h.NoOperand n)
    (hd : demand = .force ∨ id ≠ n) : Unread n (visit depth demand id) h := by
  induction depth generalizing demand id h with
  | zero => exact unread_quiet _
  | succ depth ih =>
    refine (unread_quiet _).bind fun s h₁ hr₁ => ?_
    obtain rfl : h₁ = h := idle_eq_of_ok (idle_state id) hr₁
    cases s with
    | cached v =>
      cases demand with
      | force => exact unread_pure v
      | read => exact (unread_quiet _).bind fun _ _ _ => unread_pure v
    | deferred e =>
      have hst : h₁.state? id = some (.deferred e) := by
        cases hs : h₁.state? id with
        | none => exact nomatch (state_eq_none hs).symm.trans hr₁
        | some s => exact (EStateM.Result.ok.inj ((state_eq hs).symm.trans hr₁)).1 ▸ rfl
      refine (unread_quiet _).bind fun _ h₂ hr₂ => ?_
      have hn₂ := ((accounts_countRead id).of_ok hr₂).noOperand hn
      refine (unread_evaluate (accounts_visit depth) (fun _ _ _ => ih) hn₂ (some id)
        (hn id e hst)).bind fun v h₃ _ => ?_
      cases demand with
      | force => exact (unread_quiet _).bind fun _ _ _ => unread_pure v
      | read =>
        have hid : id ≠ n := hd.resolve_left nofun
        have hemit : Unread n (emit (.read id)) h₃ := by simp [Unread, emit, readingsOf, hid]
        exact hemit.bind fun _ _ _ => unread_pure v

end Logged

end DeferredArrays
