import DeferredArrays.Proofs.Graph.Counting
import DeferredArrays.Proofs.Graph.Pure

/-!
# Proofs/Graph/Effects — what an evaluation does to the heap, one effect after the other

An evaluation is a tree of **visits**: evaluating an expression makes visits of the nodes it refers
to, each in the heap that those before it have left (`Expression.Calls`), and these make visits in
turn (`Visit.Makes`).  A node is forced only where an evaluation starts, or as the base of an
assignment that is evaluated.

What a visit does to the heap itself, apart from the visits that it makes, is one of three
**effects** (`Effect`): it counts a read, it comes to the value of an expression and leaves the node
deferred, or it comes to the value and caches it.  What coming to a value does is read off the
expression (`Expression.Delivers`): a result of an operator goes into a buffer of its own, and an
assignment writes to the buffer its base is cached on.

A visit is a sequence of effects of the visits that it makes (`Logged.isEffects_visit`), whether it succeeds
or fails.  So what one effect preserves, every evaluation preserves, and what follows about
evaluations follows from the three cases.
-/

namespace DeferredArrays

open Relation Heap Eval

/-! ## Visits -/

/-- **A visit of a node**, in the heap it starts from. -/
structure Visit where
  /-- The bound for the depth of the graph. -/
  depth : Nat
  /-- How the node is visited. -/
  demand : Demand
  /-- The node. -/
  node : NodeId
  /-- The heap. -/
  heap : Heap

/-- What a visit comes to. -/
def Visit.result (x : Visit) : EStateM.Result Error Heap Value := visit x.depth x.demand x.node x.heap

/-- **The visits that the evaluation of an expression makes** itself.  Each takes place if those
before it succeed. -/
inductive Expression.Calls (depth : Nat) (h : Heap) : Expression → Visit → Prop
  | operand {op : UnaryOp} {x : NodeId} : Calls depth h (.unary op x) ⟨depth, .read, x, h⟩
  | left {op : BinaryOp} {x y : NodeId} : Calls depth h (.binary op x y) ⟨depth, .read, x, h⟩
  | right {op : BinaryOp} {x y : NodeId} {v : Value} {h₁ : Heap}
    (hx : visit depth .read x h = .ok v h₁) : Calls depth h (.binary op x y) ⟨depth, .read, y, h₁⟩
  | base {base value : NodeId} {k : AssignKey} :
    Calls depth h (.assign base k value) ⟨depth, .force, base, h⟩
  | key {base c value : NodeId} {b : BufferId} {h₁ : Heap}
    (hbase : visit depth .force base h = .ok (.array b) h₁) :
    Calls depth h (.assign base (.node c) value) ⟨depth, .read, c, h₁⟩
  | value {base value : NodeId} {k : AssignKey} {b : BufferId} {s : Selection} {h₁ h₂ : Heap}
    (hbase : visit depth .force base h = .ok (.array b) h₁)
    (hkey : k.evaluate (visit depth .read) h₁ = .ok s h₂) :
    Calls depth h (.assign base k value) ⟨depth, .read, value, h₂⟩

namespace Visit

/-- The visits that a visit makes itself: those of the expression, if the node is deferred. -/
inductive Calls : Visit → Visit → Prop
  | evaluated {depth : Nat} {demand : Demand} {id : NodeId} {h : Heap} {e : Expression} {y : Visit}
    (hs : h.state? id = some (.deferred e)) (hy : e.Calls depth (h.countRead id) y) :
    Calls ⟨depth + 1, demand, id, h⟩ y

/-- **The visits that a visit makes**, at any depth, and the visit itself. -/
def Makes : Visit → Visit → Prop := ReflTransGen Calls

theorem Makes.refl (x : Visit) : x.Makes x := ReflTransGen.refl

end Visit

/-- Only the base of an assignment is forced. -/
theorem Expression.Calls.eq_assign {depth : Nat} {h : Heap} {e : Expression} {y : Visit}
    (hy : e.Calls depth h y) (hforce : y.demand = .force) :
    ∃ key value, e = .assign y.node key value := by
  cases hy with
  | base => exact ⟨_, _, rfl⟩
  | operand => cases hforce
  | left => cases hforce
  | right => cases hforce
  | key => cases hforce
  | value => cases hforce

/-- **A node that is forced on the way** is the base of an assignment that is evaluated. -/
theorem Visit.Makes.called {x y : Visit} (hm : x.Makes y) (hforce : y.demand = .force) :
    y = x ∨ ∃ z key value, x.Makes z ∧
      z.heap.state? z.node = some (.deferred (.assign y.node key value)) := by
  rcases ReflTransGen.cases_tail hm with rfl | ⟨z, hm, hs, hy⟩
  · exact .inl rfl
  · obtain ⟨key, value, rfl⟩ := hy.eq_assign hforce
    exact .inr ⟨_, key, value, hm, hs⟩

/-! ## Effects -/

/-- An operator, applied to nodes. -/
def Expression.isOperator : Expression → Bool
  | unary .. => true
  | binary .. => true
  | _ => false

/-- **How the value of an expression is delivered**, once what it refers to has been evaluated.  The
expression may be that of a node, on whose behalf an assignment writes. -/
inductive Expression.Delivers (node : Option NodeId) (h : Heap) :
    Expression → Value → List Event → Heap → Prop
  /-- An array is in its buffer already. -/
  | data {b : BufferId} : Delivers node h (.data b) (.array b) [] h
  | scalar {s : Scalar} : Delivers node h (.scalar s) (.scalar s) [] h
  /-- A result of rank zero is a scalar. -/
  | result {e : Expression} {s : Scalar} (he : e.isOperator) : Delivers node h e (.scalar s) [] h
  /-- Any other result goes into a new buffer. -/
  | stored {e : Expression} {a : Tensor} (he : e.isOperator) :
    Delivers node h e (.array h.buffers.size) [.allocate a] (h.addBuffer a).2
  /-- An assignment writes to the buffer that its base is cached on. -/
  | assigned {base value : NodeId} {key : AssignKey} {b : BufferId} {k : Selection} {t a c : Tensor}
    (hbase : h.state? base = some (.cached (.array b))) (ht : h.buffer? b = some t)
    (hc : t.set k a = .ok c) :
    Delivers node h (.assign base key value) (.array b) [.write node b c] (h.setBuffer b c)

/-- **An effect of a visit**, one of those in `P`, with the events it causes. -/
inductive Effect (P : Visit → Prop) (h : Heap) : List Event → Heap → Prop
  /-- The visit is counted. -/
  | count {x : Visit} (hx : P x) : Effect P h [] (h.countRead x.node)
  /-- The value is delivered, and the node stays deferred. -/
  | read {x : Visit} {e : Expression} {v : Value} {log : List Event} {h' : Heap} (hx : P x)
    (hs : h.state? x.node = some (.deferred e)) (hd : e.Delivers (some x.node) h v log h') :
    Effect P h (log ++ [.read x.node]) h'
  /-- The value is delivered and the node is cached: the visit has forced it. -/
  | force {x : Visit} {e : Expression} {v : Value} {log : List Event} {h' : Heap} (hx : P x)
    (hforce : x.demand = .force) (hs : h.state? x.node = some (.deferred e))
    (hd : e.Delivers (some x.node) h v log h') (hr : x.result = .ok v (h'.cache x.node v)) :
    Effect P h log (h'.cache x.node v)

/-- **Effects in sequence.** -/
inductive Effects (P : Visit → Prop) (h : Heap) : List Event → Heap → Prop
  | refl : Effects P h [] h
  | tail {log log' : List Event} {h₁ h₂ : Heap} (hfirst : Effects P h log h₁)
    (hlast : Effect P h₁ log' h₂) : Effects P h (log ++ log') h₂

section Effects

variable {P Q : Visit → Prop} {h h₁ h₂ : Heap} {log log' : List Event} {node : Option NodeId}
  {e : Expression} {v : Value}

/-- An effect of visits with a property is one of visits with a weaker one … -/
theorem Effect.mono (hpq : ∀ x, P x → Q x) (he : Effect P h log h₁) : Effect Q h log h₁ := by
  cases he with
  | count hx => exact .count (hpq _ hx)
  | read hx hs hd => exact .read (hpq _ hx) hs hd
  | force hx hforce hs hd hr => exact .force (hpq _ hx) hforce hs hd hr

/-- … and so is a sequence of effects. -/
theorem Effects.mono (hpq : ∀ x, P x → Q x) (he : Effects P h log h₁) : Effects Q h log h₁ := by
  induction he with
  | refl => exact .refl
  | tail _ hlast ih => exact ih.tail (hlast.mono hpq)

theorem Effects.single (he : Effect P h log h₁) : Effects P h log h₁ := Effects.refl.tail he

/-- Sequences of effects, one after the other. -/
theorem Effects.trans (hfirst : Effects P h log h₁) (hnext : Effects P h₁ log' h₂) :
    Effects P h (log ++ log') h₂ := by
  induction hnext with
  | refl => rwa [List.append_nil]
  | tail _ hlast ih =>
    rw [← List.append_assoc]
    exact ih.tail hlast

/-- Delivering a value changes no state. -/
theorem Expression.Delivers.state?_eq (hd : e.Delivers node h v log h₁) (i : NodeId) :
    h₁.state? i = h.state? i := by
  cases hd <;> rfl

/-- **A deferred node was deferred all along**, with the same expression. -/
theorem Effect.deferred (he : Effect P h log h₁) {i : NodeId} {e : Expression}
    (hs : h₁.state? i = some (.deferred e)) : h.state? i = some (.deferred e) := by
  cases he with
  | count => rwa [state?_countRead] at hs
  | read _ _ hd => rwa [hd.state?_eq] at hs
  | force _ _ _ hd =>
    rw [state?_cache, hd.state?_eq] at hs
    split at hs
    next => cases hst : h.state? i <;> rw [hst] at hs <;> cases hs
    next => exact hs

/-- So it was before any sequence of effects. -/
theorem Effects.deferred (he : Effects P h log h₁) {i : NodeId} {e : Expression}
    (hs : h₁.state? i = some (.deferred e)) : h.state? i = some (.deferred e) := by
  induction he with
  | refl => exact hs
  | tail _ hlast ih => exact ih (hlast.deferred hs)

end Effects

/-! ## Computations as effects -/

namespace Logged

variable {α β : Type} {P : Visit → Prop} {h : Heap}

/-- A computation is a sequence of effects. -/
def IsEffects (P : Visit → Prop) (m : Logged α) (h : Heap) : Prop :=
  Effects P h (m.log h) (after m.run h)

/-- **A computation is a sequence of effects, and then delivers its result**, unless it fails. -/
def Ends (P : Visit → Prop) (m : Logged α) (h : Heap)
    (R : Heap → α → List Event → Heap → Prop) : Prop :=
  match m.run h with
  | .ok a h' => ∃ log h₁ last, m.log h = log ++ last ∧ Effects P h log h₁ ∧ R h₁ a last h'
  | .error _ h' => Effects P h (m.log h) h'

variable {R : Heap → α → List Event → Heap → Prop}

/-- **A sequence of computations is a sequence of effects** if its parts are … -/
theorem IsEffects.bind {m : Logged α} {f : α → Logged β} (hm : IsEffects P m h)
    (hf : ∀ a h', m.run h = .ok a h' → IsEffects P (f a) h') : IsEffects P (m >>= f) h := by
  unfold IsEffects at hm ⊢
  rw [run_bind]
  cases hr : m.run h with
  | ok a h' =>
    rw [after_of_ok hr] at hm
    rw [after, bind_eq_of_ok hr, log_bind_of_ok hr]
    exact hm.trans (hf a h' hr)
  | error e h' =>
    rw [after_of_error hr] at hm
    rw [after, bind_eq_of_error hr, log_bind_of_error hr]
    exact hm

/-- … and ends as its second part does. -/
theorem Ends.bind {S : Heap → β → List Event → Heap → Prop} {m : Logged α} {f : α → Logged β}
    (hm : IsEffects P m h) (hf : ∀ a h', m.run h = .ok a h' → Ends P (f a) h' S) :
    Ends P (m >>= f) h S := by
  unfold IsEffects at hm
  unfold Ends
  rw [run_bind]
  cases hr : m.run h with
  | ok a h' =>
    have hnext := hf a h' hr
    rw [after_of_ok hr] at hm
    rw [bind_eq_of_ok hr, log_bind_of_ok hr]
    unfold Ends at hnext
    split at hnext
    next =>
      obtain ⟨log, h₁, last, hlog, heffects, hend⟩ := hnext
      exact ⟨m.log h ++ log, h₁, last, by rw [hlog, List.append_assoc], hm.trans heffects, hend⟩
    next => exact hm.trans hnext
  | error e h' =>
    rw [after_of_error hr] at hm
    rw [bind_eq_of_error hr, log_bind_of_error hr]
    exact hm

/-- What comes after the result makes a sequence of effects of it. -/
theorem Ends.isEffects_bind {m : Logged α} {f : α → Logged β} (hm : Ends P m h R)
    (hf : ∀ h₁ a last h', m.run h = .ok a h' → R h₁ a last h' →
      Effects P h₁ (last ++ (f a).log h') (after (f a).run h')) : IsEffects P (m >>= f) h := by
  unfold IsEffects
  unfold Ends at hm
  rw [run_bind]
  cases hr : m.run h with
  | ok a h' =>
    rw [hr] at hm
    obtain ⟨log, h₁, last, hlog, heffects, hend⟩ := hm
    rw [after, bind_eq_of_ok hr, log_bind_of_ok hr, hlog, List.append_assoc]
    exact heffects.trans (hf h₁ a last h' hr hend)
  | error e h' =>
    rw [hr] at hm
    rw [after, bind_eq_of_error hr, log_bind_of_error hr]
    exact hm

theorem isEffects_pure (a : α) : IsEffects P (pure a : Logged α) h := .refl

/-- What leaves the heap alone has no effects. -/
theorem isEffects_idle {m : Eval α} (hm : Idle m) : IsEffects P (quiet m) h := by
  show Effects P h [] (after m h)
  rw [hm h]
  exact .refl

/-- Something that leaves the heap alone may come first. -/
theorem Ends.idle_bind {S : Heap → β → List Event → Heap → Prop} {m : Eval α} {f : α → Logged β}
    (hm : Idle m) (hf : ∀ a, m h = .ok a h → Ends P (f a) h S) : Ends P (quiet m >>= f) h S := by
  refine .bind (isEffects_idle hm) fun a h' hr => ?_
  obtain rfl := idle_eq_of_ok hm hr
  exact hf a hr

theorem ends_pure {a : α} (ha : R h a [] h) : Ends P (pure a : Logged α) h R :=
  ⟨[], h, [], rfl, .refl, ha⟩

/-- An operator delivers the array that it stores … -/
theorem ends_store {node : Option NodeId} {e : Expression} (he : e.isOperator) (a : Tensor) :
    Ends P (store a) h (e.Delivers node) := by
  unfold Ends
  cases hs : a.toScalar? with
  | some s =>
    simp only [store, hs, store_scalar hs]
    exact ⟨[], h, [], rfl, .refl, .result he⟩
  | none =>
    simp only [store, hs, store_array hs]
    exact ⟨[], h, [.allocate a], rfl, .refl, .stored he⟩

/-- … and an assignment its base, once it has written to it. -/
theorem ends_write {node : Option NodeId} {base value : NodeId} {key : AssignKey} {b : BufferId}
    (hbase : h.state? base = some (.cached (.array b))) (k : Selection) (a : Tensor) :
    Ends P (do write node b k a; pure (.array b)) h
      ((Expression.assign base key value).Delivers node) := by
  unfold Ends
  rw [run_bind]
  cases hb : h.buffer? b with
  | none =>
    have hr : (write node b k a).run h = .error _ h := write_eq_dangling hb
    rw [bind_eq_of_error hr, log_bind_of_error hr]
    simp only [write, hb]
    exact .refl
  | some t =>
    cases hc : t.set k a with
    | error e =>
      have hr : (write node b k a).run h = .error _ h := write_eq_error hb hc
      rw [bind_eq_of_error hr, log_bind_of_error hr]
      simp only [write, hb, hc]
      exact .refl
    | ok c =>
      have hr : (write node b k a).run h = .ok () _ := write_eq hb hc
      rw [bind_eq_of_ok hr, log_bind_of_ok hr]
      simp only [write, hb, hc]
      exact ⟨[], h, [.write node b c], rfl, .refl, .assigned hbase hb hc⟩

/-! ## Visits as effects -/

/-- A node that was forced is cached with the value. -/
theorem state?_of_force {depth : Nat} {id : NodeId} {v : Value} {h' : Heap}
    (hr : DeferredArrays.visit depth .force id h = .ok v h') :
    h'.state? id = some (.cached v) := by
  cases depth with
  | zero => cases hr
  | succ depth =>
    cases hs : h.state? id with
    | none => cases (bind_eq_of_error (state_eq_none hs)).symm.trans hr
    | some s =>
      cases s with
      | cached w =>
        cases (force_cached hs).symm.trans hr
        exact hs
      | deferred e =>
        rw [force_deferred hs] at hr
        cases hread : DeferredArrays.visit (depth + 1) .read id h with
        | error e h₁ => cases (bind_eq_of_error hread).symm.trans hr
        | ok w h₁ =>
          cases (bind_eq_of_ok hread).symm.trans hr
          have hacc := accounts_visit (depth + 1) .read id h
          rw [run_visit, after_of_ok hread] at hacc
          obtain ⟨s, hs₁⟩ := exists_state? (hacc.cells.symm ▸ lt_of_state? hs)
          rw [state?_cache, if_pos rfl, hs₁]
          rfl

section Evaluation

variable {depth : Nat} {n : NodeId}

/-- Visits of nodes before `n` are sequences of effects of the visits that they make. -/
def EffectsBelow (n : NodeId) (depth : Nat) : Prop :=
  ∀ demand id h, h.Sound → id < n → n ≤ h.cells.size →
    IsEffects (⟨depth, demand, id, h⟩ : Visit).Makes (visit depth demand id) h

/-- The key of an assignment is a sequence of effects of the visit of its node. -/
theorem isEffects_key (hv : EffectsBelow n depth) (hs : h.Sound) (hn : n ≤ h.cells.size)
    {k : AssignKey} (hk : ∀ c ∈ k.children, c < n)
    (hP : ∀ c, k = .node c → ∀ z, (⟨depth, .read, c, h⟩ : Visit).Makes z → P z) :
    IsEffects P (key (visit depth .read) k) h := by
  cases k with
  | position i => exact isEffects_pure _
  | node c =>
    have hread := hv .read c h hs (hk c (List.mem_singleton.mpr rfl)) hn
    exact IsEffects.bind (hread.mono (hP c rfl)) fun v _ _ => isEffects_idle (idle_key v)

/-- **The evaluation of an expression is a sequence of effects** of the visits that it makes, before
it delivers the value. -/
theorem ends_evaluate (hsafe : SafeBelow n (DeferredArrays.visit depth)) (hv : EffectsBelow n depth)
    (hs : h.Sound) (hn : n ≤ h.cells.size) {e : Expression} (hc : ∀ c ∈ e.children, c < n)
    (hP : ∀ y z, e.Calls depth h y → y.Makes z → P z) (node : Option NodeId) :
    Ends P (evaluate node (visit depth) e) h (e.Delivers node) := by
  cases e with
  | data b => exact ends_pure .data
  | scalar s => exact ends_pure .scalar
  | unary op x =>
    have hx := hv .read x h hs (hc x (by simp [Expression.children])) hn
    refine .bind (hx.mono (hP _ · .operand)) fun v h₁ _ => ?_
    refine .idle_bind (idle_view v) fun a _ => ?_
    exact .idle_bind (idle_lift _) fun c _ => ends_store rfl c
  | binary op x y =>
    have hxn : x < n := hc x (by simp [Expression.children])
    have hyn : y < n := hc y (by simp [Expression.children])
    refine .bind ((hv .read x h hs hxn hn).mono (hP _ · .left)) fun v h₁ hr₁ => ?_
    rw [run_visit] at hr₁
    have hf₁ := ((hsafe .read x h hs hxn hn).of_ok hr₁).1
    have hn₁ := Nat.le_trans hn hf₁.later.cells_le
    have hy := hv .read y h₁ hf₁.sound hyn hn₁
    refine .bind (hy.mono (hP _ · (.right hr₁))) fun w h₂ _ => ?_
    refine .idle_bind (idle_view v) fun a _ => ?_
    refine .idle_bind (idle_view w) fun b _ => ?_
    exact .idle_bind (idle_lift _) fun c _ => ends_store rfl c
  | assign base k value =>
    have hbn : base < n := hc base (by simp [Expression.children])
    have hkn : ∀ c ∈ k.children, c < n := fun c hck => hc c (by simp [Expression.children, hck])
    have hvn : value < n := hc value (by simp [Expression.children])
    refine .bind ((hv .force base h hs hbn hn).mono (hP _ · .base)) fun v h₁ hr₁ => ?_
    rw [run_visit] at hr₁
    have hf₁ := ((hsafe .force base h hs hbn hn).of_ok hr₁).1
    have hn₁ := Nat.le_trans hn hf₁.later.cells_le
    refine .idle_bind (idle_target base v) fun b hb => ?_
    obtain rfl : v = .array b := by
      cases v with
      | array b' => cases hb; rfl
      | scalar s => cases hb
    have hcached := state?_of_force hr₁
    have hkP : ∀ c, k = .node c → ∀ z, (⟨depth, .read, c, h₁⟩ : Visit).Makes z → P z := by
      rintro c rfl z hz
      exact hP _ z (.key hr₁) hz
    refine .bind (isEffects_key hv hf₁.sound hn₁ hkn hkP) fun s h₂ hr₂ => ?_
    rw [run_key] at hr₂
    simp only [run_visit] at hr₂
    have hf₂ := ((safe_assignKey hsafe hf₁.sound hn₁ hkn).of_ok hr₂).1
    have hn₂ := Nat.le_trans hn₁ hf₂.later.cells_le
    have hvalue := hv .read value h₂ hf₂.sound hvn hn₂
    refine .bind (hvalue.mono (hP _ · (.value hr₁ hr₂))) fun w h₃ hr₃ => ?_
    rw [run_visit] at hr₃
    have hf₃ := ((hsafe .read value h₂ hf₂.sound hvn hn₂).of_ok hr₃).1
    refine .idle_bind (idle_view w) fun a _ => ?_
    exact ends_write ((hf₂.trans hf₃).later.cached hcached) s a

end Evaluation

/-- **A visit is a sequence of effects** of the visits that it makes, by induction on the depth. -/
theorem isEffects_visit (depth : Nat) (demand : Demand) (id : NodeId) (hs : h.Sound)
    (hid : id < h.cells.size) (hd : id < depth) :
    IsEffects (⟨depth, demand, id, h⟩ : Visit).Makes (visit depth demand id) h := by
  induction depth generalizing demand id h with
  | zero => exact absurd hd (Nat.not_lt_zero id)
  | succ depth ih =>
    have hself := Visit.Makes.refl ⟨depth + 1, demand, id, h⟩
    have hcount : IsEffects (⟨depth + 1, demand, id, h⟩ : Visit).Makes (quiet (countRead id)) h :=
      Effects.single (.count hself)
    refine (isEffects_idle (idle_state id)).bind fun s h₁ hr₁ => ?_
    obtain rfl : h₁ = h := idle_eq_of_ok (idle_state id) hr₁
    have hst : h₁.state? id = some s := ((safe_state hs hid).of_ok hr₁).2.2
    cases s with
    | cached v =>
      cases demand with
      | force => exact isEffects_pure v
      | read => exact hcount.bind fun _ _ _ => isEffects_pure v
    | deferred e =>
      refine hcount.bind fun _ h₂ hr₂ => ?_
      obtain ⟨hf₂, rfl⟩ := (safe_countRead hs id).of_ok hr₂
      have hn : id ≤ (h₁.countRead id).cells.size := by
        rw [size_cells_countRead]
        exact Nat.le_of_lt hid
      have hsafe := safeBelow_visit (Nat.le_of_lt_succ hd)
      have hbelow : EffectsBelow id depth := fun demand c h' hs' hc hn' =>
        ih demand c hs' (Nat.lt_of_lt_of_le hc hn') (Nat.lt_of_lt_of_le hc (Nat.le_of_lt_succ hd))
      have hchildren := hs.ordered id _ hst
      have hmakes : ∀ y z, e.Calls depth (h₁.countRead id) y → y.Makes z →
          (⟨depth + 1, demand, id, h₁⟩ : Visit).Makes z := fun y z hy hz =>
        ReflTransGen.head (.evaluated hst hy) hz
      have hends := ends_evaluate hsafe hbelow hf₂.sound hn hchildren hmakes (some id)
      refine hends.isEffects_bind fun h₃ v last h' hr hdel => ?_
      rw [run_evaluate] at hr
      simp only [run_visit] at hr
      -- the node itself is not below itself, and still deferred when its value is delivered
      have hsame := ((safe_evaluate hsafe hf₂.sound hn hchildren (hs.held id _ · hst)).of_ok hr).2.2
      have hdeferred : h₃.state? id = some (.deferred e) := by
        rw [← hdel.state?_eq, hsame id (Nat.le_refl id), state?_countRead, hst]
      cases demand with
      | read => exact .single (.read hself hdeferred hdel)
      | force =>
        have hforce : DeferredArrays.visit (depth + 1) .force id h₁ = .ok v (h'.cache id v) := by
          rw [force_deferred hst]
          exact bind_eq_of_ok ((read_deferred hst).trans hr)
        have heffect := Effects.single (.force hself rfl hdeferred hdel hforce)
        rwa [← List.append_nil last] at heffect

end Logged

end DeferredArrays
