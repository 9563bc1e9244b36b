import DeferredArrays.Proofs.Graph.Unfolding

/-!
# Proofs/Graph/Pure — evaluating a graph without assignments

Without assignments, evaluation only adds buffers: it changes no node but the one that is forced,
and no array.  So a node has the value of its unfolded term, computed from the arrays in the leaves'
buffers and from nothing else (`Term.tensor?`).

The two differ in how they go about it.  The term is evaluated on arrays, while a visit stores every
intermediate result in a new buffer, or as a scalar when it has rank zero, and looks it up again.
Well-formedness is what makes the second way equal to the first: an array of rank zero with one
element is recovered from that element (`ofScalar_eq_of_toScalar?`).  So reading a node yields the
array of its term (`Eval.yields_read`), and so does forcing it (`Heap.materialize_eq`).

Nodes may be cached between the moment when the term is read off the graph and the visit.  What a
visit needs of the heap is that each node below still stands for what it stood for
(`Heap.Upholds`).
-/

namespace DeferredArrays

open Heap

/-! ## The array of a term -/

/-- **The array of a term**, given the contents of buffers.  Operands come before operators, left
before right. -/
def Term.tensor? (look : BufferId → Option Tensor) : Term → Except Error Tensor
  | array l =>
    match look l.buffer with
    | some a => .ok a
    | none => .error (.dangling (.buffer l.buffer))
  | scalar s => .ok (.ofScalar s)
  | unary op x => do
    let a ← x.tensor? look
    (a.unary op).mapError .tensor
  | binary op x y => do
    let a ← x.tensor? look
    let b ← y.tensor? look
    (a.binary op b).mapError .tensor

/-- What succeeds does so whatever its errors are called. -/
theorem mapError_eq_ok {r : Except TensorError Tensor} {c : Tensor}
    (hr : r.mapError Error.tensor = .ok c) : r = .ok c := by
  cases r with
  | ok a => exact congrArg _ (Except.ok.inj hr)
  | error e => cases hr

namespace Term

variable {look look' : BufferId → Option Tensor}

/-- The leaves of a term have well-formed arrays. -/
def Grounded (look : BufferId → Option Tensor) (t : Term) : Prop :=
  ∀ l ∈ t.leaves, ∃ a, look l.buffer = some a ∧ a.WellFormed

/-- **The array of a term depends on its leaves only.** -/
theorem tensor?_congr {t : Term} (hsame : ∀ l ∈ t.leaves, look l.buffer = look' l.buffer) :
    t.tensor? look = t.tensor? look' := by
  induction t with
  | array l => rw [tensor?, tensor?, hsame l (List.mem_singleton.mpr rfl)]
  | scalar s => rfl
  | unary op x ih => rw [tensor?, tensor?, ih hsame]
  | binary op x y ihx ihy =>
    rw [tensor?, tensor?, ihx fun l hl => hsame l (List.mem_append_left _ hl),
      ihy fun l hl => hsame l (List.mem_append_right _ hl)]

/-- The array of a term over well-formed arrays is well formed. -/
theorem wellFormed_tensor? {t : Term} (hg : t.Grounded look) {a : Tensor}
    (ha : t.tensor? look = .ok a) : a.WellFormed := by
  induction t generalizing a with
  | array l =>
    obtain ⟨c, hc, hwf⟩ := hg l (List.mem_singleton.mpr rfl)
    simp only [tensor?, hc, Except.ok.injEq] at ha
    exact ha ▸ hwf
  | scalar s =>
    cases ha
    exact Tensor.wellFormed_ofScalar s
  | unary op x ih =>
    rw [tensor?] at ha
    obtain ⟨c, hx, ha⟩ := exists_of_bind_eq_ok ha
    exact Tensor.wellFormed_unary (ih hg hx) (mapError_eq_ok ha)
  | binary op x y ihx ihy =>
    have hgx : x.Grounded look := fun l hl => hg l (List.mem_append_left _ hl)
    have hgy : y.Grounded look := fun l hl => hg l (List.mem_append_right _ hl)
    rw [tensor?] at ha
    obtain ⟨c, hx, ha⟩ := exists_of_bind_eq_ok ha
    obtain ⟨d, hy, ha⟩ := exists_of_bind_eq_ok ha
    exact Tensor.wellFormed_binary (ihx hgx hx) (ihy hgy hy) (mapError_eq_ok ha)

end Term

/-! ## Computations that only add -/

namespace Heap

/-- Nothing but buffers was added, and no node changed. -/
structure Extends (h h' : Heap) : Prop where
  /-- Nodes are in the same state. -/
  states : ∀ i, h'.state? i = h.state? i
  /-- Buffers have the same contents. -/
  buffers : ∀ b a, h.buffer? b = some a → h'.buffer? b = some a

theorem Extends.refl (h : Heap) : h.Extends h := ⟨fun _ => rfl, fun _ _ hb => hb⟩

/-- Adding twice is adding. -/
theorem Extends.trans {h₁ h₂ h₃ : Heap} (h : h₁.Extends h₂) (h' : h₂.Extends h₃) :
    h₁.Extends h₃ :=
  ⟨fun i => (h'.states i).trans (h.states i), fun b a hb => h'.buffers b a (h.buffers b a hb)⟩

/-- What only adds leaves graphs as they were. -/
theorem Extends.unfolds {h h' : Heap} (he : h.Extends h') {id : NodeId} {t : Term}
    (ht : h.Unfolds id t) : h'.Unfolds id t := by
  induction ht with
  | data hs => exact .data ((he.states _).trans hs)
  | cachedArray hs => exact .cachedArray ((he.states _).trans hs)
  | scalar hs => exact .scalar ((he.states _).trans hs)
  | cachedScalar hs => exact .cachedScalar ((he.states _).trans hs)
  | unary hs _ ih => exact .unary ((he.states _).trans hs) ih
  | binary hs _ _ ihx ihy => exact .binary ((he.states _).trans hs) ihx ihy

theorem extends_modifyCell (h : Heap) (id : NodeId) {f : Cell → Cell}
    (hf : ∀ c, (f c).state = c.state) : h.Extends (h.modifyCell id f) :=
  ⟨state?_modifyCell_of_state hf, fun _ _ hb => hb⟩

/-- Counting a read adds nothing that could be seen … -/
theorem extends_countRead (h : Heap) (id : NodeId) : h.Extends (h.countRead id) :=
  extends_modifyCell h id fun _ => rfl

/-- … and a new buffer nothing that there was. -/
theorem extends_addBuffer (h : Heap) (a : Tensor) : h.Extends (h.addBuffer a).2 :=
  ⟨fun _ => rfl, fun _ _ hb => (buffer?_addBuffer_of_lt (lt_of_buffer? hb)).trans hb⟩

/-- A write to a heap and to what extends it leaves one an extension of the other … -/
theorem Extends.setBuffer {h g : Heap} (he : h.Extends g) (B : BufferId) (c : Tensor) :
    (h.setBuffer B c).Extends (g.setBuffer B c) where
  states := he.states
  buffers i a hi := by
    rw [buffer?_setBuffer] at hi ⊢
    split at hi
    next heq =>
      obtain ⟨t, ht, rfl⟩ := Option.map_eq_some_iff.mp hi
      rw [if_pos heq, he.buffers i t ht]
      rfl
    next hne =>
      rw [if_neg hne]
      exact he.buffers i a hi

/-- … and so does caching. -/
theorem Extends.cache {h g : Heap} (he : h.Extends g) (id : NodeId) (v : Value) :
    (h.cache id v).Extends (g.cache id v) where
  states i := by rw [state?_cache, state?_cache, he.states i]
  buffers := he.buffers

/-- What only adds leads to a later heap. -/
theorem Extends.later {h g : Heap} (he : h.Extends g) : h.Later g :=
  ⟨fun i _ hs => .inl ((he.states i).trans hs), fun B a hB => ⟨a, he.buffers B a hB, .refl⟩⟩

theorem Extends.ordered {h g : Heap} (he : h.Extends g) (hord : h.Ordered) : g.Ordered :=
  fun i s hs => hord i s ((he.states i).symm.trans hs)

end Heap

namespace Eval

variable {h : Heap}

/-- A value is an array, looked up in a heap. -/
def Denotes (h : Heap) : Value → Tensor → Prop
  | .array b, a => h.buffer? b = some a
  | .scalar s, a => Tensor.ofScalar s = a

/-- A value stands for its array however much is added … -/
theorem Denotes.mono {h' : Heap} (he : h.Extends h') {v : Value} {a : Tensor}
    (hv : Denotes h v a) : Denotes h' v a := by
  cases v with
  | array b => exact he.buffers b a hv
  | scalar s => exact hv

/-- … and whatever becomes of the nodes. -/
theorem Denotes.of_buffers {h' : Heap} (hbuf : ∀ b, h'.buffer? b = h.buffer? b) {v : Value}
    {a : Tensor} (hv : Denotes h v a) : Denotes h' v a := by
  cases v with
  | array b => exact (hbuf b).trans hv
  | scalar s => exact hv

/-- The array that a value stands for is what is seen of it. -/
theorem view_eq {v : Value} {a : Tensor} (hv : Denotes h v a) : view v h = .ok a h := by
  cases v with
  | array b => exact buffer_eq hv
  | scalar s => rw [← show Tensor.ofScalar s = a from hv]; rfl

end Eval

/-- Whether a term evaluates to an array and not to a scalar: a leaf does, whatever the rank of its
array, and an operator does unless its result has rank zero. -/
def Term.isArray (a : Tensor) : Term → Bool
  | array _ => true
  | scalar _ => false
  | unary _ _ => a.toScalar?.isNone
  | binary _ _ _ => a.toScalar?.isNone

namespace Heap

open Eval

/-- **A node stands for what it stood for in an earlier heap.**  It is in the same state, and the
array it holds, if any, is the same; or it was cached since, with the value that it had. -/
inductive Upholds (h h' : Heap) (id : NodeId) : Prop
  | same (hs : h'.state? id = h.state? id)
    (hb : ∀ b a, h.Holds ⟨id, b⟩ → h.buffer? b = some a → h'.buffer? b = some a)
  | cached {v : Value} {t : Term} {a : Tensor} (hs : h'.state? id = some (.cached v))
    (ht : h.Unfolds id t) (ha : t.tensor? h.buffer? = .ok a) (hv : Denotes h' v a)
    (hkind : v.buffer?.isSome = t.isArray a)

variable {h h₁ h₂ : Heap} {id : NodeId}

theorem Upholds.refl (h : Heap) (id : NodeId) : h.Upholds h id := .same rfl fun _ _ _ hb => hb

/-- What upholds a node does so however much is added. -/
theorem Upholds.extends (hu : h.Upholds h₁ id) (he : h₁.Extends h₂) : h.Upholds h₂ id := by
  cases hu with
  | same hs hb =>
    exact .same ((he.states id).trans hs) fun b a hl ha => he.buffers b a (hb b a hl ha)
  | cached hs ht ha hv hkind => exact .cached ((he.states id).trans hs) ht ha (hv.mono he) hkind

end Heap

namespace Eval

variable {h : Heap}

/-- **A computation yields an array**, or fails with an error, and only adds to the heap. -/
def Yields (m : Eval Value) (h : Heap) : Except Error Tensor → Prop
  | .ok a => ∃ v h', m h = .ok v h' ∧ h.Extends h' ∧ Denotes h' v a
  | .error e => ∃ h', m h = .error e h' ∧ h.Extends h'

theorem lift_ok {α : Type} (a : α) : lift (.ok a) h = .ok a h := rfl

theorem lift_error {α : Type} (e : TensorError) :
    (lift (.error e) : Eval α) h = .error (.tensor e) h := rfl

/-- A stored array is what it yields. -/
theorem yields_store {a : Tensor} (ha : a.WellFormed) : Yields (store a) h (.ok a) := by
  cases hs : a.toScalar? with
  | some s => exact ⟨_, _, store_scalar hs, .refl h, Tensor.ofScalar_eq_of_toScalar? ha hs⟩
  | none =>
    refine ⟨_, _, store_array hs, extends_addBuffer h a, ?_⟩
    show (h.addBuffer a).2.buffer? h.buffers.size = some a
    rw [buffer?_addBuffer, if_pos rfl]

/-- The outcome of an operator, stored. -/
theorem yields_stored {r : Except TensorError Tensor} (hr : ∀ c, r = .ok c → c.WellFormed) :
    Yields (do store (← lift r)) h (r.mapError .tensor) := by
  cases r with
  | ok c =>
    obtain ⟨v, h', hv, he, hd⟩ := yields_store (h := h) (hr c rfl)
    exact ⟨v, h', (bind_eq_of_ok (lift_ok c)).trans hv, he, hd⟩
  | error e => exact ⟨h, bind_eq_of_error (lift_error e), .refl h⟩

/-- What a computation yields, it yields in a heap that was extended before. -/
theorem Yields.of_extends {m m' : Eval Value} {h' : Heap} {r : Except Error Tensor}
    (he : h.Extends h') (hrun : m h = m' h') (hm : Yields m' h' r) : Yields m h r := by
  cases r with
  | ok a =>
    obtain ⟨v, h'', hv, he', hd⟩ := hm
    exact ⟨v, h'', hrun.trans hv, he.trans he', hd⟩
  | error e =>
    obtain ⟨h'', hv, he'⟩ := hm
    exact ⟨h'', hrun.trans hv, he.trans he'⟩

/-- **A unary operator yields** what it makes of what its operand yields … -/
theorem yields_unary {op : UnaryOp} {x : NodeId} {visit : Demand → NodeId → Eval Value}
    {r : Except Error Tensor} (hr : ∀ a, r = .ok a → a.WellFormed)
    (hx : Yields (visit .read x) h r) :
    Yields ((Expression.unary op x).evaluate visit) h
      (r >>= fun a => (a.unary op).mapError .tensor) := by
  cases r with
  | error e =>
    obtain ⟨h', hv, he⟩ := hx
    exact ⟨h', bind_eq_of_error hv, he⟩
  | ok a =>
    obtain ⟨v, h', hv, he, hd⟩ := hx
    refine (yields_stored fun c hc => Tensor.wellFormed_unary (hr a rfl) hc).of_extends he ?_
    exact (bind_eq_of_ok hv).trans (bind_eq_of_ok (view_eq hd))

/-- … and a binary one, if the second operand still yields its array after the first. -/
theorem yields_binary {op : BinaryOp} {x y : NodeId} {visit : Demand → NodeId → Eval Value}
    {r q : Except Error Tensor} (hr : ∀ a, r = .ok a → a.WellFormed)
    (hq : ∀ a, q = .ok a → a.WellFormed) (hx : Yields (visit .read x) h r)
    (hy : ∀ h', h.Extends h' → Yields (visit .read y) h' q) :
    Yields ((Expression.binary op x y).evaluate visit) h
      (r >>= fun a => q >>= fun b => (a.binary op b).mapError .tensor) := by
  cases r with
  | error e =>
    obtain ⟨h', hv, he⟩ := hx
    exact ⟨h', bind_eq_of_error hv, he⟩
  | ok a =>
    obtain ⟨v, h₁, hv, he₁, hd₁⟩ := hx
    have hy := hy h₁ he₁
    cases q with
    | error e =>
      obtain ⟨h₂, hw, he₂⟩ := hy
      exact ⟨h₂, (bind_eq_of_ok hv).trans (bind_eq_of_error hw), he₁.trans he₂⟩
    | ok b =>
      obtain ⟨w, h₂, hw, he₂, hd₂⟩ := hy
      refine (yields_stored fun c hc =>
        Tensor.wellFormed_binary (hr a rfl) (hq b rfl) hc).of_extends (he₁.trans he₂) ?_
      refine (bind_eq_of_ok hv).trans ((bind_eq_of_ok hw).trans ?_)
      exact (bind_eq_of_ok (view_eq (hd₁.mono he₂))).trans (bind_eq_of_ok (view_eq hd₂))

/-! ## Visits -/

/-- A cached node gives its value at once … -/
theorem read_cached {d : Nat} {id : NodeId} {v : Value} (hs : h.state? id = some (.cached v)) :
    visit (d + 1) .read id h = .ok v (h.countRead id) :=
  (bind_eq_of_ok (state_eq hs)).trans rfl

/-- … and a deferred one that of its expression, a read apart. -/
theorem read_deferred {d : Nat} {id : NodeId} {e : Expression}
    (hs : h.state? id = some (.deferred e)) :
    visit (d + 1) .read id h = e.evaluate (visit d) (h.countRead id) := by
  refine (bind_eq_of_ok (state_eq hs)).trans ?_
  refine (bind_eq_of_ok (show countRead id h = .ok () (h.countRead id) from rfl)).trans ?_
  cases hr : e.evaluate (visit d) (h.countRead id) with
  | ok v h' => exact (bind_eq_of_ok hr).trans rfl
  | error e h' => exact bind_eq_of_error hr

/-- Forcing a cached node does nothing. -/
theorem force_cached {d : Nat} {id : NodeId} {v : Value} (hs : h.state? id = some (.cached v)) :
    visit (d + 1) .force id h = .ok v h :=
  (bind_eq_of_ok (state_eq hs)).trans rfl

/-- Forcing a deferred node reads it, and then caches the value. -/
theorem force_deferred {d : Nat} {id : NodeId} {e : Expression}
    (hs : h.state? id = some (.deferred e)) :
    visit (d + 1) .force id h
      = (do let v ← visit (d + 1) .read id; modify (·.cache id v); pure v : Eval Value) h := by
  refine (bind_eq_of_ok (state_eq hs)).trans ?_
  refine (bind_eq_of_ok (show countRead id h = .ok () (h.countRead id) from rfl)).trans ?_
  have hread := read_deferred (d := d) hs
  cases hr : e.evaluate (visit d) (h.countRead id) with
  | ok v h' =>
    refine (bind_eq_of_ok hr).trans (Eq.symm ?_)
    exact bind_eq_of_ok (hread.trans hr)
  | error e h' =>
    refine (bind_eq_of_error hr).trans (Eq.symm ?_)
    exact bind_eq_of_error (hread.trans hr)

/-- Caching a node with the value it is cached with changes nothing. -/
theorem cache_eq_self {id : NodeId} {v : Value} (hs : h.state? id = some (.cached v)) :
    h.cache id v = h := by
  obtain ⟨c, hc, hcached⟩ := state?_eq_some_iff.mp hs
  have hcells : h.cells.modify id (fun c => { c with state := .cached v }) = h.cells := by
    refine Array.ext_getElem? fun i => ?_
    rw [Array.getElem?_modify]
    split
    next heq =>
      subst heq
      have hc : h.cells[id]? = some c := hc
      rw [hc, Option.map_some, ← hcached]
    next => rfl
  rw [cache, modifyCell, hcells]

/-- Forcing a node that can be read caches it with its value. -/
theorem force_of_read_ok {depth : Nat} {id : NodeId} {v : Value} {h' : Heap}
    (hr : visit (depth + 1) .read id h = .ok v h') (he : h.Extends h') :
    ∃ g, visit (depth + 1) .force id h = .ok v (g.cache id v) ∧ h.Extends g ∧
      ∀ b, g.buffer? b = h'.buffer? b := by
  cases hs : h.state? id with
  | none => rw [visit, bind_eq_of_error (state_eq_none hs)] at hr; cases hr
  | some s =>
    cases s with
    | cached w =>
      rw [read_cached hs] at hr
      cases hr
      refine ⟨h, ?_, .refl h, fun _ => rfl⟩
      rw [cache_eq_self hs, force_cached hs]
    | deferred e =>
      refine ⟨h', ?_, he, fun _ => rfl⟩
      rw [force_deferred hs, bind_eq_of_ok hr]
      rfl

/-- Forcing a node that cannot be read fails as reading it does. -/
theorem force_of_read_error {depth : Nat} {id : NodeId} {e : Error} {h' : Heap}
    (hr : visit (depth + 1) .read id h = .error e h') :
    visit (depth + 1) .force id h = .error e h' := by
  cases hs : h.state? id with
  | none => rwa [visit, bind_eq_of_error (state_eq_none hs)] at hr ⊢
  | some s =>
    cases s with
    | cached w => rw [read_cached hs] at hr; cases hr
    | deferred e' => rw [force_deferred hs, bind_eq_of_error hr]

/-- A cached node is read off its state, so that only nodes in the state they were in are left. -/
theorem yields_of_upholds {h' : Heap} {depth : Nat} {id : NodeId} {t : Term}
    (hu : h.Upholds h' id) (ht : h.Unfolds id t)
    (hsame : h'.state? id = h.state? id →
      (∀ b a, h.Holds ⟨id, b⟩ → h.buffer? b = some a → h'.buffer? b = some a) →
        Yields (visit (depth + 1) .read id) h' (t.tensor? h.buffer?)) :
    Yields (visit (depth + 1) .read id) h' (t.tensor? h.buffer?) := by
  cases hu with
  | same hs hb => exact hsame hs hb
  | cached hs ht' ha hv _ =>
    obtain rfl := ht'.unique ht
    rw [ha]
    have hcount := extends_countRead h' id
    exact ⟨_, _, read_cached hs, hcount, hv.mono hcount⟩

/-- **Reading a node yields the array of its term**, by induction on the term.  The heap may have
changed since the node was unfolded, as long as the nodes below stand for what they stood for. -/
theorem yields_read {id : NodeId} {t : Term} (ht : h.Unfolds id t) (hord : h.Ordered)
    {depth : Nat} (hd : id < depth) (hg : t.Grounded h.buffer?) {h' : Heap}
    (hup : ∀ m, h.Reaches id m → h.Upholds h' m) :
    Yields (visit depth .read id) h' (t.tensor? h.buffer?) := by
  induction ht generalizing depth h' with
  | @data id b hs =>
    obtain ⟨depth, rfl⟩ := Nat.exists_eq_add_one_of_ne_zero (Nat.ne_zero_of_lt hd)
    refine yields_of_upholds (hup id .refl) (.data hs) fun hs' hb => ?_
    obtain ⟨a, ha, _⟩ := hg ⟨id, b⟩ (List.mem_singleton.mpr rfl)
    simp only [Term.tensor?, ha]
    have hread := read_deferred (d := depth) (hs'.trans hs)
    exact ⟨_, _, hread, extends_countRead h' id, hb _ a ⟨_, hs, rfl⟩ ha⟩
  | @cachedArray id b hs =>
    obtain ⟨depth, rfl⟩ := Nat.exists_eq_add_one_of_ne_zero (Nat.ne_zero_of_lt hd)
    refine yields_of_upholds (hup id .refl) (.cachedArray hs) fun hs' hb => ?_
    obtain ⟨a, ha, _⟩ := hg ⟨id, b⟩ (List.mem_singleton.mpr rfl)
    simp only [Term.tensor?, ha]
    exact ⟨_, _, read_cached (hs'.trans hs), extends_countRead h' id, hb _ a ⟨_, hs, rfl⟩ ha⟩
  | @scalar id s hs =>
    obtain ⟨depth, rfl⟩ := Nat.exists_eq_add_one_of_ne_zero (Nat.ne_zero_of_lt hd)
    refine yields_of_upholds (hup id .refl) (.scalar hs) fun hs' _ => ?_
    have hread := read_deferred (d := depth) (hs'.trans hs)
    exact ⟨_, _, hread, extends_countRead h' id, rfl⟩
  | @cachedScalar id s hs =>
    obtain ⟨depth, rfl⟩ := Nat.exists_eq_add_one_of_ne_zero (Nat.ne_zero_of_lt hd)
    refine yields_of_upholds (hup id .refl) (.cachedScalar hs) fun hs' _ => ?_
    exact ⟨_, _, read_cached (hs'.trans hs), extends_countRead h' id, rfl⟩
  | @unary id x op t hs hx ih =>
    obtain ⟨depth, rfl⟩ := Nat.exists_eq_add_one_of_ne_zero (Nat.ne_zero_of_lt hd)
    refine yields_of_upholds (hup id .refl) (.unary hs hx) fun hs' _ => ?_
    have hmem : x ∈ (NodeStatus.deferred (.unary op x)).children := List.mem_singleton.mpr rfl
    have hlt : x < depth := Nat.lt_of_lt_of_le (hord id _ hs x hmem) (Nat.le_of_lt_succ hd)
    have hgx : t.Grounded h.buffer? := hg
    have hcount := extends_countRead h' id
    have hupx : ∀ m, h.Reaches x m → h.Upholds (h'.countRead id) m := fun m hm =>
      (hup m (.head ⟨_, hs, hmem⟩ hm)).extends hcount
    have hread := ih hlt hgx hupx
    refine Yields.of_extends hcount (read_deferred (hs'.trans hs)) ?_
    exact yields_unary (fun a ha => Term.wellFormed_tensor? hgx ha) hread
  | @binary id x y op t u hs hx hy ihx ihy =>
    obtain ⟨depth, rfl⟩ := Nat.exists_eq_add_one_of_ne_zero (Nat.ne_zero_of_lt hd)
    refine yields_of_upholds (hup id .refl) (.binary hs hx hy) fun hs' _ => ?_
    have hmx : x ∈ (NodeStatus.deferred (.binary op x y)).children := List.mem_cons_self
    have hmy : y ∈ (NodeStatus.deferred (.binary op x y)).children :=
      List.mem_cons_of_mem x (List.mem_singleton.mpr rfl)
    have hltx : x < depth := Nat.lt_of_lt_of_le (hord id _ hs x hmx) (Nat.le_of_lt_succ hd)
    have hlty : y < depth := Nat.lt_of_lt_of_le (hord id _ hs y hmy) (Nat.le_of_lt_succ hd)
    have hgx : t.Grounded h.buffer? := fun l hl => hg l (List.mem_append_left _ hl)
    have hgy : u.Grounded h.buffer? := fun l hl => hg l (List.mem_append_right _ hl)
    have hcount := extends_countRead h' id
    have hupx : ∀ m, h.Reaches x m → h.Upholds (h'.countRead id) m := fun m hm =>
      (hup m (.head ⟨_, hs, hmx⟩ hm)).extends hcount
    have hread := ihx hltx hgx hupx
    refine Yields.of_extends hcount (read_deferred (hs'.trans hs)) ?_
    refine yields_binary (fun a ha => Term.wellFormed_tensor? hgx ha)
      (fun a ha => Term.wellFormed_tensor? hgy ha) hread fun h'' he => ?_
    exact ihy hlty hgy fun m hm => (hup m (.head ⟨_, hs, hmy⟩ hm)).extends (hcount.trans he)

end Eval

/-! ## Materializing -/

namespace Heap

/-- **The array a node evaluates to** when it is forced, a scalar as an array of rank zero. -/
def materialize (h : Heap) (id : NodeId) : Except Error Tensor :=
  match (do Eval.view (← Eval.force id) : Eval Tensor) h with
  | .ok a _ => .ok a
  | .error e _ => .error e

/-- The leaves of a graph in a sound heap have well-formed arrays. -/
theorem Unfolds.grounded {h : Heap} (hs : h.Sound) {id : NodeId} {t : Term} (ht : h.Unfolds id t) :
    t.Grounded h.buffer? := by
  intro l hl
  obtain ⟨a, ha⟩ := Holds.exists_buffer? hs (ht.holds l hl)
  exact ⟨a, ha, hs.wellFormed _ a ha⟩

/-- **Forcing a node gives the array of its term.** -/
theorem materialize_eq {h : Heap} (hord : h.Ordered) {id : NodeId} {t : Term}
    (ht : h.Unfolds id t) (hg : t.Grounded h.buffer?) :
    h.materialize id = t.tensor? h.buffer? := by
  have hread := Eval.yields_read ht hord (Nat.lt_succ_self id) hg fun m _ => .refl h m
  cases hr : t.tensor? h.buffer? with
  | ok a =>
    rw [hr] at hread
    obtain ⟨v, h', hv, he, hd⟩ := hread
    obtain ⟨g, hforce, _, hbuf⟩ := Eval.force_of_read_ok hv he
    have hview : Eval.view v (g.cache id v) = .ok a (g.cache id v) :=
      Eval.view_eq (hd.of_buffers hbuf)
    have hforce : Eval.force id h = .ok v (g.cache id v) := hforce
    rw [materialize, Eval.bind_eq_of_ok hforce, hview]
  | error e =>
    rw [hr] at hread
    obtain ⟨h', hv, _⟩ := hread
    have hforce : Eval.force id h = .error e h' := Eval.force_of_read_error hv
    rw [materialize, Eval.bind_eq_of_error hforce]

end Heap

end DeferredArrays
