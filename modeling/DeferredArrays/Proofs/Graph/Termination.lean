import DeferredArrays.Graph.Diagram
import DeferredArrays.Graph.Fusion
import DeferredArrays.Proofs.Graph.Frame
import DeferredArrays.Proofs.Graph.History

/-!
# Proofs/Graph/Termination — graphs have no cycles, and walking one ends and never blocks

Nodes are numbered in the order they are made, and an expression refers to nodes that were there
before.  So numbers decrease along every path, whatever was forced in between, and a walk from a node
ends within as many levels as its number says: visiting, drawing and writing a kernel are given a
bound for the depth, and no bound beyond the node's number makes a difference (`visit_depth`,
`lines_depth`, `writeBody_depth`).

A node is locked while it is forced, and whoever visits it has to wait for the lock.  An evaluation
that looks at the locks it holds itself (`lockedVisit`) comes to what an evaluation comes to that does
not, no matter what would happen at a lock: it never meets one (`lockedVisit_eq`).

Both are said of a single visit, given how the nodes below are visited (`Eval.step`): it depends on
visits of earlier nodes only (`step_congr`).  What a run of operations leads to is put together in
`terminates_run`.
-/

namespace DeferredArrays

open Relation Eval

/-! ## One visit -/

namespace Eval

/-- A visit of a node, given how the nodes below are visited. -/
def step (below : Demand → NodeId → Eval Value) (demand : Demand) (id : NodeId) : Eval Value := do
  match ← state id with
  | .cached v =>
    match demand with
    | .force => pure v
    | .read => do
      countRead id
      pure v
  | .deferred e => do
    countRead id
    let v ← e.evaluate below
    match demand with
    | .force => do
      modify (·.cache id v)
      pure v
    | .read => pure v

theorem visit_succ (depth : Nat) (demand : Demand) (id : NodeId) :
    visit (depth + 1) demand id = step (visit depth) demand id := rfl

section Congruence

variable {α β : Type} {h : Heap} {n : NodeId} {below below' : Demand → NodeId → Eval Value}

/-- Sequences agree if their first parts do, and their second parts on what these come to. -/
theorem bind_congr {m m' : Eval α} {f f' : α → Eval β} (hm : m' h = m h)
    (hf : ∀ a h', m h = .ok a h' → f' a h' = f a h') : (m' >>= f') h = (m >>= f) h := by
  rcases hr : m h with ⟨a, h'⟩ | ⟨e, h'⟩
  · rw [bind_eq_of_ok hr, bind_eq_of_ok (hm.trans hr), hf a h' hr]
  · rw [bind_eq_of_error hr, bind_eq_of_error (hm.trans hr)]

/-- Two ways to visit nodes agree below `n`. -/
def AgreeBelow (n : NodeId) (below' below : Demand → NodeId → Eval Value) : Prop :=
  ∀ demand id h, h.Sound → id < n → n ≤ h.cells.size → below' demand id h = below demand id h

theorem key_congr (heq : AgreeBelow n below' below) (hs : h.Sound) (hn : n ≤ h.cells.size)
    {k : AssignKey} (hk : ∀ c ∈ k.children, c < n) :
    k.evaluate (below' .read) h = k.evaluate (below .read) h := by
  rcases k with i | c
  · rfl
  · exact bind_congr (heq .read c h hs (hk c (List.mem_singleton.mpr rfl)) hn) fun _ _ _ => rfl

/-- **The value of an expression depends on visits of its children only**, each in the heap that
those before it have left. -/
theorem evaluate_congr (hsafe : SafeBelow n below) (heq : AgreeBelow n below' below) (hs : h.Sound)
    (hn : n ≤ h.cells.size) {e : Expression} (hc : ∀ c ∈ e.children, c < n) :
    e.evaluate below' h = e.evaluate below h := by
  have hnext : ∀ demand id h, h.Sound → id < n → n ≤ h.cells.size → ∀ v h',
      below demand id h = .ok v h' → h'.Sound ∧ n ≤ h'.cells.size :=
    fun demand id h hs hid hn v h' hr =>
      have hf := ((hsafe demand id h hs hid hn).of_ok hr).1
      ⟨hf.sound, Nat.le_trans hn hf.later.cells_le⟩
  rcases e with b | s | ⟨op, x⟩ | ⟨op, x, y⟩ | ⟨base, k, value⟩
  · rfl
  · rfl
  · have hx : x < n := hc x (by simp [Expression.children])
    exact bind_congr (heq .read x h hs hx hn) fun _ _ _ => rfl
  · have hx : x < n := hc x (by simp [Expression.children])
    have hy : y < n := hc y (by simp [Expression.children])
    refine bind_congr (heq .read x h hs hx hn) fun v h₁ hr₁ => ?_
    obtain ⟨hs₁, hn₁⟩ := hnext .read x h hs hx hn v h₁ hr₁
    exact bind_congr (heq .read y h₁ hs₁ hy hn₁) fun _ _ _ => rfl
  · have hbase : base < n := hc base (by simp [Expression.children])
    have hkey : ∀ c ∈ k.children, c < n := fun c hck => hc c (by simp [Expression.children, hck])
    have hvalue : value < n := hc value (by simp [Expression.children])
    refine bind_congr (heq .force base h hs hbase hn) fun v h₁ hr₁ => ?_
    obtain ⟨hs₁, hn₁⟩ := hnext .force base h hs hbase hn v h₁ hr₁
    refine bind_congr rfl fun b h₂ hr₂ => ?_
    obtain rfl : h₂ = h₁ := (after_of_ok hr₂).symm.trans (idle_target base v h₁)
    refine bind_congr (key_congr heq hs₁ hn₁ hkey) fun key h₃ hr₃ => ?_
    have hf₃ := ((safe_assignKey hsafe hs₁ hn₁ hkey).of_ok hr₃).1
    have hn₃ := Nat.le_trans hn₁ hf₃.later.cells_le
    exact bind_congr (heq .read value h₃ hf₃.sound hvalue hn₃) fun _ _ _ => rfl

/-- **A visit depends on visits of earlier nodes only.** -/
theorem step_congr {demand : Demand} {id : NodeId} (hsafe : SafeBelow id below)
    (heq : AgreeBelow id below' below) (hs : h.Sound) (hid : id < h.cells.size) :
    step below' demand id h = step below demand id h := by
  refine bind_congr rfl fun s h₁ hr => ?_
  obtain ⟨_, rfl, hst⟩ := (safe_state hs hid).of_ok hr
  rcases s with e | v
  · refine bind_congr rfl fun _ h₂ hr₂ => ?_
    obtain ⟨hf₂, rfl⟩ := (safe_countRead hs id).of_ok hr₂
    have hn : id ≤ (h₁.countRead id).cells.size := by
      rw [Heap.size_cells_countRead]
      exact Nat.le_of_lt hid
    exact bind_congr (evaluate_congr hsafe heq hf₂.sound hn (hs.ordered id _ hst)) fun _ _ _ => rfl
  · rfl

end Congruence

/-- **No bound beyond a node's number makes a difference to a visit.** -/
theorem visit_depth {h : Heap} {depth depth' : Nat} {demand : Demand} {id : NodeId} (hs : h.Sound)
    (hid : id < h.cells.size) (hd : id < depth) (hd' : id < depth') :
    visit depth' demand id h = visit depth demand id h := by
  induction depth generalizing depth' demand id h with
  | zero => exact absurd hd (Nat.not_lt_zero id)
  | succ depth ih =>
    rcases depth' with _ | depth'
    · exact absurd hd' (Nat.not_lt_zero id)
    · rw [visit_succ, visit_succ]
      refine step_congr (safeBelow_visit (Nat.le_of_lt_succ hd)) ?_ hs hid
      exact fun demand c h' hs' hc hn => ih hs' (Nat.lt_of_lt_of_le hc hn)
        (Nat.lt_of_lt_of_le hc (Nat.le_of_lt_succ hd))
        (Nat.lt_of_lt_of_le hc (Nat.le_of_lt_succ hd'))

end Eval

/-! ## Locks -/

/-- The locks that are held below a visit: a node is locked while it is forced. -/
def Demand.holds (demand : Demand) (id : NodeId) (held : List NodeId) : List NodeId :=
  match demand with
  | .force => id :: held
  | .read => held

/-- **A visit that looks at the locks that are held.**  At a node that is locked, it does whatever
`blocked` says instead. -/
def lockedVisit (blocked : NodeId → Eval Value) : Nat → List NodeId → Demand → NodeId → Eval Value
  | 0, _, _, id => throw (.dangling (.node id))
  | depth + 1, held, demand, id =>
    if id ∈ held then blocked id
    else step (lockedVisit blocked depth (demand.holds id held)) demand id

/-- **A visit meets no lock that is held**: all of them are on later nodes. -/
theorem lockedVisit_eq (blocked : NodeId → Eval Value) {h : Heap} {depth : Nat}
    {held : List NodeId} {demand : Demand} {id : NodeId} (hs : h.Sound) (hid : id < h.cells.size)
    (hd : id < depth) (hheld : ∀ n ∈ held, id < n) :
    lockedVisit blocked depth held demand id h = visit depth demand id h := by
  induction depth generalizing held demand id h with
  | zero => exact absurd hd (Nat.not_lt_zero id)
  | succ depth ih =>
    have hfree : id ∉ held := fun hmem => Nat.lt_irrefl id (hheld id hmem)
    rw [lockedVisit, if_neg hfree, visit_succ]
    refine step_congr (safeBelow_visit (Nat.le_of_lt_succ hd)) ?_ hs hid
    intro demand' c h' hs' hc hn
    refine ih hs' (Nat.lt_of_lt_of_le hc hn) (Nat.lt_of_lt_of_le hc (Nat.le_of_lt_succ hd)) ?_
    intro n hmem
    rcases demand with _ | _
    · exact Nat.lt_trans hc (hheld n hmem)
    · rcases List.mem_cons.mp hmem with rfl | hmem
      · exact hc
      · exact Nat.lt_trans hc (hheld n hmem)

/-- **The visits below a visit are of earlier nodes.** -/
theorem Visit.node_lt_of_calls {root x y : Visit} (hord : root.heap.Ordered) (hm : root.Makes x)
    (hcalls : TransGen Visit.Calls x y) : y.node < x.node := by
  have hcall : ∀ z w : Visit, root.Makes z → z.Calls w → w.node < z.node := by
    intro z w hz hw
    obtain ⟨hst, hw⟩ := hw
    exact hord _ _ (hz.deferred hst) _ hw.mem_children
  induction hcalls with
  | single hy => exact hcall x _ hm hy
  | tail hz hy ih => exact Nat.lt_trans (hcall _ _ (hm.trans hz.to_reflTransGen) hy) ih

/-! ## Drawing and writing -/

namespace Heap

variable {h : Heap}

/-- **No bound beyond a node's number makes a difference to a drawing.** -/
theorem lines_depth (hord : h.Ordered) {depth depth' level : Nat} {id : NodeId} (hd : id < depth)
    (hd' : id < depth') : h.lines depth' level id = h.lines depth level id := by
  induction depth generalizing depth' level id with
  | zero => exact absurd hd (Nat.not_lt_zero id)
  | succ depth ih =>
    rcases depth' with _ | depth'
    · exact absurd hd' (Nat.not_lt_zero id)
    rw [lines, lines]
    split
    next => rfl
    next s hst =>
      have hbelow : ∀ c ∈ s.children, h.lines depth' (level + 1) c = h.lines depth (level + 1) c :=
        fun c hc =>
          have hlt := hord id s hst c hc
          ih (Nat.lt_of_lt_of_le hlt (Nat.le_of_lt_succ hd))
            (Nat.lt_of_lt_of_le hlt (Nat.le_of_lt_succ hd'))
      rcases s with (b | s | ⟨op, x⟩ | ⟨op, x, y⟩ | ⟨base, k, value⟩) | v
      · rfl
      · rfl
      · simp [hbelow x (by simp [NodeStatus.children, Expression.children])]
      · simp [hbelow x (by simp [NodeStatus.children, Expression.children]),
          hbelow y (by simp [NodeStatus.children, Expression.children])]
      · have hkey : keyLines (h.lines depth' (level + 1)) (level + 1) k =
            keyLines (h.lines depth (level + 1)) (level + 1) k := by
          rcases k with i | c
          · rfl
          · exact hbelow c (by simp [NodeStatus.children, Expression.children, AssignKey.children])
        simp [hkey, hbelow base (by simp [NodeStatus.children, Expression.children]),
          hbelow value (by simp [NodeStatus.children, Expression.children])]
      · rfl

/-- **No bound beyond a node's number makes a difference to the text of a kernel.** -/
theorem writeBody_depth (hord : h.Ordered) {depth depth' : Nat} {id : NodeId}
    {bound : List Binding} (hd : id < depth) (hd' : id < depth') :
    h.writeBody depth' id bound = h.writeBody depth id bound := by
  induction depth generalizing depth' id bound with
  | zero => exact absurd hd (Nat.not_lt_zero id)
  | succ depth ih =>
    rcases depth' with _ | depth'
    · exact absurd hd' (Nat.not_lt_zero id)
    have hbelow : ∀ s, h.state? id = some s → ∀ c ∈ s.children, ∀ bound,
        h.writeBody depth' c bound = h.writeBody depth c bound := fun s hst c hc bound =>
      have hlt := hord id s hst c hc
      ih (Nat.lt_of_lt_of_le hlt (Nat.le_of_lt_succ hd))
        (Nat.lt_of_lt_of_le hlt (Nat.le_of_lt_succ hd'))
    rw [writeBody, writeBody]
    split
    next => rfl
    next => rfl
    next => rfl
    next => rfl
    next => rfl
    next op x hst =>
      simp [hbelow _ hst x (by simp [NodeStatus.children, Expression.children])]
    next op x y hst =>
      simp [hbelow _ hst x (by simp [NodeStatus.children, Expression.children]),
        hbelow _ hst y (by simp [NodeStatus.children, Expression.children])]
    next => rfl

/-- A sequence that fails does so in one of its parts. -/
theorem error_of_bind_eq_error {ε α β : Type} {m : Except ε α} {f : α → Except ε β} {e : ε}
    (hm : m >>= f = .error e) : m = .error e ∨ ∃ a, m = .ok a ∧ f a = .error e := by
  rcases m with e' | a
  · exact .inl (congrArg Except.error (Except.error.inj hm))
  · exact .inr ⟨a, rfl, hm⟩

/-- Naming a leaf of a sound heap does not fail. -/
theorem exists_parameterFor (hs : h.Sound) {id : NodeId} {s : NodeStatus} {b : BufferId}
    (hst : h.state? id = some s) (hb : s.buffer? = some b) (bound : List Binding) :
    ∃ r, h.parameterFor id b bound = .ok r := by
  obtain ⟨a, ha⟩ := exists_buffer? (hs.held id s b hst hb)
  rw [parameterFor, ha]
  split
  next => exact ⟨_, rfl⟩
  next => exact ⟨_, rfl⟩

/-- **Writing a kernel fails for an assignment only**, and not because the bound is used up. -/
theorem eq_assignInKernel_of_writeBody (hs : h.Sound) {depth : Nat} {id : NodeId}
    {bound : List Binding} {e : Error} (hid : id < h.cells.size) (hd : id < depth)
    (hw : h.writeBody depth id bound = .error e) : ∃ n, e = .graph (.assignInKernel n) := by
  induction depth generalizing id bound e with
  | zero => exact absurd hd (Nat.not_lt_zero id)
  | succ depth ih =>
    obtain ⟨s, hst⟩ := exists_state? hid
    have hbelow : ∀ c ∈ s.children, ∀ bound e, h.writeBody depth c bound = .error e →
        ∃ n, e = .graph (.assignInKernel n) := fun c hc bound e hw =>
      have hlt := hs.ordered id s hst c hc
      ih (Nat.lt_trans hlt hid) (Nat.lt_of_lt_of_le hlt (Nat.le_of_lt_succ hd)) hw
    rw [writeBody, hst] at hw
    rcases s with (b | s | ⟨op, x⟩ | ⟨op, x, y⟩ | ⟨base, k, value⟩) | (b | s)
    · obtain ⟨r, hr⟩ := exists_parameterFor hs hst rfl bound
      cases hr.symm.trans hw
    · cases hw
    · have hx := hbelow x (by simp [NodeStatus.children, Expression.children])
      rcases error_of_bind_eq_error hw with hw | ⟨⟨tx, bx⟩, _, hw⟩
      · exact hx bound e hw
      · cases hw
    · have hx := hbelow x (by simp [NodeStatus.children, Expression.children])
      have hy := hbelow y (by simp [NodeStatus.children, Expression.children])
      rcases error_of_bind_eq_error hw with hw | ⟨⟨tx, bx⟩, _, hw⟩
      · exact hx bound e hw
      rcases error_of_bind_eq_error hw with hw | ⟨⟨ty, bxy⟩, _, hw⟩
      · exact hy bx e hw
      · cases hw
    · exact ⟨id, (Except.error.inj hw).symm⟩
    · obtain ⟨r, hr⟩ := exists_parameterFor hs hst rfl bound
      cases hr.symm.trans hw
    · cases hw

/-- **Numbers decrease along every path.** -/
theorem lt_of_transGen_below (hord : h.Ordered) {id n : NodeId} (hb : TransGen h.Below id n) :
    n < id := by
  induction hb with
  | single hb =>
    obtain ⟨s, hst, hc⟩ := hb
    exact hord _ s hst _ hc
  | tail _ hb ih =>
    obtain ⟨s, hst, hc⟩ := hb
    exact Nat.lt_trans (hord _ s hst _ hc) ih

/-- **A heap without cycles**, in which every walk ends and none waits for itself. -/
structure Terminates (h : Heap) : Prop where
  /-- A deferred node refers to nodes with smaller numbers. -/
  ordered : ∀ id e, h.state? id = some (.deferred e) → ∀ c ∈ e.children, c < id
  /-- No node is reached from itself. -/
  acyclic : ∀ id, ¬ TransGen h.Below id id
  /-- A visit comes to the same with every bound beyond the number of the node. -/
  visits : ∀ demand id, id < h.cells.size → ∀ depth, id < depth →
    visit depth demand id h = visit (id + 1) demand id h
  /-- A visit does not fail because its bound is used up. -/
  visited : ∀ demand id, id < h.cells.size → ∀ e h', visit (id + 1) demand id h = .error e h' →
    e.IsProper
  /-- A drawing is the same with every bound beyond the number of the node. -/
  drawn : ∀ id level depth, id < depth → h.lines depth level id = h.lines (id + 1) level id
  /-- The text of a kernel is the same with every bound beyond the number of the node. -/
  written : ∀ id bound depth, id < depth →
    h.writeBody depth id bound = h.writeBody (id + 1) id bound
  /-- A kernel is refused for an assignment only. -/
  refused : ∀ id e, id < h.cells.size → h.kernelFor id = .error e →
    ∃ n, e = .graph (.assignInKernel n)
  /-- A visit that looks at the locks that it holds meets none of them. -/
  unblocked : ∀ blocked demand id, id < h.cells.size →
    lockedVisit blocked (id + 1) [] demand id h = visit (id + 1) demand id h
  /-- The visits below a visit that is in progress are of other nodes, with smaller numbers. -/
  below : ∀ depth demand id x y, (⟨depth, demand, id, h⟩ : Visit).Makes x →
    TransGen Visit.Calls x y → y.node < x.node

theorem Sound.terminates (hs : h.Sound) : h.Terminates where
  ordered id _ hst := hs.ordered id _ hst
  acyclic id hb := Nat.lt_irrefl id (lt_of_transGen_below hs.ordered hb)
  visits demand id hid depth hd := visit_depth hs hid (Nat.lt_succ_self id) hd
  visited demand id hid e h' hr := by
    have hsafe : Safe (visit (id + 1) demand id) h (Computed (id + 1) h) :=
      safe_visit hs hid (Nat.lt_succ_self id)
    rw [Safe, hr] at hsafe
    exact hsafe.2
  drawn id level depth hd := lines_depth hs.ordered (Nat.lt_succ_self id) hd
  written id bound depth hd := writeBody_depth hs.ordered (Nat.lt_succ_self id) hd
  refused id e hid hk := by
    rw [kernelFor] at hk
    rcases error_of_bind_eq_error hk with hw | ⟨⟨body, bound⟩, _, hk⟩
    · exact eq_assignInKernel_of_writeBody hs hid (Nat.lt_succ_self id) hw
    · cases hk
  unblocked blocked demand id hid :=
    lockedVisit_eq blocked hs hid (Nat.lt_succ_self id) fun _ hmem => absurd hmem List.not_mem_nil
  below _ _ _ _ _ hm hcalls := Visit.node_lt_of_calls hs.ordered hm hcalls

/-- The node `0` with itself as its base would wait for its own lock. -/
example : let h : Heap := ⟨#[], #[⟨.deferred (.assign 0 (.position 0) 0), 0, 0⟩]⟩
    ∃ h', lockedVisit (fun id => throw (.dangling (.node id))) 2 [] .force 0 h =
      .error (.dangling (.node 0)) h' := ⟨_, rfl⟩

end Heap

/-! ## Numbers of nodes -/

/-- The number an operation gives to the node that it makes, if it makes one. -/
def Operation.issues (s : History) : Operation → List NodeId
  | build e => if s.heap.Admits e then [(s.heap.addNode e).1] else []
  | _ => []

/-- **The numbers that operations give to nodes**, in order. -/
def issued (s : History) : List Operation → List NodeId
  | [] => []
  | op :: ops => op.issues s ++ issued (op.perform s) ops

/-- **An operation gives the next number to a node that it makes.** -/
theorem Operation.range_append_issues {s : History} (hv : s.Valid) (op : Operation) :
    List.range s.heap.cells.size ++ op.issues s = List.range (op.perform s).heap.cells.size := by
  have hmade := (op.valid_perform hv).size_made
  rcases op with a | e | id | id | ⟨b, key, value⟩ | id | id | e
  case build =>
    by_cases he : s.heap.Admits e
    · have hperform : (build e).perform s =
          { s with heap := (s.heap.addNode e).2, made := s.made ++ [e] } := if_pos he
      rw [hperform] at hmade ⊢
      rw [← hmade, List.length_append, hv.size_made, issues, if_pos he, Heap.fst_addNode]
      exact List.range_succ.symm
    · have hperform : (build e).perform s = s := if_neg he
      rw [hperform, issues, if_neg he, List.append_nil]
  -- nothing else makes a node, whatever comes of it
  all_goals
    refine (List.append_nil _).trans ?_
    rw [← hmade, ← hv.size_made, perform]
    split <;> rfl

/-- **The numbers that a run gives** are those of the nodes there are, by induction over the
operations. -/
theorem range_append_issued {s : History} (hv : s.Valid) (ops : List Operation) :
    List.range s.heap.cells.size ++ issued s ops =
      List.range (ops.foldl Operation.perform s).heap.cells.size := by
  induction ops generalizing s with
  | nil => exact List.append_nil _
  | cons op ops ih =>
    rw [issued, ← List.append_assoc, op.range_append_issues hv]
    exact ih (op.valid_perform hv)

/-- **Graphs have no cycles, and no evaluation waits for itself**: whatever the operations are that
lead to a heap, nodes were numbered one after the other and no number was given twice, and in the
heap every walk from a node ends and meets no lock of its own. -/
theorem terminates_run (ops : List Operation) :
    issued .start ops = List.range (run ops).heap.cells.size ∧ (issued .start ops).Nodup ∧
      (run ops).heap.Terminates := by
  have hissued : issued .start ops = List.range (run ops).heap.cells.size :=
    range_append_issued History.valid_start ops
  refine ⟨hissued, ?_, (valid_run ops).sound.terminates⟩
  rw [hissued]
  exact List.nodup_range

end DeferredArrays
