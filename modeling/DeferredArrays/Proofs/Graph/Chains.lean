import DeferredArrays.Proofs.Graph.Assigning
import Mathlib.Data.List.Induction

/-!
# Proofs/Graph/Chains — chains of assignments are writes in sequence

The base of an assignment may be an assignment again, and so on down to a node without assignments
below it: a **chain** (`Heap.Chain`).  Its keys and values may read the base and everything that was
assigned so far.

Forcing the end of a chain goes down to the base, caches it on a buffer, and makes the assignments
one after the other on the way back.  What it comes to is what it comes to if each of them is made by
itself, in the heap that those before it have left behind (`Heap.assign`): the same writes to the one
buffer, and the same error if one fails.  Those before it are then done for good, and what is left is
a chain on the last of them (`Heap.forcesTo_force`).
-/

namespace DeferredArrays

open Eval Session

/-! ## Chains -/

namespace Heap

variable {h h' h₀ h₁ g g' : Heap} {b n id : NodeId} {B : BufferId} {v : Value} {a : Tensor}
  {l : Link} {links done rest : List Link} {depth : Nat}

/-- All deferred assignments that are reached from a node are among some nodes. -/
def AssignsAmong (h : Heap) (nodes : List NodeId) (root : NodeId) : Prop :=
  ∀ id, h.Reaches root id →
    ∀ base key value, h.state? id = some (.deferred (.assign base key value)) → id ∈ nodes

/-- **A chain of assignments** on a node `b`, up to its end: each is deferred, has the one before it
as its base, and reaches through its key and its value no deferred assignments but earlier ones. -/
inductive Chain (h : Heap) (b : NodeId) : NodeId → List Link → Prop
  | base : Chain h b b []
  | link {prev : NodeId} {links : List Link} {l : Link} (hc : Chain h b prev links)
    (hs : h.state? l.node = some (.deferred (.assign prev l.key l.value)))
    (hr : ∀ c ∈ l.key.children ++ [l.value], h.AssignsAmong (links.map (·.node)) c) :
    Chain h b l.node (links ++ [l])

/-! ## Assignments that are left -/

/-- The deferred assignments that are reached from a node later are those that were not cached. -/
theorem Later.assignsAmong (hl : h.Later g) (hord : h.Ordered) (hid : id < h.cells.size)
    {nodes nodes' : List NodeId} (hr : h.AssignsAmong nodes id)
    (hcached : ∀ i ∈ nodes, i ∈ nodes' ∨ ∃ v, g.state? i = some (.cached v)) :
    g.AssignsAmong nodes' id := by
  intro i hi base key value hs
  have hreach := hl.reaches hord hid hi
  obtain ⟨s₀, hs₀⟩ := exists_state? (Nat.lt_of_le_of_lt (Reaches.le hord hreach) hid)
  rcases hl.states i s₀ hs₀ with hs' | ⟨_, v, _, hs'⟩
  · cases state_unique hs' hs
    refine (hcached i (hr i hreach base key value hs₀)).resolve_right ?_
    rintro ⟨v, hv⟩
    cases state_unique hs hv
  · cases state_unique hs hs'

/-- Once the links before it were made, the key and the value of a link can be read. -/
theorem InSequence.isPure (hq : h₀.InSequence B links h₁) (hp : h.Pinned b v h₀) (hord : h.Ordered)
    {c : NodeId} (hc : c < h.cells.size) (hr : h.AssignsAmong (links.map (·.node)) c) :
    h₁.IsPure c := by
  have hl := hp.follows.later.trans hq.follows.later
  refine ⟨Nat.lt_of_lt_of_le hc hl.cells_le, fun i hi base key value hs => ?_⟩
  have hnone : h₁.AssignsAmong [] c :=
    hl.assignsAmong hord hc hr fun i hi => .inr ⟨_, hq.cached i hi⟩
  exact nomatch hnone i hi base key value hs

/-! ## Forcing a chain -/

theorem Chain.prev_lt (hord : h.Ordered) {prev : NodeId}
    (hs : h.state? l.node = some (.deferred (.assign prev l.key l.value))) : prev < l.node :=
  hord _ _ hs prev List.mem_cons_self

theorem Chain.operand_lt (hord : h.Ordered) {prev c : NodeId}
    (hs : h.state? l.node = some (.deferred (.assign prev l.key l.value)))
    (hc : c ∈ l.key.children ++ [l.value]) : c < l.node :=
  hord _ _ hs c (List.mem_cons_of_mem prev hc)

/-- The nodes of a chain come in order. -/
theorem Chain.le (hord : h.Ordered) (hc : h.Chain b n links) :
    ∀ i ∈ b :: links.map (·.node), i ≤ n := by
  induction hc with
  | base => exact fun i hi => Nat.le_of_eq (List.mem_singleton.mp hi)
  | @link prev links l _ hs _ ih =>
    intro i hi
    rw [List.map_append, ← List.cons_append] at hi
    rcases List.mem_append.mp hi with hi | hi
    · exact Nat.le_trans (ih i hi) (Nat.le_of_lt (prev_lt hord hs))
    · exact Nat.le_of_eq (List.mem_singleton.mp hi)

theorem visit_of_evaluate_ok {e : Expression} (hst : g.state? n = some (.deferred e))
    (hv : e.evaluate (visit depth) (g.countRead n) = .ok v g') :
    visit (depth + 1) .force n g = .ok v (g'.cache n v) :=
  (force_deferred hst).trans ((bind_eq_of_ok ((read_deferred hst).trans hv)).trans rfl)

theorem visit_of_evaluate_error {e : Expression} {err : Error}
    (hst : g.state? n = some (.deferred e))
    (hv : e.evaluate (visit depth) (g.countRead n) = .error err g') :
    visit (depth + 1) .force n g = .error err g' :=
  (force_deferred hst).trans (bind_eq_of_error ((read_deferred hst).trans hv))

/-- How far forcing a chain gets, once its base is cached on a buffer. -/
inductive Progress (h : Heap) (B : BufferId) (links : List Link) :
    EStateM.Result Error Heap Value → Prop
  | completed {h₁ g : Heap} (hq : h.InSequence B links h₁) (he : h₁.Extends g) :
    Progress h B links (.ok (.array B) g)
  | stopped {done rest : List Link} {l : Link} {h₁ g : Heap} {e : Error}
    (hlinks : links = done ++ l :: rest) (hq : h.InSequence B done h₁)
    (hfail : h₁.assigned B l = .error e) (he : h₁.Extends g) : Progress h B links (.error e g)

/-- A failing base ends the evaluation of an assignment. -/
theorem visit_of_base_error {prev : NodeId} {e : Error}
    (hst : g.state? l.node = some (.deferred (.assign prev l.key l.value)))
    (hbase : visit depth .force prev (g.countRead l.node) = .error e g') :
    visit (depth + 1) .force l.node g = .error e g' :=
  visit_of_evaluate_error hst (bind_eq_of_error hbase)

/-- **A chain whose base has an array** is forced link by link, by induction on the chain. -/
theorem visit_chain (hs : h.Sound) (hp : h.IsPure b) (hc : h.Chain b n links)
    (hout : h.outcome b = .ok (.array a)) (hgs : g.Sound) (he : h.Extends g) (hd : n < depth) :
    ∃ B h₀, h.Pinned b (.array B) h₀ ∧ h₀.buffer? B = some a ∧
      h₀.Progress B links (visit depth .force n g) := by
  induction hc generalizing depth g with
  | base =>
    have hbase := force_base hs hp hgs he hd
    rw [hout] at hbase
    obtain ⟨v, g', hv, hpin, hcontent⟩ := hbase
    obtain ⟨B, rfl, hB⟩ := eq_array_of_content hcontent
    exact ⟨B, g', hpin, hB, hv ▸ .completed (.nil hpin.follows.sound) (.refl g')⟩
  | @link prev links l hc hst hr ih =>
    obtain ⟨depth, rfl⟩ := Nat.exists_eq_add_one_of_ne_zero (Nat.ne_zero_of_lt hd)
    have hcount := extends_countRead g l.node
    have hlt : prev < depth :=
      Nat.lt_of_lt_of_le (Chain.prev_lt hs.ordered hst) (Nat.le_of_lt_succ hd)
    obtain ⟨B, h₀, hpin, hB, hprogress⟩ :=
      ih (follows_countRead hgs l.node).sound (he.trans hcount) hlt
    refine ⟨B, h₀, hpin, hB, ?_⟩
    have hstg := (he.states l.node).trans hst
    generalize hbase : visit depth .force prev (g.countRead l.node) = r at hprogress
    cases hprogress with
    | stopped hlinks hq hfail he' =>
      rw [visit_of_base_error hstg hbase]
      exact .stopped (by rw [hlinks, List.append_assoc, List.cons_append]) hq hfail he'
    | @completed h₁ g₁ hq he' =>
      obtain ⟨t, hB₁, _⟩ := hq.follows.later.buffers B a hB
      have hclosed : ∀ c ∈ l.key.children ++ [l.value], h₁.IsPure c ∧ c < depth := fun c hc => by
        have hlt := Chain.operand_lt hs.ordered hst hc
        exact ⟨hq.isPure hpin hs.ordered (Nat.lt_trans hlt (lt_of_state? hst)) (hr c hc),
          Nat.lt_of_lt_of_le hlt (Nat.le_of_lt_succ hd)⟩
      have hstep := evaluate_assign hq.follows.sound he' hB₁ hclosed hbase
      cases hassigned : h₁.assigned B l with
      | error e =>
        rw [hassigned] at hstep
        obtain ⟨g', hv, he''⟩ := hstep
        rw [visit_of_evaluate_error hstg hv]
        exact .stopped rfl hq hassigned he''
      | ok c =>
        rw [hassigned] at hstep
        obtain ⟨g', hv, he''⟩ := hstep
        rw [visit_of_evaluate_ok hstg hv]
        have hnew : l.node ∉ b :: links.map (·.node) := fun hmem =>
          Nat.not_le_of_lt (Chain.prev_lt hs.ordered hst) (hc.le hs.ordered _ hmem)
        obtain ⟨hneb, hnew⟩ := not_or.mp (mt List.mem_cons.mpr hnew)
        have hst₁ : h₁.state? l.node = some (.deferred (.assign prev l.key l.value)) :=
          (hq.others _ hnew).trans ((hpin.others _ hneb).trans hst)
        exact .completed (hq.concat hst₁ hassigned)
          ((he''.setBuffer B c).cache l.node (.array B))

/-- A chain whose base cannot be forced fails with its error. -/
theorem visit_chain_of_error (hs : h.Sound) (hp : h.IsPure b) (hc : h.Chain b n links) {e : Error}
    (hout : h.outcome b = .error e) (hgs : g.Sound) (he : h.Extends g) (hd : n < depth) :
    ∃ g', visit depth .force n g = .error e g' ∧ h.Extends g' := by
  induction hc generalizing depth g with
  | base =>
    have hbase := force_base hs hp hgs he hd
    rwa [hout] at hbase
  | @link prev links l hc hst hr ih =>
    obtain ⟨depth, rfl⟩ := Nat.exists_eq_add_one_of_ne_zero (Nat.ne_zero_of_lt hd)
    have hlt : prev < depth :=
      Nat.lt_of_lt_of_le (Chain.prev_lt hs.ordered hst) (Nat.le_of_lt_succ hd)
    obtain ⟨g', hbase, he'⟩ :=
      ih (follows_countRead hgs l.node).sound (he.trans (extends_countRead g l.node)) hlt
    exact ⟨g', visit_of_base_error ((he.states l.node).trans hst) hbase, he'⟩

/-- A chain whose base is a scalar fails for that. -/
theorem visit_chain_of_scalar (hs : h.Sound) (hp : h.IsPure b) (hc : h.Chain b n links)
    (hne : links ≠ []) {s : Scalar} (hout : h.outcome b = .ok (.scalar s)) (hgs : g.Sound)
    (he : h.Extends g) (hd : n < depth) :
    ∃ g', visit depth .force n g = .error (.graph (.scalarAssignBase b)) g' ∧
      h.Pinned b (.scalar s) g' := by
  induction hc generalizing depth g with
  | base => exact absurd rfl hne
  | @link prev links l hc hst hr ih =>
    obtain ⟨depth, rfl⟩ := Nat.exists_eq_add_one_of_ne_zero (Nat.ne_zero_of_lt hd)
    have hlt : prev < depth :=
      Nat.lt_of_lt_of_le (Chain.prev_lt hs.ordered hst) (Nat.le_of_lt_succ hd)
    have hstg := (he.states l.node).trans hst
    have he' := he.trans (extends_countRead g l.node)
    have hgs' := (follows_countRead hgs l.node).sound
    cases hc with
    | base =>
      have hbase := force_base hs hp hgs' he' hlt
      rw [hout] at hbase
      obtain ⟨v, g', hv, hpin, hcontent⟩ := hbase
      obtain rfl := eq_scalar_of_content hcontent
      refine ⟨g', visit_of_evaluate_error hstg ?_, hpin⟩
      exact (bind_eq_of_ok hv).trans (bind_eq_of_error rfl)
    | link hc' hst' hr' =>
      obtain ⟨g', hbase, hpin⟩ := ih (by simp) hgs' he' hlt
      exact ⟨g', visit_of_base_error hstg hbase, hpin⟩

/-! ## What is left of a chain -/

theorem Chain.end_mem (hc : h.Chain b n links) : n ∈ b :: links.map (·.node) := by
  cases hc with
  | base => exact List.mem_cons_self
  | link => simp

theorem Chain.exists_prev (hc : h.Chain b n (links ++ [l])) :
    ∃ prev, n = l.node ∧ h.Chain b prev links ∧
      h.state? l.node = some (.deferred (.assign prev l.key l.value)) ∧
      ∀ c ∈ l.key.children ++ [l.value], h.AssignsAmong (links.map (·.node)) c := by
  generalize hls : links ++ [l] = ls at hc
  cases hc with
  | base => exact absurd hls (by simp)
  | link hc hs hr =>
    obtain ⟨rfl, hl⟩ := List.append_inj' hls rfl
    cases hl
    exact ⟨_, rfl, hc, hs, hr⟩

/-- The first links of a chain are a chain. -/
theorem Chain.exists_of_append (hc : h.Chain b n (done ++ rest)) : ∃ m, h.Chain b m done := by
  induction rest using List.reverseRecOn generalizing n with
  | nil => exact ⟨n, by rwa [List.append_nil] at hc⟩
  | append_singleton rest l ih =>
    rw [← List.append_assoc] at hc
    obtain ⟨prev, _, hc, _⟩ := hc.exists_prev
    exact ih hc

/-- **The last links of a chain**, as long as they are deferred, are a chain on the last of the others
once those are cached. -/
theorem Chain.exists_rest (hc : h.Chain b n (done ++ l :: rest)) (hord : h.Ordered)
    (hl : h.Later g) (hdone : ∀ i ∈ done.map (·.node), ∃ v, g.state? i = some (.cached v))
    (hstay : ∀ l' ∈ l :: rest, g.state? l'.node = h.state? l'.node) :
    ∃ prev ∈ b :: done.map (·.node), g.Chain prev n (l :: rest) := by
  induction rest using List.reverseRecOn generalizing n with
  | nil =>
    obtain ⟨prev, rfl, hc, hs, hr⟩ := hc.exists_prev
    refine ⟨prev, hc.end_mem, ?_⟩
    have hbase : g.Chain prev prev [] := .base
    refine hbase.link ((hstay l List.mem_cons_self).trans hs) fun c hcm => ?_
    have hsize := Nat.lt_trans (operand_lt hord hs hcm) (lt_of_state? hs)
    exact hl.assignsAmong hord hsize (hr c hcm) fun i hi => .inr (hdone i hi)
  | append_singleton rest x ih =>
    rw [← List.cons_append, ← List.append_assoc] at hc
    obtain ⟨prev, rfl, hc, hs, hr⟩ := hc.exists_prev
    have hstay' : ∀ l' ∈ l :: rest, g.state? l'.node = h.state? l'.node := fun l' hl' =>
      hstay l' (List.mem_append_left [x] hl')
    obtain ⟨m, hm, hrest⟩ := ih hc hstay'
    have hx : x ∈ l :: (rest ++ [x]) := by simp
    refine ⟨m, hm, .link hrest ((hstay x hx).trans hs) fun c hcm => ?_⟩
    have hsize := Nat.lt_trans (operand_lt hord hs hcm) (lt_of_state? hs)
    refine hl.assignsAmong hord hsize (hr c hcm) fun i hi => ?_
    rw [List.map_append] at hi
    exact (List.mem_append.mp hi).symm.imp_right (hdone i)

/-! ## What forcing a chain comes to -/

/-- **A heap after the first links of a chain were made** on the buffer of their base, which held an
array at first. -/
structure Carried (h : Heap) (b : NodeId) (a : Tensor) (B : BufferId) (done : List Link)
    (h' : Heap) : Prop where
  /-- The assignments were made one after the other, from where only the base is cached; besides,
  buffers were added. -/
  sequence : ∃ h₀ h₁, h.Pinned b (.array B) h₀ ∧ h₀.buffer? B = some a ∧
    h₀.assignAll B done = .ok h₁ ∧ h₁.Extends h'
  /-- The base and the links are cached on the one buffer. -/
  cached : ∀ i ∈ b :: done.map (·.node), h'.state? i = some (.cached (.array B))
  /-- No other node has changed. -/
  others : ∀ i ∉ b :: done.map (·.node), h'.state? i = h.state? i
  /-- No other buffer has changed. -/
  buffers : ∀ i a', i ≠ B → h.buffer? i = some a' → h'.buffer? i = some a'

/-- **What forcing the end of a chain comes to.** -/
inductive ForcesTo (h : Heap) (b n : NodeId) (links : List Link) :
    EStateM.Result Error Heap Value → Prop
  /-- The base has no value: the error is that of the base, and nothing has changed. -/
  | noBase {e : Error} {h' : Heap} (hb : h.outcome b = .error e) (he : h.Extends h') :
    ForcesTo h b n links (.error e h')
  /-- The base is a scalar: the error says so, and nothing has changed but the base. -/
  | scalarBase {s : Scalar} {h' : Heap} (hb : h.outcome b = .ok (.scalar s))
    (hp : h.Pinned b (.scalar s) h') :
    ForcesTo h b n links (.error (.graph (.scalarAssignBase b)) h')
  /-- All assignments were made. -/
  | completed {a : Tensor} {B : BufferId} {h' : Heap} (hb : h.outcome b = .ok (.array a))
    (hc : h.Carried b a B links h') : ForcesTo h b n links (.ok (.array B) h')
  /-- One assignment fails after those before it were made: the error is the one it has in the heap
  that is left behind.  It and those after it stay deferred.  Whenever the end is forced again while
  they are, they are the ones that are made, in sequence, and none before them. -/
  | stopped {a : Tensor} {B : BufferId} {h' : Heap} {done rest : List Link} {l : Link} {e : Error}
    (hb : h.outcome b = .ok (.array a)) (hlinks : links = done ++ l :: rest)
    (hc : h.Carried b a B done h') (hfail : h'.assigned B l = .error e)
    (hstay : ∀ l' ∈ l :: rest, h'.state? l'.node = h.state? l'.node)
    (hagain : ∀ g, h'.Follows g → (∀ l' ∈ l :: rest, g.state? l'.node = h'.state? l'.node) →
      ∃ h₀, g.Extends h₀ ∧ h₀.Progress B (l :: rest) (Eval.force n g)) :
    ForcesTo h b n links (.error e h')

/-- Assignments in sequence from a heap in which only the base was cached. -/
theorem InSequence.carried (hq : h₀.InSequence B done h₁) (hp : h.Pinned b (.array B) h₀)
    (hB : h₀.buffer? B = some a) (he : h₁.Extends h') : h.Carried b a B done h' where
  sequence := ⟨h₀, h₁, hp, hB, hq.made, he⟩
  cached i hi := by
    rw [he.states i]
    by_cases hmem : i ∈ done.map (·.node)
    · exact hq.cached i hmem
    · rw [hq.others i hmem, (List.mem_cons.mp hi).resolve_right hmem]
      exact hp.base
  others i hi := by
    obtain ⟨hb, hmem⟩ := not_or.mp (mt List.mem_cons.mpr hi)
    rw [he.states i, hq.others i hmem, hp.others i hb]
  buffers i a' hi ha' :=
    he.buffers i a' ((hq.buffers i hi).trans (hp.buffers i a' ha'))

/-- The nodes of a chain that are not among its first ones. -/
theorem Chain.notMem_of_append (hord : h.Ordered) (hc : h.Chain b n (done ++ rest)) :
    ∀ l ∈ rest, l.node ∉ b :: done.map (·.node) := by
  induction rest using List.reverseRecOn generalizing n with
  | nil => exact fun l hl => nomatch hl
  | append_singleton rest x ih =>
    rw [← List.append_assoc] at hc
    obtain ⟨prev, _, hbefore, hs, _⟩ := hc.exists_prev
    intro l hl hmem
    rcases List.mem_append.mp hl with hl | hl
    · exact ih hbefore l hl hmem
    · obtain rfl := List.mem_singleton.mp hl
      refine Nat.not_le_of_lt (prev_lt hord hs) (hbefore.le hord _ ?_)
      rw [List.map_append, ← List.cons_append]
      exact List.mem_append_left _ hmem

/-- **A chain on a cached base** goes on from the buffer of the base. -/
theorem Chain.progress_of_cached (hc : h.Chain b n links) (hs : h.Sound)
    (hst : h.state? b = some (.cached (.array B))) (hB : h.buffer? B = some a) :
    ∃ h₀, h.Extends h₀ ∧ h₀.Progress B links (Eval.force n h) := by
  obtain ⟨B', h₀, hpin, _, hprogress⟩ := visit_chain hs (isPure_of_cached hst) hc
    (outcome_of_cached hst hB) hs (.refl h) (Nat.lt_succ_self n)
  cases hpin.own B ⟨_, hst, rfl⟩
  exact ⟨h₀, hpin.extends hst, hprogress⟩

/-- The key and the value of a link can be read when those before it were made. -/
theorem Chain.isPure_of_append (hs : h.Sound) (hc : h.Chain b n (done ++ l :: rest))
    (hp : h.Pinned b v h₀) (hq : h₀.InSequence B done h₁) :
    ∀ c ∈ l.key.children ++ [l.value], h₁.IsPure c := by
  rw [List.append_cons] at hc
  obtain ⟨_, hc⟩ := hc.exists_of_append
  obtain ⟨prev, _, _, hst, hr⟩ := hc.exists_prev
  intro c hcm
  have hsize := Nat.lt_trans (operand_lt hs.ordered hst hcm) (lt_of_state? hst)
  exact hq.isPure hp hs.ordered hsize (hr c hcm)

/-- What a chain comes to of which one link fails. -/
theorem forcesTo_of_stopped (hs : h.Sound) {e : Error} (hc : h.Chain b n (done ++ l :: rest))
    (hout : h.outcome b = .ok (.array a)) (hp : h.Pinned b (.array B) h₀)
    (hB : h₀.buffer? B = some a) (hq : h₀.InSequence B done h₁)
    (hfail : h₁.assigned B l = .error e) (he : h₁.Extends h') :
    h.ForcesTo b n (done ++ l :: rest) (.error e h') := by
  have hcarried := hq.carried hp hB he
  have hlater : h.Later h' := (hp.follows.later.trans hq.follows.later).trans he.later
  have hstay : ∀ l' ∈ l :: rest, h'.state? l'.node = h.state? l'.node := fun l' hl' =>
    hcarried.others _ (hc.notMem_of_append hs.ordered l' hl')
  obtain ⟨t, hB₁, _⟩ := hq.follows.later.buffers B a hB
  have hpure := hc.isPure_of_append hs hp hq
  have hfail' := (assigned_of_extends hq.follows.sound he hB₁ hpure).trans hfail
  refine .stopped hout rfl hcarried hfail' hstay fun g hg hdeferred => ?_
  have hcached : ∀ i ∈ b :: done.map (·.node), g.state? i = some (.cached (.array B)) :=
    fun i hi => hg.later.cached (hcarried.cached i hi)
  obtain ⟨prev, hprev, hrest⟩ := hc.exists_rest hs.ordered (hlater.trans hg.later)
    (fun i hi => ⟨_, hcached i (List.mem_cons_of_mem b hi)⟩)
    fun l' hl' => (hdeferred l' hl').trans (hstay l' hl')
  obtain ⟨t', hB', _⟩ := hg.later.buffers B t (he.buffers B t hB₁)
  exact hrest.progress_of_cached hg.sound (hcached prev hprev) hB'

/-- **Forcing the end of a chain of assignments** makes them one after the other in the buffer of the
base, as far as it gets. -/
theorem forcesTo_force (hs : h.Sound) (hfree : h.AssignFree b) (hc : h.Chain b n links)
    (hne : links ≠ []) : h.ForcesTo b n links (Eval.force n h) := by
  have hn : n < h.cells.size := by
    cases hc with
    | base => exact absurd rfl hne
    | link _ hst _ => exact lt_of_state? hst
  have hp : h.IsPure b := ⟨Nat.lt_of_le_of_lt (hc.le hs.ordered b List.mem_cons_self) hn, hfree⟩
  have hd := Nat.lt_succ_self n
  cases hout : h.outcome b with
  | error e =>
    obtain ⟨h', hr, he⟩ := visit_chain_of_error hs hp hc hout hs (.refl h) hd
    have hr : Eval.force n h = .error e h' := hr
    rw [hr]
    exact .noBase hout he
  | ok c =>
    cases c with
    | scalar s =>
      obtain ⟨h', hr, hpin⟩ := visit_chain_of_scalar hs hp hc hne hout hs (.refl h) hd
      have hr : Eval.force n h = .error (.graph (.scalarAssignBase b)) h' := hr
      rw [hr]
      exact .scalarBase hout hpin
    | array a =>
      obtain ⟨B, h₀, hpin, hB, hprogress⟩ := visit_chain hs hp hc hout hs (.refl h) hd
      change h₀.Progress B links (Eval.force n h) at hprogress
      generalize hr : Eval.force n h = r at hprogress
      cases hprogress with
      | completed hq he => exact .completed hout (hq.carried hpin hB he)
      | @stopped done rest l h₁ h' e hlinks hq hfail he =>
        subst hlinks
        exact forcesTo_of_stopped hs hc hout hpin hB hq hfail he

/-- The assignments up to a node include those that are reached from it. -/
theorem assignsAmong_of_le (hord : h.Ordered) {nodes : List NodeId}
    (hall : ∀ i ≤ id, (h.state? i).any NodeStatus.isAssign → i ∈ nodes) :
    h.AssignsAmong nodes id := by
  intro i hi base key value hs
  refine hall i (hi.le hord) ?_
  rw [hs]
  rfl

/-- An array `x` with `x[0] + 5` assigned to its second element, then twice the second element to
the third, and then all of `x` to the first. -/
def ledger : Heap :=
  ⟨#[.ofElements (.ints [1, 2, 3])],
    #[⟨.deferred (.data 0), 0, 0⟩, ⟨.deferred (.scalar (.int 0)), 0, 0⟩,
      ⟨.deferred (.binary .getItem 0 1), 0, 0⟩, ⟨.deferred (.scalar (.int 5)), 0, 0⟩,
      ⟨.deferred (.binary .add 2 3), 0, 0⟩, ⟨.deferred (.assign 0 (.position 1) 4), 0, 0⟩,
      ⟨.deferred (.binary .add 5 0), 0, 0⟩, ⟨.deferred (.scalar (.int 1)), 0, 0⟩,
      ⟨.deferred (.binary .getItem 6 7), 0, 0⟩, ⟨.deferred (.assign 5 (.position 2) 8), 0, 0⟩,
      ⟨.deferred (.assign 9 (.node 1) 0), 1, 0⟩]⟩

/-- The assignments of `ledger`. -/
def entries : List Link := [⟨5, .position 1, 4⟩, ⟨9, .position 2, 8⟩, ⟨10, .node 1, 0⟩]

theorem forcesTo_force_ledger :
    (ledger.Sound ∧ ledger.AssignFree 0 ∧ ledger.Chain 0 10 entries ∧ entries ≠ []) ∧
      ledger.ForcesTo 0 10 entries (Eval.force 10 ledger) := by
  have hs : ledger.Sound := by decide +kernel
  have hnone : ledger.AssignsAmong [] 0 := assignsAmong_of_le hs.ordered (by decide +kernel)
  have hfree : ledger.AssignFree 0 := fun i hi base key value hst =>
    nomatch hnone i hi base key value hst
  have hstep : ∀ {prev : NodeId} {links : List Link} (l : Link), ledger.Chain 0 prev links →
      ledger.state? l.node = some (.deferred (.assign prev l.key l.value)) →
      (∀ c ∈ l.key.children ++ [l.value], ∀ i ≤ c, (ledger.state? i).any NodeStatus.isAssign →
        i ∈ links.map (·.node)) → ledger.Chain 0 l.node (links ++ [l]) :=
    fun l hc hst hall => .link hc hst fun c hcm => assignsAmong_of_le hs.ordered (hall c hcm)
  have hfirst := hstep ⟨5, .position 1, 4⟩ .base (by decide +kernel) (by decide +kernel)
  have hsecond := hstep ⟨9, .position 2, 8⟩ hfirst (by decide +kernel) (by decide +kernel)
  have hchain := hstep ⟨10, .node 1, 0⟩ hsecond (by decide +kernel) (by decide +kernel)
  exact ⟨⟨hs, hfree, hchain, by decide⟩, forcesTo_force hs hfree hchain (by decide)⟩

/-- Two assignments are made before the third fails, and forcing it again repeats none. -/
example : ((after (Eval.force 10) ledger).buffer? 0,
    (after (Eval.force 10) (after (Eval.force 10) ledger)).buffer? 0)
      = (some (.ofElements (.ints [1, 6, 12])), some (.ofElements (.ints [1, 6, 12]))) := by
  decide +kernel

end Heap

end DeferredArrays
