import DeferredArrays.Proofs.Graph.Termination
import DeferredArrays.Proofs.Graph.Paths

/-!
# Proofs/Graph/Blocking — assignments in the way of a kernel, and how to clear it

A kernel has no assignments, so a deferred assignment blocks the kernel of every node that reaches
it through operators (`Heap.blockers`).  What is below an assignment does not matter: writing stops
there, as it stops at nodes that are cached.

The kernel is refused for the first blocker of all, in the order of a walk that goes depth first and
from left to right (`Heap.FirstBlocker`).  Once this blocker is forced, it is cached and blocks no
more, and whatever else forcing it has cached or written to, nothing new is in the way.  So rounds
of writing and forcing come to an end, after as many rounds as there were blockers at most
(`unblocks_kernelFor`).
-/

namespace DeferredArrays

open Eval

/-- Whether a kernel goes on below an expression: it is an operator. -/
def Expression.IsOperator : Expression → Prop
  | unary _ _ => True
  | binary _ _ _ => True
  | _ => False

namespace Heap

variable {h g : Heap} {root id n : NodeId} {e : Expression}

/-- A node is an assignment that was not forced yet. -/
def IsAssign (h : Heap) (n : NodeId) : Prop :=
  ∃ base key value, h.state? n = some (.deferred (.assign base key value))

/-- **The assignments that block the kernel of a node**: those it reaches through operators. -/
def blockers (h : Heap) (root : NodeId) : Set NodeId :=
  {n | h.IsAssign n ∧ ∃ p, h.Path Expression.IsOperator root p n}

/-- **The first blocker**, depth first and from left to right. -/
structure FirstBlocker (h : Heap) (root n : NodeId) : Prop where
  /-- It is an assignment. -/
  assign : h.IsAssign n
  /-- No path to a blocker comes before a certain path to it. -/
  first : ∃ p, h.Path Expression.IsOperator root p n ∧
    ∀ q m, h.IsAssign m → h.Path Expression.IsOperator root q m → ¬ List.Lex (· < ·) q p

theorem FirstBlocker.mem (hn : h.FirstBlocker root n) : n ∈ h.blockers root :=
  ⟨hn.assign, hn.first.imp fun _ hp => hp.1⟩

/-- There is one first blocker only: paths are ordered by where they part. -/
theorem FirstBlocker.unique {m : NodeId} (hn : h.FirstBlocker root n)
    (hm : h.FirstBlocker root m) : n = m := by
  obtain ⟨p, hp, hpfirst⟩ := hn.first
  obtain ⟨q, hq, hqfirst⟩ := hm.first
  obtain rfl : p = q := Std.Trichotomous.trichotomous p q (hqfirst p n hn.assign hp)
    (hpfirst q m hm.assign hq)
  exact hp.unique hq

/-! ## Blockers of a node and of its operands -/

/-- A node blocks itself if it is an assignment, and is blocked through its operands if it is an
operator. -/
theorem mem_blockers_iff (hs : h.state? id = some (.deferred e)) :
    n ∈ h.blockers id ↔ (n = id ∧ h.IsAssign id) ∨
      e.IsOperator ∧ ∃ c ∈ e.children, n ∈ h.blockers c := by
  constructor
  · rintro ⟨hn, p, _ | ⟨hs', he, hc, hp⟩⟩
    · exact .inl ⟨rfl, hn⟩
    · cases state_unique hs hs'
      exact .inr ⟨he, _, List.mem_of_getElem? hc, hn, _, hp⟩
  · rintro (⟨rfl, hn⟩ | ⟨he, c, hc, hn, p, hp⟩)
    · exact ⟨hn, [], .here n⟩
    · obtain ⟨i, hi⟩ := List.getElem?_of_mem hc
      exact ⟨hn, i :: p, .edge hs he hi hp⟩

theorem not_isAssign_of_state? {s : NodeStatus} (hs : h.state? id = some s)
    (hassign : s.isAssign = false) : ¬ h.IsAssign id := by
  rintro ⟨base, key, value, hs'⟩
  cases state_unique hs hs'
  cases hassign

/-- A node that is neither an operator nor an assignment has no blockers. -/
theorem blockers_of_leaf {s : NodeStatus} (hs : h.state? id = some s)
    (hassign : s.isAssign = false) (hleaf : ∀ e, s = .deferred e → ¬ e.IsOperator) :
    h.blockers id = ∅ := by
  refine Set.eq_empty_of_forall_notMem ?_
  rintro n ⟨hn, p, _ | ⟨hs', he, _, _⟩⟩
  · exact not_isAssign_of_state? hs hassign hn
  · exact hleaf _ (state_unique hs hs') he

/-- An operator has the blockers of its operands. -/
theorem blockers_of_children (hs : h.state? id = some (.deferred e)) (he : e.IsOperator)
    (hnone : ∀ c ∈ e.children, h.blockers c = ∅) : h.blockers id = ∅ := by
  refine Set.eq_empty_of_forall_notMem fun n hn => ?_
  rcases (mem_blockers_iff hs).mp hn with ⟨_, base, key, value, hs'⟩ | ⟨_, c, hc, hn⟩
  · cases state_unique hs hs'
    exact he
  · rw [hnone c hc] at hn
    exact hn

/-- An assignment is the first blocker of itself. -/
theorem firstBlocker_self (hn : h.IsAssign n) : h.FirstBlocker n n :=
  ⟨hn, [], .here n, fun _ _ _ _ => List.not_lex_nil⟩

/-- **The first blocker of an operator** is that of an operand, if the operands before it have
none. -/
theorem FirstBlocker.of_child (hs : h.state? id = some (.deferred e)) (he : e.IsOperator) {i : Nat}
    {c : NodeId} (hc : e.children[i]? = some c) (hn : h.FirstBlocker c n)
    (hbefore : ∀ d ∈ e.children.take i, h.blockers d = ∅) : h.FirstBlocker id n := by
  obtain ⟨p, hp, hfirst⟩ := hn.first
  refine ⟨hn.assign, i :: p, .edge hs he hc hp, ?_⟩
  rintro _ m hm (_ | @⟨_, d, _, _, j, q, hs', _, hd, hq⟩) hlex
  · obtain ⟨base, key, value, hs'⟩ := hm
    cases state_unique hs hs'
    exact he
  · cases state_unique hs hs'
    rcases List.cons_lex_cons_iff.mp hlex with hlt | ⟨rfl, hrest⟩
    · have hmem : m ∈ h.blockers d := ⟨hm, q, hq⟩
      have htake : d ∈ e.children.take i :=
        List.mem_of_getElem? ((List.getElem?_take_of_lt hlt).trans hd)
      rw [hbefore d htake] at hmem
      exact hmem
    · cases hc.symm.trans hd
      exact hfirst q m hm hq hrest

/-! ## Writing a kernel -/

/-- **A verdict on the kernel of a node**: there is one if nothing blocks it, and otherwise the
first blocker is to blame. -/
def Judges {α : Type} (h : Heap) (id : NodeId) : Except Error α → Prop
  | .ok _ => h.blockers id = ∅
  | .error e => ∃ n, e = .graph (.assignInKernel n) ∧ h.FirstBlocker id n

/-- The operand of an operator that is next settles the matter if it is blocked, and leaves it to
what is done then if it is not. -/
theorem judges_bind {α β : Type} {r : Except Error α} {f : α → Except Error β}
    (hs : h.state? id = some (.deferred e)) (he : e.IsOperator) {i : Nat} {c : NodeId}
    (hc : e.children[i]? = some c)
    (hbefore : ∀ d ∈ e.children.take i, h.blockers d = ∅) (hr : h.Judges c r)
    (hf : h.blockers c = ∅ → ∀ a, h.Judges id (f a)) : h.Judges id (r >>= f) := by
  cases r with
  | ok a => exact hf hr a
  | error err =>
    obtain ⟨n, rfl, hn⟩ := hr
    exact ⟨n, rfl, hn.of_child hs he hc hbefore⟩

/-- **Writing a kernel is judged by the blockers**, by induction on the depth. -/
theorem judges_writeBody (hs : h.Sound) {depth : Nat} (hid : id < h.cells.size) (hd : id < depth)
    (bound : List Binding) : h.Judges id (h.writeBody depth id bound) := by
  induction depth generalizing id bound with
  | zero => exact absurd hd (Nat.not_lt_zero id)
  | succ depth ih =>
    obtain ⟨s, hst⟩ := exists_state? hid
    have hbelow : ∀ c ∈ s.children, ∀ bound, h.Judges c (h.writeBody depth c bound) :=
      fun c hc bound =>
        have hlt := hs.ordered id s hst c hc
        ih (Nat.lt_trans hlt hid) (Nat.lt_of_lt_of_le hlt (Nat.le_of_lt_succ hd)) bound
    rw [writeBody, hst]
    rcases s with (b | s | ⟨op, x⟩ | ⟨op, x, y⟩ | ⟨base, k, value⟩) | (b | s)
    · obtain ⟨r, hr⟩ := exists_parameterFor hs hst rfl bound
      simp only [hr]
      exact blockers_of_leaf hst rfl (by rintro _ ⟨⟩ ⟨⟩)
    · exact blockers_of_leaf hst rfl (by rintro _ ⟨⟩ ⟨⟩)
    · have hx := hbelow x (by simp [NodeStatus.children, Expression.children]) bound
      refine judges_bind (i := 0) hst trivial rfl (List.forall_mem_nil _) hx ?_
      rintro hnone ⟨_, _⟩
      exact blockers_of_children hst trivial (List.forall_mem_singleton.mpr hnone)
    · have hx := hbelow x (by simp [NodeStatus.children, Expression.children]) bound
      have hy := hbelow y (by simp [NodeStatus.children, Expression.children])
      refine judges_bind (i := 0) hst trivial rfl (List.forall_mem_nil _) hx ?_
      rintro hnonex ⟨_, bx⟩
      have hbefore : ∀ d ∈ [x], h.blockers d = ∅ := List.forall_mem_singleton.mpr hnonex
      refine judges_bind (i := 1) hst trivial rfl hbefore (hy bx) ?_
      rintro hnoney ⟨_, _⟩
      refine blockers_of_children hst trivial (List.forall_mem_cons.mpr ⟨hnonex, ?_⟩)
      exact List.forall_mem_singleton.mpr hnoney
    · exact ⟨id, rfl, firstBlocker_self ⟨base, k, value, hst⟩⟩
    · obtain ⟨r, hr⟩ := exists_parameterFor hs hst rfl bound
      simp only [hr]
      exact blockers_of_leaf hst rfl (by rintro _ ⟨⟩)
    · exact blockers_of_leaf hst rfl (by rintro _ ⟨⟩)

theorem judges_kernelFor (hs : h.Sound) (hroot : root < h.cells.size) :
    h.Judges root (h.kernelFor root) := by
  have hbody := judges_writeBody hs hroot (Nat.lt_succ_self root) []
  rw [kernelFor]
  cases hw : h.writeBody (root + 1) root [] with
  | ok r => rwa [hw] at hbody
  | error err => rwa [hw] at hbody

/-! ## Clearing the way -/

theorem finite_blockers (hord : h.Ordered) (root : NodeId) : (h.blockers root).Finite :=
  (Set.finite_le_nat root).subset fun _ ⟨_, _, hp⟩ => hp.le hord

/-- **Nothing gets in the way later** that was not in the way before. -/
theorem Later.blockers_subset (hl : h.Later g) (hord : h.Ordered) (hroot : root < h.cells.size) :
    g.blockers root ⊆ h.blockers root := by
  rintro n ⟨⟨base, key, value, hst⟩, p, hp⟩
  have hp' := hl.path hord hroot hp
  have hn : n < h.cells.size := Nat.lt_of_le_of_lt (hp'.le hord) hroot
  exact ⟨⟨base, key, value, hl.deferred hn hst⟩, p, hp'⟩

/-- **Rounds of writing a kernel and forcing the node it was refused for.** -/
inductive Rounds (root : NodeId) : Nat → Heap → Heap → Prop
  | done (h : Heap) : Rounds root 0 h h
  | round {k : Nat} {h h₁ g : Heap} {n : NodeId} {v : Value}
    (hk : h.kernelFor root = .error (.graph (.assignInKernel n)))
    (hf : Eval.force n h = .ok v h₁) (hr : Rounds root k h₁ g) : Rounds root (k + 1) h g

/-- **A round clears the node that it forces**, which is the first blocker: it leads to a sound and
later heap with fewer blockers. -/
theorem follows_and_ncard_lt {v : Value} (hs : h.Sound) (hroot : root < h.cells.size)
    (hk : h.kernelFor root = .error (.graph (.assignInKernel n)))
    (hf : Eval.force n h = .ok v g) :
    h.Follows g ∧ (g.blockers root).ncard < (h.blockers root).ncard := by
  have hjudged := judges_kernelFor hs hroot
  rw [hk] at hjudged
  obtain ⟨_, ⟨⟩, hfirst⟩ := hjudged
  obtain ⟨p, hp, _⟩ := hfirst.first
  have hn : n < h.cells.size := Nat.lt_of_le_of_lt (hp.le hs.ordered) hroot
  have hfollows : h.Follows g := after_of_ok hf ▸ follows_visit hs hn .force
  have hcleared : n ∉ g.blockers root := fun hn =>
    not_isAssign_of_state? (Logged.state?_of_force hf) rfl hn.1
  refine ⟨hfollows, Set.ncard_lt_ncard ?_ (finite_blockers hs.ordered root)⟩
  exact ⟨hfollows.later.blockers_subset hs.ordered hroot, fun hsub => hcleared (hsub hfirst.mem)⟩

/-- Rounds lead to a sound and later heap. -/
theorem Rounds.follows {k : Nat} (hr : Rounds root k h g) (hs : h.Sound)
    (hroot : root < h.cells.size) : h.Follows g := by
  induction hr with
  | done h => exact .refl hs
  | round hk hf _ ih =>
    have hfirst := (follows_and_ncard_lt hs hroot hk hf).1
    exact hfirst.trans (ih hfirst.sound (Nat.lt_of_lt_of_le hroot hfirst.later.cells_le))

/-- There are no more rounds than blockers, by induction on the rounds. -/
theorem Rounds.le_ncard {k : Nat} (hr : Rounds root k h g) (hs : h.Sound)
    (hroot : root < h.cells.size) : k ≤ (h.blockers root).ncard := by
  induction hr with
  | done h => exact Nat.zero_le _
  | @round k h h₁ g n v hk hf hr ih =>
    obtain ⟨hfollows, hfewer⟩ := follows_and_ncard_lt hs hroot hk hf
    have hrest := ih hfollows.sound (Nat.lt_of_lt_of_le hroot hfollows.later.cells_le)
    exact Nat.succ_le_of_lt (Nat.lt_of_le_of_lt hrest hfewer)

/-- **Rounds come to an end**: with a kernel, or with a node that cannot be forced. -/
theorem exists_rounds (hs : h.Sound) (hroot : root < h.cells.size) :
    ∃ k g, Rounds root k h g ∧ ((∃ s, g.kernelFor root = .ok s) ∨
      ∃ n err g', g.kernelFor root = .error (.graph (.assignInKernel n)) ∧
        Eval.force n g = .error err g') := by
  induction hcount : (h.blockers root).ncard using Nat.strongRecOn generalizing h with
  | ind count ih =>
    have hjudged := judges_kernelFor hs hroot
    cases hk : h.kernelFor root with
    | ok s => exact ⟨0, h, .done h, .inl ⟨s, hk⟩⟩
    | error err =>
      rw [hk] at hjudged
      obtain ⟨n, rfl, _⟩ := hjudged
      cases hf : Eval.force n h with
      | error err g => exact ⟨0, h, .done h, .inr ⟨n, err, g, hk, hf⟩⟩
      | ok v h₁ =>
        obtain ⟨hfollows, hfewer⟩ := follows_and_ncard_lt hs hroot hk hf
        have hroot₁ := Nat.lt_of_lt_of_le hroot hfollows.later.cells_le
        obtain ⟨k, g, hr, hend⟩ := ih _ (hcount ▸ hfewer) hfollows.sound hroot₁ rfl
        exact ⟨k + 1, g, .round hk hf hr, hend⟩

/-- **What assignments do to the kernel of a node**, and what forcing them does about it. -/
structure Unblocks (h : Heap) (root : NodeId) : Prop where
  /-- The kernel is refused if and only if an assignment is reached through operators. -/
  refused_iff : (∃ e, h.kernelFor root = .error e) ↔ (h.blockers root).Nonempty
  /-- It is refused for the first of them. -/
  named : ∀ e, h.kernelFor root = .error e →
    ∃ n, e = .graph (.assignInKernel n) ∧ ∀ m, h.FirstBlocker root m ↔ m = n
  /-- They are finitely many. -/
  finite : (h.blockers root).Finite
  /-- There are no more rounds than assignments in the way at the start. -/
  bounded : ∀ k g, Rounds root k h g → k ≤ (h.blockers root).ncard
  /-- Wherever rounds have got to, they go on until there is a kernel, unless a node cannot be
  forced. -/
  ends : ∀ k g, Rounds root k h g → ∃ l g', Rounds root l g g' ∧
    ((∃ s, g'.kernelFor root = .ok s) ∨
      ∃ n err g'', g'.kernelFor root = .error (.graph (.assignInKernel n)) ∧
        Eval.force n g' = .error err g'')

/-- **Assignments block kernels, and forcing clears the way.** -/
theorem unblocks_kernelFor (hs : h.Sound) (hroot : root < h.cells.size) : h.Unblocks root := by
  have hjudged := judges_kernelFor hs hroot
  refine ⟨?_, fun e hk => ?_, finite_blockers hs.ordered root, fun k g hr => hr.le_ncard hs hroot,
    fun k g hr => ?_⟩
  · constructor
    · rintro ⟨e, hk⟩
      rw [hk] at hjudged
      obtain ⟨n, _, hn⟩ := hjudged
      exact ⟨n, hn.mem⟩
    · intro hblocked
      cases hk : h.kernelFor root with
      | error e => exact ⟨e, rfl⟩
      | ok s =>
        rw [hk] at hjudged
        exact absurd hjudged hblocked.ne_empty
  · rw [hk] at hjudged
    obtain ⟨n, he, hn⟩ := hjudged
    exact ⟨n, he, fun m => ⟨fun hm => hm.unique hn, fun heq => heq ▸ hn⟩⟩
  · have hfollows := hr.follows hs hroot
    exact exists_rounds hfollows.sound (Nat.lt_of_lt_of_le hroot hfollows.later.cells_le)

/-- A sum of two assignments, one to the other: the second is in the way twice, as an operand and
below it, and the first is met before it. -/
def nested : Heap where
  buffers := #[.ofElements (.ints [1, 2, 3])]
  cells := #[⟨.deferred (.data 0), 1, 0⟩, ⟨.deferred (.scalar (.int 7)), 0, 0⟩,
    ⟨.deferred (.assign 0 (.position 0) 1), 1, 0⟩, ⟨.deferred (.assign 2 (.position 1) 1), 0, 0⟩,
    ⟨.deferred (.binary .add 3 2), 0, 0⟩, ⟨.deferred (.unary .neg 4), 1, 0⟩]

theorem unblocks_kernelFor_nested :
    (nested.Sound ∧ 5 < nested.cells.size) ∧ nested.Unblocks 5 :=
  have hs : nested.Sound := by decide
  have hroot : 5 < nested.cells.size := by decide
  ⟨⟨hs, hroot⟩, unblocks_kernelFor hs hroot⟩

/-- Two assignments are in the way, and one round clears both: forcing the first forces its base. -/
example : ∃ g, Rounds 5 1 nested g ∧ (g.kernelFor 5).toBool = true :=
  ⟨_, .round (n := 3) rfl rfl (.done _), by decide +kernel⟩

end Heap

end DeferredArrays
