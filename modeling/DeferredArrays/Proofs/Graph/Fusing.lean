import DeferredArrays.Proofs.Graph.Pure
import DeferredArrays.Proofs.Graph.Source
import DeferredArrays.Proofs.Kernel.Calling
import DeferredArrays.Proofs.Kernel.Compiling

/-!
# Proofs/Graph/Fusing — what a fused kernel is made of

If a graph fuses at all, it unfolds to a term, and the kernel is made of that term: type and code
are those of its body, parameters and arguments are its leaves (`Fused.Compiles`, `fuse_eq_ok`).
This is where the text of the kernel is left behind; all that is said of a kernel from here on is
said of a term.  The body of a term uses all its parameters, so there are never more of them than
arguments with an offset of their own (`Fused.Compiles.length_le`).

A kernel reads buffers when it runs, so what its graph is worth then has to be asked of the nodes as
they were when it was fused, over the buffers as they are (`Heap.onto`).  Writes in between leave
the types of arrays as they were, so the leaves still fit the parameters (`Written.fits`), and a run
calls the kernel on inputs that it accepts (`Fused.Compiles.run_eq`, `Fused.Compiles.accepts`).  As
long as the graph is not forced, forcing it now is the same as evaluating it so
(`Unfolds.materialize_eq_onto`).
-/

namespace DeferredArrays

open Kernel

namespace Heap

variable {h : Heap}

/-! ## Fusing -/

/-- A graph that can be written as a body unfolds. -/
theorem exists_unfolds_of_writeBody {depth : Nat} {id : NodeId} {bound : List Binding}
    {r : String × List Binding} (hw : h.writeBody depth id bound = .ok r) :
    ∃ t, h.Unfolds id t := by
  induction depth generalizing id bound r with
  | zero => cases hw
  | succ depth ih =>
    unfold writeBody at hw
    split at hw
    next => cases hw
    next b hs => exact ⟨_, .cachedArray hs⟩
    next s hs => exact ⟨_, .cachedScalar hs⟩
    next b hs => exact ⟨_, .data hs⟩
    next s hs => exact ⟨_, .scalar hs⟩
    next op x hs =>
      obtain ⟨rx, hx, _⟩ := exists_of_bind_eq_ok hw
      obtain ⟨t, ht⟩ := ih hx
      exact ⟨_, .unary hs ht⟩
    next op x y hs =>
      obtain ⟨rx, hx, hw⟩ := exists_of_bind_eq_ok hw
      obtain ⟨ry, hy, _⟩ := exists_of_bind_eq_ok hw
      obtain ⟨t, ht⟩ := ih hx
      obtain ⟨u, hu⟩ := ih hy
      exact ⟨_, .binary hs ht hu⟩
    next => cases hw

end Heap

/-- **A fused kernel is the compiled term of a node.** -/
structure Fused.Compiles (h : Heap) (id : NodeId) (t : Term) (k : Fused) : Prop where
  /-- The graph below the node unfolds to the term. -/
  unfolds : h.Unfolds id t
  /-- The text reads as the body of the term. -/
  parsed : k.source.parse = .ok (t.body t.firstVisits)
  /-- The parameters are those of the leaves, in the text … -/
  sourceParams : k.source.params = h.paramsOf t
  /-- … and in the compiled kernel. -/
  params : k.kernel.params = h.paramsOf t
  /-- The arguments are the buffers of the leaves. -/
  arguments : k.arguments = t.firstVisits.map Leaf.buffer
  /-- The kernel returns the type of the body. -/
  typed : (t.body t.firstVisits).elemType? (h.paramsOf t) = .ok k.kernel.output
  /-- The kernel runs the code of the body. -/
  lowered : (t.body t.firstVisits).lower = .ok k.kernel.code
  /-- There are not more leaves than arguments with an offset of their own. -/
  length_le : t.firstVisits.length ≤ 2 ^ 28

namespace Heap

variable {h : Heap}

/-- **What fuses is the compiled term of the node.** -/
theorem fuse_eq_ok (hs : h.Sound) {compiler : Compiler} {id : NodeId} {k : Fused}
    (hk : h.fuse compiler id = .ok k) : ∃ t, k.Compiles h id t := by
  obtain ⟨g, hg, hk⟩ := exists_of_bind_eq_ok hk
  obtain ⟨r, hr, _⟩ := exists_of_bind_eq_ok hg
  obtain ⟨t, ht⟩ := exists_unfolds_of_writeBody hr
  rw [kernelFor_eq hs ht, Except.ok.injEq] at hg
  subst hg
  split at hk
  next c hc =>
    cases hk
    obtain ⟨body, hbody, htyped, hlowered, htaken, hparams⟩ := compile_eq_ok hc
    obtain rfl : t.body t.firstVisits = body := Except.ok.inj ((parse_text ht).symm.trans hbody)
    have huses : ∀ i < t.firstVisits.length, i ∈ (t.body t.firstVisits).paramIndices :=
      fun _ => mem_paramIndices_of_lt
    exact ⟨t, ht, parse_text ht, rfl, hparams, rfl, htyped, hlowered,
      Compiler.length_le_of_uses hlowered htaken huses⟩
  next => cases hk

/-- A term whose body has a type and code fuses, if the code generator takes the code. -/
theorem exists_fuse_of_typed (hs : h.Sound) (compiler : Compiler) {id : NodeId} {t : Term}
    (ht : h.Unfolds id t) {u : ElemType} {c : Code}
    (hu : (t.body t.firstVisits).elemType? (h.paramsOf t) = .ok u)
    (hc : (t.body t.firstVisits).lower = .ok c) (htaken : compiler.refusal? c = none) :
    ∃ k, h.fuse compiler id = .ok k ∧ k.Compiles h id t ∧ k.kernel.output = u := by
  let g : BoundSource := ⟨⟨h.paramsOf t, t.text⟩, t.firstVisits.map Leaf.buffer⟩
  have hcompiled : compile compiler g.source = .ok ⟨h.paramsOf t, u, c⟩ :=
    compile_of_lower (parse_text ht) hu hc htaken
  have hk : h.fuse compiler id = .ok ⟨g, ⟨h.paramsOf t, u, c⟩⟩ := by
    simp only [fuse, kernelFor_eq hs ht, bind, Except.bind]
    rw [hcompiled]
    rfl
  obtain ⟨t', hk'⟩ := fuse_eq_ok hs hk
  obtain rfl := ht.unique hk'.unfolds
  exact ⟨_, hk, hk', rfl⟩

/-! ## Later buffers -/

/-- **The nodes of one heap over the buffers of another.** -/
def onto (h h' : Heap) : Heap := ⟨h'.buffers, h.cells⟩

theorem Unfolds.onto {id : NodeId} {t : Term} (ht : h.Unfolds id t) (h' : Heap) :
    (h.onto h').Unfolds id t := by
  induction ht with
  | data hs => exact .data hs
  | cachedArray hs => exact .cachedArray hs
  | scalar hs => exact .scalar hs
  | cachedScalar hs => exact .cachedScalar hs
  | unary hs _ ih => exact .unary hs ih
  | binary hs _ _ ihx ihy => exact .binary hs ihx ihy

/-- The array of a leaf. -/
def arrayOf (h : Heap) (l : Leaf) : Tensor := (h.buffer? l.buffer).getD (.ofScalar default)

/-- **A leaf still fits**: its buffer holds a well-formed array of the type it had before. -/
structure Fits (h h' : Heap) (l : Leaf) : Prop where
  /-- The buffer of the leaf exists. -/
  buffer : h'.buffer? l.buffer = some (h'.arrayOf l)
  /-- Its array is well formed. -/
  wellFormed : (h'.arrayOf l).WellFormed
  /-- Its array has the type it had before. -/
  elemType : (h'.arrayOf l).elemType = h.typeOf l.buffer

/-- **Leaves fit after any writes.** -/
theorem Written.fits {h' : Heap} (hs : h.Sound) (hw : h.Written h') {l : Leaf} (hl : h.Holds l) :
    h.Fits h' l := by
  obtain ⟨a, ha⟩ := hl.exists_buffer? hs
  obtain ⟨c, hc, hac⟩ := hw _ a ha
  obtain ⟨_, htype, hwf⟩ := hac.same
  have harray : h'.arrayOf l = c := by rw [arrayOf, hc]; rfl
  refine ⟨by rw [harray, hc], ?_, ?_⟩
  · rw [harray]
    exact hwf (hs.wellFormed _ a ha)
  · rw [harray, htype, typeOf, ha]
    rfl

theorem grounded_of_fits {h' : Heap} {t : Term} (hfits : ∀ l ∈ t.leaves, h.Fits h' l) :
    t.Grounded h'.buffer? := fun l hl => ⟨_, (hfits l hl).buffer, (hfits l hl).wellFormed⟩

/-- The term of a graph, evaluated where its leaves fit. -/
theorem Unfolds.materialize_onto {h' : Heap} (hs : h.Sound) {id : NodeId} {t : Term}
    (ht : h.Unfolds id t) (hfits : ∀ l ∈ t.leaves, h.Fits h' l) :
    (h.onto h').materialize id = t.tensor? h'.buffer? := by
  have hord : (h.onto h').Ordered := hs.ordered
  have hg : t.Grounded h'.buffer? := grounded_of_fits hfits
  exact materialize_eq hord (ht.onto h') hg

/-- A node unfolds as before while no node below it is forced. -/
theorem Unfolds.of_states {h' : Heap} {id : NodeId} {t : Term} (ht : h.Unfolds id t)
    (hstates : ∀ n, h.Reaches id n → h'.state? n = h.state? n) : h'.Unfolds id t := by
  induction ht with
  | data hs => exact .data ((hstates _ .refl).trans hs)
  | cachedArray hs => exact .cachedArray ((hstates _ .refl).trans hs)
  | scalar hs => exact .scalar ((hstates _ .refl).trans hs)
  | cachedScalar hs => exact .cachedScalar ((hstates _ .refl).trans hs)
  | unary hs _ ih =>
    refine .unary ((hstates _ .refl).trans hs) (ih fun n hn => hstates n (.head ⟨_, hs, ?_⟩ hn))
    simp [NodeStatus.children, Expression.children]
  | binary hs _ _ ihx ihy =>
    refine .binary ((hstates _ .refl).trans hs)
      (ihx fun n hn => hstates n (.head ⟨_, hs, ?_⟩ hn))
      (ihy fun n hn => hstates n (.head ⟨_, hs, ?_⟩ hn))
    · simp [NodeStatus.children, Expression.children]
    · simp [NodeStatus.children, Expression.children]

/-- **Forcing a graph that is still unforced** is evaluating it over the buffers as they are. -/
theorem Unfolds.materialize_eq_onto {h' : Heap} (hs : h.Sound) (hord : h'.Ordered) {id : NodeId}
    {t : Term} (ht : h.Unfolds id t) (hfits : ∀ l ∈ t.leaves, h.Fits h' l)
    (hstates : ∀ n, h.Reaches id n → h'.state? n = h.state? n) :
    h'.materialize id = (h.onto h').materialize id := by
  rw [ht.materialize_onto hs hfits,
    materialize_eq hord (ht.of_states hstates) (grounded_of_fits hfits)]

theorem contents_eq {ls : List Leaf} (hls : ∀ l ∈ ls, h.buffer? l.buffer = some (h.arrayOf l)) :
    h.contents (ls.map Leaf.buffer) = .ok (ls.map h.arrayOf) := by
  induction ls with
  | nil => rfl
  | cons l ls ih =>
    have hrest := ih fun m hm => hls m (List.mem_cons_of_mem l hm)
    rw [List.map_cons, contents, hls l List.mem_cons_self, hrest]
    rfl

end Heap

/-- **A run is a call** on the arrays of the leaves. -/
theorem Fused.Compiles.run_eq {h h' : Heap} {id : NodeId} {t : Term} {k : Fused}
    (hk : k.Compiles h id t) (hfits : ∀ l ∈ t.leaves, h.Fits h' l) :
    h'.run k = k.kernel.call (t.firstVisits.map h'.arrayOf) := by
  rw [Heap.run, hk.arguments,
    Heap.contents_eq fun l hl => (hfits l (Term.mem_firstVisits.mp hl)).buffer]
  rfl

/-- The arrays of the leaves have the types of the parameters. -/
theorem Fused.Compiles.accepts {h h' : Heap} {id : NodeId} {t : Term} {k : Fused}
    (hk : k.Compiles h id t) (hfits : ∀ l ∈ t.leaves, h.Fits h' l) :
    k.kernel.Accepts (t.firstVisits.map h'.arrayOf) := by
  rw [Compiled.Accepts, hk.params, Heap.paramsOf, List.map_map, List.forall₂_map_left_iff,
    List.forall₂_map_right_iff, List.forall₂_same]
  exact fun l hl => (hfits l (Term.mem_firstVisits.mp hl)).elemType

end DeferredArrays
