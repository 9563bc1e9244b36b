import DeferredArrays.Proofs.Graph.Fusing

/-!
# Proofs/Graph/Agreement — a fused kernel and its graph succeed together

A kernel is typed once, when it is fused; its graph is evaluated on arrays whose types are found out
on the way.  The static type is sound for that evaluation: what it accepts fails on shapes only, and
returns the type it says (`resolves_tensor?`).  A call of the kernel fails on shapes only as well,
and combines them one parameter after the other instead of along the tree.  Both find the join of
the same set of shapes, so they succeed together, and with one shape (`fused_agrees`).
-/

namespace DeferredArrays

open Kernel Tensor

namespace Heap

variable {h h' : Heap}

/-! ## Static types are sound -/

/-- The shapes of the arrays of leaves. -/
def shapesOf (h : Heap) (ls : List Leaf) : List Shape := ls.map fun l => (h.arrayOf l).shape

/-- A leaf has the type of its parameter. -/
theorem elemType?_leaf {order : List Leaf} {l : Leaf} (hl : l ∈ order) :
    (Term.body order (.array l)).elemType? ((order.map h.bindingOf).map Binding.param)
      = .ok (h.typeOf l.buffer) := by
  have hlt : order.idxOf l < order.length := List.idxOf_lt_length_of_mem hl
  simp only [Term.body, Body.elemType?, List.getElem?_map, List.getElem?_eq_getElem hlt,
    List.getElem_idxOf, Option.map_some]
  rfl

/-- An exponent that is known to have no negative value has none. -/
theorem nonneg_of_isNonnegative {order : List Leaf} {look : BufferId → Option Tensor} {t : Term}
    {b : Tensor} (hb : t.tensor? look = .ok b)
    (hn : (t.body order).isNonnegative b.elemType = true) :
    ∀ y ∈ b.elements.toInts, 0 ≤ y := by
  have hbool : (b.elemType == .bool) = true → ∀ y ∈ b.elements.toInts, 0 ≤ y := by
    intro htype y hy
    obtain ⟨s, e⟩ := b
    cases e with
    | bools xs =>
      obtain ⟨x, _, rfl⟩ := List.mem_map.mp hy
      cases x <;> decide
    | ints xs => cases htype
    | floats xs => cases htype
  cases t with
  | array l => exact hbool hn
  | unary op x => exact hbool hn
  | binary op x y => exact hbool hn
  | scalar s =>
    cases hb
    cases s with
    | bool x => exact hbool hn
    | float x => exact hbool hn
    | int i =>
      intro y hy
      rw [List.mem_singleton.mp hy]
      exact of_decide_eq_true hn

/-- **The static type of a term is sound**: what has one evaluates to that type, unless the shapes
of its leaves have no join. -/
theorem resolves_tensor? {order : List Leaf} {t : Term} {u : ElemType}
    (hmem : ∀ l ∈ t.leaves, l ∈ order) (hfits : ∀ l ∈ t.leaves, h.Fits h' l)
    (hu : (t.body order).elemType? ((order.map h.bindingOf).map Binding.param) = .ok u) :
    Resolves (h'.shapesOf t.leaves) u (t.tensor? h'.buffer?) := by
  induction t generalizing u with
  | array l =>
    have hl := hfits l (List.mem_singleton.mpr rfl)
    rw [elemType?_leaf (hmem l (List.mem_singleton.mpr rfl)), Except.ok.injEq] at hu
    simp only [Term.tensor?, hl.buffer]
    exact ⟨Shape.joins_singleton _, hl.elemType.trans hu⟩
  | scalar s =>
    cases hu
    refine ⟨?_, elemType_ofScalar s⟩
    cases s <;> exact Shape.joins_nil
  | unary op x ih =>
    obtain ⟨s, hs, hop⟩ := exists_of_bind_eq_ok hu
    have hx := ih hmem hfits hs
    rw [Term.tensor?]
    cases hr : x.tensor? h'.buffer? with
    | error e =>
      rw [hr] at hx
      exact hx
    | ok a =>
      rw [hr] at hx
      obtain ⟨hjoin, rfl⟩ := hx
      obtain ⟨c, hc, hshape, htype⟩ := unary_typed hop
      simp only [bind, Except.bind, hc]
      exact ⟨hshape ▸ hjoin, htype⟩
  | binary op x y ihx ihy =>
    obtain ⟨s, hs, hrest⟩ := exists_of_bind_eq_ok hu
    obtain ⟨v, hv, hop⟩ := exists_of_bind_eq_ok hrest
    have hx := ihx (fun l hl => hmem l (List.mem_append_left _ hl))
      (fun l hl => hfits l (List.mem_append_left _ hl)) hs
    have hy := ihy (fun l hl => hmem l (List.mem_append_right _ hl))
      (fun l hl => hfits l (List.mem_append_right _ hl)) hv
    rw [Term.tensor?, Term.leaves, shapesOf, List.map_append]
    cases hrx : x.tensor? h'.buffer? with
    | error e =>
      rw [hrx] at hx
      refine ⟨hx.1, fun r hr => ?_⟩
      obtain ⟨r', hr'⟩ := hr.of_subset fun w hw => List.mem_append_left _ hw
      exact hx.2 r' hr'
    | ok a =>
      cases hry : y.tensor? h'.buffer? with
      | error e =>
        rw [hry] at hy
        refine ⟨hy.1, fun r hr => ?_⟩
        obtain ⟨r', hr'⟩ := hr.of_subset fun w hw => List.mem_append_right _ hw
        exact hy.2 r' hr'
      | ok b =>
        rw [hrx] at hx
        rw [hry] at hy
        obtain ⟨hjx, rfl⟩ := hx
        obtain ⟨hjy, rfl⟩ := hy
        have htyped := binary_typed (a := a) (fun hn _ => nonneg_of_isNonnegative hry hn) hop
        exact htyped.resolves hjx hjy

/-! ## Agreement -/

/-- **The arrays a node reaches combine**: those of positive rank have one shape. -/
def Combines (h : Heap) (root : NodeId) : Prop :=
  ∀ l m : Leaf, h.Reaches root l.node → h.Holds l → h.Reaches root m.node → h.Holds m →
    ∀ a b, h.buffer? l.buffer = some a → h.buffer? m.buffer = some b →
      a.shape.rank ≠ 0 → b.shape.rank ≠ 0 → a.shape = b.shape

/-- **A node and a kernel agree** up to the elements of their results: the one is forced, the other
was run, and both return a given type. -/
structure Agrees (h : Heap) (id : NodeId) (ran : Except Error Tensor) (t : ElemType) : Prop where
  /-- Forcing fails on shapes only. -/
  forced_error : ∀ e, h.materialize id = .error e → ∃ s u, e = .tensor (.shapeMismatch s u)
  /-- Forcing succeeds if and only if the arrays combine. -/
  forced_ok : (∃ a, h.materialize id = .ok a) ↔ h.Combines id
  /-- Running fails on shapes only. -/
  ran_error : ∀ e, ran = .error e → ∃ s u, e = .tensor (.shapeMismatch s u)
  /-- Running succeeds if and only if the arrays combine. -/
  ran_ok : (∃ b, ran = .ok b) ↔ h.Combines id
  /-- Both results have one shape. -/
  shapes : ∀ a b, h.materialize id = .ok a → ran = .ok b → a.shape = b.shape
  /-- Both results have the given type. -/
  types : ∀ a b, h.materialize id = .ok a → ran = .ok b → a.elemType = t ∧ b.elemType = t

/-- The arrays combine if and only if the shapes of the leaves have a join. -/
theorem Unfolds.combines_iff {id : NodeId} {t : Term} (ht : h.Unfolds id t)
    (hfits : ∀ l ∈ t.leaves, h.Fits h' l) :
    (∃ s, Shape.Joins (h'.shapesOf t.leaves) s) ↔ (h.onto h').Combines id := by
  have hleaf : ∀ l, l ∈ t.leaves ↔ (h.onto h').Reaches id l.node ∧ (h.onto h').Holds l := fun l =>
    (ht.onto h').mem_leaves_iff
  rw [Shape.exists_joins_iff]
  constructor
  · intro hall l m hrl hl hrm hm a b ha hb
    have hmeml := (hleaf l).mpr ⟨hrl, hl⟩
    have hmemm := (hleaf m).mpr ⟨hrm, hm⟩
    obtain rfl : h'.arrayOf l = a := Option.some.inj ((hfits l hmeml).buffer.symm.trans ha)
    obtain rfl : h'.arrayOf m = b := Option.some.inj ((hfits m hmemm).buffer.symm.trans hb)
    exact hall _ (List.mem_map_of_mem hmeml) _ (List.mem_map_of_mem hmemm)
  · intro hall u hu v hv
    obtain ⟨l, hl, rfl⟩ := List.mem_map.mp hu
    obtain ⟨m, hm, rfl⟩ := List.mem_map.mp hv
    obtain ⟨hrl, hhl⟩ := (hleaf l).mp hl
    obtain ⟨hrm, hhm⟩ := (hleaf m).mp hm
    exact hall l m hrl hhl hrm hhm _ _ (hfits l hl).buffer (hfits m hm).buffer

/-- A leaf that is met twice is one input, and its shape is that of a leaf. -/
theorem mem_shapes_firstVisits {t : Term} {u : Shape} :
    u ∈ (t.firstVisits.map h.arrayOf).map (·.shape) ↔ u ∈ h.shapesOf t.leaves := by
  simp only [shapesOf, List.mem_map, Term.mem_firstVisits, List.map_map, Function.comp_apply]

theorem wellFormed_inputs {t : Term} (hfits : ∀ l ∈ t.leaves, h.Fits h' l) :
    ∀ a ∈ t.firstVisits.map h'.arrayOf, a.WellFormed := by
  intro a ha
  obtain ⟨l, hl, rfl⟩ := List.mem_map.mp ha
  exact (hfits l (Term.mem_firstVisits.mp hl)).wellFormed

/-- **A run fails on shapes only**, those of the leaves, and returns the type of the kernel. -/
theorem resolves_run {id : NodeId} {t : Term} {k : Fused} (hk : k.Compiles h id t)
    (hfits : ∀ l ∈ t.leaves, h.Fits h' l) :
    Resolves (h'.shapesOf t.leaves) k.kernel.output (h'.run k) := by
  rw [hk.run_eq hfits]
  have hcall := Compiled.call_resolves (hk.accepts hfits) (wellFormed_inputs hfits)
  exact hcall.congr fun _ => mem_shapes_firstVisits

/-- **A fused kernel and its graph succeed together**, whatever was written since it was fused, and
agree on shape and type. -/
theorem fused_agrees (hs : h.Sound) {compiler : Compiler} {id : NodeId} {k : Fused}
    (hk : h.fuse compiler id = .ok k) (hw : h.Written h') :
    (h.onto h').Agrees id (h'.run k) k.kernel.output := by
  obtain ⟨t, hk⟩ := fuse_eq_ok hs hk
  have hfits : ∀ l ∈ t.leaves, h.Fits h' l := fun l hl => hw.fits hs (hk.unfolds.holds l hl)
  have hall : ∀ l ∈ t.leaves, l ∈ t.firstVisits := fun l hl => Term.mem_firstVisits.mpr hl
  have hforced : Resolves (h'.shapesOf t.leaves) k.kernel.output ((h.onto h').materialize id) := by
    rw [hk.unfolds.materialize_onto hs hfits]
    exact resolves_tensor? hall hfits hk.typed
  have hran := resolves_run hk hfits
  have hcombines := hk.unfolds.combines_iff hfits
  refine ⟨fun e => hforced.of_error, hforced.ok_iff.trans hcombines, fun e => hran.of_error,
    hran.ok_iff.trans hcombines, fun a b ha hb => ?_, fun a b ha hb => ?_⟩
  · exact (hforced.of_ok ha).1.unique (hran.of_ok hb).1
  · exact ⟨(hforced.of_ok ha).2, (hran.of_ok hb).2⟩

/-- `x ** 2 <= y` over integers `x` and truth values `y`, with a handle on the result. -/
def squares : Heap :=
  ⟨#[.ofElements (.ints [1, -2, 3]), .ofElements (.bools [true, false, true])],
   #[⟨.deferred (.data 0), 1, 0⟩, ⟨.deferred (.scalar (.int 2)), 0, 0⟩,
     ⟨.deferred (.binary .pow 0 1), 0, 0⟩, ⟨.deferred (.data 1), 0, 0⟩,
     ⟨.deferred (.binary .le 2 3), 1, 0⟩]⟩

/-- The same graph after a write to the first element of `x`. -/
def squaresWritten : Heap := squares.setBuffer 0 (.ofElements (.ints [7, -2, 3]))

theorem fused_agrees_squares :
    ∃ k, squares.Sound ∧ squares.fuse (.ofSettings ⟨.speed⟩) 4 = .ok k ∧ squares.Written squaresWritten ∧
      (squares.onto squaresWritten).Agrees 4 (squaresWritten.run k) k.kernel.output := by
  have hs : squares.Sound := by decide
  have ht : squares.Unfolds 4 (.binary .le (.binary .pow (.array ⟨0, 0⟩) (.scalar (.int 2)))
      (.array ⟨3, 1⟩)) :=
    .binary rfl (.binary rfl (.data rfl) (.scalar rfl)) (.data rfl)
  obtain ⟨k, hk, _, _⟩ := exists_fuse_of_typed hs (.ofSettings ⟨.speed⟩) ht (u := .bool) rfl rfl rfl
  have hset : (Tensor.ofElements (.ints [1, -2, 3])).set (.position 0) (.ofScalar (.int 7))
      = .ok (.ofElements (.ints [7, -2, 3])) := by decide
  have hw : squares.Written squaresWritten :=
    (follows_setBuffer hs (b := 0) rfl hset).later.buffers
  exact ⟨k, hs, hk, hw, fused_agrees hs hk hw⟩

end Heap

end DeferredArrays
