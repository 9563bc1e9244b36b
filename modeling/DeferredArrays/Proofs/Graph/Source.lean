import DeferredArrays.Graph.Fusion
import DeferredArrays.Proofs.Graph.Unfolding
import DeferredArrays.Proofs.Kernel.Printing

/-!
# Proofs/Graph/Source — the kernel of a graph reads as the graph

The kernel of a graph is written as text and read again.  What is read is the unfolding of the
graph, with every leaf replaced by its rank in the order of first visits (`exists_kernelFor_parse`):
the text is that of the unfolded term (`writeBody_eq`), and the parameters can be told apart by
their names because these spell the numbers of distinct nodes (`legible_params`).

The parameters grow while the text is written, whereas the indices refer to the final list.  So the
text is compared with the printed body only once the list is complete (`text_body`).
-/

namespace DeferredArrays

open Kernel

namespace Term

/-- The text of a term, with leaves by the names of their parameters. -/
def text : Term → String
  | array l => Binding.nameOf l.node
  | scalar s => s.literal
  | unary op x => op.name ++ "(" ++ x.text ++ ")"
  | binary op x y => op.name ++ "(" ++ x.text ++ ", " ++ y.text ++ ")"

/-- **The body of a term**, with every leaf as the parameter of its rank in a list. -/
def body (order : List Leaf) : Term → Body
  | array l => .param (order.idxOf l)
  | scalar s => .const s
  | unary op x => .unary op (x.body order)
  | binary op x y => .binary op (x.body order) (y.body order)

theorem closed_body {order : List Leaf} {params : List Param} (hlen : params.length = order.length)
    {t : Term} (ht : ∀ l ∈ t.leaves, l ∈ order) : (t.body order).Closed params := by
  induction t with
  | array l =>
    intro i hi
    rw [List.mem_singleton.mp hi, hlen]
    exact List.idxOf_lt_length_of_mem (ht l (List.mem_singleton.mpr rfl))
  | scalar s => exact fun i hi => nomatch hi
  | unary op x ih => exact ih ht
  | binary op x y ihx ihy =>
    intro i hi
    rcases List.mem_append.mp hi with hi | hi
    · exact ihx (fun l hl => ht l (List.mem_append_left _ hl)) i hi
    · exact ihy (fun l hl => ht l (List.mem_append_right _ hl)) i hi

/-- Every leaf is a parameter that occurs. -/
theorem idxOf_mem_paramIndices {order : List Leaf} {t : Term} {l : Leaf} (hl : l ∈ t.leaves) :
    order.idxOf l ∈ (t.body order).paramIndices := by
  induction t with
  | array m =>
    rw [List.mem_singleton.mp hl]
    exact List.mem_singleton.mpr rfl
  | scalar s => cases hl
  | unary op x ih => exact ih hl
  | binary op x y ihx ihy =>
    rcases List.mem_append.mp hl with hl | hl
    · exact List.mem_append_left _ (ihx hl)
    · exact List.mem_append_right _ (ihy hl)

/-- The printed body of a term is its text. -/
theorem text_body {order : List Leaf} {params : List Param}
    (hparams : params.map Param.name = order.map fun l => Binding.nameOf l.node) {t : Term}
    (ht : ∀ l ∈ t.leaves, l ∈ order) : (t.body order).text params = t.text := by
  induction t with
  | array l =>
    have hl : order.idxOf l < order.length :=
      List.idxOf_lt_length_of_mem (ht l (List.mem_singleton.mpr rfl))
    have hname : (params[order.idxOf l]?).map Param.name = some (Binding.nameOf l.node) := by
      rw [← List.getElem?_map, hparams, List.getElem?_map, List.getElem?_eq_getElem hl,
        List.getElem_idxOf]
      rfl
    rw [body, Body.text, hname]
    rfl
  | scalar s => rfl
  | unary op x ih => rw [body, Body.text, ih ht, text]
  | binary op x y ihx ihy =>
    rw [body, Body.text, ihx fun l hl => ht l (List.mem_append_left _ hl),
      ihy fun l hl => ht l (List.mem_append_right _ hl), text]

end Term

/-! ## Names of parameters -/

theorem toList_nameOf (id : NodeId) :
    (Binding.nameOf id).toList = 'x' :: Decimal.digitChars id := by
  simp [Binding.nameOf, Decimal.digitChars]

/-- **Nodes have distinct names.** -/
theorem nameOf_injective {m n : NodeId} (h : Binding.nameOf m = Binding.nameOf n) : m = n := by
  have hchars := congrArg String.toList h
  rw [toList_nameOf, toList_nameOf, List.cons.injEq] at hchars
  rw [← Numeral.ofDigits_digitChars m, hchars.2, Numeral.ofDigits_digitChars]

theorem isName_nameOf (id : NodeId) : IsName (Binding.nameOf id).toList := by
  rw [toList_nameOf]
  exact ⟨'x', _, rfl, by decide, List.all_eq_true.mpr fun _ hc =>
    continuesName_of_isDigit (Numeral.isDigit_of_mem_digitChars hc)⟩

/-- No constant has the name of a node. -/
theorem constant?_nameOf (id : NodeId) : constant? (Binding.nameOf id) = none := by
  have hne : ∀ s : String, s.toList.head? ≠ some 'x' → Binding.nameOf id ≠ s := by
    rintro s hs rfl
    exact hs (by rw [toList_nameOf]; rfl)
  simp [constant?, hne "true" (by decide), hne "false" (by decide), hne "inf" (by decide),
    hne "NaN" (by decide)]

namespace Heap

variable {h : Heap}

/-- The type of the elements in a buffer. -/
def typeOf (h : Heap) (b : BufferId) : ElemType := ((h.buffer? b).map Tensor.elemType).getD default

/-- The binding of a leaf. -/
def bindingOf (h : Heap) (l : Leaf) : Binding := ⟨l.node, l.buffer, h.typeOf l.buffer⟩

theorem names_bindingOf (order : List Leaf) :
    ((order.map h.bindingOf).map Binding.param).map Param.name
      = order.map fun l => Binding.nameOf l.node := by
  rw [List.map_map, List.map_map]
  rfl

/-- **Parameters for distinct leaves can be told apart.** -/
theorem legible_params {order : List Leaf} (hheld : ∀ l ∈ order, h.Holds l)
    (hnodup : order.Nodup) : Legible ((order.map h.bindingOf).map Binding.param) := by
  refine legible_of_nodup (fun p hp => ?_) ?_
  · simp only [List.mem_map] at hp
    obtain ⟨_, ⟨l, _, rfl⟩, rfl⟩ := hp
    exact ⟨isName_nameOf l.node, constant?_nameOf l.node⟩
  · rw [names_bindingOf]
    exact List.Nodup.map_on (fun l hl m hm hname =>
      (hheld l hl).unique (hheld m hm) (nameOf_injective hname)) hnodup

/-! ## Writing -/

/-- One more leaf in the list of those met. -/
theorem eraseDups_append_singleton (seen : List Leaf) (l : Leaf) :
    (seen ++ [l]).eraseDups = if l ∈ seen then seen.eraseDups else seen.eraseDups ++ [l] := by
  rw [List.eraseDups_append]
  by_cases hl : l ∈ seen
  · simp [hl, List.removeAll]
  · simp [hl, List.removeAll, List.eraseDups_cons]

theorem nodup_eraseDups (ls : List Leaf) : ls.eraseDups.Nodup := by
  induction ls using List.reverseRecOn with
  | nil => exact List.nodup_nil
  | append_singleton ls l ih =>
    rw [eraseDups_append_singleton]
    split
    next => exact ih
    next hl => exact List.nodup_append_comm.mp (List.nodup_cons.mpr ⟨by simpa using hl, ih⟩)

/-- **The body of a term uses all of its parameters.** -/
theorem mem_paramIndices_of_lt {t : Term} {i : Nat} (hi : i < t.firstVisits.length) :
    i ∈ (t.body t.firstVisits).paramIndices := by
  have hnodup : t.firstVisits.Nodup := nodup_eraseDups _
  have hmem := Term.mem_firstVisits.mp (List.getElem_mem hi)
  have hindex : t.firstVisits.idxOf t.firstVisits[i] ∈ (t.body t.firstVisits).paramIndices :=
    Term.idxOf_mem_paramIndices hmem
  rwa [hnodup.idxOf_getElem i hi] at hindex

theorem parameterFor_eq (hs : h.Sound) {seen : List Leaf} {l : Leaf} (hl : h.Holds l)
    (hseen : ∀ m ∈ seen, h.Holds m) :
    h.parameterFor l.node l.buffer (seen.eraseDups.map h.bindingOf)
      = .ok (Binding.nameOf l.node, (seen ++ [l]).eraseDups.map h.bindingOf) := by
  have hany : (seen.eraseDups.map h.bindingOf).any (·.node == l.node) = decide (l ∈ seen) := by
    rw [Bool.eq_iff_iff, List.any_eq_true, decide_eq_true_iff]
    constructor
    · rintro ⟨_, hb, hnode⟩
      obtain ⟨m, hm, rfl⟩ := List.mem_map.mp hb
      have hm := List.mem_eraseDups.mp hm
      exact hl.unique (hseen m hm) (beq_iff_eq.mp hnode).symm ▸ hm
    · intro hmem
      exact ⟨_, List.mem_map_of_mem (List.mem_eraseDups.mpr hmem), beq_self_eq_true _⟩
  obtain ⟨a, ha⟩ := hl.exists_buffer? hs
  rw [parameterFor, hany, eraseDups_append_singleton]
  by_cases hmem : l ∈ seen
  · simp [hmem]
  · simp [hmem, ha, bindingOf, typeOf]

/-- **What is written for a node**: the text of its term, and bindings for its leaves behind those
for the leaves met before. -/
theorem writeBody_eq (hs : h.Sound) {id : NodeId} {t : Term} (ht : h.Unfolds id t) {depth : Nat}
    (hd : id < depth) {seen : List Leaf} (hseen : ∀ l ∈ seen, h.Holds l) :
    h.writeBody depth id (seen.eraseDups.map h.bindingOf)
      = .ok (t.text, (seen ++ t.leaves).eraseDups.map h.bindingOf) := by
  induction ht generalizing depth seen with
  | data hst =>
    obtain ⟨depth, rfl⟩ := Nat.exists_eq_add_one_of_ne_zero (Nat.ne_zero_of_lt hd)
    simp only [writeBody, hst]
    exact parameterFor_eq hs (l := ⟨_, _⟩) ⟨_, hst, rfl⟩ hseen
  | cachedArray hst =>
    obtain ⟨depth, rfl⟩ := Nat.exists_eq_add_one_of_ne_zero (Nat.ne_zero_of_lt hd)
    simp only [writeBody, hst]
    exact parameterFor_eq hs (l := ⟨_, _⟩) ⟨_, hst, rfl⟩ hseen
  | scalar hst =>
    obtain ⟨depth, rfl⟩ := Nat.exists_eq_add_one_of_ne_zero (Nat.ne_zero_of_lt hd)
    simp [writeBody, hst, Term.text, Term.leaves]
  | cachedScalar hst =>
    obtain ⟨depth, rfl⟩ := Nat.exists_eq_add_one_of_ne_zero (Nat.ne_zero_of_lt hd)
    simp [writeBody, hst, Term.text, Term.leaves]
  | unary hst hx ih =>
    obtain ⟨depth, rfl⟩ := Nat.exists_eq_add_one_of_ne_zero (Nat.ne_zero_of_lt hd)
    have hlt := hs.ordered _ _ hst _ (List.mem_singleton.mpr rfl)
    have hx := ih (Nat.lt_of_lt_of_le hlt (Nat.le_of_lt_succ hd)) hseen
    simp only [writeBody, hst, hx, bind, Except.bind, pure, Except.pure, Term.text, Term.leaves]
  | @binary id x y op t u hst hx hy ihx ihy =>
    obtain ⟨depth, rfl⟩ := Nat.exists_eq_add_one_of_ne_zero (Nat.ne_zero_of_lt hd)
    have hltx := hs.ordered _ _ hst x (by simp [NodeStatus.children, Expression.children])
    have hlty := hs.ordered _ _ hst y (by simp [NodeStatus.children, Expression.children])
    -- the right operand is written with the bindings of the left one in place
    have hseen' : ∀ l ∈ seen ++ t.leaves, h.Holds l := fun l hl =>
      (List.mem_append.mp hl).elim (hseen l) (hx.holds l)
    have hx := ihx (Nat.lt_of_lt_of_le hltx (Nat.le_of_lt_succ hd)) hseen
    have hy := ihy (Nat.lt_of_lt_of_le hlty (Nat.le_of_lt_succ hd)) hseen'
    simp only [writeBody, hst, hx, hy, bind, Except.bind, pure, Except.pure, Term.text,
      Term.leaves, List.append_assoc]

/-- The parameters for a term: one for each leaf, in the order of first visits. -/
def paramsOf (h : Heap) (t : Term) : List Param :=
  (t.firstVisits.map h.bindingOf).map Binding.param

theorem Unfolds.holds_firstVisits {id : NodeId} {t : Term} (ht : h.Unfolds id t) :
    ∀ l ∈ t.firstVisits, h.Holds l := fun l hl => ht.holds l (Term.mem_firstVisits.mp hl)

/-- **The kernel of a node**, as text. -/
theorem kernelFor_eq (hs : h.Sound) {id : NodeId} {t : Term} (ht : h.Unfolds id t) :
    h.kernelFor id = .ok ⟨⟨h.paramsOf t, t.text⟩, t.firstVisits.map Leaf.buffer⟩ := by
  have hnone : ∀ l ∈ ([] : List Leaf), h.Holds l := fun l hl => nomatch hl
  have hw := writeBody_eq hs ht (Nat.lt_succ_self id) hnone
  rw [List.eraseDups_nil, List.map_nil, List.nil_append] at hw
  have hbuffers : (t.leaves.eraseDups.map h.bindingOf).map Binding.buffer
      = t.leaves.eraseDups.map Leaf.buffer := by
    rw [List.map_map]
    rfl
  simp only [kernelFor, hw, bind, Except.bind, pure, Except.pure, hbuffers]
  rfl

/-- **The text of a kernel reads as the body of the term.** -/
theorem parse_text {id : NodeId} {t : Term} (ht : h.Unfolds id t) :
    Source.parse ⟨h.paramsOf t, t.text⟩ = .ok (t.body t.firstVisits) := by
  have hlegible : Legible (h.paramsOf t) :=
    legible_params ht.holds_firstVisits (nodup_eraseDups _)
  have hall : ∀ l ∈ t.leaves, l ∈ t.firstVisits := fun l hl => Term.mem_firstVisits.mpr hl
  have hclosed : (t.body t.firstVisits).Closed (h.paramsOf t) :=
    Term.closed_body (by simp [paramsOf]) hall
  have htext : (t.body t.firstVisits).text (h.paramsOf t) = t.text :=
    Term.text_body (names_bindingOf _) hall
  rw [Source.parse, ← htext]
  exact ofText_text hlegible hclosed

/-- **A kernel reads back as the graph it was written for.** -/
structure ReadsBack (h : Heap) (root : NodeId) (t : Term) (g : BoundSource) : Prop where
  /-- The graph below the root unfolds to the term. -/
  unfolds : h.Unfolds root t
  /-- Its kernel is written without an error. -/
  written : h.kernelFor root = .ok g
  /-- What is read from the text is the term, leaves being numbered in the order of first visits. -/
  parsed : g.source.parse = .ok (t.body t.firstVisits)
  /-- The numbered leaves are the reachable nodes that hold arrays. -/
  leaves : ∀ l, l ∈ t.firstVisits ↔ h.Reaches root l.node ∧ h.Holds l
  /-- Each of them is numbered once. -/
  nodes : (t.firstVisits.map Leaf.node).Nodup
  /-- The parameters are theirs: named after the node, and of the type of its buffer. -/
  params : List.Forall₂ (fun l p => p.name = "x" ++ l.node.repr ∧
    (h.buffer? l.buffer).map Tensor.elemType = some p.elemType) t.firstVisits g.source.params
  /-- No two parameters have the same name. -/
  names : (g.source.params.map Param.name).Nodup
  /-- The arguments are the buffers of the leaves. -/
  arguments : g.arguments = t.firstVisits.map Leaf.buffer

/-- **Every graph without assignments has a kernel, and the kernel reads back as the graph.** -/
theorem exists_readsBack (hs : h.Sound) {root : NodeId} (hroot : root < h.cells.size)
    (hfree : h.AssignFree root) : ∃ t g, h.ReadsBack root t g := by
  obtain ⟨t, ht⟩ := exists_unfolds hs hroot hfree
  have hheld := ht.holds_firstVisits
  have hnodup : t.firstVisits.Nodup := nodup_eraseDups _
  refine ⟨t, _, ht, kernelFor_eq hs ht, parse_text ht, fun l => ?_, ?_, ?_, ?_, rfl⟩
  · rw [Term.mem_firstVisits, ht.mem_leaves_iff]
  · exact hnodup.map_on fun l hl m hm hnode => (hheld l hl).unique (hheld m hm) hnode
  · rw [paramsOf, List.map_map, List.forall₂_map_right_iff, List.forall₂_same]
    intro l hl
    obtain ⟨a, ha⟩ := (hheld l hl).exists_buffer? hs
    refine ⟨rfl, ?_⟩
    simp [bindingOf, Binding.param, typeOf, ha]
  · rw [paramsOf, names_bindingOf]
    exact hnodup.map_on fun l hl m hm hname =>
      (hheld l hl).unique (hheld m hm) (nameOf_injective hname)

/-- `(x + -3) * x` over one array `x`, which is one parameter although it is reached twice. -/
def shifted : Heap :=
  ⟨#[.ofElements (.ints [4, 5])],
   #[⟨.deferred (.data 0), 1, 0⟩, ⟨.deferred (.scalar (.int (-3))), 0, 0⟩,
     ⟨.deferred (.binary .add 0 1), 0, 0⟩, ⟨.deferred (.binary .mul 2 0), 1, 0⟩]⟩

theorem exists_readsBack_shifted :
    shifted.Sound ∧ shifted.AssignFree 3 ∧ ∃ t g, shifted.ReadsBack 3 t g :=
  have hs : shifted.Sound := by decide
  have hfree : shifted.AssignFree 3 := assignFree_of_all (by decide) 3
  ⟨hs, hfree, exists_readsBack hs (by decide) hfree⟩

end Heap

end DeferredArrays
