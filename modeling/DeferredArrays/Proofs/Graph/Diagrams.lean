import DeferredArrays.Proofs.Graph.Outline
import DeferredArrays.Proofs.Graph.Termination
import DeferredArrays.Proofs.Tensor.Display

/-!
# Proofs/Graph/Diagrams — a diagram determines the graph it shows

The diagram of a node is the text of a tree: its unfolding through deferred expressions, in which
nodes that are shared occur once for each way to reach them, and the position that is the key of an
assignment is an entry of its own (`Heap.Draws`).  The lines of the diagram are those of the tree
(`lines_eq`).

What a line tells of its node is a label (`Label`): the kind of the node, with the operator or the
type of what it holds, and whether it is owned.  Neither shapes nor elements have a line break or an
opening parenthesis in their texts, so the label can be read back (`readLabel_lineText`).  Together,
the tree with its labels can be told from the diagram (`diagram_determines`).
-/

namespace DeferredArrays

open Numeral Text

/-! ## Kinds of nodes -/

/-- The kind of a node, as far as a diagram shows it: for leaves the type of what they hold, and for
operators which it is. -/
inductive Kind where
  | data (t : ElemType)
  | scalar (t : ElemType)
  | cachedArray (t : ElemType)
  | cachedScalar (t : ElemType)
  | unary (op : UnaryOp)
  | binary (op : BinaryOp)
  | assign
  deriving DecidableEq

namespace Kind

/-- All kinds. -/
def all : List Kind :=
  ElemType.all.map data ++ ElemType.all.map scalar ++ ElemType.all.map cachedArray ++
    ElemType.all.map cachedScalar ++ UnaryOp.all.map unary ++ BinaryOp.all.map binary ++ [assign]

/-- What the line of a node starts with, up to the shape of an array or the parenthesis. -/
def mark : Kind → String
  | data t => "DataLeaf" ++ " " ++ t.name
  | scalar t => "ScalarLeaf" ++ " " ++ t.name ++ " "
  | cachedArray t => "Cached" ++ " " ++ t.name
  | cachedScalar t => "Cached" ++ " " ++ t.name ++ " "
  | unary op => "UnaryOp " ++ op.name ++ " "
  | binary op => "BinaryOp " ++ op.name ++ " "
  | assign => "AssignOp" ++ " "

/-- The kind of a given mark. -/
def ofMark? (cs : List Char) : Option Kind := all.find? (·.mark.toList == cs)

@[simp] theorem ofMark?_mark (k : Kind) : ofMark? k.mark.toList = some k := by
  cases k with
  | data t => cases t <;> decide
  | scalar t => cases t <;> decide
  | cachedArray t => cases t <;> decide
  | cachedScalar t => cases t <;> decide
  | unary op => cases op <;> decide
  | binary op => cases op <;> decide
  | assign => decide

/-- A character that may stand in a mark. -/
def continuesMark (c : Char) : Bool := c != '[' && c != '(' && c != '\n'

theorem mem_all (k : Kind) : k ∈ all := List.mem_of_find?_eq_some (ofMark?_mark k)

theorem continuesMark_of_mem (k : Kind) : ∀ c ∈ k.mark.toList, continuesMark c := by
  have hall : all.all fun k => k.mark.toList.all continuesMark := by decide
  exact List.all_eq_true.mp (List.all_eq_true.mp hall k k.mem_all)

/-- A mark does not start with a blank, nor as the line of a position does. -/
theorem exists_mark_eq_cons (k : Kind) :
    ∃ c cs, k.mark.toList = c :: cs ∧ c ≠ ' ' ∧ c ≠ 'K' := by
  have hall : all.all fun k => k.mark.toList.head?.any fun c => c != ' ' && c != 'K' := by decide
  have hk := List.all_eq_true.mp hall k k.mem_all
  rcases hmark : k.mark.toList with _ | ⟨c, cs⟩
  · rw [hmark] at hk
    cases hk
  · rw [hmark] at hk
    simp only [List.head?_cons, Option.any_some, Bool.and_eq_true, bne_iff_ne] at hk
    exact ⟨c, cs, rfl, hk⟩

theorem ofMark?_eq_none (cs : List Char) : ofMark? ('K' :: cs) = none := by
  refine List.find?_eq_none.mpr fun k _ hk => ?_
  obtain ⟨c, tail, hmark, -, hne⟩ := k.exists_mark_eq_cons
  rw [hmark, beq_iff_eq] at hk
  exact hne (List.cons.inj hk).1

end Kind

/-! ## What a line tells -/

/-- What a line of a diagram stands for: a node, or the position that is the key of an
assignment. -/
inductive Occurrence where
  | node (id : NodeId)
  | position (index : Int64)

/-- **What a line tells**: the kind of a node and whether it is owned, or a position. -/
inductive Label where
  | node (kind : Kind) (owned : Bool)
  | position (index : Int64)

namespace Heap

/-- The kind of a node with a given state, if the array that it holds exists. -/
def kind? (h : Heap) : NodeStatus → Option Kind
  | .deferred (.data b) => (h.buffer? b).map fun a => .data a.elemType
  | .deferred (.scalar v) => some (.scalar v.elemType)
  | .deferred (.unary op _) => some (.unary op)
  | .deferred (.binary op _ _) => some (.binary op)
  | .deferred (.assign _ _ _) => some .assign
  | .cached (.array b) => (h.buffer? b).map fun a => .cachedArray a.elemType
  | .cached (.scalar v) => some (.cachedScalar v.elemType)

/-- The label of what a line stands for. -/
def label? (h : Heap) : Occurrence → Option Label
  | .node id => do
    let k ← h.kind? (← h.state? id)
    return .node k (h.isOwned id)
  | .position i => some (.position i)

/-- The text of a line, without its indentation. -/
def lineText (h : Heap) : Occurrence → String
  | .node id => ((h.state? id).map (h.nodeText id)).getD ""
  | .position i => "Key " ++ Scalar.intText i

theorem lineText_node {h : Heap} {id : NodeId} {s : NodeStatus} (hst : h.state? id = some s) :
    h.lineText (.node id) = h.nodeText id s := by
  rw [lineText, hst]
  rfl

theorem lineText_position (h : Heap) (i : Int64) :
    h.lineText (.position i) = "Key " ++ Scalar.intText i := rfl

/-- **A line is laid out**: a mark, the shape of an array, an owner's mark, and the contents. -/
def LaidOut (line mark owner : String) : Prop :=
  ∃ shape content, line.toList = mark.toList ++ (shape ++ (owner.toList ++ content)) ∧
    (shape = [] ∨ ∃ cs, shape = '[' :: cs) ∧ (∀ c ∈ shape, IsShown c) ∧ '\n' ∉ content

section Lines

variable {h : Heap} {o : Occurrence} {l : Label} {kind owner : String}

theorem not_mem_of_isShown {cs : List Char} (hcs : ∀ c ∈ cs, IsShown c) : '\n' ∉ cs := fun hc => by
  have hn := hcs _ hc
  simp [IsShown, IsPlain] at hn

theorem laidOut_array {b : BufferId} {a : Tensor} (hb : h.buffer? b = some a) :
    LaidOut (h.arrayLeafText kind owner b) (kind ++ " " ++ a.elemType.name) owner := by
  refine ⟨a.shape.text.toList ++ [' '], ':' :: ' ' :: a.text.toList, ?_, .inr ?_, ?_, ?_⟩
  · simp [arrayLeafText, hb, leafText]
  · rw [Shape.text, Shape.dimsText, String.append_assoc, String.toList_append]
    exact ⟨_, rfl⟩
  · intro c hc
    rcases List.mem_append.mp hc with hc | hc
    · exact isShown_shape a.shape c hc
    · rw [List.mem_singleton.mp hc]
      simp [IsShown]
  · simpa using not_mem_of_isShown (isShown_text a)

theorem laidOut_scalar (v : Scalar) :
    LaidOut (scalarLeafText kind owner v) (kind ++ " " ++ v.elemType.name ++ " ") owner := by
  refine ⟨[], ':' :: ' ' :: v.text.toList, ?_, .inl rfl, by simp, ?_⟩
  · simp [scalarLeafText, leafText]
  · simpa using not_mem_of_isShown fun c hc => .inr ((isSpelling_text v).2 c hc)

theorem laidOut_operator (kind owner : String) :
    LaidOut (kind ++ " " ++ owner) (kind ++ " ") owner :=
  ⟨[], [], by simp, .inl rfl, by simp, by simp⟩

/-- **The line of a node is laid out**, with the mark of its kind. -/
theorem laidOut_nodeText (id : NodeId) {s : NodeStatus} {k : Kind} (hk : h.kind? s = some k) :
    LaidOut (h.nodeText id s) k.mark (h.ownedText id) := by
  rcases s with (b | v | ⟨op, x⟩ | ⟨op, x, y⟩ | ⟨base, key, value⟩) | (b | v)
  · obtain ⟨a, hb, rfl⟩ := Option.map_eq_some_iff.mp hk
    exact laidOut_array hb
  · obtain rfl := Option.some.inj hk
    exact laidOut_scalar v
  · obtain rfl := Option.some.inj hk
    exact laidOut_operator _ _
  · obtain rfl := Option.some.inj hk
    exact laidOut_operator _ _
  · obtain rfl := Option.some.inj hk
    exact laidOut_operator _ _
  · obtain ⟨a, hb, rfl⟩ := Option.map_eq_some_iff.mp hk
    exact laidOut_array hb
  · obtain rfl := Option.some.inj hk
    exact laidOut_scalar v

/-- The mark of an owner: a parenthesis, and behind it whether there is an owner. -/
theorem exists_ownedText_eq (h : Heap) (id : NodeId) : ∃ cs,
    (h.ownedText id).toList = '(' :: cs ∧ '\n' ∉ cs ∧
      ∀ content, ((cs ++ content).take 7 == "owned=t".toList) = h.isOwned id := by
  rw [ownedText]
  cases h.isOwned id
  · exact ⟨"owned=false)".toList, rfl, by decide, fun _ => rfl⟩
  · exact ⟨"owned=true)".toList, rfl, by decide, fun _ => rfl⟩

/-- The line of a position. -/
theorem toList_lineText_position (h : Heap) (i : Int64) :
    (h.lineText (.position i)).toList = 'K' :: 'e' :: 'y' :: ' ' :: Decimal.intChars i.toInt := by
  simp [lineText_position, Scalar.intText]

/-- What stands for a node with a label, or for a position. -/
theorem label?_eq_some (hl : h.label? o = some l) :
    (∃ id s k, o = .node id ∧ h.lineText o = h.nodeText id s ∧ h.kind? s = some k ∧
      l = .node k (h.isOwned id)) ∨ ∃ i, o = .position i ∧ l = .position i := by
  rcases o with id | i
  · obtain ⟨s, hs, hl⟩ := Option.bind_eq_some_iff.mp hl
    obtain ⟨k, hk, hl⟩ := Option.bind_eq_some_iff.mp hl
    exact .inl ⟨id, s, k, rfl, lineText_node hs, hk, (Option.some.inj hl).symm⟩
  · exact .inr ⟨i, rfl, (Option.some.inj hl).symm⟩

/-- **A line that tells something is a line**: it starts with no blank, and does not break. -/
theorem isLine_lineText (hl : h.label? o = some l) : IsLine (h.lineText o) := by
  rcases label?_eq_some hl with ⟨id, s, k, rfl, htext, hk, rfl⟩ | ⟨i, rfl, rfl⟩
  · obtain ⟨shape, content, hline, -, hshape, hcontent⟩ := laidOut_nodeText id hk
    obtain ⟨c, cs, hmark, hc, -⟩ := k.exists_mark_eq_cons
    have hunbroken : '\n' ∉ k.mark.toList := fun hn =>
      absurd (k.continuesMark_of_mem _ hn) (by decide)
    rw [htext]
    refine ⟨⟨c, _, by rw [hline, hmark]; rfl, hc⟩, ?_⟩
    rw [hline, List.mem_append, List.mem_append, List.mem_append, not_or, not_or, not_or]
    refine ⟨hunbroken, not_mem_of_isShown hshape, ?_, hcontent⟩
    obtain ⟨cs, howner, hcs, -⟩ := h.exists_ownedText_eq id
    simpa [howner] using hcs
  · refine ⟨⟨'K', _, toList_lineText_position h i, by decide⟩, ?_⟩
    have hindex := not_mem_of_isShown fun c hc => .inr ((isSpelling_text (.int i)).2 c hc)
    rw [toList_lineText_position]
    simpa [Scalar.text, Scalar.intText] using hindex

end Lines

/-- The label that is read from a line. -/
def readLabel (line : List Char) : Option Label :=
  match Kind.ofMark? (line.takeWhile Kind.continuesMark) with
  | some k => some (.node k (((line.dropWhile (· != '(')).drop 1).take 7 == "owned=t".toList))
  | none => (int64? (line.drop 4)).map .position

section Lines

variable {h : Heap} {o : Occurrence} {l : Label}

/-- **The label can be read back from a line.** -/
theorem readLabel_lineText (hl : h.label? o = some l) :
    readLabel (h.lineText o).toList = some l := by
  rcases label?_eq_some hl with ⟨id, s, k, rfl, htext, hk, rfl⟩ | ⟨i, rfl, rfl⟩
  · obtain ⟨shape, content, hline, hempty, hshape, -⟩ := laidOut_nodeText id hk
    obtain ⟨cs, howner, -, howned⟩ := h.exists_ownedText_eq id
    have hmark : Stops Kind.continuesMark (shape ++ '(' :: (cs ++ content)) := by
      rcases hempty with rfl | ⟨ds, rfl⟩
      · rintro _ _ ⟨⟩
        rfl
      · rintro _ _ ⟨⟩
        rfl
    have hopen : Stops (· != '(') ('(' :: (cs ++ content)) := by
      rintro _ _ ⟨⟩
      rfl
    have hbefore : ∀ c ∈ k.mark.toList ++ shape, c != '(' := fun c hc => by
      rcases List.mem_append.mp hc with hc | hc
      · have hmem := k.continuesMark_of_mem c hc
        simp only [Kind.continuesMark, Bool.and_eq_true] at hmem
        exact hmem.1.2
      · rw [bne_iff_ne]
        rintro rfl
        exact absurd (hshape _ hc) (by simp [IsShown, IsPlain])
    rw [howner, List.cons_append] at hline
    rw [htext, hline, readLabel, takeWhile_append_of_stops k.continuesMark_of_mem hmark,
      ← List.append_assoc, dropWhile_append_of_stops hbefore hopen, Kind.ofMark?_mark]
    exact congrArg (fun owned => some (Label.node k owned)) (howned content)
  · rw [toList_lineText_position, readLabel, List.takeWhile_cons_of_pos (by decide),
      Kind.ofMark?_eq_none]
    exact congrArg (Option.map Label.position) (int64?_intChars i)

end Lines

/-! ## The tree of a diagram -/

/-- **What a diagram shows**: the unfolding of a node through deferred expressions.  Nodes without
children are leaves, cached ones among them, and a position that is a key has an entry of its own. -/
inductive Draws (h : Heap) : NodeId → Outline Occurrence → Prop
  | leaf {id : NodeId} {s : NodeStatus} (hst : h.state? id = some s) (hleaf : s.children = []) :
    Draws h id (.entry (.node id) [])
  | unary {id x : NodeId} {op : UnaryOp} {t : Outline Occurrence}
    (hst : h.state? id = some (.deferred (.unary op x))) (hx : Draws h x t) :
    Draws h id (.entry (.node id) [t])
  | binary {id x y : NodeId} {op : BinaryOp} {t u : Outline Occurrence}
    (hst : h.state? id = some (.deferred (.binary op x y))) (hx : Draws h x t) (hy : Draws h y u) :
    Draws h id (.entry (.node id) [t, u])
  | assignAt {id base value : NodeId} {i : Int64} {t u : Outline Occurrence}
    (hst : h.state? id = some (.deferred (.assign base (.position i) value)))
    (hbase : Draws h base t) (hvalue : Draws h value u) :
    Draws h id (.entry (.node id) [t, .entry (.position i) [], u])
  | assign {id base key value : NodeId} {t k u : Outline Occurrence}
    (hst : h.state? id = some (.deferred (.assign base (.node key) value)))
    (hbase : Draws h base t) (hkey : Draws h key k) (hvalue : Draws h value u) :
    Draws h id (.entry (.node id) [t, k, u])

section Draws

variable {h : Heap} {id : NodeId} {t : Outline Occurrence}

/-- **Every node has a diagram** — by induction on the node, since expressions refer to earlier
ones. -/
theorem exists_draws (hs : h.Sound) (hid : id < h.cells.size) : ∃ t, h.Draws id t := by
  induction id using Nat.strongRecOn with
  | ind id ih =>
    obtain ⟨s, hst⟩ := exists_state? hid
    have hchild : ∀ c ∈ s.children, ∃ t, h.Draws c t := fun c hc =>
      have hlt := hs.ordered id s hst c hc
      ih c hlt (Nat.lt_trans hlt hid)
    rcases s with (b | v | ⟨op, x⟩ | ⟨op, x, y⟩ | ⟨base, i | key, value⟩) | v
    · exact ⟨_, .leaf hst rfl⟩
    · exact ⟨_, .leaf hst rfl⟩
    · obtain ⟨t, hx⟩ := hchild x (.head _)
      exact ⟨_, .unary hst hx⟩
    · obtain ⟨t, hx⟩ := hchild x (.head _)
      obtain ⟨u, hy⟩ := hchild y (.tail _ (.head _))
      exact ⟨_, .binary hst hx hy⟩
    · obtain ⟨t, hbase⟩ := hchild base (.head _)
      obtain ⟨u, hvalue⟩ := hchild value (.tail _ (.head _))
      exact ⟨_, .assignAt hst hbase hvalue⟩
    · obtain ⟨t, hbase⟩ := hchild base (.head _)
      obtain ⟨k, hkey⟩ := hchild key (.tail _ (.head _))
      obtain ⟨u, hvalue⟩ := hchild value (.tail _ (.tail _ (.head _)))
      exact ⟨_, .assign hst hbase hkey hvalue⟩
    · exact ⟨_, .leaf hst rfl⟩

/-- In a sound heap, what a node holds exists, so it has a label. -/
theorem isSome_label? (hs : h.Sound) {s : NodeStatus} (hst : h.state? id = some s) :
    (h.label? (.node id)).isSome := by
  have hbuffer : ∀ b, s.buffer? = some b → ∃ a, h.buffer? b = some a := fun b hb =>
    exists_buffer? (hs.held id s b hst hb)
  rw [label?, hst]
  rcases s with (b | v | _ | _ | _) | (b | v)
  · obtain ⟨a, ha⟩ := hbuffer b rfl
    simp [kind?, ha]
  · rfl
  · rfl
  · rfl
  · rfl
  · obtain ⟨a, ha⟩ := hbuffer b rfl
    simp [kind?, ha]
  · rfl

/-- Every entry of a diagram has a label. -/
theorem Draws.every_isSome_label? (hs : h.Sound) (ht : h.Draws id t) :
    t.Every fun o => (h.label? o).isSome := by
  induction ht with
  | leaf hst _ => exact Outline.every_entry (isSome_label? hs hst) (by simp)
  | unary hst _ ihx => exact Outline.every_entry (isSome_label? hs hst) (by simpa using ihx)
  | binary hst _ _ ihx ihy =>
    exact Outline.every_entry (isSome_label? hs hst) (by simpa using ⟨ihx, ihy⟩)
  | @assignAt id base value i t u hst _ _ ihbase ihvalue =>
    have hkey : (Outline.entry (.position i) []).Every fun o => (h.label? o).isSome :=
      Outline.every_entry rfl (by simp)
    exact Outline.every_entry (isSome_label? hs hst) (by simpa using ⟨ihbase, hkey, ihvalue⟩)
  | assign hst _ _ _ ihbase ihkey ihvalue =>
    exact Outline.every_entry (isSome_label? hs hst) (by simpa using ⟨ihbase, ihkey, ihvalue⟩)

/-- A node without children is one line. -/
theorem lines_leaf {s : NodeStatus} (hst : h.state? id = some s) (hleaf : s.children = [])
    (depth level : Nat) : h.lines (depth + 1) level id = [indented level (h.nodeText id s)] := by
  rw [lines, hst]
  rcases s with (b | v | ⟨op, x⟩ | ⟨op, x, y⟩ | ⟨base, key, value⟩) | v
  · rfl
  · rfl
  · exact absurd hleaf (List.cons_ne_nil _ _)
  · exact absurd hleaf (List.cons_ne_nil _ _)
  · exact absurd hleaf (List.cons_ne_nil _ _)
  · rfl

/-- **A diagram consists of the lines of the tree.** -/
theorem Draws.lines_eq (hord : h.Ordered) (ht : h.Draws id t) (level : Nat) :
    h.lines (id + 1) level id = (t.lines level).map fun l => indented l.1 (h.lineText l.2) := by
  -- A node is drawn to the depth of its own number, and to that of the node above: it is the same.
  have hbelow : ∀ {id s} {level : Nat}, h.state? id = some s → ∀ c ∈ s.children,
      h.lines id (level + 1) c = h.lines (c + 1) (level + 1) c := fun hst c hc =>
    lines_depth hord (Nat.lt_succ_self c) (hord _ _ hst c hc)
  induction ht generalizing level with
  | leaf hst hleaf =>
    rw [lines_leaf hst hleaf]
    simp [Outline.lines, Outline.linesAll, lineText_node hst]
  | unary hst _ ihx =>
    rw [lines, hst]
    simp [Outline.lines, Outline.linesAll, lineText_node hst, hbelow hst _ (.head _), ihx]
  | binary hst _ _ ihx ihy =>
    rw [lines, hst]
    simp [Outline.lines, Outline.linesAll, lineText_node hst, hbelow hst _ (.head _),
      hbelow hst _ (.tail _ (.head _)), ihx, ihy]
  | assignAt hst _ _ ihbase ihvalue =>
    rw [lines, hst]
    simp [Outline.lines, Outline.linesAll, lineText_node hst, keyLines, lineText_position,
      hbelow hst _ (.head _), hbelow hst _ (.tail _ (.head _)), ihbase, ihvalue]
  | assign hst _ _ _ ihbase ihkey ihvalue =>
    rw [lines, hst]
    simp [Outline.lines, Outline.linesAll, lineText_node hst, keyLines, hbelow hst _ (.head _),
      hbelow hst _ (.tail _ (.head _)), hbelow hst _ (.tail _ (.tail _ (.head _))), ihbase, ihkey,
      ihvalue]

theorem Draws.diagram_eq (hord : h.Ordered) (ht : h.Draws id t) :
    h.diagram id = String.join ((t.lines 0).map fun l => indented l.1 (h.lineText l.2)) := by
  rw [diagram, ht.lines_eq hord]

/-- Every line of a diagram tells something, and is a line. -/
theorem Draws.isLine (hs : h.Sound) (ht : h.Draws id t) :
    ∀ l ∈ t.lines 0, (h.label? l.2).isSome ∧ IsLine (h.lineText l.2) := fun l hl => by
  have hsome := ht.every_isSome_label? hs 0 l hl
  obtain ⟨label, hlabel⟩ := Option.isSome_iff_exists.mp hsome
  exact ⟨hsome, isLine_lineText hlabel⟩

/-- **The labels are read from the lines**, one from each. -/
theorem Draws.lines_map_label? (hs : h.Sound) (ht : h.Draws id t) :
    (t.map h.label?).lines 0 = ((t.lines 0).map fun l => (l.1, h.lineText l.2)).map fun l =>
      (l.1, readLabel l.2.toList) := by
  rw [Outline.lines_map, List.map_map]
  refine List.map_congr_left fun l hl => ?_
  obtain ⟨label, hlabel⟩ := Option.isSome_iff_exists.mp (ht.isLine hs l hl).1
  rw [Function.comp, readLabel_lineText hlabel, ← hlabel]
  rfl

/-- **The tree of labels is told from a diagram**: the lines from the text, the labels from the
lines, and the tree from the depths of its entries. -/
theorem Draws.map_label?_eq {h' : Heap} {id' : NodeId} {t' : Outline Occurrence} (hs : h.Sound)
    (hs' : h'.Sound) (ht : h.Draws id t) (ht' : h'.Draws id' t')
    (heq : h'.diagram id' = h.diagram id) : t'.map h'.label? = t.map h.label? := by
  rw [ht.diagram_eq hs.ordered, ht'.diagram_eq hs'.ordered] at heq
  have hlines : ((t'.lines 0).map fun l => (l.1, h'.lineText l.2)) =
      (t.lines 0).map fun l => (l.1, h.lineText l.2) := by
    refine join_indented_inj (fun l hl => ?_) (fun l hl => ?_) ?_
    · obtain ⟨m, hm, rfl⟩ := List.mem_map.mp hl
      exact (ht'.isLine hs' m hm).2
    · obtain ⟨m, hm, rfl⟩ := List.mem_map.mp hl
      exact (ht.isLine hs m hm).2
    · simpa [Function.comp_def] using heq
  have hlabels : (t'.map h'.label?).lines 0 = (t.map h.label?).lines 0 := by
    rw [ht.lines_map_label? hs, ht'.lines_map_label? hs', hlines]
  exact Outline.lines_inj hlabels

end Draws

/-- **A diagram determines what it shows.**  It consists of the lines of the unfolding, each of them
indented by its depth.  A node with the same diagram, be it of another heap, has an unfolding of the
same form with the same labels. -/
theorem diagram_determines {h : Heap} (hs : h.Sound) {id : NodeId} (hid : id < h.cells.size) :
    ∃ t, h.Draws id t ∧
      h.diagram id = String.join ((t.lines 0).map fun l => indented l.1 (h.lineText l.2)) ∧
      (∀ l ∈ t.lines 0, (h.label? l.2).isSome ∧ IsLine (h.lineText l.2)) ∧
      ∀ (h' : Heap) (id' : NodeId) (t' : Outline Occurrence), h'.Sound → h'.Draws id' t' →
        h'.diagram id' = h.diagram id → t'.map h'.label? = t.map h.label? := by
  obtain ⟨t, ht⟩ := exists_draws hs hid
  exact ⟨t, ht, ht.diagram_eq hs.ordered, ht.isLine hs, fun h' id' t' hs' ht' heq =>
    Draws.map_label?_eq hs hs' ht ht' heq⟩

/-- An assignment to a sum, with the value in cache. -/
theorem diagram_determines_assignment :
    let h : Heap := ⟨#[⟨.vector 1, .ints [5]⟩], #[⟨.deferred (.data 0), 0, 0⟩,
      ⟨.cached (.scalar (.bool true)), 0, 0⟩, ⟨.deferred (.binary .add 0 0), 0, 0⟩,
      ⟨.deferred (.assign 2 (.position 0) 1), 1, 0⟩]⟩
    h.Sound ∧ 3 < h.cells.size ∧ h.diagram 3 =
        "AssignOp (owned=true)\n" ++
        "    BinaryOp add (owned=false)\n" ++
        "        DataLeaf int64[1] (owned=false): [5]\n" ++
        "        DataLeaf int64[1] (owned=false): [5]\n" ++
        "    Key 0\n" ++
        "    Cached bool (owned=false): true\n" ∧
      ∀ (h' : Heap) (id' : NodeId) (t' : Outline Occurrence), h'.Sound → h'.Draws id' t' →
        h'.diagram id' = h.diagram 3 → t'.map h'.label? =
          .entry (some (.node .assign true))
            [.entry (some (.node (.binary .add) false))
              [.entry (some (.node (.data .int64) false)) [],
                .entry (some (.node (.data .int64) false)) []],
              .entry (some (.position 0)) [],
              .entry (some (.node (.cachedScalar .bool) false)) []] := by
  intro h
  have hs : h.Sound := by decide
  have hid : 3 < h.cells.size := by decide
  refine ⟨hs, hid, by decide +kernel, fun h' id' t' hs' ht' heq => ?_⟩
  have hdata : h.Draws 0 (.entry (.node 0) []) := .leaf rfl rfl
  have hdraws : h.Draws 3 _ :=
    .assignAt rfl (.binary rfl hdata hdata) (.leaf rfl rfl)
  obtain ⟨t, -, -, -, hlabels⟩ := diagram_determines hs hid
  rw [hlabels h' id' t' hs' ht' heq, ← hlabels h 3 _ hs hdraws rfl]
  rfl

end Heap

end DeferredArrays
