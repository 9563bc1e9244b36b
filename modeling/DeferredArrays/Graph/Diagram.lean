import DeferredArrays.Graph.Heap
import DeferredArrays.Tensor.Text

/-!
# Graph/Diagram — a graph drawn as indented text

A node is one line, and the nodes it refers to follow it, one level deeper.  A leaf shows its type
and its elements, an operator its name, and every node whether a handle is on it.  A cached node is a
leaf.  A shared node is drawn once for each way to reach it.
-/

namespace DeferredArrays.Heap

/-- The line of a node: its kind, whether it is owned, and what it holds. -/
def leafText (kind : String) (owned : String) (content : String) : String :=
  kind ++ " " ++ owned ++ ": " ++ content

/-- Whether a node is owned, in words. -/
def ownedText (h : Heap) (id : NodeId) : String :=
  "(owned=" ++ Scalar.boolText (h.isOwned id) ++ ")"

/-- A kind of leaf with the type and shape of the array it holds. -/
def arrayLeafText (h : Heap) (kind : String) (owned : String) (b : BufferId) : String :=
  match h.buffer? b with
  | some a => leafText (kind ++ " " ++ a.elemType.name ++ a.shape.text) owned a.text
  | none => kind ++ " " ++ owned

/-- A kind of leaf with the type of the scalar it holds. -/
def scalarLeafText (kind : String) (owned : String) (s : Scalar) : String :=
  leafText (kind ++ " " ++ s.elemType.name) owned s.text

/-- The line of a node. -/
def nodeText (h : Heap) (id : NodeId) (s : NodeStatus) : String :=
  match s with
  | .cached (.array b) => h.arrayLeafText "Cached" (h.ownedText id) b
  | .cached (.scalar v) => scalarLeafText "Cached" (h.ownedText id) v
  | .deferred (.data b) => h.arrayLeafText "DataLeaf" (h.ownedText id) b
  | .deferred (.scalar v) => scalarLeafText "ScalarLeaf" (h.ownedText id) v
  | .deferred e => e.kind ++ " " ++ h.ownedText id

/-- A line at a level: four blanks for each level in front of it. -/
def indented (level : Nat) (line : String) : String :=
  String.ofList (List.replicate (4 * level) ' ') ++ line ++ "\n"

/-- The lines of the key of an assignment. -/
def keyLines (lines : NodeId → List String) (level : Nat) : AssignKey → List String
  | .position i => [indented level ("Key " ++ Scalar.intText i)]
  | .node id => lines id

/-- The lines of a graph less than `depth` deep, from a level on. -/
def lines (h : Heap) : Nat → Nat → NodeId → List String
  | 0, _, _ => []
  | depth + 1, level, id =>
    match h.state? id with
    | none => []
    | some s =>
      let below := h.lines depth (level + 1)
      indented level (h.nodeText id s) ::
        match s with
        | .deferred (.unary _ x) => below x
        | .deferred (.binary _ x y) => below x ++ below y
        | .deferred (.assign base key value) =>
          below base ++ keyLines below (level + 1) key ++ below value
        | _ => []

/-- **The text of a graph.** -/
def diagram (h : Heap) (id : NodeId) : String := String.join (h.lines (id + 1) 0 id)

/-- A node in one line, without its graph. -/
def summary (h : Heap) (id : NodeId) : String :=
  let cached := ((h.state? id).map NodeStatus.isCached).getD false
  "GraphNode \x7b id: NodeId(" ++ id.repr ++ "), owners: " ++ (h.owners id).repr ++
    ", cached: " ++ Scalar.boolText cached ++ " \x7d"

end DeferredArrays.Heap
