import DeferredArrays.Proofs.Session.Claims

/-!
# Proofs/Session/Operations — sessions are runs of operations

A command works on the heap by operations only, one after the other, whether it succeeds or fails
(`Command.conducts_perform`), so that the heap of every session is the heap of a run (`exists_run`).
On the way, all names stay names of nodes and buffers that exist (`Workspace.Proper`), which is why
every operation is permitted, and the heap stays sound (`sound_runAll`).

A command may have claims in hand that no name stands for, but never when it fails or is done.  So
after every command owner counts are the numbers of handles (`owners_runAll`).
-/

namespace DeferredArrays

open Eval

/-! ## Operations on a heap -/

/-- What an operation does to a heap where it is permitted. -/
def Operation.effect (h : Heap) : Operation → Heap
  | allocate a => (h.addBuffer a).2
  | build e => (h.addNode e).2
  | acquire id => h.acquire id
  | release id => h.release id
  | write b key value => after (Eval.write b key value) h
  | force id => after (Eval.force id) h
  | read id => after (Eval.read id) h
  | evaluate e => after (Eval.evaluate e) h

/-- An operation that is permitted has its effect. -/
theorem Operation.perform_heap {s : History} {op : Operation} (hop : op.Permitted s.heap) :
    (op.perform s).heap = op.effect s.heap := by
  unfold perform
  rw [if_pos hop]
  cases op <;> rfl

namespace Heap

/-- **A heap leads to another** by operations. -/
def LeadsTo (h h' : Heap) : Prop :=
  ∃ ops : List Operation, ∀ s : History, s.heap = h → (ops.foldl Operation.perform s).heap = h'

variable {h h₁ h₂ h₃ : Heap}

theorem LeadsTo.refl (h : Heap) : h.LeadsTo h := ⟨[], fun _ hs => hs⟩

/-- Operations can be performed one after the other. -/
theorem LeadsTo.trans (hr : h₁.LeadsTo h₂) (hr' : h₂.LeadsTo h₃) : h₁.LeadsTo h₃ := by
  obtain ⟨ops, hops⟩ := hr
  obtain ⟨ops', hops'⟩ := hr'
  refine ⟨ops ++ ops', fun s hs => ?_⟩
  rw [List.foldl_append]
  exact hops' _ (hops s hs)

/-- A heap that operations lead to is sound and later. -/
theorem LeadsTo.follows (hr : h.LeadsTo h₁) (hs : h.Sound) : h.Follows h₁ := by
  obtain ⟨ops, hops⟩ := hr
  have hfollows := follows_foldl ops (s := ⟨h, [], []⟩) hs
  rwa [hops _ rfl] at hfollows

/-- An operation that is permitted leads to the heap it changes. -/
theorem leadsTo_effect (op : Operation) (hop : op.Permitted h) : h.LeadsTo (op.effect h) := by
  refine ⟨[op], fun s hs => ?_⟩
  subst hs
  exact Operation.perform_heap hop

/-- Operations lead to a heap without taking or giving up claims. -/
structure WorksTo (h h' : Heap) : Prop where
  leadsTo : h.LeadsTo h'
  owners : ∀ n, h'.owners n = h.owners n

/-- An operation that is permitted works if it is not one on claims. -/
theorem worksTo_effect (hs : h.Sound) (op : Operation) (hop : op.Permitted h)
    (hclaims : op.claims = false) : h.WorksTo (op.effect h) where
  leadsTo := leadsTo_effect op hop
  owners n := by
    have hperform := Operation.owners_perform (s := ⟨h, [], []⟩) hs hclaims n
    rwa [Operation.perform_heap hop] at hperform

/-- What leaves the heap alone is no operation. -/
theorem worksTo_idle {α : Type} {m : Eval α} (hm : Idle m) : h.WorksTo (after m h) := by
  rw [hm h]
  exact ⟨.refl h, fun _ => rfl⟩

end Heap

/-- What comes after a computation without it doing anything to the heap. -/
theorem Eval.after_bind {α β : Type} {m : Eval α} {f : α → Eval β} (hf : ∀ a, Idle (f a))
    (h : Heap) : after (m >>= f) h = after m h := by
  cases hr : m h with
  | ok a h' => rw [after, bind_eq_of_ok hr, after_of_ok hr]; exact hf a h'
  | error e h' => rw [after_of_error hr, after_of_error (bind_eq_of_error hr)]

/-! ## Names -/

namespace Table

variable {α : Type} {P Q : α → Prop} {t : Table α}

/-- What is in a table has a property. -/
def All (P : α → Prop) (t : Table α) : Prop := ∀ name a, t.get? name = some a → P a

theorem all_empty (P : α → Prop) : (empty : Table α).All P := fun _ _ h => nomatch h

theorem All.mono (ht : t.All P) (hpq : ∀ a, P a → Q a) : t.All Q := fun name a h =>
  hpq a (ht name a h)

/-- A name that is taken back takes nothing from the others … -/
theorem All.erase (ht : t.All P) (name : String) : (t.erase name).All P := by
  intro other a h
  by_cases heq : other = name
  · rw [heq, get?_erase_self] at h
    cases h
  · rw [get?_erase_of_ne t heq] at h
    exact ht other a h

/-- … and a new one adds what it stands for. -/
theorem All.insert (ht : t.All P) (name : String) {a : α} (ha : P a) : (t.insert name a).All P := by
  intro other c h
  by_cases heq : other = name
  · rw [heq, get?_insert_self] at h
    exact Option.some.inj h ▸ ha
  · rw [get?_insert_of_ne t a heq] at h
    exact ht other c h

end Table

namespace Session

/-- **A proper workspace**: its heap is sound, names are names of what exists, and owner counts are
those of the handles, apart from the claims that a command has in hand. -/
structure Workspace.Proper (w : Workspace) (claims : List NodeId) : Prop where
  /-- The heap is sound. -/
  sound : w.heap.Sound
  /-- Handles are on nodes that exist. -/
  handles : w.handles.All (· < w.heap.cells.size)
  /-- Named nodes exist. -/
  nodes : w.nodes.All (· < w.heap.cells.size)
  /-- Named buffers exist. -/
  buffers : w.buffers.All (· < w.heap.buffers.size)
  /-- Owner counts are exact. -/
  exact : w.Exact claims

/-- **What a workspace becomes** by operations on its heap and changes of its names. -/
structure Workspace.Becomes (w w' : Workspace) (claims : List NodeId) : Prop where
  /-- Operations lead to its heap. -/
  leadsTo : w.heap.LeadsTo w'.heap
  /-- The heap is later. -/
  later : w.heap.Later w'.heap
  /-- The workspace is proper. -/
  proper : w'.Proper claims

namespace Workspace

variable {w w₁ w₂ w₃ : Workspace} {claims claims' : List NodeId}

/-- The workspace that sessions start from is proper. -/
theorem proper_empty : empty.Proper [] :=
  ⟨Heap.sound_empty, Table.all_empty _, Table.all_empty _, Table.all_empty _, exact_empty⟩

theorem Becomes.refl (hw : w.Proper claims) : w.Becomes w claims := ⟨.refl _, .refl _, hw⟩

/-- What a workspace becomes goes on from there. -/
theorem Becomes.trans (h : w₁.Becomes w₂ claims) (h' : w₂.Becomes w₃ claims') :
    w₁.Becomes w₃ claims' :=
  ⟨h.leadsTo.trans h'.leadsTo, h.later.trans h'.later, h'.proper⟩

/-- Nodes stay. -/
theorem Becomes.node (h : w₁.Becomes w₂ claims) {id : NodeId} (hid : id < w₁.heap.cells.size) :
    id < w₂.heap.cells.size := Nat.lt_of_lt_of_le hid h.later.cells_le

/-- Operations may work on the heap, and names be given to what exists or taken back, as long as
owner counts stay exact. -/
theorem Proper.becomes (hw : w.Proper claims) {w' : Workspace} (hr : w.heap.LeadsTo w'.heap)
    (hhandles : w'.handles.All (· < w.heap.cells.size))
    (hnodes : w'.nodes.All (· < w.heap.cells.size))
    (hbuffers : w'.buffers.All (· < w.heap.buffers.size)) (hexact : w'.Exact claims') :
    w.Becomes w' claims' := by
  have hfollows := hr.follows hw.sound
  have hcells := hfollows.later.cells_le
  exact ⟨hr, hfollows.later, hfollows.sound,
    hhandles.mono fun _ h => Nat.lt_of_lt_of_le h hcells,
    hnodes.mono fun _ h => Nat.lt_of_lt_of_le h hcells,
    hbuffers.mono fun _ h => Nat.lt_of_lt_of_le h hfollows.later.buffers_le, hexact⟩

/-- It does not matter in which order claims are in hand. -/
theorem Proper.perm (hw : w.Proper claims) (hperm : claims.Perm claims') : w.Proper claims' :=
  ⟨hw.sound, hw.handles, hw.nodes, hw.buffers, hw.exact.perm hperm⟩

/-- Operations that take and give up no claims keep the workspace proper. -/
theorem Proper.works (hw : w.Proper claims) {h : Heap} (hr : w.heap.WorksTo h) :
    w.Becomes { w with heap := h } claims :=
  hw.becomes hr.leadsTo hw.handles hw.nodes hw.buffers (hw.exact.of_same rfl hr.owners rfl)

/-- A node that exists can be named … -/
theorem Proper.nameNode (hw : w.Proper claims) (name : String) {id : NodeId}
    (hid : id < w.heap.cells.size) :
    w.Becomes { w with nodes := w.nodes.insert name id } claims :=
  hw.becomes (.refl _) hw.handles (hw.nodes.insert name hid) hw.buffers
    (hw.exact.of_same rfl (fun _ => rfl) rfl)

/-- … and a buffer … -/
theorem Proper.nameBuffer (hw : w.Proper claims) (name : String) {b : BufferId}
    (hb : b < w.heap.buffers.size) :
    w.Becomes { w with buffers := w.buffers.insert name b } claims :=
  hw.becomes (.refl _) hw.handles hw.nodes (hw.buffers.insert name hb)
    (hw.exact.of_same rfl (fun _ => rfl) rfl)

/-- … and a kernel, whatever it is. -/
theorem Proper.nameKernel (hw : w.Proper claims) (name : String) (k : Fused) :
    w.Becomes { w with kernels := w.kernels.insert name k } claims :=
  hw.becomes (.refl _) hw.handles hw.nodes hw.buffers (hw.exact.of_same rfl (fun _ => rfl) rfl)

end Workspace

/-! ## Steps of a command -/

/-- What an array form describes is well formed. -/
theorem ArrayForm.wellFormed_toTensor {f : ArrayForm} {a : Tensor} (hf : f.toTensor = .ok a) :
    a.WellFormed := by
  unfold toTensor at hf
  split at hf
  next => exact Except.ok.inj hf ▸ Tensor.wellFormed_ofElements _
  next => exact Tensor.wellFormed_of_ofShape hf

namespace Act

variable {α β : Type} {w : Workspace} {claims claims' : List NodeId}

/-- **What a step conducts**: operations on the heap and changes of names, and if it succeeds its
result has a given property.  Then the given claims are in hand, and if it fails none. -/
def Conducts (claims : List NodeId) (m : Act α) (w : Workspace) (Q : α → Workspace → Prop) : Prop :=
  match m w with
  | .ok a w' => w.Becomes w' claims ∧ Q a w'
  | .error _ w' => w.Becomes w' []

/-- **Steps in sequence.** -/
theorem Conducts.bind {m : Act α} {f : α → Act β} {Q : α → Workspace → Prop}
    {R : β → Workspace → Prop} (hm : Conducts claims m w Q)
    (hf : ∀ a w', w.Becomes w' claims → Q a w' → Conducts claims' (f a) w' R) :
    Conducts claims' (m >>= f) w R := by
  unfold Conducts at hm
  split at hm
  next a w' hr =>
    have hnext := hf a w' hm.1 hm.2
    have hbind : (m >>= f) w = f a w' := by simp only [Bind.bind, EStateM.bind, hr]
    rw [Conducts, hbind]
    unfold Conducts at hnext
    split at hnext
    next => exact ⟨hm.1.trans hnext.1, hnext.2⟩
    next => exact hm.1.trans hnext
  next e w' hr =>
    have hbind : (m >>= f) w = .error e w' := by simp only [Bind.bind, EStateM.bind, hr]
    rw [Conducts, hbind]
    exact hm

/-- Nothing is said of the result. -/
def Anything (_ : α) (_ : Workspace) : Prop := True

/-- A node that exists. -/
def IsNode (id : NodeId) (w : Workspace) : Prop := id < w.heap.cells.size

/-- A buffer that exists. -/
def IsBuffer (b : BufferId) (w : Workspace) : Prop := b < w.heap.buffers.size

/-- A result without a step … -/
theorem conducts_pure (hw : w.Proper claims) {a : α} {Q : α → Workspace → Prop} (hq : Q a w) :
    Conducts claims (pure a) w Q := ⟨.refl hw, hq⟩

/-- A step whose result is put into an answer. -/
theorem Conducts.answer {m : Act α} {Q : α → Workspace → Prop} (hm : Conducts [] m w Q)
    (f : α → β) : Conducts [] (do return f (← m)) w Anything :=
  hm.bind fun _ _ hw' _ => conducts_pure hw'.proper trivial

/-- … and a failure, which is one only with no claims in hand. -/
theorem conducts_throw (hw : w.Proper []) (e : Failure) {Q : α → Workspace → Prop} :
    Conducts [] (throw e) w Q := .refl hw

theorem conducts_get (hw : w.Proper claims) :
    Conducts claims get w fun a w' => a = w ∧ w' = w := ⟨.refl hw, rfl, rfl⟩

/-- A change of the workspace is conducted if the workspace becomes what it is changed to. -/
theorem conducts_modify {f : Workspace → Workspace} (hf : w.Becomes (f w) claims) :
    Conducts claims (modify f) w Anything := ⟨hf, trivial⟩

/-- An outcome that does not depend on the workspace. -/
theorem conducts_lift (hw : w.Proper []) (r : Except Error α) :
    Conducts [] (lift r) w Anything := by
  cases r with
  | ok a => exact conducts_pure hw trivial
  | error e => exact conducts_throw hw _

/-- A computation on the heap is conducted if operations lead where it does. -/
theorem conducts_onHeap (hw : w.Proper []) {m : Eval α} (hm : w.heap.WorksTo (after m w.heap)) :
    Conducts [] (onHeap m) w Anything := by
  unfold Conducts onHeap
  cases hr : m w.heap with
  | ok a h' =>
    rw [after_of_ok hr] at hm
    exact ⟨hw.works hm, trivial⟩
  | error e h' =>
    rw [after_of_error hr] at hm
    exact hw.works hm

theorem conducts_idle (hw : w.Proper []) {m : Eval α} (hm : Idle m) :
    Conducts [] (onHeap m) w Anything := conducts_onHeap hw (Heap.worksTo_idle hm)

/-- Forcing a node that exists takes and gives up no claims. -/
theorem conducts_force (hw : w.Proper []) {id : NodeId} (hid : IsNode id w) :
    Conducts [] (onHeap (Eval.force id)) w Anything :=
  conducts_onHeap hw (Heap.worksTo_effect hw.sound (.force id) hid rfl)

/-- Forcing a node, and looking at its value. -/
theorem conducts_forced (hw : w.Proper []) {id : NodeId} (hid : IsNode id w) {f : Value → Eval α}
    (hf : ∀ v, Idle (f v)) : Conducts [] (onHeap (Eval.force id >>= f)) w Anything := by
  refine conducts_onHeap hw ?_
  rw [after_bind hf]
  exact Heap.worksTo_effect hw.sound (.force id) hid rfl

/-- A new buffer is one that exists … -/
theorem conducts_addBuffer (hw : w.Proper claims) {a : Tensor} (ha : a.WellFormed) :
    Conducts claims (addBuffer a) w IsBuffer := by
  refine ⟨hw.works (Heap.worksTo_effect hw.sound (.allocate a) ha rfl), ?_⟩
  show w.heap.buffers.size < (w.heap.buffers.push a).size
  rw [Array.size_push]
  exact Nat.lt_succ_self _

/-- … and a new node, if its expression refers to what there is. -/
theorem conducts_addNode (hw : w.Proper claims) {e : Expression} (he : w.heap.Admits e) :
    Conducts claims (addNode e) w IsNode := by
  refine ⟨hw.works (Heap.worksTo_effect hw.sound (.build e) he rfl), ?_⟩
  show w.heap.cells.size < (w.heap.cells.push _).size
  rw [Array.size_push]
  exact Nat.lt_succ_self _

/-- An array that is brought along is well formed, or refused. -/
theorem conducts_tensor (hw : w.Proper []) (f : ArrayForm) :
    Conducts [] (tensor f) w fun a _ => a.WellFormed := by
  unfold Conducts tensor onHeap
  cases hf : f.toTensor with
  | ok a => exact ⟨.refl hw, ArrayForm.wellFormed_toTensor hf⟩
  | error e => exact .refl hw

/-! ### Names -/

/-- A name gives what is known of all that its table has … -/
theorem conducts_named (hw : w.Proper []) {table : Workspace → Table α} {name : String}
    {Q : α → Workspace → Prop} (ht : ∀ a, (table w).get? name = some a → Q a w) :
    Conducts [] (named table name) w Q := by
  refine (conducts_get hw).bind ?_
  rintro _ _ _ ⟨rfl, rfl⟩
  cases hname : (table _).get? name with
  | none => exact conducts_throw hw _
  | some a => exact conducts_pure hw (ht a hname)

/-- What the name of a handle is looked up for. -/
theorem conducts_lookup (hw : w.Proper []) (name : String) :
    Conducts [] (handle name) w fun id w' => w'.handles.get? name = some id :=
  conducts_named hw fun _ hname => hname

/-- … the node of a handle … -/
theorem conducts_handle (hw : w.Proper []) (name : String) : Conducts [] (handle name) w IsNode :=
  conducts_named hw (hw.handles name)

/-- … a buffer … -/
theorem conducts_buffer (hw : w.Proper []) (name : String) :
    Conducts [] (named (·.buffers) name) w IsBuffer := conducts_named hw (hw.buffers name)

/-- … or a node. -/
theorem conducts_node (hw : w.Proper []) (name : String) :
    Conducts [] (named (·.nodes) name) w IsNode := conducts_named hw (hw.nodes name)

theorem conducts_ref (hw : w.Proper []) (x : Ref) : Conducts [] (ref x) w IsNode := by
  cases x with
  | handle name => exact conducts_handle hw name
  | node name => exact conducts_node hw name

/-! ### Claims -/

/-- A claim is taken. -/
theorem conducts_acquire (hw : w.Proper claims) {id : NodeId} (hid : IsNode id w) :
    Conducts (id :: claims) (acquire id) w Anything :=
  conducts_modify <| hw.becomes (Heap.leadsTo_effect (.acquire id) hid) hw.handles hw.nodes
    hw.buffers (hw.exact.acquire hid)

/-- A claim is given up. -/
theorem conducts_release {id : NodeId} (hw : w.Proper (id :: claims)) :
    Conducts claims (release id) w Anything := by
  have hid : id < w.heap.cells.size := Nat.lt_of_not_le fun hle =>
    Nat.ne_of_gt (hw.exact.owners_pos List.mem_cons_self) (Heap.owners_eq_zero hle)
  exact conducts_modify <| hw.becomes (Heap.leadsTo_effect (.release id) hid) hw.handles hw.nodes
    hw.buffers hw.exact.release

/-- A handle loses its name, and its claim is in hand. -/
theorem conducts_forget (hw : w.Proper claims) {name : String} {id : NodeId}
    (hname : w.handles.get? name = some id) :
    Conducts (id :: claims) (forget name) w Anything :=
  conducts_modify <| hw.becomes (.refl _) (hw.handles.erase name) hw.nodes hw.buffers
    (hw.exact.forget hname)

/-- A handle that ends gives up its claim. -/
theorem conducts_dropHandle (hw : w.Proper []) (name : String) :
    Conducts [] (dropHandle name) w IsNode := by
  refine (conducts_lookup hw name).bind fun id w₁ h₁ hname => ?_
  have hid : IsNode id w₁ := h₁.proper.handles name id hname
  refine (conducts_forget h₁.proper hname).bind fun _ w₂ h₂ _ => ?_
  refine (conducts_release h₂.proper).bind fun _ w₃ h₃ _ => ?_
  exact conducts_pure h₃.proper (h₃.node (h₂.node hid))

/-- A handle gets a name, which its claim is for from then on. -/
theorem conducts_placeHandle {id : NodeId} (hw : w.Proper (id :: claims)) (name : String)
    (hid : IsNode id w) : Conducts claims (placeHandle name id) w Anything := by
  refine (conducts_get hw).bind ?_
  rintro _ _ _ ⟨rfl, rfl⟩
  have hplace := conducts_modify (f := fun w => { w with handles := w.handles.insert name id })
    (hw.becomes (.refl _) (hw.handles.insert name hid) hw.nodes hw.buffers (hw.exact.place name))
  refine hplace.bind fun _ w₁ h₁ _ => ?_
  have hproper := h₁.proper
  revert hproper
  cases (Workspace.handles _).get? name with
  | none => exact fun hproper => conducts_pure hproper trivial
  | some old => exact conducts_release

/-! ### Operands -/

/-- An operand that was read is a node that exists, or a constant. -/
def IsHeld : Held → Workspace → Prop
  | .node id, w => IsNode id w
  | .literal _, _ => True

/-- The key of an assignment refers to a node that exists, or to none. -/
def IsKey (k : AssignKey) (w : Workspace) : Prop := ∀ c ∈ k.children, IsNode c w

theorem IsHeld.later {x : Held} {w' : Workspace} (hx : IsHeld x w) (h : w.Becomes w' claims) :
    IsHeld x w' := by
  cases x with
  | node id => exact h.node hx
  | literal s => trivial

/-- Operands are nodes that exist, or constants … -/
theorem conducts_readOperand (hw : w.Proper []) (x : Operand) :
    Conducts [] (readOperand x) w IsHeld := by
  cases x with
  | ref r => exact (conducts_ref hw r).bind fun id w' hw' hid => conducts_pure hw'.proper hid
  | own name =>
    exact (conducts_dropHandle hw name).bind fun id w' hw' hid => conducts_pure hw'.proper hid
  | literal s => exact conducts_pure hw trivial

theorem admits_scalar (h : Heap) (s : Scalar) : h.Admits (.scalar s) := ⟨nofun, nofun⟩

/-- … which become nodes. -/
theorem conducts_heldNode (hw : w.Proper claims) {x : Held} (hx : IsHeld x w) :
    Conducts claims (heldNode x) w IsNode := by
  cases x with
  | node id => exact conducts_pure hw hx
  | literal s => exact conducts_addNode hw (admits_scalar _ s)

theorem conducts_operandNode (hw : w.Proper []) (x : Operand) : Conducts [] (operandNode x) w IsNode :=
  (conducts_readOperand hw x).bind fun _ _ hw' hx => conducts_heldNode hw'.proper hx

/-- A key refers to nodes that exist. -/
theorem conducts_readKey (hw : w.Proper []) (k : KeyOperand) : Conducts [] (readKey k) w IsKey := by
  have hkey : ∀ (id : NodeId) (w' : Workspace), IsNode id w' → IsKey (.node id) w' := by
    intro id w' hid c hc
    exact List.mem_singleton.mp hc ▸ hid
  cases k with
  | position i => exact conducts_pure hw nofun
  | ref r =>
    exact (conducts_ref hw r).bind fun id w' hw' hid => conducts_pure hw'.proper (hkey id w' hid)
  | own name =>
    exact (conducts_dropHandle hw name).bind fun id w' hw' hid =>
      conducts_pure hw'.proper (hkey id w' hid)

/-- An expression is admitted if it refers to a buffer that exists … -/
theorem admits_data {b : BufferId} (hb : IsBuffer b w) : w.heap.Admits (.data b) := by
  refine ⟨nofun, ?_⟩
  rintro _ ⟨⟩
  exact hb

/-- … or to nodes that exist. -/
theorem admits_unary {op : UnaryOp} {x : NodeId} (hx : IsNode x w) :
    w.heap.Admits (.unary op x) := by
  refine ⟨fun c hc => ?_, nofun⟩
  exact List.mem_singleton.mp hc ▸ hx

theorem admits_binary {op : BinaryOp} {x y : NodeId} (hx : IsNode x w) (hy : IsNode y w) :
    w.heap.Admits (.binary op x y) := by
  refine ⟨fun c hc => ?_, nofun⟩
  rcases List.mem_cons.mp hc with rfl | hc
  · exact hx
  · exact List.mem_singleton.mp hc ▸ hy

theorem admits_assign {base : NodeId} {k : AssignKey} {value : NodeId} (hbase : IsNode base w)
    (hk : IsKey k w) (hvalue : IsNode value w) : w.heap.Admits (.assign base k value) := by
  refine ⟨fun c hc => ?_, nofun⟩
  rcases List.mem_cons.mp hc with rfl | hc
  · exact hbase
  · rcases List.mem_append.mp hc with hc | hc
    · exact hk c hc
    · exact List.mem_singleton.mp hc ▸ hvalue

/-- **An expression that is written down comes to one that is admitted.** -/
theorem conducts_expression (hw : w.Proper []) (e : ExpressionForm) :
    Conducts [] (expression e) w fun e w' => w'.heap.Admits e := by
  cases e with
  | data a =>
    refine (conducts_tensor hw a).bind fun a w₁ h₁ ha => ?_
    refine (conducts_addBuffer h₁.proper ha).bind fun b w₂ h₂ hb => ?_
    exact conducts_pure h₂.proper (admits_data hb)
  | buffer name =>
    exact (conducts_buffer hw name).bind fun b w₁ h₁ hb => conducts_pure h₁.proper (admits_data hb)
  | scalar s => exact conducts_pure hw (admits_scalar _ s)
  | unary op x =>
    exact (conducts_operandNode hw x).bind fun x w₁ h₁ hx =>
      conducts_pure h₁.proper (admits_unary hx)
  | binary op x y =>
    refine (conducts_operandNode hw x).bind fun x w₁ h₁ hx => ?_
    refine (conducts_operandNode h₁.proper y).bind fun y w₂ h₂ hy => ?_
    exact conducts_pure h₂.proper (admits_binary (h₂.node hx) hy)
  | assign base k value =>
    refine (conducts_operandNode hw base).bind fun base w₁ h₁ hbase => ?_
    refine (conducts_readKey h₁.proper k).bind fun k w₂ h₂ hk => ?_
    refine (conducts_operandNode h₂.proper value).bind fun value w₃ h₃ hvalue => ?_
    exact conducts_pure h₃.proper
      (admits_assign (h₃.node (h₂.node hbase)) (fun c hc => h₃.node (hk c hc)) hvalue)

/-! ### Descriptions -/

/-- What is known of a node can be asked for … -/
theorem conducts_info (hw : w.Proper []) (id : NodeId) : Conducts [] (info id) w Anything := by
  refine (conducts_idle hw (idle_state id)).bind fun s w₁ h₁ _ => ?_
  exact (conducts_get h₁.proper).answer _

/-- A node that exists is described whatever claims are in hand. -/
theorem conducts_info_of_isNode (hw : w.Proper claims) {id : NodeId} (hid : IsNode id w) :
    Conducts claims (info id) w Anything := by
  obtain ⟨s, hs⟩ := Heap.exists_state? hid
  have hstate : onHeap (Eval.state id) w = .ok s w := by
    unfold onHeap
    rw [state_eq hs]
  have hidle : Conducts claims (onHeap (Eval.state id)) w Anything := by
    rw [Conducts, hstate]
    exact ⟨.refl hw, trivial⟩
  refine hidle.bind fun s w₁ h₁ _ => ?_
  refine (conducts_get h₁.proper).bind fun _ w₂ h₂ _ => ?_
  exact conducts_pure h₂.proper trivial

/-- … and what a value holds. -/
theorem conducts_content (hw : w.Proper []) (v : Value) : Conducts [] (content v) w Anything := by
  cases v with
  | array b => exact (conducts_idle hw (idle_view _)).answer _
  | scalar s => exact conducts_pure hw trivial

/-- The array of a handle is that of its node, forced. -/
theorem conducts_forcedTensor (hw : w.Proper []) (name : String) :
    Conducts [] (forcedTensor name) w Anything :=
  (conducts_handle hw name).bind fun _ _ h₁ hid => conducts_forced h₁.proper hid idle_view

/-- A table is described entry by entry … -/
theorem conducts_listing (hw : w.Proper []) {describe : α → Act β}
    (hdescribe : ∀ a w, Workspace.Proper w [] → Conducts [] (describe a) w Anything)
    (entries : List (String × α)) : Conducts [] (listing describe entries) w Anything := by
  induction entries generalizing w with
  | nil => exact conducts_pure hw trivial
  | cons entry entries ih =>
    refine (hdescribe entry.2 w hw).bind fun b w₁ h₁ _ => ?_
    exact (ih h₁.proper).answer _

/-- … and so are all of them. -/
theorem conducts_overview (hw : w.Proper []) : Conducts [] overview w Anything := by
  refine (conducts_get hw).bind fun _ w₁ h₁ _ => ?_
  refine (conducts_listing h₁.proper (fun id _ h => conducts_info h id) _).bind fun _ w₂ h₂ _ => ?_
  refine (conducts_listing h₂.proper (fun id _ h => conducts_info h id) _).bind fun _ w₃ h₃ _ => ?_
  exact (conducts_listing h₃.proper (fun b _ h => conducts_idle h (idle_buffer b)) _).answer _

/-! ### Handles -/

/-- A handle that has its claim is described, and gets its name … -/
theorem conducts_keepHandle {id : NodeId} (hw : w.Proper [id]) (name : String)
    (hid : IsNode id w) : Conducts [] (keepHandle name id) w Anything := by
  refine (conducts_info_of_isNode hw hid).bind fun _ w₁ h₁ _ => ?_
  refine (conducts_placeHandle h₁.proper name (h₁.node hid)).bind fun _ w₂ h₂ _ => ?_
  exact conducts_pure h₂.proper trivial

/-- … and one that has none takes it first. -/
theorem conducts_newHandle (hw : w.Proper []) (name : String) {id : NodeId} (hid : IsNode id w) :
    Conducts [] (newHandle name id) w Anything :=
  (conducts_acquire hw hid).bind fun _ _ h₁ _ => conducts_keepHandle h₁.proper name (h₁.node hid)

/-- The claim of a left operand that is passed by value. -/
def ownClaims (own : Bool) (left : NodeId) : List NodeId := if own then [left] else []

/-- The left operand of an operator loses its name, if it is passed by value. -/
theorem conducts_forgetOwn (hw : w.Proper []) (own : Bool) {name : String} {left : NodeId}
    (hname : w.handles.get? name = some left) :
    Conducts (ownClaims own left) (forgetOwn own name) w Anything := by
  cases own with
  | false => exact conducts_pure hw trivial
  | true => exact conducts_forget hw hname

/-- It gives up its claim when the operator has one. -/
theorem conducts_releaseOwn {own : Bool} {left id : NodeId}
    (hw : w.Proper (id :: ownClaims own left)) :
    Conducts [id] (releaseOwn own left) w Anything := by
  cases own with
  | false => exact conducts_pure hw trivial
  | true => exact conducts_release (hw.perm (List.Perm.swap left id []))

/-- A handle on a new operator takes over from the handle on the left operand. -/
theorem conducts_newOperator {own : Bool} {left : NodeId} (hw : w.Proper (ownClaims own left))
    (name : String) {e : Expression} (he : w.heap.Admits e) :
    Conducts [] (newOperator name own left e) w Anything := by
  refine (conducts_addNode hw he).bind fun id w₁ h₁ hid => ?_
  refine (conducts_acquire h₁.proper hid).bind fun _ w₂ h₂ _ => ?_
  refine (conducts_releaseOwn h₂.proper).bind fun _ w₃ h₃ _ => ?_
  exact conducts_keepHandle h₃.proper name (h₃.node (h₂.node hid))

end Act

/-! ## Commands -/

open Act

namespace Command

variable {w : Workspace}

/-! ### Buffers -/

theorem conducts_newBuffer (hw : w.Proper []) (name : String) (a : ArrayForm) :
    Conducts [] (newBuffer name a).perform w Anything := by
  refine (conducts_tensor hw a).bind fun a w₁ h₁ ha => ?_
  refine (conducts_addBuffer h₁.proper ha).bind fun b w₂ h₂ hb => ?_
  exact (conducts_modify (h₂.proper.nameBuffer name hb)).answer _

theorem conducts_showBuffer (hw : w.Proper []) (name : String) :
    Conducts [] (showBuffer name).perform w Anything := by
  refine (conducts_buffer hw name).bind fun b w₁ h₁ _ => ?_
  exact (conducts_idle h₁.proper (idle_buffer b)).answer _

/-- The array to be written is read before the buffer is looked up. -/
theorem conducts_writeBuffer (hw : w.Proper []) (name : String) (key : Selection)
    (value : ArrayForm) : Conducts [] (writeBuffer name key value).perform w Anything := by
  refine (conducts_tensor hw value).bind fun a w₁ h₁ _ => ?_
  refine (conducts_buffer h₁.proper name).bind fun b w₂ h₂ hb => ?_
  have hwrite := Heap.worksTo_effect h₂.proper.sound (.write b key a) hb rfl
  refine (conducts_onHeap h₂.proper hwrite).bind fun _ w₃ h₃ _ => ?_
  exact (conducts_idle h₃.proper (idle_buffer b)).answer _

/-! ### Nodes with handles -/

/-- A new node with a handle on it. -/
theorem conducts_newHandle_addNode (hw : w.Proper []) (name : String) {e : Expression}
    (he : w.heap.Admits e) : Conducts [] (do newHandle name (← addNode e)) w Anything :=
  (conducts_addNode hw he).bind fun _ _ h₁ hid => conducts_newHandle h₁.proper name hid

theorem conducts_newData (hw : w.Proper []) (name : String) (a : ArrayForm) :
    Conducts [] (newData name a).perform w Anything := by
  refine (conducts_tensor hw a).bind fun a w₁ h₁ ha => ?_
  refine (conducts_addBuffer h₁.proper ha).bind fun b w₂ h₂ hb => ?_
  exact conducts_newHandle_addNode h₂.proper name (admits_data hb)

theorem conducts_newShared (hw : w.Proper []) (name buffer : String) :
    Conducts [] (newShared name buffer).perform w Anything :=
  (conducts_buffer hw buffer).bind fun _ _ h₁ hb =>
    conducts_newHandle_addNode h₁.proper name (admits_data hb)

theorem conducts_unary (hw : w.Proper []) (name : String) (op : UnaryOp) (x : String)
    (own : Bool) : Conducts [] (unary name op x own).perform w Anything := by
  refine (conducts_lookup hw x).bind fun left w₁ h₁ hname => ?_
  have hleft : IsNode left w₁ := h₁.proper.handles x left hname
  refine (conducts_forgetOwn h₁.proper own hname).bind fun _ w₂ h₂ _ => ?_
  exact conducts_newOperator h₂.proper name (admits_unary (h₂.node hleft))

/-- The claim of a left operand that is passed by value is in hand while the right one becomes a
node. -/
theorem conducts_binary (hw : w.Proper []) (name : String) (op : BinaryOp) (x : String)
    (own : Bool) (y : Operand) : Conducts [] (binary name op x own y).perform w Anything := by
  refine (conducts_readOperand hw y).bind fun y w₁ h₁ hy => ?_
  refine (conducts_lookup h₁.proper x).bind fun left w₂ h₂ hname => ?_
  have hleft : IsNode left w₂ := h₂.proper.handles x left hname
  refine (conducts_forgetOwn h₂.proper own hname).bind fun _ w₃ h₃ _ => ?_
  have hy := (hy.later h₂).later h₃
  refine (conducts_heldNode h₃.proper hy).bind fun y w₄ h₄ hy => ?_
  exact conducts_newOperator h₄.proper name (admits_binary (h₄.node (h₃.node hleft)) hy)

/-- A handle moves to the assignment: it takes a claim on that before it gives up its claim on what
it was on. -/
theorem conducts_indexSet (hw : w.Proper []) (name : String) (key : KeyOperand)
    (value : Operand) : Conducts [] (indexSet name key value).perform w Anything := by
  refine (conducts_readKey hw key).bind fun k w₁ h₁ hk => ?_
  refine (conducts_readOperand h₁.proper value).bind fun v w₂ h₂ hv => ?_
  refine (conducts_handle h₂.proper name).bind fun base w₃ h₃ hbase => ?_
  refine (conducts_heldNode h₃.proper (hv.later h₃)).bind fun v w₄ h₄ hv => ?_
  have hkey : IsKey k w₄ := fun c hc => h₄.node (h₃.node (h₂.node (hk c hc)))
  have hassign := admits_assign (h₄.node hbase) hkey hv
  refine (conducts_addNode h₄.proper hassign).bind fun id w₅ h₅ hid => ?_
  refine (conducts_acquire h₅.proper hid).bind fun _ w₆ h₆ _ => ?_
  refine (conducts_placeHandle h₆.proper name (h₆.node hid)).bind fun _ w₇ h₇ _ => ?_
  exact (conducts_info h₇.proper id).answer _

theorem conducts_clone (hw : w.Proper []) (name h : String) :
    Conducts [] (clone name h).perform w Anything :=
  (conducts_handle hw h).bind fun _ _ h₁ hid => conducts_newHandle h₁.proper name hid

theorem conducts_wrap (hw : w.Proper []) (name node : String) :
    Conducts [] (wrap name node).perform w Anything :=
  (conducts_node hw node).bind fun _ _ h₁ hid => conducts_newHandle h₁.proper name hid

/-! ### Nodes with names -/

/-- A node is named and described. -/
theorem conducts_keepNode (hw : w.Proper []) (name : String) {id : NodeId} (hid : IsNode id w) :
    Conducts [] (do
      modify fun w => { w with nodes := w.nodes.insert name id }
      return Answer.info (← info id)) w Anything := by
  refine (conducts_modify (hw.nameNode name hid)).bind fun _ w₁ h₁ _ => ?_
  exact (conducts_info h₁.proper id).answer _

theorem conducts_nameNode (hw : w.Proper []) (name : String) (x : Ref) :
    Conducts [] (nameNode name x).perform w Anything :=
  (conducts_ref hw x).bind fun _ _ h₁ hid => conducts_keepNode h₁.proper name hid

theorem conducts_newNode (hw : w.Proper []) (name : String) (e : ExpressionForm) :
    Conducts [] (newNode name e).perform w Anything := by
  refine (conducts_expression hw e).bind fun e w₁ h₁ he => ?_
  refine (conducts_addNode h₁.proper he).bind fun id w₂ h₂ hid => ?_
  exact conducts_keepNode h₂.proper name hid

/-! ### Values -/

/-- The value of a computation is copied out. -/
theorem conducts_valueOf {m : Eval Value} (hm : Conducts [] (onHeap m) w Anything) :
    Conducts [] (do return Answer.value (← content (← onHeap m))) w Anything :=
  hm.bind fun v _ h₁ _ => (conducts_content h₁.proper v).answer _

theorem conducts_evaluate (hw : w.Proper []) (e : ExpressionForm) :
    Conducts [] (evaluate e).perform w Anything := by
  refine (conducts_expression hw e).bind fun e w₁ h₁ he => ?_
  have hworks := Heap.worksTo_effect h₁.proper.sound (.evaluate e) he rfl
  exact conducts_valueOf (conducts_onHeap h₁.proper hworks)

theorem conducts_read (hw : w.Proper []) (x : Ref) :
    Conducts [] (read x).perform w Anything := by
  refine (conducts_ref hw x).bind fun id w₁ h₁ hid => ?_
  have hworks := Heap.worksTo_effect h₁.proper.sound (.read id) hid rfl
  exact conducts_valueOf (conducts_onHeap h₁.proper hworks)

theorem conducts_force (hw : w.Proper []) (x : Ref) :
    Conducts [] (force x).perform w Anything :=
  (conducts_ref hw x).bind fun _ _ h₁ hid => conducts_valueOf (Act.conducts_force h₁.proper hid)

theorem conducts_toKey (hw : w.Proper []) (h : String) :
    Conducts [] (toKey h).perform w Anything :=
  (conducts_handle hw h).bind fun _ _ h₁ hid => (conducts_forced h₁.proper hid idle_key).answer _

/-- One node is found and forced before the other is looked up. -/
theorem conducts_sameBuffer (hw : w.Proper []) (x y : Ref) :
    Conducts [] (sameBuffer x y).perform w Anything := by
  refine (conducts_ref hw x).bind fun id w₁ h₁ hid => ?_
  refine (Act.conducts_force h₁.proper hid).bind fun v w₂ h₂ _ => ?_
  refine (conducts_ref h₂.proper y).bind fun id' w₃ h₃ hid' => ?_
  refine (Act.conducts_force h₃.proper hid').bind fun v' w₄ h₄ _ => ?_
  cases v with
  | array b => cases v' <;> exact conducts_pure h₄.proper trivial
  | scalar s => exact conducts_pure h₄.proper trivial

/-! ### Kernels -/

theorem conducts_generate (hw : w.Proper []) (x : Ref) :
    Conducts [] (generate x).perform w Anything := by
  refine (conducts_ref hw x).bind fun _ w₁ h₁ _ => ?_
  refine (conducts_get h₁.proper).bind fun _ w₂ h₂ _ => ?_
  refine (conducts_lift h₂.proper _).bind fun _ w₃ h₃ _ => ?_
  exact (conducts_lift h₃.proper _).answer _

theorem conducts_fuse (hw : w.Proper []) (name x : String) (compiler : Kernel.Compiler) :
    Conducts [] (fuse name x compiler).perform w Anything := by
  refine (conducts_handle hw x).bind fun _ w₁ h₁ _ => ?_
  refine (conducts_get h₁.proper).bind fun _ w₂ h₂ _ => ?_
  refine (conducts_lift h₂.proper _).bind fun k w₃ h₃ _ => ?_
  exact (conducts_modify (h₃.proper.nameKernel name k)).answer _

theorem conducts_run (hw : w.Proper []) (name : String) :
    Conducts [] (run name).perform w Anything := by
  refine (conducts_named hw fun _ _ => trivial).bind (Q := Anything) fun k w₁ h₁ _ => ?_
  refine (conducts_get h₁.proper).bind fun _ w₂ h₂ _ => ?_
  exact (conducts_lift h₂.proper _).answer _

/-! ### Descriptions -/

/-- A text is made of a node and the heap. -/
theorem conducts_textOf (hw : w.Proper []) (x : Ref) (text : Heap → NodeId → String) :
    Conducts [] (do
      let id ← ref x
      return Answer.text (text (← get).heap id)) w Anything :=
  (conducts_ref hw x).bind fun _ _ h₁ _ => (conducts_get h₁.proper).answer _

theorem conducts_describe (hw : w.Proper []) (x : Ref) :
    Conducts [] (describe x).perform w Anything :=
  (conducts_ref hw x).bind fun id _ h₁ _ => (conducts_info h₁.proper id).answer _

/-! ### All commands -/

/-- **A command conducts operations**, whatever it is. -/
theorem conducts_perform (hw : w.Proper []) (c : Command) : Conducts [] c.perform w Anything := by
  cases c with
  | newBuffer name a => exact conducts_newBuffer hw name a
  | showBuffer name => exact conducts_showBuffer hw name
  | writeBuffer name key value => exact conducts_writeBuffer hw name key value
  | newData name a => exact conducts_newData hw name a
  | newShared name buffer => exact conducts_newShared hw name buffer
  | newScalar name s => exact conducts_newHandle_addNode hw name (admits_scalar _ s)
  | unary name op x own => exact conducts_unary hw name op x own
  | binary name op x own y => exact conducts_binary hw name op x own y
  | indexSet name key value => exact conducts_indexSet hw name key value
  | clone name h => exact conducts_clone hw name h
  | drop h => exact (conducts_dropHandle hw h).answer _
  | nameNode name x => exact conducts_nameNode hw name x
  | newNode name e => exact conducts_newNode hw name e
  | wrap name node => exact conducts_wrap hw name node
  | evaluate e => exact conducts_evaluate hw e
  | read x => exact conducts_read hw x
  | force x => exact conducts_force hw x
  | toKey h => exact conducts_toKey hw h
  | toTensor h => exact (conducts_forcedTensor hw h).answer _
  | sum h => exact (conducts_forcedTensor hw h).answer _
  | diagram x => exact conducts_textOf hw x Heap.diagram
  | generate x => exact conducts_generate hw x
  | fuse name x compiler => exact conducts_fuse hw name x compiler
  | run name => exact conducts_run hw name
  | describe x => exact conducts_describe hw x
  | summarize x => exact conducts_textOf hw x Heap.summary
  | sameBuffer x y => exact conducts_sameBuffer hw x y
  | state => exact (conducts_overview hw).answer _

end Command

/-! ## Sessions -/

/-- **A session conducts operations**, one command after the other. -/
theorem becomes_runAll (commands : List Command) {w : Workspace} (hw : w.Proper []) :
    w.Becomes (Workspace.runAll commands w).2 [] := by
  induction commands generalizing w with
  | nil => exact .refl hw
  | cons c commands ih =>
    have hc := c.conducts_perform hw
    rw [Workspace.runAll]
    unfold Conducts at hc
    split at hc
    next a w' hr =>
      rw [hr]
      exact hc.1.trans (ih hc.1.proper)
    next e w' hr =>
      rw [hr]
      exact hc.trans (ih hc.proper)

/-- **Every session is a run of operations**, as far as its heap is concerned. -/
theorem exists_run (commands : List Command) :
    ∃ ops, (run ops).heap = (Workspace.runAll commands .empty).2.heap := by
  obtain ⟨ops, hops⟩ := (becomes_runAll commands Workspace.proper_empty).leadsTo
  exact ⟨ops, hops .start rfl⟩

/-- **The heap of every session is sound.** -/
theorem sound_runAll (commands : List Command) :
    (Workspace.runAll commands .empty).2.heap.Sound :=
  (becomes_runAll commands Workspace.proper_empty).proper.sound

/-- **Owner counts are exact in every session**: no two handles have one name, a node has as many
owners as there are handles on it, and no count was lowered when it was zero. -/
theorem owners_runAll (commands : List Command) :
    let w := (Workspace.runAll commands .empty).2
    w.handles.Distinct ∧ (∀ n, w.heap.owners n = w.handles.count n) ∧ w.overdrawn = false := by
  have hexact := (becomes_runAll commands Workspace.proper_empty).proper.exact
  exact ⟨hexact.distinct, hexact.owners, hexact.solvent⟩

/-- Two handles on an array are passed by value, and their sum is assigned to an element of itself,
under the name that one of them had. -/
example : let w := (Workspace.runAll [.newData "x" ⟨none, .ints [1, 2]⟩, .clone "y" "x",
      .binary "x" .add "x" true (.own "y"), .indexSet "x" (.position 0) (.ref (.handle "x"))]
      .empty).2
    (w.handles.entries, (List.range 3).map w.heap.owners) = ([("x", 2)], [0, 0, 1]) := by
  decide +kernel

end Session

end DeferredArrays
