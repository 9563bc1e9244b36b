import DeferredArrays.Proofs.Graph.Frame
import DeferredArrays.Proofs.Graph.Steps
import DeferredArrays.Session.Workspace

/-!
# Proofs/Session/Claims — handles, and the claims they have on nodes

The owner count of a node is to be the number of handles on it.  While a command is carried out some
handles have no name: one that was made and is to get its name, or one that has lost it and is to
end.  Their **claims** are counted along (`Workspace.Exact`).

Of the operations on a heap only two change owner counts, taking a claim and giving it up
(`Operation.owners_perform`); names and claims change places when a handle loses its name
(`Workspace.Exact.forget`) or gets one (`Workspace.Exact.place`).  Since a claim that is given up is
counted, no count is zero then, and none wraps around (`Workspace.Exact.release`).
-/

namespace DeferredArrays

open Eval Heap

/-! ## Owner counts -/

namespace Heap

variable {h : Heap}

/-- What does not exist has no owners. -/
theorem owners_eq_zero {n : NodeId} (hn : h.cells.size ≤ n) : h.owners n = 0 := by
  have hnone : h.cell? n = none := Array.getElem?_eq_none_iff.mpr hn
  rw [owners, hnone]
  rfl

@[simp] theorem owners_addNode (h : Heap) (e : Expression) (n : NodeId) :
    (h.addNode e).2.owners n = h.owners n := by
  rw [owners, cell?_addNode]
  split
  next hn =>
    rw [owners_eq_zero (Nat.le_of_eq hn.symm)]
    rfl
  next => rfl

/-- A claim that is taken adds an owner to one node … -/
theorem owners_acquire {id : NodeId} (hid : id < h.cells.size) (n : NodeId) :
    (h.acquire id).owners n = h.owners n + if id = n then 1 else 0 := by
  rw [acquire, owners, cell?_modifyCell, owners]
  split
  next heq =>
    subst heq
    have hcell : h.cell? id = some h.cells[id] := Array.getElem?_eq_getElem hid
    rw [hcell]
    rfl
  next => rfl

/-- … and one that is given up takes one away. -/
theorem owners_release (id n : NodeId) :
    (h.release id).owners n = h.owners n - if id = n then 1 else 0 := by
  rw [release, owners, cell?_modifyCell, owners]
  split
  next heq => cases h.cell? n <;> rfl
  next => rfl

end Heap

/-- An operation that takes a claim on a node or gives it up. -/
def Operation.claims : Operation → Bool
  | acquire _ => true
  | release _ => true
  | _ => false

/-- **A step changes no owner count**, unless it is a claim that is taken or given up. -/
theorem Operation.Step.owners_eq {h : Heap} {op : Operation} {s s' : History}
    (hstep : op.Step h s s') (hop : op.claims = false) (n : NodeId) :
    s'.heap.owners n = s.heap.owners n := by
  cases hstep with
  | allocate => rfl
  | build => exact owners_addNode ..
  | acquire => cases hop
  | release => cases hop
  | write => rfl
  | effect he =>
    exact (he.confined (S := fun _ => True) (fun _ _ _ => trivial)
      fun _ _ _ _ _ _ => trivial).owners n
  | delivery hd =>
    exact (hd.confined (S := fun _ => True) fun _ _ _ _ => trivial).owners n

/-- Nor do several steps … -/
theorem Operation.Steps.owners_eq {h : Heap} {op : Operation} {s s' : History}
    (hsteps : op.Steps h s s') (hop : op.claims = false) (n : NodeId) :
    s'.heap.owners n = s.heap.owners n := by
  induction hsteps with
  | refl => rfl
  | tail _ hlast ih => exact (hlast.owners_eq hop n).trans ih

/-- … so that no operation does that is not one on claims. -/
theorem Operation.owners_perform {s : History} (hs : s.heap.Sound) {op : Operation}
    (hop : op.claims = false) (n : NodeId) :
    (op.perform s).heap.owners n = s.heap.owners n :=
  Steps.owners_eq (op.steps_perform hs) hop n

/-! ## Tables without double names -/

namespace Table

variable {α : Type} {t : Table α} {name : String} {a : α}

/-- No name occurs twice. -/
def Distinct (t : Table α) : Prop := (t.entries.map (·.1)).Nodup

theorem distinct_empty : (empty : Table α).Distinct := List.nodup_nil

/-- Names stay distinct when one is taken back … -/
theorem Distinct.erase (ht : t.Distinct) (name : String) : (t.erase name).Distinct :=
  List.Nodup.sublist (List.filter_sublist.map _) ht

/-- … and when one is given, which takes it back first. -/
theorem Distinct.insert (ht : t.Distinct) (name : String) (a : α) :
    (t.insert name a).Distinct := by
  rw [Distinct, Table.insert, List.map_append]
  refine List.nodup_append.mpr ⟨ht.erase name, List.pairwise_singleton _ _, ?_⟩
  intro other hother other' hother' heq
  obtain ⟨e, he, rfl⟩ := List.mem_map.mp hother
  have hne : (e.1 != name) = true := (List.mem_filter.mp he).2
  obtain rfl := List.mem_singleton.mp hother'
  simp [heq] at hne

/-- Taking away a name that is not there changes nothing. -/
theorem erase_of_none (ha : t.get? name = none) : t.erase name = t := by
  have hne : ∀ e ∈ t.entries, (e.1 != name) = true := by
    simpa [get?] using ha
  rw [erase, List.filter_eq_self.mpr hne]

section Count

variable [DecidableEq α]

/-- **How many names have a value.** -/
def count (t : Table α) (a : α) : Nat := (t.entries.map (·.2)).count a

/-- An entry counts for its own value. -/
theorem count_cons (name : String) (a : α) (entries : List (String × α)) (c : α) :
    count ⟨(name, a) :: entries⟩ c = count ⟨entries⟩ c + if a = c then 1 else 0 := by
  simp [count, List.count_cons]

/-- A name that is taken away had one value. -/
theorem count_erase_of_some (ht : t.Distinct) (ha : t.get? name = some a) (c : α) :
    t.count c = (t.erase name).count c + if a = c then 1 else 0 := by
  obtain ⟨entries⟩ := t
  induction entries with
  | nil => cases ha
  | cons entry entries ih =>
    obtain ⟨other, a'⟩ := entry
    have hrest : Distinct ⟨entries⟩ := (List.nodup_cons.mp ht).2
    by_cases heq : other = name
    · have hself : erase ⟨(other, a') :: entries⟩ name = ⟨entries⟩ := by
        have hne : ∀ e ∈ entries, (e.1 != name) = true := by
          intro e he
          have hmem : other ∉ entries.map (·.1) := (List.nodup_cons.mp ht).1
          simp only [bne_iff_ne, ne_eq]
          rintro rfl
          exact hmem (heq ▸ List.mem_map_of_mem he)
        simp [erase, heq, List.filter_eq_self.mpr hne]
      have ha' : a' = a := by simpa [get?, heq] using ha
      rw [hself, count_cons, ha']
    · have hget : get? ⟨entries⟩ name = some a := by simpa [get?, heq] using ha
      have herase : erase ⟨(other, a') :: entries⟩ name
          = ⟨(other, a') :: (erase ⟨entries⟩ name).entries⟩ := by
        simp [erase, heq]
      rw [herase, count_cons, count_cons, ih hrest hget]
      exact Nat.add_right_comm ..

/-- A name that is given counts for what it is given to, and no longer for what it had. -/
theorem count_insert (t : Table α) (name : String) (a c : α) :
    (t.insert name a).count c = (t.erase name).count c + if a = c then 1 else 0 := by
  simp [count, insert, List.count_singleton]

end Count

end Table

/-! ## Exact owner counts -/

namespace Session.Workspace

/-- **Owner counts are exact**: they count the handles, together with claims of handles that have no
name at the moment. -/
structure Exact (w : Workspace) (claims : List NodeId) : Prop where
  /-- No two handles have one name. -/
  distinct : w.handles.Distinct
  /-- A node has as many owners as there are handles on it. -/
  owners : ∀ n, w.heap.owners n = w.handles.count n + claims.count n
  /-- No count has wrapped around. -/
  solvent : w.overdrawn = false

variable {w : Workspace} {claims : List NodeId} {id : NodeId}

/-- Without handles there are no owners. -/
theorem exact_empty : empty.Exact [] := ⟨Table.distinct_empty, fun _ => rfl, rfl⟩

/-- Owner counts stay exact where neither they nor the handles change. -/
theorem Exact.of_same (hw : w.Exact claims) {w' : Workspace} (hhandles : w'.handles = w.handles)
    (howners : ∀ n, w'.heap.owners n = w.heap.owners n) (hoverdrawn : w'.overdrawn = w.overdrawn) :
    w'.Exact claims where
  distinct := hhandles ▸ hw.distinct
  owners n := by rw [howners, hhandles, hw.owners]
  solvent := hoverdrawn.trans hw.solvent

/-- It does not matter in which order claims are in hand. -/
theorem Exact.perm (hw : w.Exact claims) {claims' : List NodeId} (hperm : claims.Perm claims') :
    w.Exact claims' where
  distinct := hw.distinct
  owners n := by rw [hw.owners, hperm.count_eq]
  solvent := hw.solvent

/-- A claim is counted when it is taken. -/
theorem Exact.acquire (hw : w.Exact claims) (hid : id < w.heap.cells.size) :
    { w with heap := w.heap.acquire id }.Exact (id :: claims) where
  distinct := hw.distinct
  owners n := by
    show (w.heap.acquire id).owners n = w.handles.count n + (id :: claims).count n
    rw [owners_acquire hid, hw.owners, List.count_cons, Nat.add_assoc]
    simp only [beq_iff_eq]
  solvent := hw.solvent

/-- A node with a claim on it has an owner. -/
theorem Exact.owners_pos (hw : w.Exact claims) (hid : id ∈ claims) : 0 < w.heap.owners id := by
  rw [hw.owners]
  exact Nat.add_pos_right _ (List.count_pos_iff.mpr hid)

/-- **A claim that is given up was counted**, so that the count is not zero. -/
theorem Exact.release (hw : w.Exact (id :: claims)) :
    { w with
      heap := w.heap.release id
      overdrawn := w.overdrawn || !w.heap.isOwned id }.Exact claims where
  distinct := hw.distinct
  owners n := by
    show (w.heap.release id).owners n = w.handles.count n + claims.count n
    rw [owners_release, hw.owners, List.count_cons, ← Nat.add_assoc]
    simp only [beq_iff_eq, Nat.add_sub_cancel]
  solvent := by
    have howned : w.heap.isOwned id = true := decide_eq_true (hw.owners_pos List.mem_cons_self)
    show (w.overdrawn || !w.heap.isOwned id) = false
    rw [hw.solvent, howned]
    rfl

/-- A handle that loses its name keeps its claim. -/
theorem Exact.forget (hw : w.Exact claims) {name : String} (hname : w.handles.get? name = some id) :
    { w with handles := w.handles.erase name }.Exact (id :: claims) where
  distinct := hw.distinct.erase name
  owners n := by
    show w.heap.owners n = (w.handles.erase name).count n + (id :: claims).count n
    rw [hw.owners, Table.count_erase_of_some hw.distinct hname, List.count_cons, Nat.add_assoc]
    simp only [beq_iff_eq, Nat.add_comm]
  solvent := hw.solvent

/-- A handle that gets a name brings its claim with it, and a handle that had the name loses it. -/
theorem Exact.place (hw : w.Exact (id :: claims)) (name : String) :
    { w with handles := w.handles.insert name id }.Exact
      ((w.handles.get? name).toList ++ claims) where
  distinct := hw.distinct.insert name id
  owners n := by
    show w.heap.owners n = (w.handles.insert name id).count n
      + ((w.handles.get? name).toList ++ claims).count n
    rw [hw.owners, Table.count_insert, List.count_cons]
    simp only [beq_iff_eq]
    cases hname : w.handles.get? name with
    | none =>
      rw [Table.erase_of_none hname]
      simp only [Option.toList_none, List.nil_append]
      omega
    | some old =>
      rw [Table.count_erase_of_some hw.distinct hname]
      simp only [Option.toList_some, List.singleton_append, List.count_cons, beq_iff_eq]
      omega
  solvent := hw.solvent

end Session.Workspace

end DeferredArrays
