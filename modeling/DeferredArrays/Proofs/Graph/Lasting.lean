import DeferredArrays.Proofs.Graph.Agreement
import DeferredArrays.Proofs.Graph.History
import Mathlib.Tactic.IntervalCases

/-!
# Proofs/Graph/Lasting — a fused kernel stays valid for ever

A kernel is typed against the buffers there are when it is fused, and keeps them.  Whatever is done
later, it writes to buffers by assignment only, and a write changes elements: the **form** of an
array, which is its shape, its type and the number of its elements, stays (`Heap.SameForms`,
`sameForms_foldl`).

What a call checks of its inputs is their form (`inputShape_congr`), and it fails where that check
fails (`call_eq_error_iff`).  So a kernel that is run again fails exactly as it would have failed at
once, and a graph none of whose nodes was forced meanwhile is written as the same kernel
(`lasts_run`).
-/

namespace DeferredArrays

/-! ## The form of an array -/

namespace Tensor

/-- **Two arrays have the same form.** -/
structure SameForm (a c : Tensor) : Prop where
  /-- The shapes are equal. -/
  shape : c.shape = a.shape
  /-- The types are equal. -/
  elemType : c.elemType = a.elemType
  /-- There are as many elements. -/
  length : c.length = a.length

/-- A write that succeeds keeps the form. -/
theorem SameForm.set {a b c v : Tensor} {key : Selection} (hb : a.SameForm b)
    (hc : b.set key v = .ok c) : a.SameForm c := by
  obtain ⟨slots, _, rfl⟩ := set_eq_ok hc
  exact ⟨hb.shape, (Elements.elemType_scatter _ _ _).trans hb.elemType,
    (length_scatter _ _ _).trans hb.length⟩

/-- **Writes keep the form of an array.** -/
theorem Rewritten.sameForm {a c : Tensor} (h : a.Rewritten c) : a.SameForm c := by
  induction h with
  | refl => exact ⟨rfl, rfl, rfl⟩
  | tail _ hset ih =>
    obtain ⟨_, _, hset⟩ := hset
    exact ih.set hset

end Tensor

namespace Heap

/-- **Every buffer holds an array of the form it had.** -/
def SameForms (h h' : Heap) : Prop :=
  ∀ b a, h.buffer? b = some a → ∃ c, h'.buffer? b = some c ∧ a.SameForm c

theorem Written.sameForms {h h' : Heap} (hw : h.Written h') : h.SameForms h' := by
  intro b a hb
  obtain ⟨c, hc, hac⟩ := hw b a hb
  exact ⟨c, hc, hac.sameForm⟩

/-- A leaf has an array of the same form in a later heap. -/
theorem SameForms.sameForm_arrayOf {h h' : Heap} (hs : h.Sound) (hf : h.SameForms h') {l : Leaf}
    (hl : h.Holds l) : (h.arrayOf l).SameForm (h'.arrayOf l) := by
  obtain ⟨a, ha⟩ := hl.exists_buffer? hs
  obtain ⟨c, hc, hac⟩ := hf _ a ha
  rwa [arrayOf, arrayOf, ha, hc]

end Heap

/-- **Operations keep the form of every buffer.** -/
theorem sameForms_foldl (ops : List Operation) {s : History} (hs : s.heap.Sound) :
    s.heap.SameForms (ops.foldl Operation.perform s).heap :=
  (follows_foldl ops hs).later.buffers.sameForms

/-! ## What a call checks -/

namespace Kernel.Compiled

open Tensor

variable {k : Compiled} {inputs inputs' : List Tensor}

/-- **A call checks the forms of its inputs** and nothing else of them. -/
theorem inputShape_congr (hforms : List.Forall₂ SameForm inputs inputs') (params : List Param)
    (s : Shape) : inputShape s (params.zip inputs') = inputShape s (params.zip inputs) := by
  induction hforms generalizing params s with
  | nil => rfl
  | @cons a c inputs inputs' hac _ ih =>
    rcases params with _ | ⟨p, params⟩
    · rfl
    · simp only [List.zip_cons_cons, inputShape, hac.shape, hac.elemType]
      split
      next => rfl
      next =>
        split
        next t _ => exact ih params t
        next => rfl

/-- **A call of as many well-formed inputs as it has parameters fails where its check does.** -/
theorem call_eq_error_iff (haccepts : k.Accepts inputs) (hwf : ∀ a ∈ inputs, a.WellFormed)
    (e : Error) : k.call inputs = .error e ↔ inputShape .scalar (k.params.zip inputs) = .error e := by
  have hjoin := inputShape_join haccepts Shape.joins_nil
  rw [List.nil_append] at hjoin
  cases hr : inputShape .scalar (k.params.zip inputs) with
  | ok s =>
    rw [hr] at hjoin
    rw [call_eq haccepts hwf hjoin]
    exact ⟨nofun, nofun⟩
  | error e' =>
    have hcount : inputs.length = k.inputCount := haccepts.length_eq.symm
    rw [call, if_neg (not_not_intro hcount), hr, Except.error.injEq]
    show (Except.error e' : Except Error Tensor) = .error e ↔ e' = e
    rw [Except.error.injEq]

end Kernel.Compiled

/-! ## Kernels in later heaps -/

open Kernel

/-- **A kernel that was fused in one heap is valid in another.** -/
structure Fused.Lasts (k : Fused) (h : Heap) (root : NodeId) (h' : Heap) : Prop where
  /-- It fails on shapes only: its arguments have the number and the types of its parameters, and
  its results the number that their shape counts. -/
  mismatch : ∀ e, h'.run k = .error e → ∃ s t, e = .tensor (.shapeMismatch s t)
  /-- It fails exactly as it would have failed at once. -/
  error_iff : ∀ e, h'.run k = .error e ↔ h.run k = .error e
  /-- The graph it was fused from is written as the same text with the same arguments, as long as
  every node that was reached is in the state it was in. -/
  kernelFor : (∀ n, h.Reaches root n → h'.state? n = h.state? n) →
    h'.kernelFor root = .ok k.toBoundSource

namespace Heap

variable {h h' : Heap} {root : NodeId} {t : Term} {k : Fused}

/-- A kernel is written before it is compiled. -/
theorem kernelFor_of_fuse {compiler : Compiler} (hk : h.fuse compiler root = .ok k) :
    h.kernelFor root = .ok k.toBoundSource := by
  obtain ⟨g, hg, hk⟩ := exists_of_bind_eq_ok hk
  split at hk
  next =>
    cases hk
    exact hg
  next => cases hk

/-- Parameters stay, since buffers keep their types. -/
theorem SameForms.paramsOf_eq (hs : h.Sound) (hf : h.SameForms h') (ht : h.Unfolds root t) :
    h'.paramsOf t = h.paramsOf t := by
  have hbinding : ∀ l ∈ t.firstVisits, h'.bindingOf l = h.bindingOf l := by
    intro l hl
    obtain ⟨a, ha⟩ := (ht.holds_firstVisits l hl).exists_buffer? hs
    obtain ⟨c, hc, hac⟩ := hf _ a ha
    simp only [bindingOf, typeOf, ha, hc, Option.map_some, Option.getD_some, hac.elemType]
  rw [paramsOf, paramsOf, List.map_congr_left hbinding]

/-- **A kernel is valid in every heap that follows.** -/
theorem Follows.lasts (hs : h.Sound) (hf : h.Follows h') {compiler : Compiler}
    (hk : h.fuse compiler root = .ok k) : k.Lasts h root h' := by
  obtain ⟨t, hc⟩ := fuse_eq_ok hs hk
  have hforms := hf.later.buffers.sameForms
  have hheld := hc.unfolds.holds
  have hfits : ∀ l ∈ t.leaves, h.Fits h l := fun l hl =>
    (Later.refl h).buffers.fits hs (hheld l hl)
  have hfits' : ∀ l ∈ t.leaves, h.Fits h' l := fun l hl => hf.later.buffers.fits hs (hheld l hl)
  have hinputs : List.Forall₂ Tensor.SameForm (t.firstVisits.map h.arrayOf)
      (t.firstVisits.map h'.arrayOf) := by
    rw [List.forall₂_map_left_iff, List.forall₂_map_right_iff, List.forall₂_same]
    exact fun l hl => hforms.sameForm_arrayOf hs (hc.unfolds.holds_firstVisits l hl)
  have herror : ∀ e, h'.run k = .error e ↔ h.run k = .error e := fun e => by
    rw [hc.run_eq hfits, hc.run_eq hfits',
      Compiled.call_eq_error_iff (hc.accepts hfits) (wellFormed_inputs hfits),
      Compiled.call_eq_error_iff (hc.accepts hfits') (wellFormed_inputs hfits'),
      Compiled.inputShape_congr hinputs]
  refine ⟨fun e => (resolves_run hc hfits').of_error, herror, fun hstates => ?_⟩
  rw [kernelFor_eq hf.sound (hc.unfolds.of_states hstates), hforms.paramsOf_eq hs hc.unfolds,
    ← kernelFor_eq hs hc.unfolds]
  exact kernelFor_of_fuse hk

end Heap

/-- **Arrays keep their form and kernels their validity**, in every run and for ever. -/
theorem lasts_run (ops more : List Operation) :
    (run ops).heap.SameForms (run (ops ++ more)).heap ∧
    ∀ compiler root k, (run ops).heap.fuse compiler root = .ok k →
      k.Lasts (run ops).heap root (run (ops ++ more)).heap := by
  have hs := (valid_run ops).sound
  have hmore : run (ops ++ more) = more.foldl Operation.perform (run ops) := List.foldl_append
  have hfollows := follows_foldl more hs
  rw [hmore]
  exact ⟨sameForms_foldl more hs, fun _ _ _ hk => hfollows.lasts hs hk⟩

/-- `x + y` over three integers and two truth values: it fuses, and fails for its shapes. -/
def unequal : List Operation :=
  [.allocate (.ofElements (.ints [1, 2, 3])), .allocate (.ofElements (.bools [true, false])),
    .build (.data 0), .build (.data 1), .build (.binary .add 0 1)]

/-- A float is assigned to the end of `x` through another leaf, and `y` is written to under a
mask. -/
def rewriting : List Operation :=
  [.build (.data 0), .build (.scalar (.float 9.5)), .build (.assign 3 (.position (-1)) 4),
    .force 5, .write 1 (.mask [false, true]) (.ofElements (.ints [7]))]

theorem lasts_run_unequal : ∃ k, (run unequal).heap.fuse (.ofSettings ⟨.speed⟩) 2 = .ok k ∧
    (run unequal).heap.SameForms (run (unequal ++ rewriting)).heap ∧
    k.Lasts (run unequal).heap 2 (run (unequal ++ rewriting)).heap ∧
    (run (unequal ++ rewriting)).heap.kernelFor 2 = .ok k.toBoundSource := by
  have hs := (valid_run unequal).sound
  have ht : (run unequal).heap.Unfolds 2 (.binary .add (.array ⟨0, 0⟩) (.array ⟨1, 1⟩)) :=
    .binary rfl (.data rfl) (.data rfl)
  obtain ⟨k, hk, _, _⟩ := Heap.exists_fuse_of_typed hs (.ofSettings ⟨.speed⟩) ht (u := .int64) rfl rfl rfl
  have hlasts := lasts_run unequal rewriting
  have hk' := hlasts.2 _ _ _ hk
  refine ⟨k, hk, hlasts.1, hk', hk'.kernelFor fun n hn => ?_⟩
  have hle : n ≤ 2 := hn.le hs.ordered
  interval_cases n <;> decide +kernel

/-- Both arrays have other elements then. -/
example : (run (unequal ++ rewriting)).heap.buffers.map (·.elements) =
    #[.ints [1, 2, 9], .bools [true, true]] := by decide +kernel

end DeferredArrays
