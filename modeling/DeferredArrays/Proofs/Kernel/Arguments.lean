import DeferredArrays.Proofs.Kernel.Bounds
import DeferredArrays.Proofs.Kernel.Compiling
import DeferredArrays.Proofs.Kernel.Grammar

/-!
# Proofs/Kernel/Arguments — what compiled code loads of its arguments

Compiled code loads its arguments from offsets, and does not look whether they are there.  The
reader produces indices of parameters only (`closed_of_parse`), lowering keeps each as an offset
(`loads_lower`), and each of the two ways to call a kernel passes as many arguments as there are
parameters.  So all that can go wrong is the offset.  Below index `2 ^ 28` it is that of the argument
of the parameter.  From there on it is cut off, and from index `2 ^ 28` up to `2 ^ 29` it is before the
arguments (`Code.argument?_offset`): a source with that many parameters compiles to code that loads
what it was not passed (`loads_before_arguments`).

Running is total here, and what is loaded from beside the arguments counts as zero.  So what is
claimed is said of invocations that are **checked** (`Checked.invoke`): they come to nothing unless
there is one argument for each parameter, and one wherever the code loads.  The calls that invoke in
this way come to the outcomes of the calls, if and only if no parameter of the body has an offset
before the arguments (`within_callRow_iff`, `within_callRows`).

Reading and typing are all that can refuse a source, the code generator apart.  The one thing that
lowering would refuse has no type (`exists_lower`), and the indices that a type could miss are not
produced (`elemType?_ne_unknownVariable`).
-/

namespace DeferredArrays

namespace Kernel

/-! ## From sources to code -/

section Typing

variable {params : List Param} {b : Body}

/-- The type of an operator's result is never refused for a variable. -/
theorem unaryType_ne_unknownVariable (op : UnaryOp) (t : ElemType) (name : String) :
    Body.unaryType op t ≠ .error (.unknownVariable name) := by
  rcases op with _ | _ | _ <;> rcases t with _ | _ | _ <;> exact nofun

theorem binaryType_ne_unknownVariable (op : BinaryOp) (nonnegative : Bool) (s t : ElemType)
    (name : String) : Body.binaryType op nonnegative s t ≠ .error (.unknownVariable name) := by
  cases op with
  | pow =>
    rw [Body.binaryType]
    split <;> rintro ⟨⟩
  | _ => rintro ⟨⟩

/-- **A body whose parameters exist is not refused for a variable** when it is typed. -/
theorem elemType?_ne_unknownVariable (hb : b.Closed params) (name : String) :
    b.elemType? params ≠ .error (.unknownVariable name) := by
  induction b with
  | param i =>
    have hi : i < params.length := hb i (List.mem_singleton.mpr rfl)
    rw [Body.elemType?, List.getElem?_eq_getElem hi]
    exact nofun
  | const s => exact nofun
  | unary op x ih =>
    intro h
    rw [Body.elemType?] at h
    rcases hx : x.elemType? params with e | t
    · rw [hx] at h
      obtain rfl := Except.error.inj h
      exact ih hb hx
    · rw [hx] at h
      exact unaryType_ne_unknownVariable op t name h
  | binary op x y ihx ihy =>
    have hbx : x.Closed params := fun i hi => hb i (List.mem_append_left _ hi)
    have hby : y.Closed params := fun i hi => hb i (List.mem_append_right _ hi)
    intro h
    rw [Body.elemType?] at h
    rcases hx : x.elemType? params with e | t
    · rw [hx] at h
      obtain rfl := Except.error.inj h
      exact ihx hbx hx
    · rcases hy : y.elemType? params with e | u
      · rw [hx, hy] at h
        obtain rfl := Except.error.inj h
        exact ihy hby hy
      · rw [hx, hy] at h
        exact binaryType_ne_unknownVariable op _ t u name h

end Typing

/-- **The parameters of a body that was read exist.** -/
theorem closed_of_parse {s : Source} {b : Body} (h : s.parse = .ok b) : b.Closed s.params := by
  obtain ⟨ts, rest, _, _, hderives⟩ := (parse_eq_ok_iff s).mp h
  intro i hi
  obtain ⟨p, hp, _⟩ := hderives.legible i hi
  exact (List.getElem?_eq_some_iff.mp hp).1

/-- **A body reaches its arguments** if none of its parameters has an offset before them. -/
def Body.InReach (b : Body) : Prop := ∀ i ∈ b.paramIndices, i % 2 ^ 29 < 2 ^ 28

theorem Body.inReach_of_lt {b : Body} (h : ∀ i ∈ b.paramIndices, i < 2 ^ 28) : b.InReach :=
  fun i hi => Nat.lt_of_le_of_lt (Nat.mod_le i _) (h i hi)

/-- Parameters that exist have their argument at the offset, unless it is before the arguments. -/
theorem exists_argument?_iff {args : List Float} {i : Nat} (hi : i < args.length) :
    (∃ x, Code.argument? args (Code.offset i) = some x) ↔ i % 2 ^ 29 < 2 ^ 28 := by
  rw [Code.argument?_offset]
  split
  next hreach =>
    have hlt : i % 2 ^ 29 < args.length := Nat.lt_of_le_of_lt (Nat.mod_le i _) hi
    exact iff_of_true ⟨_, List.getElem?_eq_getElem hlt⟩ hreach
  next hreach => exact iff_of_false (by rintro ⟨x, ⟨⟩⟩) hreach

/-! ## Running what is there -/

section Running

variable {args : List Float} {c : Code}

/-- The result of a computation, if each argument that it loads is there. -/
def Code.run? (args : List Float) : Code → Option Float
  | load d => argument? args d
  | const x => some x
  | apply1 f x => do return f (← x.run? args)
  | apply2 f x y => do
    let x ← x.run? args
    let y ← y.run? args
    return f x y

/-- **Code that loads what is there runs.** -/
theorem Code.run?_eq (h : ∀ d ∈ c.loads, ∃ x, argument? args d = some x) :
    c.run? args = some (c.run args) := by
  induction c with
  | load d =>
    obtain ⟨x, hx⟩ := h d (List.mem_singleton.mpr rfl)
    rw [Code.run?, Code.run, hx, Option.getD_some]
  | const x => rfl
  | apply1 f x ih =>
    rw [Code.run?, ih h]
    rfl
  | apply2 f x y ihx ihy =>
    have hx := ihx fun d hd => h d (List.mem_append_left _ hd)
    have hy := ihy fun d hd => h d (List.mem_append_right _ hd)
    rw [Code.run?, hx, hy]
    rfl

/-- **Code that runs loads what is there.** -/
theorem Code.exists_argument?_of_run? {y : Float} (h : c.run? args = some y) :
    ∀ d ∈ c.loads, ∃ x, argument? args d = some x := by
  induction c generalizing y with
  | load d =>
    intro e he
    rw [List.mem_singleton.mp he]
    exact ⟨y, h⟩
  | const x => exact fun d hd => absurd hd List.not_mem_nil
  | apply1 f x ih =>
    obtain ⟨vx, hx, _⟩ := Option.bind_eq_some_iff.mp h
    exact ih hx
  | apply2 f x z ihx ihz =>
    obtain ⟨vx, hx, h⟩ := Option.bind_eq_some_iff.mp h
    obtain ⟨vz, hz, _⟩ := Option.bind_eq_some_iff.mp h
    intro d hd
    rcases List.mem_append.mp hd with hd | hd
    · exact ihx hx d hd
    · exact ihz hz d hd

/-- A kernel whose code loads the parameters of a body, all of which exist. -/
structure Compiled.Loads (k : Compiled) (b : Body) : Prop where
  /-- The code loads from the offsets of the parameters. -/
  loads : k.code.loads = b.paramIndices.map Code.offset
  /-- The parameters exist. -/
  closed : b.Closed k.params

/-- **Compiled code loads the parameters of the body.** -/
theorem loads_of_compile {compiler : Compiler} {s : Source} {b : Body} {k : Compiled}
    (hk : compile compiler s = .ok k) (hb : s.parse = .ok b) : k.Loads b := by
  obtain ⟨b', hb', _, hc, _, hparams⟩ := compile_eq_ok hk
  obtain rfl : b = b' := Except.ok.inj (hb.symm.trans hb')
  exact ⟨loads_lower hc, hparams ▸ closed_of_parse hb⟩

/-- With one argument for each parameter, the code finds its arguments exactly if the body reaches
them. -/
theorem Compiled.Loads.exists_argument?_iff {k : Compiled} {b : Body} (hk : k.Loads b)
    (hargs : args.length = k.params.length) :
    (∀ d ∈ k.code.loads, ∃ x, Code.argument? args d = some x) ↔ b.InReach := by
  rw [hk.loads, List.forall_mem_map]
  refine forall₂_congr fun i hi => Kernel.exists_argument?_iff ?_
  exact Nat.lt_of_lt_of_eq (hk.closed i hi) hargs.symm

/-- **What is loaded are the arguments of the parameters**, if their indices are below `2 ^ 28`. -/
theorem Compiled.Loads.map_argument? {k : Compiled} {b : Body} (hk : k.Loads b)
    (hb : ∀ i ∈ b.paramIndices, i < 2 ^ 28) (args : List Float) :
    k.code.loads.map (Code.argument? args) = b.paramIndices.map (args[·]?) := by
  rw [hk.loads, List.map_map]
  exact List.map_congr_left fun i hi => Code.argument?_offset_of_lt args (hb i hi)

end Running

end Kernel

/-! ## Calls -/

namespace Checked

open Kernel Kernel.Compiled

variable {k : Compiled} {b : Body}

/-- **An invocation of a kernel**, on one argument for each parameter, all of which that are loaded
have to be there. -/
def invoke (k : Compiled) (args : List Float) : Option Float :=
  if args.length = k.params.length then k.code.run? args else none

/-- A call on one float for each parameter. -/
def callRow (k : Compiled) (args : List Float) : Checked KernelError Float :=
  if args.length ≠ k.inputCount then outcome (.error (.inputCount k.inputCount args.length))
  else access (invoke k args)

/-- A call on arrays, with one invocation for each element. -/
def callRows (k : Compiled) (inputs : List Tensor) : Checked Error Tensor :=
  if inputs.length ≠ k.inputCount then
    outcome (.error (.kernel (.inputCount k.inputCount inputs.length)))
  else do
    let shape ← outcome (inputShape .scalar (k.params.zip inputs))
    let results ← access ((Compiled.rows inputs shape.count).mapM (invoke k))
    match Tensor.ofFloats shape results k.output with
    | .ok a => return a
    | .error e => outcome (.error (.tensor e))

/-- **An invocation on one argument for each parameter runs**, if the body reaches its arguments. -/
theorem invoke_eq (hk : k.Loads b) (hb : b.InReach) {args : List Float}
    (hargs : args.length = k.params.length) : invoke k args = some (k.code.run args) := by
  rw [invoke, if_pos hargs]
  exact Code.run?_eq ((hk.exists_argument?_iff hargs).mpr hb)

/-- **Calls on floats load what they were passed** exactly if the body reaches its arguments. -/
theorem within_callRow_iff (hk : k.Loads b) :
    (∀ args, (callRow k args).Within (k.callRow args)) ↔ b.InReach := by
  constructor
  · intro h
    have hargs : (List.replicate k.params.length (0.0 : Float)).length = k.params.length :=
      List.length_replicate
    have hcount : ¬ (List.replicate k.params.length (0.0 : Float)).length ≠ k.inputCount :=
      not_not.mpr hargs
    have hrow := h (List.replicate k.params.length 0.0)
    rw [callRow, Compiled.callRow, if_neg hcount, if_neg hcount, within_access_iff, invoke,
      if_pos hargs] at hrow
    exact (hk.exists_argument?_iff hargs).mp (Code.exists_argument?_of_run? hrow)
  · intro hb args
    rw [callRow, Compiled.callRow]
    split
    next => exact within_outcome _
    next hcount => exact within_access (invoke_eq hk hb (not_not.mp hcount))

/-- Each row of arguments takes one from every input. -/
theorem length_of_mem_rows {inputs : List Tensor} {n : Nat} {args : List Float}
    (h : args ∈ Compiled.rows inputs n) : args.length = inputs.length := by
  obtain ⟨i, _, rfl⟩ := List.mem_map.mp h
  rw [List.length_map, List.length_map]

/-- **A call on arrays loads what it was passed**, element by element, if the body reaches its
arguments. -/
theorem within_callRows (hk : k.Loads b) (hb : b.InReach) (inputs : List Tensor) :
    (callRows k inputs).Within (k.call inputs) := by
  rw [callRows, Compiled.call]
  split
  next => exact within_outcome _
  next hcount =>
    refine (within_outcome _).bind fun s _ => ?_
    have hrows : ∀ args ∈ Compiled.rows inputs s.count, invoke k args = some (k.code.run args) :=
      fun args hargs => invoke_eq hk hb ((length_of_mem_rows hargs).trans (not_not.mp hcount))
    refine Within.access_bind (mapM_eq_some hrows) ?_
    dsimp only
    rcases Tensor.ofFloats s ((Compiled.rows inputs s.count).map k.code.run) k.output with e | a
    · exact within_outcome _
    · exact within_outcome _

end Checked

namespace Kernel

/-- **What a compiled kernel loads.**  A source compiles if and only if its body is read and typed,
and the code generator takes its code; the indices in a body that was read are those of parameters,
so that typing misses none of them and lowering refuses nothing that is typed.  A compiled kernel is
invoked on one float for each parameter.  Its code loads nothing else if and only if no offset is
before the arguments, and below index `2 ^ 28` what it loads are the arguments of its parameters. -/
theorem compiled_loads (compiler : Compiler) (s : Source) :
    ((∃ k, compile compiler s = .ok k) ↔
      ∃ b t, s.parse = .ok b ∧ b.elemType? s.params = .ok t ∧
        ∀ c, b.lower = .ok c → compiler.refusal? c = none) ∧
    (∀ b, s.parse = .ok b →
      (∀ i ∈ b.paramIndices, i < s.params.length) ∧
      (∀ name, b.elemType? s.params ≠ .error (.unknownVariable name)) ∧
      (∀ t, b.elemType? s.params = .ok t → ∃ c, b.lower = .ok c)) ∧
    (∀ k b, compile compiler s = .ok k → s.parse = .ok b →
      k.params = s.params ∧
      ((∀ args, (Checked.callRow k args).Within (k.callRow args)) ↔ b.InReach) ∧
      (b.InReach → ∀ inputs, (Checked.callRows k inputs).Within (k.call inputs)) ∧
      ((∀ i ∈ b.paramIndices, i < 2 ^ 28) → b.InReach ∧
        ∀ args, k.code.loads.map (Code.argument? args) = b.paramIndices.map (args[·]?))) := by
  refine ⟨⟨?_, ?_⟩, fun b hb => ?_, fun k b hk hb => ?_⟩
  · rintro ⟨k, hk⟩
    obtain ⟨b, hb, ht, hc, htaken, _⟩ := compile_eq_ok hk
    exact ⟨b, k.output, hb, ht, fun c hc' => Except.ok.inj (hc.symm.trans hc') ▸ htaken⟩
  · rintro ⟨b, t, hb, ht, htaken⟩
    obtain ⟨c, hc⟩ := exists_lower ht
    exact ⟨_, compile_of_lower hb ht hc (htaken c hc)⟩
  · have hclosed := closed_of_parse hb
    exact ⟨hclosed, elemType?_ne_unknownVariable hclosed, fun t ht => exists_lower ht⟩
  · obtain ⟨_, _, _, _, _, hparams⟩ := compile_eq_ok hk
    have hloads := loads_of_compile hk hb
    exact ⟨hparams, Checked.within_callRow_iff hloads, Checked.within_callRows hloads,
      fun hsmall => ⟨Body.inReach_of_lt hsmall, hloads.map_argument? hsmall⟩⟩

/-- Two parameters of one name and one with the name of a constant: the first of the two is loaded,
and the others are passed all the same. -/
theorem compiled_loads_duplicates :
    let compiler := Compiler.ofSettings ⟨.speed⟩
    let s : Source := ⟨[⟨"x", .float64⟩, ⟨"x", .int64⟩, ⟨"inf", .bool⟩], "add(x, x)"⟩
    let k : Compiled := ⟨s.params, .float64, .apply2 Arithmetic.add.float (.load 0) (.load 0)⟩
    let inputs := [Tensor.ofElements (.floats [0.5, 1.5]), .ofElements (.ints [1, 2]),
      .ofScalar (.bool true)]
    compile compiler s = .ok k ∧
    (Checked.callRow k [1.5, 2.0, 3.0]).Within (k.callRow [1.5, 2.0, 3.0]) ∧
    (Checked.callRow k [1.5]).Within (k.callRow [1.5]) ∧
    (Checked.callRows k inputs).Within (k.call inputs) := by
  intro compiler s k inputs
  let b : Body := .binary .add (.param 0) (.param 0)
  have hx : IsName "x".toList := ⟨'x', [], rfl, by decide, by decide⟩
  have hzero : ∀ i ∈ b.paramIndices, i = 0 := by simp [b, Body.paramIndices]
  have hlegible : b.Legible s.params := fun i hi => by
    obtain rfl := hzero i hi
    exact ⟨⟨"x", .float64⟩, rfl, hx, rfl⟩
  have hparse : s.parse = .ok b := ofText_text_of_legible hlegible
  have hk : compile compiler s = .ok k := compile_of_lower hparse rfl rfl rfl
  obtain ⟨_, hrow, hrows, hreach⟩ := (compiled_loads compiler s).2.2 k b hk hparse
  have hb := (hreach fun i hi => hzero i hi ▸ by decide).1
  exact ⟨hk, hrow.mpr hb _, hrow.mpr hb _, hrows hb inputs⟩

/-! ## Beyond the reach of offsets -/

/-- A source whose body is the last of its parameters, behind `n` others. -/
def lastParam (n : Nat) : Source :=
  ⟨List.replicate n ⟨"p", .bool⟩ ++ [⟨"x", .float64⟩], "x"⟩

theorem length_params_lastParam (n : Nat) : (lastParam n).params.length = n + 1 := by
  simp [lastParam]

theorem parse_lastParam (n : Nat) : (lastParam n).parse = .ok (.param n) := by
  have hget : (lastParam n).params[n]? = some ⟨"x", .float64⟩ := by simp [lastParam]
  have hatom : atom (lastParam n).params "x" = .ok (.param n) := by
    have hconst : constant? "x" = none := by decide
    have hfind : (lastParam n).params.findIdx? (·.name == "x") = some n := by
      simp [lastParam, List.findIdx?_append]
    rw [atom, hconst, hfind]
  have hx : IsName "x".toList := ⟨'x', [], rfl, by decide, by decide⟩
  have hlegible : (Body.param n).Legible (lastParam n).params := fun i hi => by
    rw [List.mem_singleton.mp hi]
    exact ⟨_, hget, hx, hatom⟩
  have htext : (Body.param n).text (lastParam n).params = (lastParam n).body := by
    rw [Body.text, hget]
    rfl
  rw [Source.parse, ← htext]
  exact ofText_text_of_legible hlegible

theorem compile_lastParam (settings : Settings) (n : Nat) :
    compile (.ofSettings settings) (lastParam n) =
      .ok ⟨(lastParam n).params, .float64, .load (Code.offset n)⟩ := by
  have htype : (Body.param n).elemType? (lastParam n).params = .ok .float64 := by
    simp [lastParam, Body.elemType?]
  exact compile_of_lower (parse_lastParam n) htype rfl rfl

/-- **A kernel that loads from before its arguments**: with `2 ^ 28` parameters in front of the one
that it returns, it is passed one argument for each and loads none of them. -/
theorem loads_before_arguments :
    let s := lastParam (2 ^ 28)
    let k : Compiled := ⟨s.params, .float64, .load (Code.offset (2 ^ 28))⟩
    let args := List.replicate (2 ^ 28 + 1) (1.0 : Float)
    compile (.ofSettings ⟨.speed⟩) s = .ok k ∧ args.length = k.params.length ∧
      (Code.offset (2 ^ 28)).toInt = -2 ^ 31 ∧ Checked.invoke k args = none ∧
      ¬ (Checked.callRow k args).Within (k.callRow args) := by
  intro s k args
  have hlength : args.length = k.params.length := by
    rw [length_params_lastParam, List.length_replicate]
  have hnone : Checked.invoke k args = none := by
    rw [Checked.invoke, if_pos hlength, Code.run?, Code.argument?_offset, if_neg (by decide)]
  have hcount : ¬ args.length ≠ k.inputCount := not_not.mpr hlength
  refine ⟨compile_lastParam _ _, hlength, by decide, hnone, ?_⟩
  rw [Checked.callRow, Compiled.callRow, if_neg hcount, if_neg hcount, Checked.within_access_iff,
    hnone]
  rintro ⟨⟩

end Kernel

end DeferredArrays
