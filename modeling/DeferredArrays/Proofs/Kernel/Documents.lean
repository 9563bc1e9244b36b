import DeferredArrays.Kernel.Json
import DeferredArrays.Proofs.Json.Documents

/-!
# Proofs/Kernel/Documents — a source survives its text in JSON

A source is a record of a list of records, and what is read back is put together from below: types
from their names, parameters from their two members, the list of them in its order, and the source
(`Source.ofJson?_toJson`).  Names and the body may be any texts whatever, since strings are escaped
and read back as they are.  So a source is read back from its text, and two sources with one text
are one source (`Source.ofJsonText?_toJsonText`).
-/

namespace DeferredArrays.Kernel

/-! ## Documents -/

theorem Param.ofJson?_toJson (p : Param) : Param.ofJson? p.toJson = some p := by
  have hrecord : p.toJson.record? ["name", "dtype"] =
      some [some (jsonText p.name), some (jsonText p.elemType.name)] := rfl
  have htype : (jsonText p.elemType.name).choice? = some p.elemType.name := rfl
  have hname : (jsonText p.name).text? = some p.name := rfl
  simp only [ofJson?, hrecord, htype, hname, ElemType.ofName?_name, Option.bind_eq_bind,
    Option.bind_some, Option.pure_def]

theorem Source.ofJson?_toJson (s : Source) : Source.ofJson? s.toJson = some s := by
  have hrecord : s.toJson.record? ["params", "body"] =
      some [some (.array (s.params.map Param.toJson)), some (jsonText s.body)] := rfl
  have hbody : (jsonText s.body).text? = some s.body := rfl
  have hparams : (s.params.map Param.toJson).mapM Param.ofJson? = some s.params := by
    have hparam : Param.ofJson? ∘ Param.toJson = some ∘ id := funext Param.ofJson?_toJson
    rw [List.mapM_map, hparam]
    exact List.mapM_pure.trans (congrArg some (List.map_id _))
  simp only [ofJson?, hrecord, hbody, Json.items?, hparams, Option.bind_eq_bind, Option.bind_some,
    Option.pure_def]

/-! ## Texts -/

/-- There are no numbers in the document of a parameter … -/
theorem Param.spelled_toJson (p : Param) : p.toJson.Spelled := by
  refine .object fun m hm => ?_
  rcases List.mem_pair.mp hm with rfl | rfl
  · exact .text _
  · exact .text _

/-- … and none in that of a source. -/
theorem Source.spelled_toJson (s : Source) : s.toJson.Spelled := by
  refine .object fun m hm => ?_
  rcases List.mem_pair.mp hm with rfl | rfl
  · refine .array fun x hx => ?_
    obtain ⟨p, -, rfl⟩ := List.mem_map.mp hx
    exact p.spelled_toJson
  · exact .text _

theorem Source.ofJsonText?_eq (s : Source) : ofJsonText? s.toJsonText = some s := by
  rw [ofJsonText?, toJsonText, Json.ofText?_toText s.spelled_toJson]
  exact s.ofJson?_toJson

/-- **A source is read back from its text in JSON**, whatever its names and its body are.  So the
text is that of no other source, and the parameters, their order, the signature, the expression and
its type are not lost. -/
theorem Source.ofJsonText?_toJsonText :
    Function.Injective toJsonText ∧
    ∀ s : Source, ∃ r, ofJsonText? s.toJsonText = some r ∧ r = s ∧ r.params = s.params ∧
      r.signature = s.signature ∧ r.parse = s.parse ∧
      r.parse.map (·.elemType? r.params) = s.parse.map (·.elemType? s.params) := by
  refine ⟨fun s t hst => ?_, fun s => ⟨s, s.ofJsonText?_eq, rfl, rfl, rfl, rfl, rfl⟩⟩
  rw [← Option.some.injEq, ← s.ofJsonText?_eq, ← t.ofJsonText?_eq, hst]

/-- A name with a quote and a line break, and a body beyond the basic plane. -/
example : (Source.mk [⟨"x\"\n", .int64⟩] "𝔸\\ \u0001").toJsonText =
    "\x7b\"params\":[\x7b\"name\":\"x\\\"\\n\",\"dtype\":\"int64\"\x7d],\"body\":\"𝔸\\\\ \\u0001\"\x7d" := by
  decide +kernel

end DeferredArrays.Kernel
