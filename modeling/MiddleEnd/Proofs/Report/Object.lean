import MiddleEnd.Proofs.Json.OneLine
import MiddleEnd.Proofs.Json.Written
import MiddleEnd.Report

/-!
# MiddleEnd.Proofs.Report.Object

A violation that is shown to programs is one JSON object on one line, with all that there is to say
about the violation and nothing else (`Report.render_json`).  This holds whatever stands in the
names of files and symbols.
-/

namespace MiddleEnd.Report

open Json (Document Spelled OneLine)

/-- The object that a violation is shown as. -/
def object (v : Violation) : Document :=
  .obj [(.text "code", .text v.code), (.text "file", .text v.file),
    (.text "line", .number (.whole v.line.toNat)), (.text "message", .text v.message),
    (.text "node", .text v.node.text), (.text "severity", .text "error")] none

/-- The members of the object are written without a loss. -/
theorem isExact_jsonOf (v : Violation) : (jsonOf v).IsExact := by
  have hline : Json.Exact v.line.toNat := ⟨by omega, by have hlt := v.line.toNat_lt; omega⟩
  simp [jsonOf, Json.IsExact, Json.MembersExact, hline]

/-- The object written for a violation stands for its six members. -/
theorem document_jsonOf (v : Violation) : (jsonOf v).document = object v := by
  simp [jsonOf, object, Json.document, Json.memberDocuments]

/-- Shown to programs, a violation is one line, and that is JSON: it stands for the object of the
violation and for nothing else, and is read as that object to the end. -/
theorem render_json (source : Option String) (v : Violation) :
    OneLine (render .json source v).toList ∧
      (∀ d, Spelled d (render .json source v) ↔ d = object v) ∧
      Json.readDocument (render .json source v) = (object v, false) := by
  have hspelled : Spelled (object v) (render .json source v) :=
    document_jsonOf v ▸ Json.spelled_compact (isExact_jsonOf v)
  have hread := Json.readDocument_spelled hspelled
  refine ⟨?_, fun d => ⟨fun h => ?_, ?_⟩, hread⟩
  · rw [render, renderWith, Json.compact, String.toList_ofList]
    exact Json.oneLine_compactChars _
  · exact congrArg Prod.fst ((Json.readDocument_spelled h).symm.trans hread)
  · rintro rfl
    exact hspelled

/-- Quotes, a backslash and control characters in names. -/
example : render .json none ⟨.removedSymbol "a\"\\\n", ⟨0⟩, "\x01.w", 2, .expr ⟨4⟩⟩ =
    "\x7b\"code\":\"E0102\",\"file\":\"\\u0001.w\",\"line\":2,\"message\":\"reference to removed "
      ++ "symbol `a\\\"\\\\\\n`\",\"node\":\"expression #4\",\"severity\":\"error\"\x7d" := by
  decide +kernel

end MiddleEnd.Report
