import OutlineIndex.Completion.Provider
import OutlineIndex.Text.Blank

namespace OutlineIndex

structure LanguageModel where
  name : String
  model : Data
  key : Data
  endpoint : Data

namespace LanguageModel

/-- The service behind a model; what is not set falls back to the vendor's own. -/
def provider (m : LanguageModel) : Provider :=
  let vendor := Vendor.ofName m.name
  let fallback := Data.text vendor.defaultEndpoint
  ⟨vendor, m.model.orElse (.text vendor.defaultModel), m.key,
    if vendor.isMovable then m.endpoint.orElse fallback else fallback⟩

/-- The completion of a prompt, unless there is none or it is blank. -/
def generate (m : LanguageModel) (post : Transport) (prompt : String) (maxTokens : Int)
    (depth : Nat := Json.maxDepth) : Traced (Option String) := do
  match ← m.provider.complete post prompt maxTokens depth with
  | .null => return none
  | .text s => return (if Text.blank s.toList then none else some s)
  | _ => Traced.fail (.shape .notText)

end LanguageModel

end OutlineIndex
