import OutlineIndex.Completion.LanguageModel
import OutlineIndex.Skeleton.Outline
import OutlineIndex.Skeleton.Prompt

namespace OutlineIndex

/-- From the path of a file, a node in it, its code, and the nodes it depends on, to a skeleton. -/
abbrev Generator := String → Node → String → List Node → Traced String

/-- Which generator the settings choose. -/
inductive GeneratorChoice where
  | outline
  | model (m : LanguageModel) (maxTokens : Int)

namespace Generator

/-- Functions keep their signature, everything else its first lines. -/
def outline : Generator := fun _ n code _ =>
  return String.ofList (match n.kind with
    | .function => Skeleton.outlineFunction code.toList
    | _ => Skeleton.truncate (Text.trimRight code.toList))

/-- The reply of a language model without fences; no reply is a failure. -/
def ofModel (m : LanguageModel) (maxTokens : Int) (post : Transport) : Generator :=
  fun path n code related => do
    match ← m.generate post (Skeleton.prompt path n code related) maxTokens with
    | some reply => return String.ofList (Skeleton.stripFences reply.toList)
    | none => Traced.fail (.generation n.id m.name)

end Generator

def GeneratorChoice.generator (g : GeneratorChoice) (post : Transport) : Generator :=
  match g with
  | .outline => Generator.outline
  | .model m maxTokens => Generator.ofModel m maxTokens post

def defaultMaxTokens : Int := 1024

end OutlineIndex
